import FiniteDomain.AllDifferent.Install
import FiniteDomain.Proofs.AllDifferent.Guard
import FiniteDomain.Proofs.Model.Rounds

/-!
# Models of all different constraints

`Model.Guarded` holds of every model whose constraints are all different constraints, however it was
used: the counters are right, the propagators are guarded, and no two of them share a cell.

* What clients do: `Guarded.of_grown`, `Guarded.of_evolves`, `Guarded.add_eq`, `Guarded.listen`,
  `Guarded.save`, `Guarded.restore_eq`.
* What a run does: `Guarded.wake_eq`, `Guarded.runOne_eq`.
-/

namespace FiniteDomain.Model

open AllDifferent ValueGraph

variable {m m' : Model AllDifferent} {s : Store} {verdict : Verdict}

/-- The counters are right, the propagators are guarded, and no two of them share a cell. -/
structure Guarded (m : Model AllDifferent) : Prop extends Tallied m where
  guarded : ∀ (i : Nat) (p : AllDifferent), m.propagators[i]? = some p →
    p.Guarded m.store fun w => i < m.constraintsIn w
  apart : ∀ (i j : Nat) (p q : AllDifferent) (c : Cell), m.propagators[i]? = some p →
    m.propagators[j]? = some q → p.Owns c → q.Owns c → i = j
  unowned : ∀ (i : Nat) (p : AllDifferent), m.propagators[i]? = some p →
    ¬ p.Owns m.propagatorCount ∧ ¬ p.Owns m.conditionCount

namespace Guarded

theorem empty (order : DrainOrder) : (Model.empty order : Model AllDifferent).Guarded :=
  ⟨.empty order, fun _ _ hp => (nomatch hp), fun _ _ _ _ _ hp => (nomatch hp),
    fun _ _ hp => (nomatch hp)⟩

/-! ## Clients -/

/-- Variables and cells may be added. -/
theorem of_grown (h : m.Guarded) (hg : m.store.Grown s) :
    ({ m with store := s } : Model AllDifferent).Guarded :=
  ⟨h.toTallied.of_grown hg, fun i p hp => ((h.guarded i p hp).of_grown hg).1, h.apart, h.unowned⟩

/-- Domains may be narrowed. -/
theorem of_evolves (h : m.Guarded) (he : m.store.Evolves (fun _ => False) s) :
    ({ m with store := s } : Model AllDifferent).Guarded :=
  ⟨h.toTallied.of_evolves he id id,
    fun i p hp => ((h.guarded i p hp).of_evolves he fun _ _ => id).1, h.apart, h.unowned⟩

theorem schedule (h : m.Guarded) (c : Constraint) : (m.schedule c).Guarded := by
  have htallied := h.toTallied.schedule c
  rw [Model.schedule] at htallied ⊢
  split
  · exact h
  · rename_i hnew
    rw [if_neg hnew] at htallied
    exact ⟨htallied, h.guarded, h.apart, h.unowned⟩

/-- A constraint is made to listen. -/
theorem listen (h : m.Guarded) {c : Constraint} (hc : c.index < m.propagators.size)
    {kind : Condition.Kind} {x : Var} (hret : m.listen c kind x = .ok m') : m'.Guarded := by
  obtain ⟨y, _, htallied, ⟨_, rfl⟩ | ⟨s, hwrote, rfl⟩⟩ := h.toTallied.listen_cases hc hret
  · exact h
  · refine ⟨htallied, fun i p hp => ?_, h.apart, h.unowned⟩
    exact ((h.guarded i p hp).of_wrote hwrote (h.unowned i p hp).2).1

theorem save (h : m.Guarded) : m.save.Guarded :=
  ⟨h.toTallied.save, fun i p hp => ((h.guarded i p hp).save).1, h.apart, h.unowned⟩

/-- A level is restored.  The propagators that are left show what they showed. -/
theorem restore_eq (h : m.Guarded) (hret : m.restore = .ok m') :
    m'.Guarded ∧ ∃ w rest, m.store.trail.past = w :: rest ∧ m.store.Restored m'.store w rest ∧
      m'.scheduled = [] ∧ m'.order = m.order ∧ m'.propagators.size = m.constraintsIn w ∧
      m'.propagatorCount = m.propagatorCount ∧ m'.conditionCount = m.conditionCount ∧
      m'.conditions = m.conditions.shrink (m.conditionsIn w) ∧
      ∀ (i : Nat) (p' : AllDifferent), m'.propagators[i]? = some p' → i < m.constraintsIn w ∧
        ∃ p, m.propagators[i]? = some p ∧ p' = p.onRestore ∧
          p'.shown m'.store = p.sight m.store w ∧
          Recalls p m.store p' m'.store fun w => i < m.constraintsIn w := by
  obtain ⟨w, rest, s, hpast, hrestored, rfl, htallied⟩ := h.toTallied.restore_eq hret
  have hle := (h.toTallied.past_le (hpast ▸ List.mem_cons_self ..)).1
  have hold : ∀ (i : Nat) (p' : AllDifferent),
      ((m.propagators.shrink (m.constraintsIn w)).map Propagator.onRestore)[i]? = some p' →
        i < m.constraintsIn w ∧ ∃ p, m.propagators[i]? = some p ∧ p' = p.onRestore := by
    intro i p' hp'
    rw [Array.getElem?_map, Trail.getElem?_shrink] at hp'
    split at hp'
    · rename_i hlt
      obtain ⟨p, hp, rfl⟩ := Option.map_eq_some_iff.1 hp'
      exact ⟨hlt, p, hp, rfl⟩
    · cases hp'
  have howns : ∀ {p : AllDifferent} {c}, p.onRestore.Owns c → p.Owns c := fun ho => ho
  refine ⟨⟨htallied, fun i p' hp' => ?_, fun i j p' q' c hp' hq' ho ho' => ?_, fun i p' hp' => ?_⟩,
    w, rest, hpast, hrestored, rfl, rfl, ?_, rfl, rfl, rfl, fun i p' hp' => ?_⟩
  · obtain ⟨hlt, p, hp, rfl⟩ := hold i p' hp'
    exact ((h.guarded i p hp).restored hpast hrestored hlt).1
  · obtain ⟨_, p, hp, rfl⟩ := hold i p' hp'
    obtain ⟨_, q, hq, rfl⟩ := hold j q' hq'
    exact h.apart i j p q c hp hq (howns ho) (howns ho')
  · obtain ⟨_, p, hp, rfl⟩ := hold i p' hp'
    exact h.unowned i p hp
  · rw [Array.size_map, Trail.size_shrink hle]
  · obtain ⟨hlt, p, hp, rfl⟩ := hold i p' hp'
    obtain ⟨_, hshown, hrecalls⟩ := (h.guarded i p hp).restored hpast hrestored hlt
    exact ⟨hlt, p, hp, rfl, hshown, hrecalls⟩

end Guarded

/-! ## New constraints -/

/-- Adds the constraint that the variables take pairwise distinct values.  It listens to nothing and
is not scheduled. -/
def add (m : Model AllDifferent) (vars : List Var) (options : Options) :
    Except Fault (Constraint × Model AllDifferent) := do
  let (p, m) ← m.onStore fun s => AllDifferent.new s vars.toArray options
  m.post p

/-- What adding a constraint comes to. -/
structure Added (m : Model AllDifferent) (vars : List Var) (options : Options) (c : Constraint)
    (m' : Model AllDifferent) (p : AllDifferent) (s : Store) : Prop where
  created : Created m.store vars.toArray options p s
  wrote : s.Wrote m'.store m.propagatorCount (m.propagators.size + 1)
  constraint_eq : c = ⟨m.propagators.size⟩
  model_eq : m' = { m with store := m'.store, propagators := m.propagators.push p }
  guarded : m'.Guarded

namespace Guarded

/-- A constraint on variables that exist is added. -/
theorem add_eq (h : m.Guarded) {vars : List Var}
    (hvars : ∀ x ∈ vars, x.index < m.store.definitions.size) {options : Options} {c : Constraint}
    (hret : m.add vars options = .ok (c, m')) : ∃ p s, Added m vars options c m' p s := by
  obtain ⟨⟨p, m₁⟩, hnew, hret⟩ := bind_eq_ok_iff.1 hret
  obtain ⟨s, hs, rfl⟩ := onStore_eq_ok_iff.1 hnew
  have hc := AllDifferent.new_eq h.store (fun x hx => hvars x (List.mem_toArray.1 hx)) hs
  have hgrown := h.of_grown hc.grown
  obtain ⟨s', hwrote, hid, rfl, htallied⟩ := hgrown.toTallied.post_eq hret
  have hfresh : p.Guarded s fun w => m.propagators.size < m.constraintsIn w :=
    hc.guarded fun w hw => Nat.not_lt.2 (h.toTallied.past_le hw).1
  have hunowned : ¬ p.Owns m.propagatorCount ∧ ¬ p.Owns m.conditionCount :=
    ⟨fun ho => hc.new _ ho h.now.has_propagators, fun ho => hc.new _ ho h.now.has_conditions⟩
  have hold : ∀ {i : Nat} {q : AllDifferent}, (m.propagators.push p)[i]? = some q →
      i < m.propagators.size ∧ m.propagators[i]? = some q ∨ i = m.propagators.size ∧ q = p := by
    intro i q hq
    rw [Array.getElem?_push] at hq
    split at hq
    · exact Or.inr ⟨by assumption, (Option.some.inj hq).symm⟩
    · exact Or.inl ⟨(Array.getElem?_eq_some_iff.1 hq).1, hq⟩
  refine ⟨p, s, hc, hwrote, hid, rfl, htallied, fun i q hq => ?_, fun i j q r d hq hr ho ho' => ?_,
    fun i q hq => ?_⟩
  · obtain ⟨_, hq'⟩ | ⟨hi, hq'⟩ := hold hq
    · exact ((hgrown.guarded i q hq').of_wrote hwrote (h.unowned i q hq').1).1
    · rw [hi, hq']
      exact (hfresh.of_wrote hwrote hunowned.1).1
  · obtain ⟨_, hq'⟩ | ⟨hi, hq'⟩ := hold hq
    · obtain ⟨_, hr'⟩ | ⟨_, hr'⟩ := hold hr
      · exact h.apart i j q r d hq' hr' ho ho'
      · exact absurd ((h.guarded i q hq').has ho) (hc.new d (hr' ▸ ho'))
    · obtain ⟨_, hr'⟩ | ⟨hj, _⟩ := hold hr
      · exact absurd ((h.guarded j r hr').has ho') (hc.new d (hq' ▸ ho))
      · rw [hi, hj]
  · obtain ⟨_, hq'⟩ | ⟨_, hq'⟩ := hold hq
    · exact h.unowned i q hq'
    · rw [hq']
      exact hunowned

end Guarded

/-! ## Runs -/

/-- A propagator that is told of several variables. -/
theorem notifyAll_eq (p : AllDifferent) (xs : List Var) :
    xs.foldl Propagator.notify p =
      { p with work := p.work.pushAll (xs.flatMap p.graph.route) } := by
  induction xs generalizing p with
  | nil => rfl
  | cons x xs ih =>
    rw [List.foldl_cons, ih, List.flatMap_cons, Worklist.pushAll, Worklist.pushAll, List.foldl_append]
    rfl

/-- Who waits after a propagator was told of several variables. -/
theorem mem_waiting_told {p : AllDifferent} (h : p.graph.Layout) {xs : List Var} {x : Nat}
    (hx : x < p.graph.varTotal) :
    x ∈ (p.work.pushAll (xs.flatMap p.graph.route)).waiting ↔
      x ∈ p.work.waiting ∨ p.graph.sourceOf x ∈ xs := by
  rw [Worklist.mem_pushAll, List.mem_flatMap, or_comm]
  refine or_congr_right ⟨?_, fun htold => ⟨_, htold, mem_route.2 ⟨?_, rfl⟩⟩⟩
  · rintro ⟨y, hy, hx⟩
    rw [(mem_route.1 hx).2]
    exact hy
  · rw [h.size_sources]
    exact hx

namespace Guarded

/-- Constraints are told of what happened, and the events are cleared. -/
theorem wake_eq (h : m.Guarded) (hret : m.wake = .ok m') :
    m'.Guarded ∧ m' = { m with
        store := m.store.clearEvents, propagators := m'.propagators, scheduled := m'.scheduled } ∧
      m'.propagators.size = m.propagators.size ∧
      ∀ (i : Nat) (p : AllDifferent), m.propagators[i]? = some p → ∃ work,
        m'.propagators[i]? = some { p with work } ∧ ∀ x < p.graph.varTotal,
          x ∈ work.waiting ↔ x ∈ p.work.waiting ∨ p.graph.sourceOf x ∈ m.heard ⟨i⟩ := by
  obtain ⟨heq, hsize, hget⟩ := told_eq hret
  have hwork : ∀ (i : Nat) (p : AllDifferent), m.propagators[i]? = some p →
      m'.propagators[i]? = some { p with
        work := p.work.pushAll ((m.heard ⟨i⟩).flatMap p.graph.route) } := by
    intro i p hp
    rw [hget]
    show (m.propagators[i]?).map _ = _
    rw [hp, Option.map_some, notifyAll_eq]
    rfl
  have hback : ∀ (i : Nat) (p' : AllDifferent), m'.propagators[i]? = some p' →
      ∃ p, m.propagators[i]? = some p ∧
        p' = { p with work := p.work.pushAll ((m.heard ⟨i⟩).flatMap p.graph.route) } := by
    intro i p' hp'
    have hi : i < m.propagators.size := hsize ▸ (Array.getElem?_eq_some_iff.1 hp').1
    have hp := Array.getElem?_eq_getElem hi
    exact ⟨_, hp, Option.some.inj (hp'.symm.trans (hwork i _ hp))⟩
  have htallied : m'.Tallied := h.toTallied.clearEvents.congr (by rw [heq]) (by rw [heq])
    (by rw [heq]) (by rw [heq]) (by rw [heq]) hsize
  refine ⟨⟨htallied, fun i p' hp' => ?_, fun i j p' q' c hp' hq' ho ho' => ?_, fun i p' hp' => ?_⟩,
    heq, hsize, fun i p hp =>
      ⟨_, hwork i p hp, fun x hx => mem_waiting_told (h.guarded i p hp).layout hx⟩⟩
  · obtain ⟨p, hp, rfl⟩ := hback i p' hp'
    have hp' := h.guarded i p hp
    rw [heq]
    refine hp'.clearEvents.1.of_work (Worklist.nodup_pushAll hp'.work_nodup _) fun x hx => ?_
    obtain hx | hx := Worklist.mem_pushAll.1 hx
    · obtain ⟨y, _, hx⟩ := List.mem_flatMap.1 hx
      exact hp'.layout.size_sources ▸ (mem_route.1 hx).1
    · exact hp'.work_lt x hx
  · obtain ⟨p, hp, rfl⟩ := hback i p' hp'
    obtain ⟨q, hq, rfl⟩ := hback j q' hq'
    exact h.apart i j p q c hp hq ho ho'
  · obtain ⟨p, hp, rfl⟩ := hback i p' hp'
    rw [heq]
    exact h.unowned i p hp

end Guarded

/-- With the domains in `F`, every value of a constrained variable belongs to a choice. -/
def Supports (m : Model AllDifferent) (F : Var → Finset Int) : Prop :=
  ∀ p ∈ m.propagators, p.graph.Supports m.store F

/-- What the propagators of a model do: they narrow domains, and keep those that they all support. -/
structure Follows (m m' : Model AllDifferent) : Prop where
  guarded : m'.Guarded
  rest_eq : m' = { m with
    store := m'.store, propagators := m'.propagators, scheduled := m'.scheduled, rounds := m'.rounds }
  size_eq : m'.propagators.size = m.propagators.size
  narrowed : m.store.Narrowed m'.store
  alike : ∀ (i : Nat) (p : AllDifferent), m.propagators[i]? = some p → ∃ p',
    m'.propagators[i]? = some p' ∧ Alike p.graph p'.graph ∧ p'.options = p.options ∧
      Recalls p m.store p' m'.store fun w => i < m.constraintsIn w
  keeps : ∀ F, m.Supports F → (∀ q, F q ⊆ m.store.domain q) → ∀ q, F q ⊆ m'.store.domain q

namespace Follows

variable {m'' : Model AllDifferent}

theorem refl (h : m.Guarded) : Follows m m :=
  ⟨h, rfl, rfl, .refl h.store, fun _ p hp => ⟨p, hp, .refl _, rfl, fun _ _ _ => rfl⟩,
    fun _ _ hle => hle⟩

/-- Where there is a propagator afterwards, there was one before. -/
theorem back (h : Follows m m') {i : Nat} {p' : AllDifferent} (hp' : m'.propagators[i]? = some p') :
    ∃ p, m.propagators[i]? = some p ∧ Alike p.graph p'.graph ∧ p'.options = p.options ∧
      Recalls p m.store p' m'.store fun w => i < m.constraintsIn w := by
  have hi : i < m.propagators.size := h.size_eq ▸ (Array.getElem?_eq_some_iff.1 hp').1
  obtain ⟨q, hq, hrest⟩ := h.alike i _ (Array.getElem?_eq_getElem hi)
  obtain rfl := Option.some.inj (hp'.symm.trans hq)
  exact ⟨_, Array.getElem?_eq_getElem hi, hrest⟩

theorem supports_iff (h : Follows m m') {F : Var → Finset Int} : m'.Supports F ↔ m.Supports F := by
  constructor
  · intro hF p hp
    obtain ⟨i, hi, rfl⟩ := Array.mem_iff_getElem.1 hp
    obtain ⟨p', hp', halike, _⟩ := h.alike i _ (Array.getElem?_eq_getElem hi)
    exact (supports_congr halike h.narrowed.path_eq).1 (hF p' (Array.mem_of_getElem? hp'))
  · intro hF p' hp'
    obtain ⟨i, hi, rfl⟩ := Array.mem_iff_getElem.1 hp'
    obtain ⟨p, hp, halike, _⟩ := h.back (Array.getElem?_eq_getElem hi)
    exact (supports_congr halike h.narrowed.path_eq).2 (hF p (Array.mem_of_getElem? hp))

theorem constraintsIn_eq (h : Follows m m') (w : Frame) : m'.constraintsIn w = m.constraintsIn w := by
  rw [h.rest_eq]
  rfl

theorem trans (h : Follows m m') (h' : Follows m' m'') : Follows m m'' where
  guarded := h'.guarded
  rest_eq := by rw [h'.rest_eq, h.rest_eq]
  size_eq := h'.size_eq.trans h.size_eq
  narrowed := h.narrowed.trans h'.narrowed
  alike i p hp := by
    obtain ⟨p', hp', halike, hoptions, hrecalls⟩ := h.alike i p hp
    obtain ⟨p'', hp'', halike', hoptions', hrecalls'⟩ := h'.alike i p' hp'
    refine ⟨p'', hp'', halike.trans halike', hoptions'.trans hoptions, fun w hw hseen => ?_⟩
    have hseen' : i < m'.constraintsIn w := by
      rw [h.constraintsIn_eq]
      exact hseen
    rw [hrecalls' w hw hseen']
    exact hrecalls w (h'.narrowed.past_eq ▸ hw) hseen
  keeps F hF hle := h'.keeps F (h.supports_iff.2 hF) (h.keeps F hF hle)

end Follows

/-! ### One propagator -/

/-- What the run of the propagator `p` at the place `i` comes to. -/
structure Ran (m : Model AllDifferent) (i : Nat) (p : AllDifferent) (verdict : Verdict)
    (p' : AllDifferent) (m' : Model AllDifferent) : Prop where
  here : m.propagators[i]? = some p
  propagated : Propagated p m.store verdict p' m'.store
  model_eq : m' = { m with store := m'.store, propagators := m.propagators.setIfInBounds i p' }
  follows : Follows m m'
  others : ∀ (j : Nat) (q : AllDifferent), j ≠ i → m.propagators[j]? = some q →
    q.shown m'.store = (q.shown m.store).narrow (q.shown m'.store).domains

namespace Ran

variable {i j : Nat} {p p' q : AllDifferent}

theorem getElem?_eq (h : Ran m i p verdict p' m') : m'.propagators[i]? = some p' := by
  rw [h.model_eq]
  exact Array.getElem?_setIfInBounds_self_of_lt (Array.getElem?_eq_some_iff.1 h.here).1

theorem getElem?_ne (h : Ran m i p verdict p' m') (hji : j ≠ i) :
    m'.propagators[j]? = m.propagators[j]? := by
  rw [h.model_eq]
  exact Array.getElem?_setIfInBounds_ne (Ne.symm hji)

end Ran

namespace Guarded

variable {i : Nat} {p p' : AllDifferent}

/-- The run of one propagator does the others no harm. -/
theorem ran_of_propagated (h : m.Guarded) (hp : m.propagators[i]? = some p)
    (hpropagated : Propagated p m.store verdict p' s) :
    Ran m i p verdict p' { m with store := s, propagators := m.propagators.setIfInBounds i p' } := by
  have hadvance := hpropagated.advance
  have hlt : i < m.propagators.size := (Array.getElem?_eq_some_iff.1 hp).1
  have hcases : ∀ {j : Nat} {q : AllDifferent},
      (m.propagators.setIfInBounds i p')[j]? = some q →
        j = i ∧ q = p' ∨ j ≠ i ∧ m.propagators[j]? = some q := by
    intro j q hq
    by_cases hji : j = i
    · rw [hji, Array.getElem?_setIfInBounds_self_of_lt hlt] at hq
      exact Or.inl ⟨hji, (Option.some.inj hq).symm⟩
    · rw [Array.getElem?_setIfInBounds_ne (Ne.symm hji)] at hq
      exact Or.inr ⟨hji, hq⟩
  have hback : ∀ {j : Nat} {q : AllDifferent},
      (m.propagators.setIfInBounds i p')[j]? = some q →
        ∃ q₀, m.propagators[j]? = some q₀ ∧ ∀ d, q.Owns d ↔ q₀.Owns d := by
    intro j q hq
    obtain ⟨hj, hq'⟩ | ⟨_, hq'⟩ := hcases hq
    · rw [hj, hq']
      exact ⟨p, hp, fun d => hadvance.owns_iff⟩
    · exact ⟨q, hq', fun _ => .rfl⟩
  have htallied : ({ m with
      store := s, propagators := m.propagators.setIfInBounds i p' } : Model AllDifferent).Tallied :=
    (h.toTallied.of_evolves hadvance.evolves (h.unowned _ p hp).1 (h.unowned _ p hp).2).congr
      rfl rfl rfl rfl rfl (Array.size_setIfInBounds ..)
  have hown := (h.guarded i p hp).advance hadvance hpropagated.honest
  have hothers := fun (j : Nat) (q : AllDifferent) (hji : j ≠ i)
    (hq : m.propagators[j]? = some q) =>
      (h.guarded j q hq).of_evolves hadvance.evolves
        fun d ho ho' => hji (h.apart _ _ _ _ d hq hp ho ho')
  refine ⟨hp, hpropagated, rfl, ⟨⟨htallied, fun j q hq => ?_, fun j k q r d hq hr ho ho' => ?_,
    fun j q hq => ?_⟩, rfl, Array.size_setIfInBounds .., .of_evolves h.store hadvance.evolves,
    fun j q hq => ?_, fun F hF => hadvance.keeps F (hF p (Array.mem_of_getElem? hp))⟩,
    fun j q hji hq => (hothers j q hji hq).2.2⟩
  · obtain ⟨hj, hq'⟩ | ⟨hji, hq'⟩ := hcases hq
    · rw [hj, hq']
      exact hown.1
    · exact (hothers j q hji hq').1
  · obtain ⟨q₀, hq₀, hiff⟩ := hback hq
    obtain ⟨r₀, hr₀, hiff'⟩ := hback hr
    exact h.apart j k q₀ r₀ d hq₀ hr₀ ((hiff d).1 ho) ((hiff' d).1 ho')
  · obtain ⟨q₀, hq₀, hiff⟩ := hback hq
    show ¬ q.Owns m.propagatorCount ∧ ¬ q.Owns m.conditionCount
    rw [hiff, hiff]
    exact h.unowned j q₀ hq₀
  · by_cases hji : j = i
    · rw [hji] at hq ⊢
      obtain rfl := Option.some.inj (hq.symm.trans hp)
      exact ⟨p', Array.getElem?_setIfInBounds_self_of_lt hlt, hadvance.alike,
        hadvance.options_eq, hown.2⟩
    · exact ⟨q, (Array.getElem?_setIfInBounds_ne (Ne.symm hji)).trans hq, .refl _, rfl,
        (hothers j q hji hq).2.1⟩

/-- A propagator is run.  If it gets no verdict, then because of a check that was asked for. -/
theorem runOne_cases (h : m.Guarded) {c : Constraint} (hp : m.propagators[c.index]? = some p) :
    (∃ verdict p' m', m.runOne c = .ok (verdict, m') ∧ Ran m c.index p verdict p' m') ∨
      p.options.checked = true ∧ CheckFails (m.runOne c) ∧ ¬ p.Assured m.store := by
  have hguarded := h.guarded _ p hp
  obtain ⟨herror, hok⟩ := runOne_of_propagate hp
  obtain ⟨verdict, p', s', hret, hpropagated⟩ | ⟨hchecked, hfails, hassured⟩ :=
    propagate_cases hguarded.toSound hguarded.honest
  · exact Or.inl ⟨verdict, p', _, hok _ _ _ hret, h.ran_of_propagated hp hpropagated⟩
  · exact Or.inr ⟨hchecked, hfails.imp (herror _) (herror _), hassured⟩

end Guarded

/-! ### Rounds -/

/-- What a run that gives a verdict comes to: it fails only if some constraint has no choice. -/
structure Obeys (m : Model AllDifferent) (verdict : Verdict) (m' : Model AllDifferent) : Prop
    extends Follows m m' where
  hopeless : verdict ≠ .consistent → ∃ p ∈ m'.propagators, (p.shown m'.store).Hopeless

theorem Follows.consistent (h : Follows m m') : Obeys m .consistent m' :=
  ⟨h, fun hv => absurd rfl hv⟩

theorem Follows.obeys {m'' : Model AllDifferent} (h : Follows m m') (h' : Obeys m' verdict m'') :
    Obeys m verdict m'' :=
  ⟨h.trans h'.toFollows, h'.hopeless⟩

namespace Guarded

/-- Constraints are told of what happened. -/
theorem wake_follows (h : m.Guarded) (hret : m.wake = .ok m') : Follows m m' := by
  obtain ⟨hguarded, heq, hsize, hwork⟩ := h.wake_eq hret
  refine ⟨hguarded, by rw [heq], hsize, ?_, fun i p hp => ?_, fun F _ hle => ?_⟩
  · rw [heq]
    exact ⟨h.store.clearEvents, rfl, rfl, rfl, rfl, rfl, rfl, fun _ => Finset.Subset.refl _,
      fun _ _ _ _ => rfl⟩
  · obtain ⟨work, hp', _⟩ := hwork i p hp
    refine ⟨_, hp', .refl _, rfl, fun w _ _ => ?_⟩
    rw [heq]
    exact (h.guarded i p hp).clearEvents.2 w
  · rw [heq]
    exact hle

/-- Constraints are scheduled or not, and rounds are counted. -/
theorem plan (h : m.Guarded) (scheduled : List Constraint) (rounds : Nat) :
    Follows m { m with scheduled, rounds } :=
  ⟨⟨h.toTallied.congr rfl rfl rfl rfl rfl rfl, h.guarded, h.apart, h.unowned⟩, rfl, rfl,
    .refl h.store, fun _ p hp => ⟨p, hp, .refl _, rfl, fun _ _ _ => rfl⟩, fun _ _ hle => hle⟩

/-- A constraint is run. -/
theorem runOne_obeys (h : m.Guarded) {c : Constraint} (hret : m.runOne c = .ok (verdict, m')) :
    Obeys m verdict m' := by
  obtain ⟨p, _, _, hp, _⟩ := runOne_eq hret
  obtain ⟨verdict', p', m₁, hret', hran⟩ | ⟨_, hfails, _⟩ := h.runOne_cases hp
  · rw [hret] at hret'
    cases hret'
    exact ⟨hran.follows, fun hv =>
      ⟨p', Array.mem_of_getElem? hran.getElem?_eq, hran.propagated.hopeless hv⟩⟩
  · rw [hret] at hfails
    exact hfails.elim nofun nofun

/-- Several constraints are run. -/
theorem runAll_obeys (h : m.Guarded) {cs : List Constraint}
    (hret : runAll cs m = .ok (verdict, m')) : Obeys m verdict m' := by
  induction cs generalizing m with
  | nil =>
    cases hret
    exact (Follows.refl h).consistent
  | cons c rest ih =>
    rw [runAll] at hret
    obtain ⟨⟨v, m₁⟩, hone, hret⟩ := bind_eq_ok_iff.1 hret
    have hobeys := h.runOne_obeys hone
    cases v with
    | failed why =>
      cases hret
      exact hobeys
    | consistent => exact hobeys.toFollows.obeys (ih hobeys.guarded hret)

/-- Rounds are run. -/
theorem runRounds_obeys {fuel : Nat} (h : m.Guarded)
    (hret : m.runRounds fuel = .ok (verdict, m')) : Obeys m verdict m' := by
  induction fuel generalizing m with
  | zero => cases hret
  | succ fuel ih =>
    rw [runRounds] at hret
    obtain ⟨w, hwake, hret⟩ := bind_eq_ok_iff.1 hret
    have hfollows := h.wake_follows hwake
    split at hret
    · cases hret
      exact hfollows.consistent
    · obtain ⟨⟨v, m₁⟩, hdrain, hret⟩ := bind_eq_ok_iff.1 hret
      have hplan := hfollows.guarded.plan [] (w.rounds + 1)
      have hobeys := (hfollows.trans hplan).obeys (hplan.guarded.runAll_obeys hdrain)
      cases v with
      | failed why =>
        cases hret
        exact hobeys
      | consistent => exact hobeys.toFollows.obeys (ih hobeys.guarded hret)

/-- The propagators run until nothing changes any more. -/
theorem fixpoint_obeys (h : m.Guarded) (hret : m.fixpoint = .ok (verdict, m')) :
    Obeys m verdict m' :=
  h.runRounds_obeys hret

end Guarded

end FiniteDomain.Model
