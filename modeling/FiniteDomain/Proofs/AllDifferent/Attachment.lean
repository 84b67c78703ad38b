import FiniteDomain.Proofs.AllDifferent.Constraints
import FiniteDomain.Proofs.Model.Listening

/-!
# New constraints on a model

* `Model.Continues` says that one model follows another without a level in between: the constraints
  and registrations are still there, and the frames of the past show what they showed.
* `Model.Extends` says that nothing else happened than that variables, constraints and registrations
  were added.
* A constraint that is attached listens to every change of its variables, and its propagator shows
  their domains: `Guarded.attach_eq`.
-/

namespace FiniteDomain.Model

open AllDifferent ValueGraph

variable {m m' m'' : Model AllDifferent} {s : Store}

/-! ## Models that follow another one -/

/-- The constraints and registrations are still there, and the past shows what it showed. -/
structure Continues (m m' : Model AllDifferent) : Prop where
  guarded : m'.Guarded
  propagatorCount_eq : m'.propagatorCount = m.propagatorCount
  conditionCount_eq : m'.conditionCount = m.conditionCount
  past_eq : m'.store.trail.past = m.store.trail.past
  conditions_eq : ∀ k < m.conditions.size, m'.conditions[k]? = m.conditions[k]?
  alike : ∀ (i : Nat) (p : AllDifferent), m.propagators[i]? = some p → ∃ p',
    m'.propagators[i]? = some p' ∧ Alike p.graph p'.graph ∧ p'.options = p.options ∧
      Recalls p m.store p' m'.store fun w => i < m.constraintsIn w

/-- Propagators have run. -/
theorem Follows.continues (h : Follows m m') : Continues m m' where
  guarded := h.guarded
  propagatorCount_eq := by rw [h.rest_eq]
  conditionCount_eq := by rw [h.rest_eq]
  past_eq := h.narrowed.past_eq
  conditions_eq k _ := by rw [h.rest_eq]
  alike := h.alike

namespace Continues

theorem constraintsIn_eq (h : Continues m m') (w : Frame) :
    m'.constraintsIn w = m.constraintsIn w := by
  rw [constraintsIn, constraintsIn, h.propagatorCount_eq]

theorem conditionsIn_eq (h : Continues m m') (w : Frame) :
    m'.conditionsIn w = m.conditionsIn w := by
  rw [conditionsIn, conditionsIn, h.conditionCount_eq]

theorem conditions_le (h : Continues m m') : m.conditions.size ≤ m'.conditions.size := by
  by_contra hlt
  rw [Nat.not_le] at hlt
  have heq := h.conditions_eq _ hlt
  rw [Array.getElem?_eq_none (Nat.le_refl _), Array.getElem?_eq_getElem hlt] at heq
  cases heq

theorem mem_conditions (h : Continues m m') {pair : Condition × Constraint}
    (hmem : pair ∈ m.conditions) : pair ∈ m'.conditions := by
  obtain ⟨k, hk, rfl⟩ := Array.mem_iff_getElem.1 hmem
  refine Array.mem_of_getElem? (i := k) ?_
  rw [h.conditions_eq k hk, Array.getElem?_eq_getElem hk]

theorem trans (h : Continues m m') (h' : Continues m' m'') : Continues m m'' where
  guarded := h'.guarded
  propagatorCount_eq := h'.propagatorCount_eq.trans h.propagatorCount_eq
  conditionCount_eq := h'.conditionCount_eq.trans h.conditionCount_eq
  past_eq := h'.past_eq.trans h.past_eq
  conditions_eq k hk :=
    (h'.conditions_eq k (Nat.lt_of_lt_of_le hk h.conditions_le)).trans (h.conditions_eq k hk)
  alike i p hp := by
    obtain ⟨p', hp', halike, hoptions, hrecalls⟩ := h.alike i p hp
    obtain ⟨p'', hp'', halike', hoptions', hrecalls'⟩ := h'.alike i p' hp'
    refine ⟨p'', hp'', halike.trans halike', hoptions'.trans hoptions, fun w hw hseen => ?_⟩
    have hseen' : i < m'.constraintsIn w := by
      rw [h.constraintsIn_eq]
      exact hseen
    rw [hrecalls' w hw hseen']
    exact hrecalls w (h'.past_eq ▸ hw) hseen

end Continues

/-- Nothing happened but that variables, constraints and registrations were added. -/
structure Extends (m m' : Model AllDifferent) : Prop extends Continues m m' where
  scheduled_eq : m'.scheduled = m.scheduled
  order_eq : m'.order = m.order
  propagators_eq : ∀ (i : Nat) (p : AllDifferent), m.propagators[i]? = some p →
    m'.propagators[i]? = some p
  shown_eq : ∀ (i : Nat) (p : AllDifferent), m.propagators[i]? = some p →
    p.shown m'.store = p.shown m.store
  pending_iff : ∀ q, m'.store.Pending q ↔ m.store.Pending q
  definitions_le : m.store.definitions.size ≤ m'.store.definitions.size
  path_eq : ∀ x : Var, x.index < m.store.definitions.size → m'.store.path x = m.store.path x
  domain_eq : ∀ q : Var, q.index < m.store.definitions.size → m'.store.domain q = m.store.domain q

namespace Extends

theorem refl (h : m.Guarded) : Extends m m :=
  ⟨⟨h, rfl, rfl, rfl, fun _ _ => rfl, fun _ p hp => ⟨p, hp, .refl _, rfl, fun _ _ _ => rfl⟩⟩, rfl,
    rfl, fun _ _ hp => hp, fun _ _ _ => rfl, fun _ => .rfl, Nat.le_refl _, fun _ _ => rfl,
    fun _ _ => rfl⟩

theorem trans (h : Extends m m') (h' : Extends m' m'') : Extends m m'' where
  toContinues := h.toContinues.trans h'.toContinues
  scheduled_eq := h'.scheduled_eq.trans h.scheduled_eq
  order_eq := h'.order_eq.trans h.order_eq
  propagators_eq i p hp := h'.propagators_eq i p (h.propagators_eq i p hp)
  shown_eq i p hp := (h'.shown_eq i p (h.propagators_eq i p hp)).trans (h.shown_eq i p hp)
  pending_iff q := (h'.pending_iff q).trans (h.pending_iff q)
  definitions_le := Nat.le_trans h.definitions_le h'.definitions_le
  path_eq x hx :=
    (h'.path_eq x (Nat.lt_of_lt_of_le hx h.definitions_le)).trans (h.path_eq x hx)
  domain_eq q hq :=
    (h'.domain_eq q (Nat.lt_of_lt_of_le hq h.definitions_le)).trans (h.domain_eq q hq)

end Extends

/-- A counter in a cell was raised, which concerns no propagator. -/
theorem Guarded.extends_of_wrote (h : m.Guarded) (hm' : m'.Guarded) {c : Cell} {v : Int}
    (hw : m.store.Wrote m'.store c v)
    (hc : ∀ (i : Nat) (p : AllDifferent), m.propagators[i]? = some p → ¬ p.Owns c)
    (hpropagatorCount : m'.propagatorCount = m.propagatorCount)
    (hconditionCount : m'.conditionCount = m.conditionCount)
    (hconditions : ∀ k < m.conditions.size, m'.conditions[k]? = m.conditions[k]?)
    (hpropagators : ∀ (i : Nat) (p : AllDifferent), m.propagators[i]? = some p →
      m'.propagators[i]? = some p)
    (hscheduled : m'.scheduled = m.scheduled) (horder : m'.order = m.order) : Extends m m' := by
  have hsame := fun (i : Nat) (p : AllDifferent) (hp : m.propagators[i]? = some p) =>
    (h.guarded i p hp).of_wrote hw (hc i p hp)
  have hdefinitions := congrArg Array.size hw.definitions_eq
  refine ⟨⟨hm', hpropagatorCount, hconditionCount, hw.past_eq, hconditions, fun i p hp =>
    ⟨p, hpropagators i p hp, .refl _, rfl, (hsame i p hp).2.1⟩⟩, hscheduled, horder, hpropagators,
    fun i p hp => (hsame i p hp).2.2, fun q => ?_, hdefinitions.ge,
    fun x _ => hw.path_eq x, fun q _ => hw.domain_eq q⟩
  rw [hw.pending_iff]
  exact or_iff_left fun hne => hne (hw.domain_eq q)

namespace Guarded

/-- Variables and cells are added. -/
theorem extends_of_grown (h : m.Guarded) (hg : m.store.Grown s) :
    Extends m { m with store := s } := by
  have hsame := fun (i : Nat) (p : AllDifferent) (hp : m.propagators[i]? = some p) =>
    (h.guarded i p hp).of_grown hg
  exact ⟨⟨h.of_grown hg, rfl, rfl, hg.past_eq, fun _ _ => rfl, fun i p hp =>
    ⟨p, hp, .refl _, rfl, (hsame i p hp).2.1⟩⟩, rfl, rfl, fun _ _ hp => hp,
    fun i p hp => (hsame i p hp).2.2, hg.pending_iff, hg.definitions_le,
    fun x hx => hg.path_eq h.store hx, hg.domain_eq⟩

/-! ## Listening -/

/-- A constraint is made to listen. -/
theorem listen_eq (h : m.Guarded) {c : Constraint} (hc : c.index < m.propagators.size)
    {kind : Condition.Kind} {x : Var} (hret : m.listen c kind x = .ok m') :
    Extends m m' ∧ m'.propagators = m.propagators ∧
      ∃ y, m.store.source x = .ok y ∧ (⟨kind, y⟩, c) ∈ m'.conditions := by
  have hguarded := h.listen hc hret
  obtain ⟨y, hy, _, ⟨hmem, rfl⟩ | ⟨s, hwrote, rfl⟩⟩ := h.toTallied.listen_cases hc hret
  · exact ⟨.refl h, rfl, y, hy, hmem⟩
  · refine ⟨h.extends_of_wrote hguarded hwrote (fun i p hp => (h.unowned i p hp).2) rfl rfl
      (fun k hk => ?_) (fun _ _ hp => hp) rfl rfl, rfl, y, hy, Array.mem_push_self ..⟩
    rw [Array.getElem?_push_lt hk, Array.getElem?_eq_getElem hk]

/-- A constraint is made to listen to all changes of several variables. -/
theorem listenAll_eq (h : m.Guarded) {c : Constraint} (hc : c.index < m.propagators.size)
    {vars : List Var} (hvars : ∀ x ∈ vars, x.index < m.store.definitions.size)
    (hret : listenAll c vars m = .ok m') :
    Extends m m' ∧ m'.propagators = m.propagators ∧ ∀ x ∈ vars, ∃ y, m.store.source x = .ok y ∧
      (⟨.domainChanged, y⟩, c) ∈ m'.conditions := by
  induction vars generalizing m with
  | nil =>
    cases hret
    exact ⟨.refl h, rfl, nofun⟩
  | cons x rest ih =>
    rw [listenAll] at hret
    obtain ⟨m₁, hlisten, hret⟩ := bind_eq_ok_iff.1 hret
    obtain ⟨hextends, hsame, y, hy, hmem⟩ := h.listen_eq hc hlisten
    have hrest : ∀ z ∈ rest, z.index < m₁.store.definitions.size := fun z hz =>
      Nat.lt_of_lt_of_le (hvars z (List.mem_cons_of_mem _ hz)) hextends.definitions_le
    obtain ⟨hextends', hsame', hlistens⟩ :=
      ih hextends.guarded (by rw [hsame]; exact hc) hrest hret
    refine ⟨hextends.trans hextends', hsame'.trans hsame, fun z hz => ?_⟩
    obtain rfl | hz := List.mem_cons.1 hz
    · exact ⟨y, hy, hextends'.mem_conditions hmem⟩
    · obtain ⟨y', hy', hmem'⟩ := hlistens z hz
      refine ⟨y', ?_, hmem'⟩
      rw [Store.source, ← hextends.path_eq z (hvars z (List.mem_cons_of_mem _ hz))]
      exact hy'

end Guarded

/-! ## Attached constraints -/

/-- Adds the constraint that the variables take pairwise distinct values, and lets it listen to all
their changes.  It is not scheduled. -/
def attach (m : Model AllDifferent) (vars : List Var) (options : Options) :
    Except Fault (Constraint × Model AllDifferent) := do
  let (c, m) ← m.add vars options
  let m ← listenAll c vars m
  return (c, m)

/-- Adding a constraint that will run is attaching and scheduling it. -/
theorem enlist_eq (m : Model AllDifferent) (vars : List Var) (options : Options) :
    m.enlist id vars options =
      (m.attach vars options >>= fun (c, m) => .ok (m.schedule c)) := by
  rw [enlist, attach, add]
  cases m.onStore fun s => AllDifferent.new s vars.toArray options with
  | error fault => rfl
  | ok made =>
    obtain ⟨p, m₁⟩ := made
    simp only [ok_bind, id]
    cases m₁.post p with
    | error fault => rfl
    | ok posted =>
      obtain ⟨c, m₂⟩ := posted
      simp only [ok_bind]
      cases listenAll c vars m₂ with
      | error fault => rfl
      | ok m₃ => rfl

/-- What attaching a constraint comes to. -/
structure Attached (m : Model AllDifferent) (vars : List Var) (options : Options) (c : Constraint)
    (m' : Model AllDifferent) (p : AllDifferent) : Prop extends Extends m m' where
  constraint_eq : c = ⟨m.propagators.size⟩
  propagators_push : m'.propagators = m.propagators.push p
  vars_eq : p.graph.vars = vars.toArray
  options_eq : p.options = options
  ready_eq : p.ready = false
  work_eq : p.work = .empty
  settled : (p.shown m'.store).Settled fun _ => False
  listening : ∀ x < p.graph.varTotal, (⟨.domainChanged, p.graph.sourceOf x⟩, c) ∈ m'.conditions

namespace Guarded

/-- A constraint on variables that exist is attached. -/
theorem attach_eq (h : m.Guarded) {vars : List Var}
    (hvars : ∀ x ∈ vars, x.index < m.store.definitions.size) {options : Options} {c : Constraint}
    (hret : m.attach vars options = .ok (c, m')) : ∃ p, Attached m vars options c m' p := by
  obtain ⟨⟨c', m₁⟩, hadd, hret⟩ := bind_eq_ok_iff.1 hret
  obtain ⟨m₂, hlisten, hret⟩ := bind_eq_ok_iff.1 hret
  cases hret
  obtain ⟨p, s, hadded⟩ := h.add_eq hvars hadd
  have hcreated := hadded.created
  have hgrown := h.extends_of_grown hcreated.grown
  have hpush : m₁.propagators = m.propagators.push p := by rw [hadded.model_eq]
  have hextends : Extends { m with store := s } m₁ :=
    hgrown.guarded.extends_of_wrote hadded.guarded hadded.wrote
      (fun i q hq => (h.unowned i q hq).1) (by rw [hadded.model_eq]) (by rw [hadded.model_eq])
      (fun k _ => by rw [hadded.model_eq])
      (fun i q hq => by
        have hlt : i < m.propagators.size := (Array.getElem?_eq_some_iff.1 hq).1
        rw [hpush, Array.getElem?_push_lt hlt, ← Array.getElem?_eq_getElem hlt]
        exact hq)
      (by rw [hadded.model_eq]) (by rw [hadded.model_eq])
  have hextends := hgrown.trans hextends
  have hhere : m₁.propagators[m.propagators.size]? = some p := by
    rw [hpush]
    exact Array.getElem?_push_size
  have hunowned : ¬ p.Owns m.propagatorCount := by
    have hcount : m₁.propagatorCount = m.propagatorCount := hextends.propagatorCount_eq
    rw [← hcount]
    exact (hadded.guarded.unowned _ p hhere).1
  have hfresh : p.Guarded s fun _ => False := hcreated.guarded fun _ _ hno => hno
  have hshown : p.shown m₁.store = p.shown s := (hfresh.of_wrote hadded.wrote hunowned).2.2
  obtain ⟨hextends', hsame, hlistens⟩ := hadded.guarded.listenAll_eq
    (by rw [hadded.constraint_eq, hpush, Array.size_push]; exact Nat.lt_succ_self _)
    (fun x hx => Nat.lt_of_lt_of_le (hvars x hx) hextends.definitions_le) hlisten
  refine ⟨p, hextends.trans hextends', hadded.constraint_eq, hsame.trans hpush, hcreated.vars_eq,
    hcreated.options_eq, hcreated.ready_eq, hcreated.work_eq, ?_, fun x hx => ?_⟩
  · rw [hextends'.shown_eq _ p hhere, hshown]
    exact hcreated.settled
  · have hmem : p.graph.varOf x ∈ vars := by
      rw [← List.mem_toArray, ← hcreated.vars_eq]
      exact mem_vars.2 ⟨x, hx, rfl⟩
    obtain ⟨y, hy, hlistening⟩ := hlistens _ hmem
    obtain ⟨b, hb, _, hsource, _⟩ := hadded.guarded.store.base_of_source hy
    obtain ⟨b', hsource', hb'⟩ := (hadded.guarded.guarded _ p hhere).anchored.source_eq x hx
    obtain rfl : b = b' := Except.ok.inj (hsource.symm.trans hsource')
    rw [← hb', hb]
    exact hlistening

end Guarded

/-- What adding a constraint that will run adds to a model. -/
theorem Guarded.enlisted (h : m.Guarded) {vars : List Var}
    (hvars : ∀ x ∈ vars, x.index < m.store.definitions.size) {options : Options}
    (hret : m.enlist id vars options = .ok m') :
    m.store.definitions.size ≤ m'.store.definitions.size ∧
      (∀ x : Var, x.index < m.store.definitions.size → m'.store.path x = m.store.path x) ∧
      (∀ q : Var, q.index < m.store.definitions.size → m'.store.domain q = m.store.domain q) ∧
      ∃ p : AllDifferent, m'.propagators = m.propagators.push p ∧ p.graph.vars = vars.toArray ∧
        p.options = options := by
  rw [enlist_eq] at hret
  obtain ⟨⟨c, m₁⟩, hattach, hret⟩ := bind_eq_ok_iff.1 hret
  cases hret
  obtain ⟨p, hattached⟩ := h.attach_eq hvars hattach
  have hsame : (m₁.schedule c).store = m₁.store ∧
      (m₁.schedule c).propagators = m₁.propagators := by
    rw [Model.schedule]
    split
    · exact ⟨rfl, rfl⟩
    · exact ⟨rfl, rfl⟩
  rw [hsame.1, hsame.2]
  exact ⟨hattached.definitions_le, hattached.path_eq, hattached.domain_eq, p,
    hattached.propagators_push, hattached.vars_eq, hattached.options_eq⟩

end FiniteDomain.Model
