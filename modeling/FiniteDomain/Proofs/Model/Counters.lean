import FiniteDomain.Proofs.Model.Listening

/-!
# The counters of a model

A model keeps the numbers of its constraints and of its registrations in two cells, so that a level
that is restored tells how many there were.

* `Model.Tallied` says that the counters are right in all frames, and that the table of the listeners
  is that of the registrations.
* Every operation keeps it so: `Tallied.of_store`, `Tallied.post`, `Tallied.listen`, `Tallied.save`,
  `Tallied.restore_eq`.
-/

namespace FiniteDomain

/-- A counter in a free cell is raised. -/
theorem Store.increment_eq {s s' : Store} (h : s.Sound) {c : Cell} (hhas : s.trail.now.Has c)
    (hfree : s.Free c) {n : Nat} (hn : s.trail.now.get c = n) {v : Int}
    (hret : s.increment c = .ok (v, s')) :
    v = (n : Int) + 1 ∧ (n : Int) + 1 ≤ Word.greatest ∧ s.Wrote s' c ((n : Int) + 1) := by
  obtain ⟨⟨_, t⟩, ht, heq⟩ := bind_eq_ok_iff.1 ((onTrail_eq s _).symm.trans hret)
  cases heq
  rw [Trail.increment, Trail.read_eq hhas, hn, ok_bind] at ht
  obtain ⟨u, hu, ht⟩ := bind_eq_ok_iff.1 ht
  obtain ⟨hin, rfl⟩ := Word.check_eq_ok_iff.1 hu
  obtain ⟨t', hwrite, ht⟩ := bind_eq_ok_iff.1 ht
  cases ht
  obtain ⟨s₁, hs₁, hwrote⟩ := write_eq h hhas hfree ((n : Int) + 1)
  have hs₁' : s.write c ((n : Int) + 1) = .ok { s with trail := t } :=
    bind_eq_ok_iff.2 ⟨t, hwrite, rfl⟩
  rw [hs₁'] at hs₁
  cases hs₁
  exact ⟨rfl, hin.2, hwrote⟩

/-! ## The table of the listeners -/

namespace Listeners

/-- A condition gets at most one entry. -/
theorem map_fst_add (t : Listeners) (condition : Condition) (c : Constraint) :
    (add t condition c).map Prod.fst =
      if condition ∈ t.map Prod.fst then t.map Prod.fst else t.map Prod.fst ++ [condition] := by
  induction t with
  | nil => rfl
  | cons entry rest ih =>
    obtain ⟨other, listening⟩ := entry
    by_cases h : other = condition
    · subst h
      simp [add]
    · rw [add, if_neg h, List.map_cons, ih]
      by_cases hmem : condition ∈ rest.map Prod.fst
      · simp [hmem]
      · simp [hmem, Ne.symm h]

theorem nodup_fst_add {t : Listeners} (h : (t.map Prod.fst).Nodup) (condition : Condition)
    (c : Constraint) : ((add t condition c).map Prod.fst).Nodup := by
  rw [map_fst_add]
  split
  · exact h
  · rename_i hnew
    rw [List.nodup_append]
    refine ⟨h, List.nodup_singleton _, fun a ha b hb heq => hnew ?_⟩
    rw [← List.mem_singleton.1 hb, ← heq]
    exact ha

/-- Conditions only lose their entries when listeners are dropped. -/
theorem sublist_fst_drop (t : Listeners) (condition : Condition) (c : Constraint) :
    ((drop t condition c).map Prod.fst).Sublist (t.map Prod.fst) := by
  induction t with
  | nil => exact .slnil
  | cons entry rest ih =>
    obtain ⟨other, listening⟩ := entry
    rw [drop, List.map_cons]
    split
    · split
      · exact List.sublist_cons_self _ _
      · exact .refl _
    · exact ih.cons_cons _

end Listeners

namespace Model

variable {π : Type}

/-- Dropping several listeners takes away these listeners and no others. -/
theorem mem_dropListeners {t : Listeners} (h : (t.map Prod.fst).Nodup)
    (pairs : List (Condition × Constraint)) :
    ((dropListeners t pairs).map Prod.fst).Nodup ∧ ∀ condition c,
      c ∈ Listeners.get (dropListeners t pairs) condition ↔
        c ∈ Listeners.get t condition ∧ (condition, c) ∉ pairs := by
  induction pairs with
  | nil => exact ⟨h, fun condition c => by simp [dropListeners]⟩
  | cons pair pairs ih =>
    obtain ⟨key, d⟩ := pair
    rw [dropListeners, List.foldr_cons, ← dropListeners]
    refine ⟨(Listeners.sublist_fst_drop _ _ _).nodup ih.1, fun condition c => ?_⟩
    rw [Listeners.get_drop ih.1, List.mem_cons, not_or, Prod.mk.injEq, not_and]
    split
    · rename_i heq
      subst heq
      rw [List.mem_filter, ih.2, decide_eq_true_iff]
      tauto
    · rename_i hne
      rw [ih.2]
      tauto

/-! ## Counters and registrations -/

/-- The number of constraints in a frame. -/
def constraintsIn (m : Model π) (w : Frame) : Nat := (w.get m.propagatorCount).toNat

/-- The number of registrations in a frame. -/
def conditionsIn (m : Model π) (w : Frame) : Nat := (w.get m.conditionCount).toNat

/-- The constraints and registrations of the frame `w`, with the store `s`. -/
def cutTo [Propagator π] (m : Model π) (s : Store) (w : Frame) : Model π :=
  { m with
    store := s
    listeners := dropListeners m.listeners (m.conditions.toList.drop (m.conditionsIn w))
    conditions := m.conditions.shrink (m.conditionsIn w)
    propagators := (m.propagators.shrink (m.constraintsIn w)).map Propagator.onRestore
    scheduled := [] }

theorem toList_conditions_cutTo [Propagator π] (m : Model π) (s : Store) (w : Frame) :
    (m.cutTo s w).conditions.toList = m.conditions.toList.take (m.conditionsIn w) := by
  refine List.ext_getElem? fun i => ?_
  rw [Array.getElem?_toList, cutTo, Trail.getElem?_shrink, List.getElem?_take, Array.getElem?_toList]

/-- A frame tells the numbers of constraints and registrations, and only these constraints listen. -/
structure Tallies (m : Model π) (w : Frame) : Prop where
  has_propagators : w.Has m.propagatorCount
  has_conditions : w.Has m.conditionCount
  propagators_eq : w.get m.propagatorCount = m.constraintsIn w
  conditions_eq : w.get m.conditionCount = m.conditionsIn w
  listener_lt : ∀ k < m.conditionsIn w, ∀ condition c,
    m.conditions[k]? = some (condition, c) → c.index < m.constraintsIn w

/-- The counters are right in all frames, and the table of the listeners is that of the
registrations. -/
structure Tallied (m : Model π) : Prop where
  store : m.store.Sound
  propagatorCount_free : m.store.Free m.propagatorCount
  conditionCount_free : m.store.Free m.conditionCount
  counters_ne : m.propagatorCount ≠ m.conditionCount
  tallies : ∀ w ∈ m.store.trail.frames, m.Tallies w
  propagators_now : m.constraintsIn m.store.trail.now = m.propagators.size
  conditions_now : m.conditionsIn m.store.trail.now = m.conditions.size
  propagators_le : (m.propagators.size : Int) ≤ Word.greatest
  conditions_le : (m.conditions.size : Int) ≤ Word.greatest
  after : m.store.trail.frames.Pairwise fun newer older =>
    m.constraintsIn older ≤ m.constraintsIn newer ∧ m.conditionsIn older ≤ m.conditionsIn newer
  listening_iff : ∀ condition c, c ∈ m.listening condition ↔ (condition, c) ∈ m.conditions
  conditions_nodup : m.conditions.toList.Nodup
  keys_nodup : (m.listeners.map Prod.fst).Nodup

namespace Tallied

variable {m m' : Model π} {s : Store}

theorem now (h : m.Tallied) : m.Tallies m.store.trail.now := h.tallies _ (List.mem_cons_self ..)

theorem get_propagators (h : m.Tallied) :
    m.store.trail.now.get m.propagatorCount = m.propagators.size := by
  rw [h.now.propagators_eq, h.propagators_now]

theorem get_conditions (h : m.Tallied) :
    m.store.trail.now.get m.conditionCount = m.conditions.size := by
  rw [h.now.conditions_eq, h.conditions_now]

/-- Those who listen exist. -/
theorem listening_lt (h : m.Tallied) {condition : Condition} {c : Constraint}
    (hc : c ∈ m.listening condition) : c.index < m.propagators.size := by
  obtain ⟨k, hk, heq⟩ := Array.mem_iff_getElem.1 ((h.listening_iff condition c).1 hc)
  rw [← h.propagators_now]
  refine h.now.listener_lt k ?_ condition c (heq ▸ Array.getElem?_eq_getElem hk)
  rw [h.conditions_now]
  exact hk

/-- In the past there were no more constraints and registrations. -/
theorem past_le (h : m.Tallied) {w : Frame} (hw : w ∈ m.store.trail.past) :
    m.constraintsIn w ≤ m.propagators.size ∧ m.conditionsIn w ≤ m.conditions.size := by
  rw [← h.propagators_now, ← h.conditions_now]
  exact (List.pairwise_cons.1 h.after).1 w hw

/-- The model without variables and constraints. -/
theorem empty (order : DrainOrder) : (Model.empty order : Model π).Tallied := by
  have hcells := Store.sound_cells [0, 0] _ Trail.sound_empty rfl rfl
  obtain ⟨hs, hpast, hfree, _⟩ := Store.sound_ofTrail hcells.1 hcells.2.1 hcells.2.2
  obtain ⟨hhas₀, hfree₀, hget₀⟩ := hfree ⟨0⟩ (by unfold Frame.Has; decide +kernel)
  obtain ⟨hhas₁, hfree₁, hget₁⟩ := hfree ⟨1⟩ (by unfold Frame.Has; decide +kernel)
  have hframes : (Model.empty order : Model π).store.trail.frames =
      [(Model.empty order : Model π).store.trail.now] := by
    rw [Trail.frames]
    exact congrArg _ hpast
  have hpropagators : (Model.empty order : Model π).store.trail.now.get
      (Model.empty order : Model π).propagatorCount = 0 := hget₁.trans (by decide +kernel)
  have hconditions : (Model.empty order : Model π).store.trail.now.get
      (Model.empty order : Model π).conditionCount = 0 := hget₀.trans (by decide +kernel)
  refine ⟨hs, hfree₁, hfree₀, nofun, fun w hw => ?_, congrArg Int.toNat hpropagators,
    congrArg Int.toNat hconditions, Int.zero_le_ofNat _, Int.zero_le_ofNat _, ?_,
    fun condition c => ⟨nofun, fun hc => (nomatch hc)⟩, List.nodup_nil, List.nodup_nil⟩
  · rw [hframes, List.mem_singleton] at hw
    subst hw
    refine ⟨hhas₁, hhas₀, ?_, ?_, fun k _ condition c hk => (nomatch hk)⟩
    · rw [constraintsIn, hpropagators]
      rfl
    · rw [conditionsIn, hconditions]
      rfl
  · rw [hframes]
    exact List.pairwise_singleton ..

/-! ## Changes of the store -/

/-- A frame of the past tells the same after the store was replaced, or a constraint was added. -/
theorem tallies_congr {w : Frame} (h : m.Tallies w) (hp : m'.propagatorCount = m.propagatorCount)
    (hc : m'.conditionCount = m.conditionCount)
    (hconditions : ∀ k < m.conditionsIn w, m'.conditions[k]? = m.conditions[k]?) :
    m'.Tallies w := by
  refine ⟨hp ▸ h.has_propagators, hc ▸ h.has_conditions, ?_, ?_, fun k hk condition c heq => ?_⟩
  · rw [constraintsIn, hp]
    exact h.propagators_eq
  · rw [conditionsIn, hc]
    exact h.conditions_eq
  · rw [conditionsIn, hc] at hk
    rw [hconditions k hk] at heq
    rw [constraintsIn, hp]
    exact h.listener_lt k hk condition c heq

/-- All registrations are of constraints that exist. -/
theorem listener_lt (h : m.Tallied) {k : Nat} {condition : Condition} {c : Constraint}
    (hk : m.conditions[k]? = some (condition, c)) : c.index < m.propagators.size :=
  h.listening_lt ((h.listening_iff condition c).2 (Array.mem_of_getElem? hk))

/-- Constraints and registrations may be added, and the store replaced by one with the same past,
as long as the counters tell how many there are. -/
structure Extends (m m' : Model π) : Prop where
  propagatorCount_eq : m'.propagatorCount = m.propagatorCount
  conditionCount_eq : m'.conditionCount = m.conditionCount
  store : m'.store.Sound
  past_eq : m'.store.trail.past = m.store.trail.past
  has : ∀ c, m.store.trail.now.Has c → m'.store.trail.now.Has c
  free : ∀ c, m.store.trail.now.Has c → m.store.Free c → m'.store.Free c
  get_propagators : m'.store.trail.now.get m.propagatorCount = m'.propagators.size
  get_conditions : m'.store.trail.now.get m.conditionCount = m'.conditions.size
  propagators_grow : m.propagators.size ≤ m'.propagators.size
  conditions_grow : m.conditions.size ≤ m'.conditions.size
  propagators_le : (m'.propagators.size : Int) ≤ Word.greatest
  conditions_le : (m'.conditions.size : Int) ≤ Word.greatest
  conditions_eq : ∀ k < m.conditions.size, m'.conditions[k]? = m.conditions[k]?
  listener_lt : ∀ (k : Nat) (condition : Condition) (c : Constraint),
    m'.conditions[k]? = some (condition, c) → c.index < m'.propagators.size

/-- The counters are right afterwards. -/
theorem of_extends (h : m.Tallied) (he : Extends m m')
    (hlistening : ∀ condition c, c ∈ m'.listening condition ↔ (condition, c) ∈ m'.conditions)
    (hconditions : m'.conditions.toList.Nodup) (hkeys : (m'.listeners.map Prod.fst).Nodup) :
    m'.Tallied := by
  have hin : ∀ w, m'.constraintsIn w = m.constraintsIn w ∧ m'.conditionsIn w = m.conditionsIn w :=
    fun w => by
      rw [constraintsIn, constraintsIn, conditionsIn, conditionsIn, he.propagatorCount_eq,
        he.conditionCount_eq]
      exact ⟨rfl, rfl⟩
  have hpropagators : m'.constraintsIn m'.store.trail.now = m'.propagators.size := by
    rw [constraintsIn, he.propagatorCount_eq, he.get_propagators, Int.toNat_natCast]
  have hconditionsNow : m'.conditionsIn m'.store.trail.now = m'.conditions.size := by
    rw [conditionsIn, he.conditionCount_eq, he.get_conditions, Int.toNat_natCast]
  have hafter := List.pairwise_cons.1 h.after
  constructor
  case store => exact he.store
  case propagatorCount_free =>
    exact he.propagatorCount_eq ▸ he.free _ h.now.has_propagators h.propagatorCount_free
  case conditionCount_free =>
    exact he.conditionCount_eq ▸ he.free _ h.now.has_conditions h.conditionCount_free
  case counters_ne =>
    rw [he.propagatorCount_eq, he.conditionCount_eq]
    exact h.counters_ne
  case tallies =>
    intro w hw
    obtain rfl | hw := List.mem_cons.1 hw
    · refine ⟨he.propagatorCount_eq ▸ he.has _ h.now.has_propagators,
        he.conditionCount_eq ▸ he.has _ h.now.has_conditions, ?_, ?_, fun k _ condition c hk => ?_⟩
      · rw [hpropagators, he.propagatorCount_eq, he.get_propagators]
      · rw [hconditionsNow, he.conditionCount_eq, he.get_conditions]
      · rw [hpropagators]
        exact he.listener_lt k condition c hk
    · have hw : w ∈ m.store.trail.past := he.past_eq ▸ hw
      refine tallies_congr (h.tallies w (List.mem_cons_of_mem _ hw)) he.propagatorCount_eq
        he.conditionCount_eq fun k hk => he.conditions_eq k ?_
      exact Nat.lt_of_lt_of_le hk (h.past_le hw).2
  case propagators_now => exact hpropagators
  case conditions_now => exact hconditionsNow
  case propagators_le => exact he.propagators_le
  case conditions_le => exact he.conditions_le
  case after =>
    refine List.pairwise_cons.2 ⟨fun w hw => ?_, he.past_eq ▸ hafter.2.imp fun hle => ?_⟩
    · obtain ⟨hle, hle'⟩ := h.past_le (he.past_eq ▸ hw)
      rw [hpropagators, hconditionsNow, (hin w).1, (hin w).2]
      exact ⟨Nat.le_trans hle he.propagators_grow, Nat.le_trans hle' he.conditions_grow⟩
    · simp only [hin]
      exact hle
  case listening_iff => exact hlistening
  case conditions_nodup => exact hconditions
  case keys_nodup => exact hkeys

/-- The store may be replaced by one with the same past and the same counters. -/
theorem of_store (h : m.Tallied) (hs : s.Sound) (hpast : s.trail.past = m.store.trail.past)
    (hhas : ∀ c, m.store.trail.now.Has c → s.trail.now.Has c)
    (hfree : ∀ c, m.store.trail.now.Has c → m.store.Free c → s.Free c)
    (hpropagators : s.trail.now.get m.propagatorCount = m.store.trail.now.get m.propagatorCount)
    (hconditions : s.trail.now.get m.conditionCount = m.store.trail.now.get m.conditionCount) :
    ({ m with store := s } : Model π).Tallied := by
  have he : Extends m { m with store := s } :=
    ⟨rfl, rfl, hs, hpast, hhas, hfree, hpropagators.trans h.get_propagators,
      hconditions.trans h.get_conditions, Nat.le_refl _, Nat.le_refl _, h.propagators_le,
      h.conditions_le, fun _ _ => rfl, fun _ _ _ => h.listener_lt⟩
  exact h.of_extends he h.listening_iff h.conditions_nodup h.keys_nodup

/-- Variables and cells may be added. -/
theorem of_grown (h : m.Tallied) (hg : m.store.Grown s) :
    ({ m with store := s } : Model π).Tallied :=
  h.of_store hg.sound hg.past_eq hg.has hg.free
    (hg.get_eq _ h.now.has_propagators h.propagatorCount_free)
    (hg.get_eq _ h.now.has_conditions h.conditionCount_free)

/-- Domains may be narrowed, and other cells written. -/
theorem of_evolves {C : Cell → Prop} (h : m.Tallied) (he : m.store.Evolves C s)
    (hpropagators : ¬ C m.propagatorCount) (hconditions : ¬ C m.conditionCount) :
    ({ m with store := s } : Model π).Tallied :=
  h.of_store he.sound he.past_eq (fun _ => he.has) (fun _ _ => he.free)
    (he.get_eq _ h.propagatorCount_free.not_isSetCell hpropagators)
    (he.get_eq _ h.conditionCount_free.not_isSetCell hconditions)

/-- The events may be cleared. -/
theorem clearEvents (h : m.Tallied) : ({ m with store := m.store.clearEvents } : Model π).Tallied :=
  h.of_store h.store.clearEvents rfl (fun _ hc => hc)
    (fun _ _ hc => ⟨hc.not_isSetCell, hc.ne_varCount, hc.ne_eventCount⟩) rfl rfl

/-! ## Constraints and registrations -/

/-- A constraint is added. -/
theorem post_eq (h : m.Tallied) {p : π} {c : Constraint} (hret : m.post p = .ok (c, m')) :
    ∃ s, m.store.Wrote s m.propagatorCount (m.propagators.size + 1) ∧
      c = ⟨m.propagators.size⟩ ∧
      m' = { m with store := s, propagators := m.propagators.push p } ∧ m'.Tallied := by
  obtain ⟨⟨n, m₁⟩, hcount, hret⟩ := bind_eq_ok_iff.1 hret
  obtain ⟨s, hs, rfl⟩ := onStore_eq_ok_iff.1 hcount
  obtain ⟨rfl, hle, hwrote⟩ := Store.increment_eq h.store h.now.has_propagators
    h.propagatorCount_free h.get_propagators hs
  dsimp only at hret
  rw [Word.sub_one_of_lt_greatest hle, ok_bind] at hret
  cases hret
  refine ⟨s, hwrote, by rw [Word.unsigned_of_lt_greatest hle], rfl, ?_⟩
  have hconditions : s.trail.now.get m.conditionCount = m.conditions.size :=
    (hwrote.get_eq _ h.conditionCount_free.not_isSetCell (Ne.symm h.counters_ne)).trans
      h.get_conditions
  have hsize : (m.propagators.push p).size = m.propagators.size + 1 := Array.size_push ..
  have hpropagators : s.trail.now.get m.propagatorCount = (m.propagators.push p).size := by
    rw [hwrote.now_eq, Frame.get_put_self h.now.has_propagators, hsize]
    rfl
  have hgrow : m.propagators.size ≤ (m.propagators.push p).size := by omega
  have he : Extends m { m with store := s, propagators := m.propagators.push p } :=
    ⟨rfl, rfl, hwrote.sound, hwrote.past_eq, fun _ => hwrote.has, fun _ _ => hwrote.free,
      hpropagators, hconditions, hgrow, Nat.le_refl _, by rw [hsize]; exact hle, h.conditions_le,
      fun _ _ => rfl, fun _ _ _ hk => Nat.lt_of_lt_of_le (h.listener_lt hk) hgrow⟩
  exact h.of_extends he h.listening_iff h.conditions_nodup h.keys_nodup

/-- A constraint is made to listen to a condition on the primitive variable below `x`. -/
theorem listen_cases (h : m.Tallied) {c : Constraint} (hc : c.index < m.propagators.size)
    {kind : Condition.Kind} {x : Var} (hret : m.listen c kind x = .ok m') :
    ∃ y, m.store.source x = .ok y ∧ m'.Tallied ∧
      ((⟨kind, y⟩, c) ∈ m.conditions ∧ m' = m ∨
        ∃ s, m.store.Wrote s m.conditionCount (m.conditions.size + 1) ∧
          m' = { m with
            store := s
            listeners := Listeners.add m.listeners ⟨kind, y⟩ c
            conditions := m.conditions.push (⟨kind, y⟩, c) }) := by
  obtain ⟨y, hy, hret⟩ := bind_eq_ok_iff.1 hret
  refine ⟨y, hy, ?_⟩
  dsimp only at hret
  split at hret
  · rename_i hmem
    cases hret
    exact ⟨h, Or.inl ⟨(h.listening_iff _ c).1 hmem, rfl⟩⟩
  rename_i hnew
  obtain ⟨⟨n, m₁⟩, hcount, hret⟩ := bind_eq_ok_iff.1 hret
  obtain ⟨s, hs, rfl⟩ := onStore_eq_ok_iff.1 hcount
  obtain ⟨rfl, hle, hwrote⟩ := Store.increment_eq h.store h.now.has_conditions
    h.conditionCount_free h.get_conditions hs
  cases hret
  refine ⟨?_, Or.inr ⟨s, hwrote, rfl⟩⟩
  have hpropagators : s.trail.now.get m.propagatorCount = m.propagators.size :=
    (hwrote.get_eq _ h.propagatorCount_free.not_isSetCell h.counters_ne).trans h.get_propagators
  have hsize : (m.conditions.push (⟨kind, y⟩, c)).size = m.conditions.size + 1 := Array.size_push ..
  have hconditions : s.trail.now.get m.conditionCount =
      (m.conditions.push (⟨kind, y⟩, c)).size := by
    rw [hwrote.now_eq, Frame.get_put_self h.now.has_conditions, hsize]
    rfl
  have he : Extends m { m with
      store := s
      listeners := Listeners.add m.listeners ⟨kind, y⟩ c
      conditions := m.conditions.push (⟨kind, y⟩, c) } := by
    refine ⟨rfl, rfl, hwrote.sound, hwrote.past_eq, fun _ => hwrote.has, fun _ _ => hwrote.free,
      hpropagators, hconditions, Nat.le_refl _, hsize ▸ Nat.le_succ _, h.propagators_le,
      by rw [hsize]; exact hle, fun k hk => ?_, fun k condition d hk => ?_⟩
    · rw [Array.getElem?_push_lt hk, Array.getElem?_eq_getElem hk]
    · obtain ⟨_, hk⟩ | ⟨_, heq⟩ := Trail.getElem?_push_cases hk
      · exact h.listener_lt hk
      · exact (Prod.mk.inj heq).2 ▸ hc
  refine h.of_extends he (fun condition d => ?_) ?_ (Listeners.nodup_fst_add h.keys_nodup _ _)
  · rw [listening, Listeners.get_add, Array.mem_push, ← h.listening_iff]
    split
    · rename_i heq
      subst heq
      rw [List.mem_cons, or_comm, Prod.mk.injEq, and_iff_right rfl]
      rfl
    · rename_i hne
      rw [Prod.mk.injEq, or_iff_left fun heq => hne heq.1]
      rfl
  · rw [Array.toList_push, List.nodup_append]
    refine ⟨h.conditions_nodup, List.nodup_singleton _, fun a ha b hb heq => hnew ?_⟩
    rw [List.mem_singleton] at hb
    subst hb heq
    exact (h.listening_iff _ c).2 (Array.mem_toList_iff.1 ha)

/-! ## Propagators and levels -/

/-- The propagators may be replaced, and constraints be scheduled. -/
theorem congr (h : m.Tallied) (hstore : m'.store = m.store)
    (hpropagators : m'.propagatorCount = m.propagatorCount)
    (hconditions : m'.conditionCount = m.conditionCount) (hpairs : m'.conditions = m.conditions)
    (hlisteners : m'.listeners = m.listeners)
    (hsize : m'.propagators.size = m.propagators.size) : m'.Tallied := by
  have he : Extends m m' := by
    refine ⟨hpropagators, hconditions, hstore ▸ h.store, by rw [hstore], fun c hc => hstore ▸ hc,
      fun c _ hc => hstore ▸ hc, ?_, ?_, hsize.ge, by rw [hpairs], hsize ▸ h.propagators_le,
      hpairs ▸ h.conditions_le, fun _ _ => by rw [hpairs], fun k condition c hk => ?_⟩
    · rw [hstore, hsize, h.get_propagators]
    · rw [hstore, hpairs, h.get_conditions]
    · rw [hsize]
      exact h.listener_lt (hpairs ▸ hk)
  refine h.of_extends he ?_ (hpairs ▸ h.conditions_nodup) (hlisteners ▸ h.keys_nodup)
  rw [hpairs]
  simp only [listening, hlisteners]
  exact h.listening_iff

theorem schedule (h : m.Tallied) (c : Constraint) : (m.schedule c).Tallied := by
  rw [Model.schedule]
  split
  · exact h
  · exact h.congr rfl rfl rfl rfl rfl rfl

/-- A level is saved. -/
theorem save (h : m.Tallied) : m.save.Tallied := by
  obtain ⟨hnow, hpast, _⟩ := Trail.save_eq h.store.trail.tracked
  have hnow : m.store.save.trail.now = m.store.trail.now := hnow
  have hpast : m.store.save.trail.past = m.store.trail.now :: m.store.trail.past := hpast
  have hframes : m.save.store.trail.frames = m.store.trail.now :: m.store.trail.frames := by
    show m.store.save.trail.now :: m.store.save.trail.past = _
    rw [hnow, hpast]
    rfl
  have hfree : ∀ c, m.store.Free c → m.save.store.Free c :=
    fun c hc => ⟨hc.not_isSetCell, hc.ne_varCount, hc.ne_eventCount⟩
  exact {
    store := h.store.save
    propagatorCount_free := hfree _ h.propagatorCount_free
    conditionCount_free := hfree _ h.conditionCount_free
    counters_ne := h.counters_ne
    tallies := fun w hw => by
      rw [hframes] at hw
      obtain rfl | hw := List.mem_cons.1 hw
      · exact tallies_congr h.now rfl rfl fun _ _ => rfl
      · exact tallies_congr (h.tallies w hw) rfl rfl fun _ _ => rfl
    propagators_now := (congrArg m.constraintsIn hnow).trans h.propagators_now
    conditions_now := (congrArg m.conditionsIn hnow).trans h.conditions_now
    propagators_le := h.propagators_le
    conditions_le := h.conditions_le
    after := by
      rw [hframes]
      refine List.pairwise_cons.2 ⟨fun w hw => ?_, h.after⟩
      obtain rfl | hw := List.mem_cons.1 hw
      · exact ⟨Nat.le_refl _, Nat.le_refl _⟩
      · exact (List.pairwise_cons.1 h.after).1 w hw
    listening_iff := h.listening_iff
    conditions_nodup := h.conditions_nodup
    keys_nodup := h.keys_nodup }

/-- After a level was restored, the counters are read as they were in its frame. -/
theorem readCount_of_restored (h : m.Tallied) {w : Frame} {rest : List Frame}
    (hpast : m.store.trail.past = w :: rest) (hrestored : m.store.Restored s w rest) :
    s.readCount m.propagatorCount = .ok (m.constraintsIn w) ∧
      s.readCount m.conditionCount = .ok (m.conditionsIn w) := by
  have hmem : w ∈ m.store.trail.past := hpast ▸ List.mem_cons_self ..
  have hw := h.tallies w (List.mem_cons_of_mem _ hmem)
  obtain ⟨hle, hle'⟩ := h.past_le hmem
  have hsize := h.propagators_le
  have hsize' := h.conditions_le
  unfold Word.greatest at hsize hsize'
  constructor
  · refine Trail.readCount_eq ?_ ?_ (by unfold Word.countBound; omega)
    · rw [hrestored.now_eq]
      exact hw.has_propagators
    · rw [hrestored.now_eq]
      exact hw.propagators_eq
  · refine Trail.readCount_eq ?_ ?_ (by unfold Word.countBound; omega)
    · rw [hrestored.now_eq]
      exact hw.has_conditions
    · rw [hrestored.now_eq]
      exact hw.conditions_eq

/-- A level can be restored, unless none was saved. -/
theorem restore_cases [Propagator π] (h : m.Tallied) : (∃ m', m.restore = .ok m') ∨
    m.store.trail.past = [] ∧ m.restore = .error .rootLevel := by
  cases hlevels : m.store.trail.levels with
  | nil =>
    refine Or.inr ⟨by rw [Trail.past, hlevels]; rfl, ?_⟩
    rw [restore, Store.restore, Store.updateTrail_eq, Trail.restore, hlevels]
    rfl
  | cons level levels =>
    have hpast : ∃ w rest, m.store.trail.past = w :: rest := by
      rw [Trail.past, hlevels]
      exact ⟨_, _, rfl⟩
    obtain ⟨w, rest, hpast⟩ := hpast
    obtain ⟨s, hs, hrestored⟩ := h.store.restore hpast
    obtain ⟨hread, hread'⟩ := h.readCount_of_restored hpast hrestored
    rw [restore, hs, ok_bind, hread, ok_bind, hread']
    exact Or.inl ⟨_, rfl⟩

/-- Who listened in the frame still does, and nobody else. -/
theorem listening_cutTo [Propagator π] (h : m.Tallied) (s : Store) (w : Frame) (condition : Condition)
    (c : Constraint) : c ∈ (m.cutTo s w).listening condition ↔
      (condition, c) ∈ (m.cutTo s w).conditions := by
  have hdrop := mem_dropListeners h.keys_nodup (m.conditions.toList.drop (m.conditionsIn w))
  have hiff : (condition, c) ∈ m.conditions ↔
      (condition, c) ∈ m.conditions.toList.take (m.conditionsIn w) ∨
        (condition, c) ∈ m.conditions.toList.drop (m.conditionsIn w) := by
    rw [← Array.mem_toList_iff, ← List.mem_append, List.take_append_drop]
  have hnodup := h.conditions_nodup
  rw [← List.take_append_drop (m.conditionsIn w) m.conditions.toList, List.nodup_append] at hnodup
  have hlisten : c ∈ (m.cutTo s w).listening condition ↔ _ := hdrop.2 condition c
  rw [hlisten, ← Array.mem_toList_iff, toList_conditions_cutTo, ← listening, h.listening_iff, hiff]
  exact ⟨fun hmem => hmem.1.resolve_right hmem.2,
    fun hmem => ⟨Or.inl hmem, fun hin => hnodup.2.2 _ hmem _ hin rfl⟩⟩

/-- The counters are right after a level was restored. -/
theorem cutTo [Propagator π] (h : m.Tallied) {w : Frame} {rest : List Frame}
    (hpast : m.store.trail.past = w :: rest) (hrestored : m.store.Restored s w rest) :
    (m.cutTo s w).Tallied := by
  obtain ⟨hle, hle'⟩ := h.past_le (hpast ▸ List.mem_cons_self ..)
  have hafter := (List.pairwise_cons.1 h.after).2
  rw [hpast] at hafter
  have hpropagators : (m.cutTo s w).propagators.size = m.constraintsIn w :=
    (Array.size_map ..).trans (Trail.size_shrink hle)
  have hpairs : (m.cutTo s w).conditions.size = m.conditionsIn w := Trail.size_shrink hle'
  exact {
    store := hrestored.sound
    propagatorCount_free := hrestored.free h.propagatorCount_free
    conditionCount_free := hrestored.free h.conditionCount_free
    counters_ne := h.counters_ne
    tallies := fun w' hw' => by
      have hw' : w' ∈ s.trail.now :: s.trail.past := hw'
      rw [hrestored.now_eq, hrestored.past_eq] at hw'
      refine tallies_congr (h.tallies w' (List.mem_cons_of_mem _ (hpast ▸ hw'))) rfl rfl
        fun k hk => ?_
      have hk : k < m.conditionsIn w := by
        obtain rfl | hw' := List.mem_cons.1 hw'
        · exact hk
        · exact Nat.lt_of_lt_of_le hk ((List.pairwise_cons.1 hafter).1 w' hw').2
      show (m.conditions.shrink (m.conditionsIn w))[k]? = _
      rw [Trail.getElem?_shrink, if_pos hk]
    propagators_now := by
      show m.constraintsIn s.trail.now = _
      rw [hrestored.now_eq, hpropagators]
    conditions_now := by
      show m.conditionsIn s.trail.now = _
      rw [hrestored.now_eq, hpairs]
    propagators_le := hpropagators ▸ (Int.ofNat_le.2 hle).trans h.propagators_le
    conditions_le := hpairs ▸ (Int.ofNat_le.2 hle').trans h.conditions_le
    after := by
      show (s.trail.now :: s.trail.past).Pairwise _
      rw [hrestored.now_eq, hrestored.past_eq]
      exact hafter
    listening_iff := h.listening_cutTo s w
    conditions_nodup := by
      rw [toList_conditions_cutTo]
      exact h.conditions_nodup.sublist (List.take_sublist ..)
    keys_nodup := (mem_dropListeners h.keys_nodup _).1 }

/-- A level is restored.  The constraints and registrations are those that there were. -/
theorem restore_eq [Propagator π] (h : m.Tallied) (hret : m.restore = .ok m') :
    ∃ w rest s, m.store.trail.past = w :: rest ∧ m.store.Restored s w rest ∧
      m' = { m with
        store := s
        listeners := dropListeners m.listeners (m.conditions.toList.drop (m.conditionsIn w))
        conditions := m.conditions.shrink (m.conditionsIn w)
        propagators := (m.propagators.shrink (m.constraintsIn w)).map Propagator.onRestore
        scheduled := [] } ∧ m'.Tallied := by
  obtain ⟨s, hs, hret⟩ := bind_eq_ok_iff.1 hret
  obtain ⟨w, rest, hpast, hrestored⟩ := h.store.restored_of_ok hs
  obtain ⟨hread, hread'⟩ := h.readCount_of_restored hpast hrestored
  rw [hread, ok_bind, hread', ok_bind] at hret
  cases hret
  exact ⟨w, rest, s, hpast, hrestored, rfl, h.cutTo hpast hrestored⟩

end Tallied

end Model

end FiniteDomain
