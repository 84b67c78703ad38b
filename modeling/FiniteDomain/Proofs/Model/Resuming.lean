import FiniteDomain.Proofs.Model.Rounds

/-!
# Taking up a saved state again

As long as a model is changed on its current level only, the level below can be restored, and the
model stands where it stood when that level was saved.

* `Keeps` says that the frames of the past see what they saw, whatever was added since.
* `SameBelow` says that nothing was changed but on the current level, and that no variable and no
  constraint was added.
* `Resumed` says that the domains are the same as well.
* `Tallied.resumes` leads from the first to the last.
-/

namespace FiniteDomain

namespace Store

/-- The frames of the past see the variables and the domains that they saw. -/
structure Keeps (s s' : Store) : Prop where
  past_eq : s'.trail.past = s.trail.past
  varCount_eq : s'.varCount = s.varCount
  sets_below : ∀ w ∈ s.trail.past, ∀ i < w.sets, s'.trail.sets[i]? = s.trail.sets[i]?
  definitions_below : ∀ w ∈ s.trail.past, ∀ i < s.varsIn w,
    s'.definitions[i]? = s.definitions[i]?
  past_domain : ∀ w ∈ s.trail.past, ∀ q : Var, q.index < s.varsIn w →
    s'.domainIn w q = s.domainIn w q

/-- Nothing but the current level may have changed, and no variable was added. -/
structure SameBelow (s s' : Store) : Prop where
  past_eq : s'.trail.past = s.trail.past
  sets_eq : s'.trail.sets = s.trail.sets
  definitions_eq : s'.definitions = s.definitions
  varCount_eq : s'.varCount = s.varCount
  past_domain : ∀ w ∈ s.trail.past, ∀ q : Var, q.index < s.varsIn w →
    s'.domainIn w q = s.domainIn w q

/-- The domains are the same as well. -/
structure Resumed (s s' : Store) : Prop extends SameBelow s s' where
  now_eq : s'.trail.now = s.trail.now
  domain_eq : ∀ q, s'.domain q = s.domain q

variable {s s' s'' : Store} {x : Var}

namespace Keeps

theorem refl (s : Store) : Keeps s s :=
  ⟨rfl, rfl, fun _ _ _ _ => rfl, fun _ _ _ _ => rfl, fun _ _ _ _ => rfl⟩

theorem varsIn_eq (h : Keeps s s') (w : Frame) : s'.varsIn w = s.varsIn w := by
  rw [varsIn, varsIn, h.varCount_eq]

theorem trans (h : Keeps s s') (h' : Keeps s' s'') : Keeps s s'' where
  past_eq := h'.past_eq.trans h.past_eq
  varCount_eq := h'.varCount_eq.trans h.varCount_eq
  sets_below w hw i hi := by
    rw [h'.sets_below w (h.past_eq ▸ hw) i hi, h.sets_below w hw i hi]
  definitions_below w hw i hi := by
    rw [h'.definitions_below w (h.past_eq ▸ hw) i ((h.varsIn_eq w).symm ▸ hi),
      h.definitions_below w hw i hi]
  past_domain w hw q hq := by
    rw [h'.past_domain w (h.past_eq ▸ hw) q ((h.varsIn_eq w).symm ▸ hq), h.past_domain w hw q hq]

/-- Variables and cells were added. -/
theorem of_grown (hs : s.Sound) (h : Grown s s') : Keeps s s' where
  past_eq := h.past_eq
  varCount_eq := h.varCount_eq
  sets_below _ hw i hi := h.sets_eq i (Nat.lt_of_lt_of_le hi (hs.trail.sets_le hw))
  definitions_below w hw i hi := h.definitions_eq i
    (Nat.lt_of_lt_of_le hi (hs.counts w (List.mem_cons_of_mem _ hw)).vars_le)
  past_domain := h.past_domain

/-- Domains were narrowed, and cells were written. -/
theorem of_evolves {C : Cell → Prop} (hs : s.Sound) (h : Evolves C s s') : Keeps s s' where
  past_eq := h.past_eq
  varCount_eq := h.varCount_eq
  sets_below _ _ i _ := by rw [h.sets_eq]
  definitions_below _ _ i _ := by rw [h.definitions_eq]
  past_domain _ hw _ hq := h.domainIn_past hs hw hq

end Keeps

namespace SameBelow

theorem refl (s : Store) : SameBelow s s :=
  ⟨rfl, rfl, rfl, rfl, fun _ _ _ _ => rfl⟩

theorem of_narrowed (h : Narrowed s s') : SameBelow s s' :=
  ⟨h.past_eq, h.sets_eq, h.definitions_eq, h.varCount_eq, h.past_domain⟩

theorem varsIn_eq (h : SameBelow s s') (w : Frame) : s'.varsIn w = s.varsIn w := by
  rw [varsIn, varsIn, h.varCount_eq]

theorem path_eq (h : SameBelow s s') (x : Var) : s'.path x = s.path x := by
  rw [path, path, h.definitions_eq]

theorem reads_iff (h : SameBelow s s') {v : Int} : s'.Reads x v ↔ s.Reads x v := by
  rw [Reads, Reads, h.path_eq, h.sets_eq]

theorem trans (h : SameBelow s s') (h' : SameBelow s' s'') : SameBelow s s'' where
  past_eq := h'.past_eq.trans h.past_eq
  sets_eq := h'.sets_eq.trans h.sets_eq
  definitions_eq := h'.definitions_eq.trans h.definitions_eq
  varCount_eq := h'.varCount_eq.trans h.varCount_eq
  past_domain w hw q hq := by
    rw [h'.past_domain w (h.past_eq ▸ hw) q ((h.varsIn_eq w).symm ▸ hq), h.past_domain w hw q hq]

theorem keeps (h : SameBelow s s') : Keeps s s' where
  past_eq := h.past_eq
  varCount_eq := h.varCount_eq
  sets_below _ _ i _ := by rw [h.sets_eq]
  definitions_below _ _ i _ := by rw [h.definitions_eq]
  past_domain := h.past_domain

/-- A variable that loses values stays readable. -/
theorem readable (h : SameBelow s s') (hsub : ∀ q, s'.domain q ⊆ s.domain q)
    (hread : s.Readable x) : s'.Readable x := by
  intro v hv
  rw [view, viewIn, viewFrom_congr (h.path_eq x)] at hv
  exact h.reads_iff.2 (hread v (viewFrom_mono hsub x hv))

end SameBelow

namespace Resumed

theorem refl (s : Store) : Resumed s s := ⟨.refl s, rfl, fun _ => rfl⟩

theorem trans (h : Resumed s s') (h' : Resumed s' s'') : Resumed s s'' :=
  ⟨h.toSameBelow.trans h'.toSameBelow, h'.now_eq.trans h.now_eq,
    fun q => (h'.domain_eq q).trans (h.domain_eq q)⟩

theorem view_eq (h : Resumed s s') (x : Var) : s'.view x = s.view x := by
  rw [view, viewIn, viewFrom_congr (h.path_eq x)]
  exact congrArg (s.viewFrom · x) (funext h.domain_eq)

theorem weight_eq (h : Resumed s s') : s'.weight = s.weight := by
  unfold weight
  rw [h.definitions_eq]
  exact Finset.sum_congr rfl fun i _ => congrArg Finset.card (h.domain_eq ⟨i⟩)

theorem readable_iff (h : Resumed s s') : s'.Readable x ↔ s.Readable x := by
  rw [Readable, Readable, h.view_eq]
  exact forall₂_congr fun _ _ => h.reads_iff

end Resumed

/-- What was added to an array is dropped again. -/
theorem shrink_eq_of_prefix {α : Type} {xs ys : Array α} {n : Nat} (hn : n = ys.size)
    (h : ∀ i < n, xs[i]? = ys[i]?) : xs.shrink n = ys := by
  refine Array.ext_getElem? fun i => ?_
  rw [Trail.getElem?_shrink]
  split
  · exact h i ‹_›
  · exact (Array.getElem?_eq_none (by omega)).symm

/-- After changes on a level of its own, the level below is taken up again. -/
theorem Restored.resumed (h : s.Sound) (hkeeps : s.save.Keeps s')
    (hr : s'.Restored s'' s.trail.now s.trail.past) : s.Resumed s'' := by
  obtain ⟨_, hpast, _⟩ := Trail.save_eq h.trail.tracked
  have hpast : s.save.trail.past = s.trail.now :: s.trail.past := hpast
  have hnow : s.trail.now ∈ s.save.trail.past := hpast ▸ List.mem_cons_self ..
  have hvars : ∀ w, s'.varsIn w = s.varsIn w := hkeeps.varsIn_eq
  have hdefinitions : s''.definitions = s.definitions := by
    rw [hr.definitions_eq, hvars]
    exact shrink_eq_of_prefix h.vars_now (hkeeps.definitions_below _ hnow)
  have hlt : ∀ w ∈ s.trail.now :: s.trail.past, ∀ q : Var, q.index < s.varsIn w →
      s''.domainIn w q = s.domainIn w q := by
    intro w hw q hq
    rw [hr.domainIn_eq w hw q ((hvars w).symm ▸ hq)]
    exact hkeeps.past_domain w (hpast ▸ hw) q hq
  refine ⟨⟨hr.past_eq, ?_, hdefinitions, ?_, fun w hw => hlt w (List.mem_cons_of_mem _ hw)⟩,
    hr.now_eq, fun q => ?_⟩
  · rw [hr.sets_eq]
    exact shrink_eq_of_prefix rfl (hkeeps.sets_below _ hnow)
  · rw [hr.varCount_eq, hkeeps.varCount_eq]
    rfl
  · by_cases hq : q.index < s.definitions.size
    · rw [domain, hr.now_eq]
      exact hlt _ (List.mem_cons_self ..) q (h.vars_now.symm ▸ hq)
    · rw [domain_eq_empty (Nat.le_of_not_lt hq),
        domain_eq_empty (hdefinitions ▸ Nat.le_of_not_lt hq)]

end Store

namespace Model

variable {π : Type} {m m' m'' : Model π}

/-- The frames of the past see what they saw. -/
structure Keeps (m m' : Model π) : Prop where
  store : m.store.Keeps m'.store
  propagatorCount_eq : m'.propagatorCount = m.propagatorCount
  conditionCount_eq : m'.conditionCount = m.conditionCount
  conditions_below : ∀ w ∈ m.store.trail.past, ∀ k < m.conditionsIn w,
    m'.conditions[k]? = m.conditions[k]?
  order_eq : m'.order = m.order

/-- Nothing but the current level may have changed, and no variable, constraint or condition was
added. -/
structure SameBelow (m m' : Model π) : Prop where
  store : m.store.SameBelow m'.store
  propagatorCount_eq : m'.propagatorCount = m.propagatorCount
  conditionCount_eq : m'.conditionCount = m.conditionCount
  conditions_eq : m'.conditions = m.conditions
  size_eq : m'.propagators.size = m.propagators.size
  order_eq : m'.order = m.order

/-- The domains are the same as well. -/
structure Resumed (m m' : Model π) : Prop extends SameBelow m m' where
  resumed : m.store.Resumed m'.store

namespace Keeps

theorem refl (m : Model π) : Keeps m m :=
  ⟨.refl _, rfl, rfl, fun _ _ _ _ => rfl, rfl⟩

theorem constraintsIn_eq (h : Keeps m m') (w : Frame) : m'.constraintsIn w = m.constraintsIn w := by
  rw [constraintsIn, constraintsIn, h.propagatorCount_eq]

theorem conditionsIn_eq (h : Keeps m m') (w : Frame) : m'.conditionsIn w = m.conditionsIn w := by
  rw [conditionsIn, conditionsIn, h.conditionCount_eq]

theorem trans (h : Keeps m m') (h' : Keeps m' m'') : Keeps m m'' where
  store := h.store.trans h'.store
  propagatorCount_eq := h'.propagatorCount_eq.trans h.propagatorCount_eq
  conditionCount_eq := h'.conditionCount_eq.trans h.conditionCount_eq
  conditions_below w hw k hk := by
    rw [h'.conditions_below w (h.store.past_eq ▸ hw) k ((h.conditionsIn_eq w).symm ▸ hk),
      h.conditions_below w hw k hk]
  order_eq := h'.order_eq.trans h.order_eq

/-- Only the store changed. -/
theorem of_store {s : Store} (h : m.store.Keeps s) : Keeps m { m with store := s } :=
  ⟨h, rfl, rfl, fun _ _ _ _ => rfl, rfl⟩

end Keeps

namespace SameBelow

theorem keeps (h : SameBelow m m') : Keeps m m' :=
  ⟨h.store.keeps, h.propagatorCount_eq, h.conditionCount_eq,
    fun _ _ _ _ => by rw [h.conditions_eq], h.order_eq⟩

theorem refl (m : Model π) : SameBelow m m :=
  ⟨.refl _, rfl, rfl, rfl, rfl, rfl⟩

theorem trans (h : SameBelow m m') (h' : SameBelow m' m'') : SameBelow m m'' :=
  ⟨h.store.trans h'.store, h'.propagatorCount_eq.trans h.propagatorCount_eq,
    h'.conditionCount_eq.trans h.conditionCount_eq, h'.conditions_eq.trans h.conditions_eq,
    h'.size_eq.trans h.size_eq, h'.order_eq.trans h.order_eq⟩

theorem of_narrowed {s : Store} (h : m.store.Narrowed s) : SameBelow m { m with store := s } :=
  ⟨.of_narrowed h, rfl, rfl, rfl, rfl, rfl⟩

end SameBelow

namespace Resumed

theorem refl (m : Model π) : Resumed m m := ⟨.refl m, .refl _⟩

theorem trans (h : Resumed m m') (h' : Resumed m' m'') : Resumed m m'' :=
  ⟨h.toSameBelow.trans h'.toSameBelow, h.resumed.trans h'.resumed⟩

end Resumed

/-! ### What the calls keep -/

theorem schedule_keeps (m : Model π) (c : Constraint) : m.Keeps (m.schedule c) := by
  rw [schedule]
  split
  · exact .refl m
  · exact ⟨.refl _, rfl, rfl, fun _ _ _ _ => rfl, rfl⟩

namespace Tallied

/-- A propagator is posted. -/
theorem keeps_post (h : m.Tallied) {p : π} {c : Constraint} (hret : m.post p = .ok (c, m')) :
    m.Keeps m' := by
  obtain ⟨s, hwrote, _, rfl, _⟩ := h.post_eq hret
  exact ⟨.of_evolves h.store hwrote.toEvolves, rfl, rfl, fun _ _ _ _ => rfl, rfl⟩

/-- A constraint is made to listen. -/
theorem keeps_listen (h : m.Tallied) {c : Constraint} (hc : c.index < m.propagators.size)
    {kind : Condition.Kind} {x : Var} (hret : m.listen c kind x = .ok m') : m.Keeps m' := by
  obtain ⟨_, _, _, ⟨_, rfl⟩ | ⟨s, hwrote, rfl⟩⟩ := h.listen_cases hc hret
  · exact .refl m'
  · refine ⟨.of_evolves h.store hwrote.toEvolves, rfl, rfl, fun w hw k hk => ?_, rfl⟩
    exact Array.getElem?_push_lt (Nat.lt_of_lt_of_le hk (h.past_le hw).2) |>.trans
      (Array.getElem?_eq_getElem _).symm

end Tallied

/-! ### Restored levels -/

/-- The level below can be restored, and the model stands where it stood. -/
theorem Tallied.resumes [Propagator π] (h : m.Tallied) (h' : m'.Tallied)
    (hkeeps : m.save.Keeps m') :
    ∃ m'', m'.restore = .ok m'' ∧ m''.Tallied ∧ m.Resumed m'' := by
  obtain ⟨_, hpast, _⟩ := Trail.save_eq h.store.trail.tracked
  have hpast : m'.store.trail.past = m.store.trail.now :: m.store.trail.past :=
    hkeeps.store.past_eq.trans hpast
  obtain ⟨m'', hret⟩ | ⟨hnil, _⟩ := h'.restore_cases
  swap
  · rw [hpast] at hnil
    cases hnil
  obtain ⟨w, rest, s, hframes, hrestored, heq, htallied⟩ := h'.restore_eq hret
  rw [hpast] at hframes
  cases hframes
  have hresumed := hrestored.resumed h.store hkeeps.store
  have hnow : m.store.trail.now ∈ m.save.store.trail.past := by
    rw [← hkeeps.store.past_eq, hpast]
    exact List.mem_cons_self ..
  have hconstraints : m'.constraintsIn m.store.trail.now = m.propagators.size :=
    (hkeeps.constraintsIn_eq _).trans h.propagators_now
  have hconditions : m'.conditionsIn m.store.trail.now = m.conditions.size :=
    (hkeeps.conditionsIn_eq _).trans h.conditions_now
  have hle : m.propagators.size ≤ m'.propagators.size := by
    rw [← hconstraints]
    exact (h'.past_le (hpast ▸ List.mem_cons_self ..)).1
  refine ⟨m'', hret, htallied, ?_⟩
  rw [heq]
  refine ⟨⟨hresumed.toSameBelow, hkeeps.propagatorCount_eq, hkeeps.conditionCount_eq, ?_, ?_,
    hkeeps.order_eq⟩, hresumed⟩
  · refine Store.shrink_eq_of_prefix hconditions fun k hk => ?_
    exact hkeeps.conditions_below _ hnow k ((hkeeps.conditionsIn_eq _) ▸ hk)
  · dsimp only
    rw [Array.size_map, hconstraints, Trail.size_shrink hle]

end Model

end FiniteDomain
