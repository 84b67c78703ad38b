import FiniteDomain.Proofs.AllDifferent.Discipline

/-!
# Runs that settle the propagators

In a model that is used with discipline every run of the propagators gets an answer.  Unless it fails,
all propagators are settled then and nothing more happens.

* `Model.Poised late due m` holds while the constraints `due` are going to run.  The constraints `late`
  may still be without a first matching.
* Waking the constraints and running one of them keep it, without the constraint that ran:
  `Poised.wake` and `Poised.runOne_cases`.
* `Poised.fixpoint_cases` is what the whole run comes to.
-/

namespace FiniteDomain.Model

open AllDifferent ValueGraph

variable {m m' : Model AllDifferent} {due rest : List Constraint} {late : Nat → Prop} {i : Nat}
  {c : Constraint}

/-- The propagators are settled up to what is `due`, and only constraints that are due or `late` are
without a matching. -/
structure Poised (late : Nat → Prop) (due : List Constraint) (m : Model AllDifferent) : Prop
    extends Tended due m where
  firm : m.Firm late due

/-! ## Waking -/

/-- A constraint that listens to a variable that changed hears of it. -/
theorem Tallied.mem_heard_of_pending {π : Type} {m : Model π} (h : m.Tallied) {y : Var}
    (hlistens : (⟨.domainChanged, y⟩, c) ∈ m.conditions) (hpending : m.store.Pending y) :
    y ∈ m.heard c := by
  obtain ⟨e, he, hvar, hchanged⟩ := hpending
  exact mem_heard.2 (mem_fired.2 ⟨e, he, hvar, .domainChanged, hchanged,
    (h.listening_iff _ _).2 hlistens⟩)

/-- A constraint whose variable changed hears of it. -/
theorem Recoverable.heard_of_pending (h : m.Recoverable) {p : AllDifferent}
    (hp : m.propagators[i]? = some p) {x : Nat} (hx : x < p.graph.varTotal)
    (hpending : m.store.Pending (p.graph.sourceOf x)) : p.graph.sourceOf x ∈ m.heard ⟨i⟩ := by
  have hi : i < m.constraintsIn m.store.trail.now := by
    rw [h.propagators_now]
    exact (Array.getElem?_eq_some_iff.1 hp).1
  obtain ⟨k, _, hk⟩ := h.attentive i p hp x hx _ (List.mem_cons_self ..) hi
  exact h.mem_heard_of_pending (Array.mem_of_getElem? hk) hpending

namespace Poised

/-- The constraints are told of what happened. -/
theorem wake (h : m.Poised late m.scheduled) (hret : m.wake = .ok m') :
    m'.Poised late m'.scheduled := by
  obtain ⟨_, heq, hsize, hwork⟩ := h.toGuarded.wake_eq hret
  obtain ⟨_, _, hscheduled, _⟩ := Model.wake_eq hret
  have hfollows := h.toGuarded.wake_follows hret
  -- Where there is a propagator afterwards, only what waits in it may have changed.
  have hback : ∀ {i : Nat} {p' : AllDifferent}, m'.propagators[i]? = some p' → ∃ p work,
      m.propagators[i]? = some p ∧ p' = { p with work } ∧
        p'.shown m'.store = p.shown m.store ∧ ∀ x < p.graph.varTotal,
          x ∈ work.waiting ↔ x ∈ p.work.waiting ∨ p.graph.sourceOf x ∈ m.heard ⟨i⟩ := by
    intro i p' hp'
    have hi : i < m.propagators.size := hsize ▸ (Array.getElem?_eq_some_iff.1 hp').1
    have hp := Array.getElem?_eq_getElem hi
    obtain ⟨work, hp'', hmem⟩ := hwork i _ hp
    obtain rfl := Option.some.inj (hp'.symm.trans hp'')
    refine ⟨_, work, hp, rfl, ?_, hmem⟩
    rw [heq]
    exact (h.guarded i _ hp).clearEvents.2 _
  refine ⟨⟨h.toRecoverable.continue hfollows.continues fun _ _ hp hle => ?_, fun d hd => ?_,
    fun i p' hp' => ?_, fun i p' hp' hne => ?_⟩, fun i p' hp' => ?_⟩
  · exact absurd (hsize ▸ (Array.getElem?_eq_some_iff.1 hp).1) (Nat.not_lt.2 hle)
  · rw [hsize]
    obtain hheard | hd := (hscheduled d).1 hd
    · obtain ⟨x, hx⟩ := List.exists_mem_of_ne_nil _ hheard
      exact h.fired_lt (mem_heard.1 hx)
    · exact h.due_lt d hd
  · obtain ⟨p, work, hp, rfl, hshown, hmem⟩ := hback hp'
    rw [hshown]
    refine (h.settled i p hp).mono fun x hx hlate => Or.inl ((hmem x hx).2 ?_)
    exact hlate.imp_right (h.toRecoverable.heard_of_pending hp hx)
  · obtain ⟨p, work, hp, rfl, _, hmem⟩ := hback hp'
    obtain ⟨x, hx⟩ := List.exists_mem_of_ne_nil _ hne
    have hlt := (hfollows.guarded.guarded i _ hp').work_lt x hx
    rw [hscheduled]
    obtain hwaits | hheard := (hmem x hlt).1 hx
    · exact Or.inr (h.waiting i p hp (List.ne_nil_of_mem hwaits))
    · exact Or.inl (List.ne_nil_of_mem hheard)
  · obtain ⟨p, work, hp, rfl, hshown, _⟩ := hback hp'
    rw [hshown]
    exact (h.firm.mono fun d hd => (hscheduled d).2 (Or.inr hd)) i p hp

/-- The order in which the constraints are going to run does not matter. -/
theorem plan {due' : List Constraint} (h : m.Poised late due) (hperm : due'.Perm due)
    (scheduled : List Constraint) (rounds : Nat) :
    ({ m with scheduled, rounds } : Model AllDifferent).Poised late due' := by
  have hdue : ∀ d ∈ due, d ∈ due' := fun d hd => hperm.mem_iff.2 hd
  exact ⟨(h.toTended.mono hdue fun d hd => h.due_lt d (hperm.mem_iff.1 hd)).plan scheduled rounds,
    h.firm.mono hdue⟩

/-! ## Running one constraint -/

/-- A propagator that is due has what it needs to get a verdict. -/
theorem assured (h : m.Poised late due) {p : AllDifferent} (hp : m.propagators[i]? = some p) :
    p.Assured m.store := by
  have hsettled := h.settled i p hp
  refine ⟨hsettled.kept, ?_⟩
  obtain hcovered | hfirst := h.firm i p hp
  · exact Or.inr ⟨hcovered, hsettled.tagged.sharp hcovered⟩
  · exact Or.inl hfirst.1

/-- The propagator of a constraint ran without a failure, and the constraint is no longer due. -/
theorem of_ran {p p' : AllDifferent} (h : m.Poised late (c :: rest))
    (hran : Ran m c.index p .consistent p' m') : m'.Poised late rest := by
  have hpropagated := hran.propagated
  have hadvance := hpropagated.advance
  have hsettled := h.settled _ p hran.here
  have hcases : ∀ {j : Nat} {q : AllDifferent}, m'.propagators[j]? = some q →
      j = c.index ∧ q = p' ∨ j ≠ c.index ∧ m.propagators[j]? = some q := by
    intro j q hq
    by_cases hj : j = c.index
    · subst hj
      exact Or.inl ⟨rfl, Option.some.inj (hq.symm.trans hran.getElem?_eq)⟩
    · rw [hran.getElem?_ne hj] at hq
      exact Or.inr ⟨hj, hq⟩
  have hrest : ∀ {j : Nat} {l : List Constraint}, j ≠ c.index → ⟨j⟩ ∈ c :: l → ⟨j⟩ ∈ l := by
    intro j l hj hmem
    exact (List.mem_cons.1 hmem).resolve_left fun heq => hj (congrArg Constraint.index heq)
  refine ⟨⟨h.toRecoverable.continue hran.follows.continues fun _ _ hp hle => ?_, fun d hd => ?_,
    fun j q hq => ?_, fun j q hq hne => ?_⟩, fun j q hq => ?_⟩
  · exact absurd (hran.follows.size_eq ▸ (Array.getElem?_eq_some_iff.1 hp).1) (Nat.not_lt.2 hle)
  · rw [hran.follows.size_eq]
    exact h.due_lt d (List.mem_cons_of_mem _ hd)
  · obtain ⟨rfl, rfl⟩ | ⟨hj, hq⟩ := hcases hq
    · exact (hpropagated.settled_pending hsettled).mono fun x _ => Or.inr
    · have hnarrow := (h.guarded j q hq).settled_narrow hadvance.evolves
        (fun d ho ho' => hj (h.apart _ _ _ _ d hq hran.here ho ho')) (hpropagated.alive rfl)
        (h.settled j q hq)
      refine hnarrow.mono fun x _ hlate => ?_
      rw [hadvance.evolves.pending_iff, ← or_assoc]
      exact hlate
  · obtain ⟨rfl, rfl⟩ | ⟨hj, hq⟩ := hcases hq
    · rw [hpropagated.done rfl] at hne
      exact absurd rfl hne
    · exact hrest hj (h.waiting j q hq hne)
  · obtain ⟨rfl, rfl⟩ | ⟨hj, hq⟩ := hcases hq
    · refine Or.inl (hpropagated.covered rfl ?_)
      exact (h.firm _ p hran.here).symm.imp_left And.left
    · rw [hran.others j q hj hq]
      exact (h.firm j q hq).imp_right fun hfirst => ⟨hfirst.1, hfirst.2.imp_left (hrest hj)⟩

/-- The propagator of a constraint that is due gets a verdict. -/
theorem runOne_cases (h : m.Poised late (c :: rest)) :
    (∃ m', m.runOne c = .ok (.consistent, m') ∧ m'.Poised late rest ∧
      m.store.Lessens m'.store) ∨
    ∃ why m', m.runOne c = .ok (.failed why, m') := by
  have hp := Array.getElem?_eq_getElem (h.due_lt c (List.mem_cons_self ..))
  obtain ⟨verdict, p', m', hret, hran⟩ | ⟨_, _, hnot⟩ := h.toGuarded.runOne_cases hp
  · cases verdict with
    | consistent =>
      exact Or.inl ⟨m', hret, h.of_ran hran, .of_evolves hran.propagated.advance.evolves⟩
    | failed why => exact Or.inr ⟨why, m', hret⟩
  · exact absurd (h.assured hp) hnot

/-! ## Whole runs -/

/-- The steps of a run need no more than this, and have no faults. -/
theorem turns (late : Nat → Prop) : Turns (Poised late) fun _ => False where
  sound h := h.store
  wakes h := by
    obtain ⟨w, hwake⟩ := h.toTallied.exists_wake
    exact ⟨w, hwake, h.wake hwake⟩
  plans hperm h := h.plan hperm [] _
  runs h := h.runOne_cases.imp_right Or.inl

/-- The run of the propagators gets an answer.  If it does not fail, the propagators are settled,
nothing more happens, and only the constraints that were `late` may be without a matching. -/
theorem fixpoint_cases (h : m.Poised late m.scheduled) :
    (∃ m', m.fixpoint = .ok (.consistent, m') ∧ m'.Poised late [] ∧ m'.Quiet) ∨
    ∃ why m', m.fixpoint = .ok (.failed why, m') := by
  obtain hdone | hfailed | ⟨_, _, hfault⟩ := (turns late).fixpoint_cases h
  · exact Or.inl hdone
  · exact Or.inr hfailed
  · exact hfault.elim

/-- After a run that failed, a level can be restored. -/
theorem recoverable_of_fixpoint {verdict : Verdict} (h : m.Poised late m.scheduled)
    (hret : m.fixpoint = .ok (verdict, m')) : m'.Recoverable := by
  have hfollows := (h.toGuarded.fixpoint_obeys hret).toFollows
  refine h.toRecoverable.continue hfollows.continues fun _ _ hp hle => ?_
  exact absurd (hfollows.size_eq ▸ (Array.getElem?_eq_some_iff.1 hp).1) (Nat.not_lt.2 hle)

/-- After a run that did not fail, every value of a constrained variable belongs to a choice. -/
theorem supported (h : m.Poised late []) (hquiet : m.Quiet) {p : AllDifferent}
    (hp : m.propagators[i]? = some p) (hi : ¬ late i) :
    Supported (p.graph.domains m.store) p.graph.varTotal := by
  have hsound := (h.guarded i p hp).toSound
  have hcovered := (h.firm i p hp).resolve_right
    fun hfirst => hfirst.2.elim List.not_mem_nil hi
  have hsupported := (h.toTended.calm hquiet hp).supported hsound.within hsound.shows.matched
    hsound.shows.fits hcovered
  exact hsupported.congr fun x hx => (shown_domains hx).symm

end Poised

end FiniteDomain.Model
