import FiniteDomain.Proofs.Model.Decisions
import FiniteDomain.Proofs.Model.Searching
import FiniteDomain.Proofs.Model.Steady

/-!
# Searches end

A search in a model of steady propagators ends, whatever variables it decides on and whatever the
propagators suggest.  A decision is made only if it splits the values of its variable, so that the
domains weigh less on both branches.

* `Search.returns_decide?` and `Search.splits_of_decide?` are about decisions on any variables.
* `Model.Orderly.opens` says what becomes of a branch, and `Search.nodes` gathers what is known of
  the nodes.
* `Model.Orderly.returns_solve` is about a whole search, and `Model.Orderly.halts_explore` says that
  the weight of the domains bounds its depth.
-/

namespace FiniteDomain

open Tame

namespace Search

variable {π ρ : Type} {q : Search} {m : Model π} {s : Store} {x : Var} {v : Int}

/-! ## Decisions on any variables -/

theorem returns_smallest? (h : s.Sound) (vars : List Var) (best : Option (Var × Nat)) :
    Returns (smallest? s vars best) := by
  induction vars generalizing best with
  | nil => exact .ok best
  | cons x rest ih => exact (Store.returns_size h x).bind fun _ _ => ih _

/-- First fail looks at all variables, so that it faults unless they exist. -/
theorem lt_of_smallest? {vars : List Var} {best answer : Option (Var × Nat)}
    (hret : smallest? s vars best = .ok answer) : ∀ x ∈ vars, x.index < s.definitions.size := by
  induction vars generalizing best with
  | nil => exact fun x hx => absurd hx List.not_mem_nil
  | cons x rest ih =>
    obtain ⟨size, hsize, hret⟩ := bind_eq_ok_iff.1 hret
    exact List.forall_mem_cons.2 ⟨Store.lt_of_size hsize, ih hret⟩

theorem returns_firstFail? (h : m.store.Sound) (q : Search) : Returns (q.firstFail? m) := by
  refine (returns_smallest? h q.vars none).bind fun smallest _ => ?_
  cases smallest with
  | none => exact .ok none
  | some pair =>
    refine (Store.returns_bound? h .lower pair.1).bind fun least _ => ?_
    cases least with
    | none => exact .ok none
    | some v => exact .ok _

theorem splits_of_firstFail? (h : m.store.Sound) (hret : q.firstFail? m = .ok (some (x, v))) :
    m.store.Splits x v := by
  obtain ⟨smallest, hsmallest, _⟩ := bind_eq_ok_iff.1 hret
  obtain ⟨heq, _⟩ | ⟨y, _, u, heq, hsplits, _⟩ | ⟨_, _, fault, _, heq⟩ :=
    firstFail?_cases h (lt_of_smallest? hsmallest)
  · cases heq.symm.trans hret
  · cases heq.symm.trans hret
    exact hsplits
  · cases heq.symm.trans hret

variable [Propagator π]

theorem returns_hinted? (h : m.store.Sound) (hhint : Returns m.hint?) : Returns (hinted? m) := by
  refine hhint.bind fun hint _ => ?_
  cases hint with
  | none => exact .ok none
  | some hint =>
    refine (Store.returns_isFixed h hint.var).bind fun fixed _ => ?_
    split
    · exact .ok none
    · refine (Store.returns_contains h hint.var hint.value).bind fun has _ => ?_
      split
      · exact .ok _
      · exact .ok none

/-- A decision can be asked for, whether the variables exist or not. -/
theorem returns_decide? (h : m.store.Sound) (hhint : Returns m.hint?) (q : Search) :
    Returns (q.decide? m) := by
  rw [decide?]
  cases q.branching with
  | firstFail => exact returns_firstFail? h q
  | hinted =>
    refine (returns_hinted? h hhint).bind fun decision _ => ?_
    cases decision with
    | none => exact returns_firstFail? h q
    | some decision => exact .ok _

/-- Whatever was suggested, a decision splits the values of its variable. -/
theorem splits_of_decide? (h : m.store.Sound) (hret : q.decide? m = .ok (some (x, v))) :
    m.store.Splits x v := by
  rw [decide?] at hret
  cases hbranching : q.branching with
  | firstFail =>
    rw [hbranching] at hret
    exact splits_of_firstFail? h hret
  | hinted =>
    rw [hbranching] at hret
    obtain ⟨decision, hhinted, hret⟩ := bind_eq_ok_iff.1 hret
    cases decision with
    | none => exact splits_of_firstFail? h hret
    | some decision =>
      cases hret
      exact (hinted?_spec h hhinted).1

/-! ## Turns to spare -/

/-- A branch does the same with one turn more, if its node does. -/
theorem branch_succ {observe : Model π → Except Fault ρ} {fuel : Nat}
    {narrow : Model π → Except Fault (Verdict × Model π)} {t : Tally ρ}
    (hgo : ∀ (m₁ : Model π) (t : Tally ρ), q.explore observe fuel m₁ t ≠ .error .outOfFuel →
      q.explore observe (fuel + 1) m₁ t = q.explore observe fuel m₁ t)
    (h : branch (q.explore observe fuel) narrow m t ≠ .error .outOfFuel) :
    branch (q.explore observe (fuel + 1)) narrow m t =
      branch (q.explore observe fuel) narrow m t := by
  unfold branch at h ⊢
  generalize attempt narrow m.save = attempted at h ⊢
  obtain fault | ⟨_ | why, m₁⟩ := attempted
  · rfl
  · rw [ok_bind] at h ⊢
    dsimp only at h ⊢
    rw [ok_bind, hgo m₁ t fun heq => h (by rw [heq, error_bind])]
  · rfl

/-- A node that does not want for turns does the same with one more. -/
theorem explore_succ {observe : Model π → Except Fault ρ} {fuel : Nat} {t : Tally ρ}
    (h : q.explore observe fuel m t ≠ .error .outOfFuel) :
    q.explore observe (fuel + 1) m t = q.explore observe fuel m t := by
  induction fuel generalizing m t with
  | zero => exact absurd rfl h
  | succ fuel ih =>
    rw [explore] at h
    rw [explore, explore]
    generalize q.decide? m = decision at h ⊢
    obtain fault | _ | ⟨x, v⟩ := decision
    · rfl
    · rfl
    · rw [ok_bind] at h
      rw [ok_bind, ok_bind]
      dsimp only at h ⊢
      have hleft : branch (q.explore observe fuel) (·.fix x v) m t.visited ≠ .error .outOfFuel :=
        fun heq => h (by rw [heq, error_bind])
      rw [branch_succ (fun _ _ => ih) hleft]
      generalize branch (q.explore observe fuel) (·.fix x v) m t.visited = left at h ⊢
      obtain fault | ⟨_ | _, m₁, t₁⟩ := left
      · rfl
      · rw [ok_bind] at h
        rw [ok_bind, ok_bind]
        exact branch_succ (fun _ _ => ih) h
      · rfl

end Search

/-! ## Nodes -/

namespace Model

variable {π : Type} [Propagator π] {m : Model π}

theorem returns_bestHint? {s : Store} {ps : List π}
    (h : ∀ p ∈ ps, Returns (Propagator.hint? p s)) (best : Option Hint) :
    Returns (bestHint? s ps best) := by
  induction ps generalizing best with
  | nil => exact .ok best
  | cons p rest ih =>
    obtain ⟨hp, hrest⟩ := List.forall_mem_cons.1 h
    rw [bestHint?]
    refine hp.bind fun hint _ => ?_
    obtain _ | hint := hint
    · exact ih hrest best
    · obtain _ | other := best
      · exact ih hrest _
      · exact ih hrest _

namespace Orderly

variable [Tame π] [Steady π]

theorem returns_hint? (h : m.Orderly) : Returns m.hint? := by
  refine returns_bestHint? (fun p hp => ?_) none
  obtain ⟨i, hi⟩ := Array.mem_iff_getElem?.1 (Array.mem_toList_iff.1 hp)
  exact Steady.hints (h.fits i p hi)

/-- A domain is limited on a level of its own, and the propagators run. -/
theorem opens (h : m.Orderly) {narrow : Store → Except Fault (Verdict × Store)} {x : Var}
    {P : Int → Prop} (hreturns : Returns (narrow m.save.store))
    (hlimits : ∀ verdict s, narrow m.save.store = .ok (verdict, s) →
      verdict = .consistent ∧ ∃ b, m.save.store.Limits x P b s) :
    Search.Opens Orderly Orderly (fun f => ¬ f.Endless) (·.onStore narrow) m := by
  cases hret : narrow m.save.store with
  | error fault =>
    refine Or.inr (Or.inr ⟨fault, ?_, hreturns fault hret⟩)
    rw [Search.attempt, onStore, hret]
    rfl
  | ok answer =>
    obtain ⟨verdict, s⟩ := answer
    obtain ⟨rfl, b, hlimits⟩ := hlimits verdict s hret
    have horderly := h.save.of_evolves hlimits.evolves
    have hkeeps : m.save.Keeps { m.save with store := s } :=
      .of_store (.of_evolves h.save.store hlimits.evolves)
    have hattempt : Search.attempt (·.onStore narrow) m.save =
        ({ m.save with store := s } : Model π).fixpoint := by
      rw [Search.attempt, onStore_eq_ok_iff.2 ⟨s, hret, rfl⟩, ok_bind]
    rw [Search.Opens, hattempt]
    obtain ⟨m₁, hrun, ⟨hm₁, hle⟩, _⟩ | ⟨why, m₁, hrun⟩ | hfaults :=
      (turns (π := π) s.weight).fixpoint_cases ⟨horderly, Nat.le_refl _⟩
    · exact Or.inl ⟨m₁, hrun, hm₁, hkeeps.trans (horderly.fixpoint hrun).keeps,
        Nat.lt_of_le_of_lt hle hlimits.weight_lt⟩
    · have hstays := horderly.fixpoint hrun
      exact Or.inr (Or.inl ⟨why, m₁, hrun, hstays.orderly, hkeeps.trans hstays.keeps⟩)
    · exact Or.inr (Or.inr hfaults)

end Orderly

end Model

namespace Search

open Model

variable {π ρ : Type} [Propagator π] [Tame π] [Steady π] {m : Model π}
  {observe : Model π → Except Fault ρ}

/-- Every search recounts that there are nodes. -/
theorem recounts_trivial {π : Type} [Propagator π] (q : Search)
    (observe : Model π → Except Fault ρ) (I : Model π → Prop) :
    Recounts q observe I fun _ _ _ _ => True :=
  ⟨fun _ _ _ => trivial, fun _ _ _ => trivial, fun _ _ _ _ _ _ => trivial⟩

/-- What is known of the nodes of a search: on both branches of a decision the domains weigh
less. -/
theorem nodes (q : Search) (hobserve : ∀ m, m.Orderly → Returns (observe m)) :
    Nodes q observe Orderly Orderly fun f => ¬ f.Endless where
  tallied h := h.toTallied
  node h := h
  saves h := h.save
  decides {m} h := by
    cases hdecide : q.decide? m with
    | error fault =>
      exact Or.inl ⟨fault, rfl, returns_decide? h.store h.returns_hint? q fault hdecide⟩
    | ok decision =>
      obtain _ | ⟨x, v⟩ := decision
      · exact Or.inr (Or.inl rfl)
      have hsplits := splits_of_decide? h.store hdecide
      refine Or.inr (Or.inr ⟨x, v, rfl, fun m' hresumed h' => ?_⟩)
      obtain ⟨hx, hmem, hmore⟩ := hsplits.resumed hresumed.resumed
      have hsplits' : m'.save.store.Splits x v := ⟨hx, hmem, hmore⟩
      have hsound := h'.save.store
      exact ⟨h'.opens (Store.returns_fix hsound x v) fun _ _ => hsplits'.of_fix hsound,
        h'.opens (Store.returns_remove hsound x v) fun _ _ => hsplits'.of_remove hsound⟩
  observes {m} hm := by
    cases hret : observe m with
    | error fault => exact Or.inr ⟨fault, rfl, hobserve m hm fault hret⟩
    | ok r => exact Or.inl ⟨r, rfl⟩
  restores _ h₁ _ hret := (h₁.restore hret).1

end Search

namespace Model.Orderly

open Search

variable {π ρ : Type} [Propagator π] [Tame π] [Steady π] {m : Model π}
  {observe : Model π → Except Fault ρ}

/-- The search below a node ends, and is at most as deep as its domains weigh. -/
theorem halts_explore (h : m.Orderly) (q : Search) (hobserve : ∀ m, m.Orderly → Returns (observe m))
    (t : Tally ρ) : Halts (m.store.weight + 1) fun fuel => q.explore observe fuel m t := by
  refine .of_succ (fun _ => explore_succ) ?_
  obtain ⟨_, _, _, hret, _⟩ | ⟨fault, hret, hfault⟩ :=
    (nodes q hobserve).explore_cases (recounts_trivial q observe Orderly) h (Nat.lt_succ_self _) t
  · exact .of_eq hret
  · exact hret ▸ .error hfault

/-- A search ends, whatever happened before, whatever is scheduled and in whatever order constraints
run. -/
theorem returns_solve (h : m.Orderly) {events : Array Event}
    (hevents : events.map Event.var = m.store.events.map Event.var)
    (scheduled : List Constraint) (order : DrainOrder) (rounds : Nat) (q : Search)
    (hobserve : ∀ m, m.Orderly → Returns (observe m)) :
    Returns (q.solve observe (m.primed events scheduled order rounds)) := by
  obtain ⟨m', hrun, ⟨hm', _⟩, _⟩ | ⟨why, m', hrun⟩ | ⟨fault, hrun, hfault⟩ :=
    h.concludes_fixpoint scheduled order rounds hevents
  · obtain ⟨_, _, _, hret, _⟩ | ⟨fault, hret, hfault⟩ :=
      (nodes q hobserve).solve_cases (recounts_trivial q observe Orderly) hrun hm'
    · exact .of_eq hret
    · exact hret ▸ .error hfault
  · rw [solve, hrun]
    exact .ok _
  · rw [solve, hrun]
    exact .error hfault

end Model.Orderly

end FiniteDomain
