import FiniteDomain.Proofs.Model.GivenBack
import FiniteDomain.Proofs.Model.Ending

/-!
# What is reported as a solution

A search shows a model to its observer where it finds no decision.

* `Search.Settled` says what is known of such a model: the decision variables are fixed, or one of
  them has no value.  `settled_of_decide?` shows it for both ways to decide.
* `explore_congr` says that it does not matter what the observer answers on other models, and
  `explore_counts` that whatever holds of a tally at first and is kept by counting holds at the end.
* `Model.Reachable.reports_settled` is the result.
* `Model.empty_domain_reported` is the search that reports a solution although its decision variable
  is not fixed.  The variable never had a value.
-/

namespace FiniteDomain

open Tame

variable {π ρ : Type}

namespace Search

/-- The decision variables are fixed, or one of them has no value. -/
def Settled (q : Search) (m : Model π) : Prop :=
  (∀ x ∈ q.vars, m.store.isFixed x = .ok true) ∨ ∃ x ∈ q.vars, m.store.size x = .ok 0

variable {q : Search} {m m' : Model π} {t t' : Tally ρ}
  {observe observe' : Model π → Except Fault ρ} {stop : Bool}

/-! ## Where there is no decision -/

theorem settled_of_firstFail? (h : m.store.Sound) (hret : q.firstFail? m = .ok none) :
    q.Settled m := by
  obtain ⟨smallest, hsmallest, _⟩ := bind_eq_ok_iff.1 hret
  have hvars := lt_of_smallest? hsmallest
  obtain ⟨_, hfixed | ⟨x, hx, hempty⟩⟩ | ⟨x, _, v, heq, _⟩ | ⟨x, _, fault, _, heq⟩ :=
    firstFail?_cases h hvars
  · refine Or.inl fun x hx => ?_
    rw [Store.isFixed, Store.size_eq h (hvars x hx), hfixed x hx]
    rfl
  · refine Or.inr ⟨x, hx, ?_⟩
    rw [Store.size_eq h (hvars x hx), hempty, Finset.card_empty]
  · cases heq.symm.trans hret
  · cases heq.symm.trans hret

variable [Propagator π]

/-- A hint is a decision, so that first fail was asked. -/
theorem settled_of_decide? (h : m.store.Sound) (hret : q.decide? m = .ok none) : q.Settled m := by
  rw [decide?] at hret
  cases hbranching : q.branching with
  | firstFail =>
    rw [hbranching] at hret
    exact settled_of_firstFail? h hret
  | hinted =>
    rw [hbranching] at hret
    obtain ⟨decision, _, hret⟩ := bind_eq_ok_iff.1 hret
    cases decision with
    | none => exact settled_of_firstFail? h hret
    | some decision => cases hret

/-! ## What is counted -/

variable {P : Tally ρ → Prop}

theorem branch_counts {go : Model π → Tally ρ → Except Fault (Bool × Model π × Tally ρ)}
    {narrow : Model π → Except Fault (Verdict × Model π)}
    (hfailed : ∀ t, P t → P t.failed)
    (hgo : ∀ {m t stop m' t'}, P t → go m t = .ok (stop, m', t') → P t') (ht : P t)
    (hret : branch go narrow m t = .ok (stop, m', t')) : P t' := by
  obtain ⟨⟨_ | why, m₁⟩, _, hret⟩ := bind_eq_ok_iff.1 hret
  · obtain ⟨⟨stop₁, m₂, t₂⟩, hbelow, hret⟩ := bind_eq_ok_iff.1 hret
    obtain ⟨m₃, _, heq⟩ := bind_eq_ok_iff.1 hret
    cases heq
    exact hgo ht hbelow
  · obtain ⟨m₃, _, heq⟩ := bind_eq_ok_iff.1 hret
    cases heq
    exact hfailed t ht

/-- What holds of a tally holds after a part of a search, if counting keeps it.  The induction is on
the turns. -/
theorem explore_counts {fuel : Nat} (hvisited : ∀ t, P t → P t.visited)
    (hfailed : ∀ t, P t → P t.failed)
    (hsolved : ∀ t m report, P t → observe m = .ok report → P (t.solved report)) (ht : P t)
    (hret : q.explore observe fuel m t = .ok (stop, m', t')) : P t' := by
  induction fuel generalizing m t stop m' t' with
  | zero => cases hret
  | succ fuel ih =>
    rw [explore] at hret
    obtain ⟨_ | ⟨x, v⟩, _, hret⟩ := bind_eq_ok_iff.1 hret
    · obtain ⟨report, hobserve, heq⟩ := bind_eq_ok_iff.1 hret
      cases heq
      exact hsolved _ m report (hvisited t ht) hobserve
    · obtain ⟨⟨_ | _, m₁, t₁⟩, hleft, hret⟩ := bind_eq_ok_iff.1 hret
      · have ht₁ := branch_counts hfailed ih (hvisited t ht) hleft
        exact branch_counts hfailed ih ht₁ hret
      · cases hret
        exact branch_counts hfailed ih (hvisited t ht) hleft

/-- Each solution that is counted was reported, with an answer of the observer. -/
theorem solve_counts (hret : q.solve observe m = .ok (t, m')) :
    t.reports.size = t.solutions ∧ ∀ report ∈ t.reports, ∃ m₁, observe m₁ = .ok report := by
  let Told (t : Tally ρ) : Prop :=
    t.reports.size = t.solutions ∧ ∀ report ∈ t.reports, ∃ m₁, observe m₁ = .ok report
  have hzero : Told .zero := ⟨rfl, fun report hmem => absurd hmem (Array.not_mem_empty report)⟩
  obtain ⟨⟨_ | why, m₁⟩, _, hret⟩ := bind_eq_ok_iff.1 hret
  · obtain ⟨⟨stop, m₂, t₂⟩, hbelow, hret⟩ := bind_eq_ok_iff.1 hret
    obtain ⟨m₃, _, heq⟩ := bind_eq_ok_iff.1 hret
    cases heq
    refine explore_counts (P := Told) (fun _ ht => ht) (fun _ ht => ht) ?_ hzero hbelow
    intro t m report ⟨hsize, hreports⟩ hobserve
    refine ⟨by simp [Tally.solved, hsize], fun report' hmem => ?_⟩
    obtain hmem | rfl := Array.mem_push.1 hmem
    · exact hreports report' hmem
    · exact ⟨m, hobserve⟩
  · cases hret
    exact hzero

/-! ## What the observer is asked -/

variable [Tame π]

/-- A branch that is explored in two ways, which are the same on orderly models. -/
theorem branch_congr (hm : m.Orderly)
    {go go' : Model π → Tally ρ → Except Fault (Bool × Model π × Tally ρ)} (a : Attempt)
    (hgo : ∀ m₁ t, m₁.Orderly → go m₁ t = go' m₁ t) (t : Tally ρ) :
    branch go (·.apply (.attempt a)) m t = branch go' (·.apply (.attempt a)) m t := by
  unfold branch
  cases hattempt : attempt (·.apply (.attempt a)) m.save with
  | error fault => rfl
  | ok r =>
    obtain ⟨_ | why, m₁⟩ := r
    · rw [ok_bind, ok_bind]
      dsimp only
      rw [hgo m₁ t (hm.save.stays_attempt hattempt).orderly]
    · rfl

/-- A part of a search depends only on what the observer answers on settled models.  The induction is
on the turns. -/
theorem explore_congr (hm : m.Orderly) (hobserve : ∀ m₁, q.Settled m₁ → observe' m₁ = observe m₁)
    (fuel : Nat) (t : Tally ρ) : q.explore observe' fuel m t = q.explore observe fuel m t := by
  induction fuel generalizing m t with
  | zero => rfl
  | succ fuel ih =>
    rw [explore, explore]
    cases hdecide : q.decide? m with
    | error fault => rfl
    | ok decision =>
      rw [ok_bind, ok_bind]
      obtain _ | ⟨x, v⟩ := decision
      · dsimp only
        rw [hobserve m (settled_of_decide? hm.store hdecide)]
      · have hgo : ∀ (m₁ : Model π) (t : Tally ρ), m₁.Orderly →
            q.explore observe' fuel m₁ t = q.explore observe fuel m₁ t := fun m₁ t hm₁ => ih hm₁ t
        have hleft : branch (q.explore observe' fuel) (·.fix x v) m t.visited =
            branch (q.explore observe fuel) (·.fix x v) m t.visited :=
          branch_congr hm (.fix x v) hgo t.visited
        dsimp only
        rw [hleft]
        cases hret : branch (q.explore observe fuel) (·.fix x v) m t.visited with
        | error fault => rfl
        | ok r =>
          obtain ⟨_ | _, m₁, t₁⟩ := r
          · obtain ⟨n, hback⟩ := branch_back (a := .fix x v) hm hret
            exact branch_congr hback.orderly (.remove x v) hgo t₁
          · rfl

end Search

namespace Model

variable [Propagator π] [Tame π] {m : Model π}

/-- A search calls its observer only on models whose decision variables are fixed or of which one has
no value: on other models it does not matter what the observer answers.  It counts a solution for each
answer. -/
theorem Reachable.reports_settled (h : m.Reachable) (q : Search)
    (observe : Model π → Except Fault ρ) :
    (∀ observe' : Model π → Except Fault ρ,
      (∀ m₁, q.Settled m₁ → observe' m₁ = observe m₁) → q.solve observe' m = q.solve observe m) ∧
    ∀ t m', q.solve observe m = .ok (t, m') → t.reports.size = t.solutions ∧
      ∀ report ∈ t.reports, ∃ m₁, q.Settled m₁ ∧ observe m₁ = .ok report := by
  have hcongr : ∀ observe' : Model π → Except Fault ρ,
      (∀ m₁, q.Settled m₁ → observe' m₁ = observe m₁) →
        q.solve observe' m = q.solve observe m := by
    intro observe' hobserve
    cases hfixpoint : m.fixpoint with
    | error fault => rw [Search.solve, Search.solve, hfixpoint, error_bind, error_bind]
    | ok r =>
      obtain ⟨_ | why, m₁⟩ := r
      · have hm₁ := (h.orderly.fixpoint hfixpoint).orderly
        rw [Search.solve_of_fixpoint hfixpoint, Search.solve_of_fixpoint hfixpoint]
        generalize m₁.capacity + Word.countBound = fuel
        rw [Search.explore_congr hm₁.save hobserve fuel]
      · rw [Search.solve_of_failed hfixpoint, Search.solve_of_failed hfixpoint]
  refine ⟨hcongr, fun t m' hret => ?_⟩
  -- An observer that answers on settled models only.
  classical
  let strict : Model π → Except Fault ρ :=
    fun m₁ => if q.Settled m₁ then observe m₁ else .error .outOfFuel
  have hstrict := hcongr strict fun m₁ hm₁ => if_pos hm₁
  obtain ⟨hsize, hreports⟩ := Search.solve_counts (hstrict.trans hret)
  refine ⟨hsize, fun report hmem => ?_⟩
  obtain ⟨m₁, hobserve⟩ := hreports report hmem
  by_cases hm₁ : q.Settled m₁
  · exact ⟨m₁, hm₁, (if_pos hm₁).symm.trans hobserve⟩
  · cases (if_neg hm₁).symm.trans hobserve

theorem Reachable.reports_settled_contested : ∃ m t m',
    (Model.empty .lastFirst).applyAll contested = .ok m ∧
    Search.solve ⟨[⟨0⟩, ⟨1⟩], .hinted, none⟩ (fun m => m.store.isFixed ⟨0⟩) m = .ok (t, m') ∧
    t.solutions = 2 ∧ t.reports = #[true, true] ∧
    ∀ report ∈ t.reports, ∃ m₁ : Model Rule,
      Search.Settled ⟨[⟨0⟩, ⟨1⟩], .hinted, none⟩ m₁ ∧ m₁.store.isFixed ⟨0⟩ = .ok report := by
  have hrun : ((Model.empty .lastFirst).applyAll contested >>= fun m =>
      Search.solve ⟨[⟨0⟩, ⟨1⟩], .hinted, none⟩ (fun m => m.store.isFixed ⟨0⟩) m >>= fun found =>
        .ok (found.1.solutions, found.1.reports)) = .ok (2, #[true, true]) := by decide +kernel
  obtain ⟨m, hm, hrun⟩ := bind_eq_ok_iff.1 hrun
  obtain ⟨⟨t, m'⟩, hret, heq⟩ := bind_eq_ok_iff.1 hrun
  simp only [Except.ok.injEq, Prod.mk.injEq] at heq
  obtain ⟨hsolutions, hreports⟩ := heq
  exact ⟨m, t, m', hm, hret, hsolutions, hreports,
    (((Reachable.of_applyAll welcome_contested hm).reports_settled _ _).2 t m' hret).2⟩

/-- A variable that never had a value is not fixed, and there is nothing to decide about it. -/
theorem empty_domain_reported : ∃ m : Model Rule, m.Reachable ∧ ∃ t m',
    Search.solve ⟨[⟨0⟩], .firstFail, none⟩ (fun m => m.store.isFixed ⟨0⟩) m = .ok (t, m') ∧
    t.solutions = 1 ∧ t.reports = #[false] := by
  have hrun : ((Model.empty .lastFirst : Model Rule).applyAll [.declare (.primitive 3 1)] >>= fun m =>
      Search.solve ⟨[⟨0⟩], .firstFail, none⟩ (fun m => m.store.isFixed ⟨0⟩) m >>= fun found =>
        .ok (found.1.solutions, found.1.reports)) = .ok (1, #[false]) := by decide +kernel
  obtain ⟨m, hm, hrun⟩ := bind_eq_ok_iff.1 hrun
  obtain ⟨⟨t, m'⟩, hret, heq⟩ := bind_eq_ok_iff.1 hrun
  simp only [Except.ok.injEq, Prod.mk.injEq] at heq
  have hreachable := Reachable.of_applyAll (Welcome.of_posts (List.forall_mem_nil _)) hm
  exact ⟨m, hreachable, t, m', hret, heq⟩

end Model

end FiniteDomain
