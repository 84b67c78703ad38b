import FiniteDomain.Proofs.AllDifferent.Hints
import FiniteDomain.Proofs.AllDifferent.Tame
import FiniteDomain.Proofs.Model.Steady

/-!
# The loop of an all different propagator begins again

A run of the propagator is a loop that begins again after deductions.  Each time it does so, the
graph loses an edge when it is brought in line with the domains, so that the loop ends.

* `BeginsAgain` is one pass of the loop, and `Restarts` says with which states the loop of a run
  begins again.
* `Restarts.edges_lt` counts the edges, and `Guarded.halts` bounds the passes.
* All different propagators are `Steady`.
-/

namespace FiniteDomain

open AllDifferent ValueGraph

namespace AllDifferent

variable {p p' p₁ p₂ : AllDifferent} {s s' s₁ s₂ : Store} {verdict : Verdict} {changes : Changes}
  {seen : Frame → Prop}

/-! ## Turns to spare -/

/-- A loop that does not want for turns does the same with one more. -/
theorem run_succ {fuel : Nat} {forced repeated : Bool}
    (h : run fuel forced repeated p s ≠ .error .outOfFuel) :
    run (fuel + 1) forced repeated p s = run fuel forced repeated p s := by
  induction fuel generalizing forced repeated p s with
  | zero => exact absurd rfl h
  | succ fuel ih =>
    rw [run] at h
    rw [run, run]
    generalize p.graph.liveEdges s = counted at h ⊢
    obtain fault | before := counted
    · rw [error_bind, error_bind]
    rw [ok_bind] at h
    rw [ok_bind, ok_bind]
    generalize p.synchronize s = synchronized at h ⊢
    obtain fault | ⟨_ | why, changes, p₁, s₁⟩ := synchronized
    · rw [error_bind, error_bind]
    · rw [ok_bind] at h
      rw [ok_bind, ok_bind]
      dsimp only at h ⊢
      by_cases hsame : (!forced && changes.isEmpty) = true
      · rw [if_pos hsame, if_pos hsame]
      rw [if_neg hsame] at h
      rw [if_neg hsame, if_neg hsame]
      generalize p₁.graph.liveEdges s₁ = counted at h ⊢
      obtain fault | after := counted
      · rw [error_bind, error_bind]
      rw [ok_bind] at h
      rw [ok_bind, ok_bind]
      by_cases hidle : (repeated && decide (before ≤ after)) = true
      · rw [if_pos hidle, if_pos hidle]
      rw [if_neg hidle] at h
      rw [if_neg hidle, if_neg hidle]
      generalize p₁.filter changes s₁ = filtered at h ⊢
      obtain fault | ⟨_ | why, _ | _, p₂, s₂⟩ := filtered
      · rw [error_bind, error_bind]
      · rw [ok_bind, ok_bind]
      · rw [ok_bind] at h
        rw [ok_bind, ok_bind]
        exact ih h
      · rw [ok_bind, ok_bind]
      · rw [ok_bind, ok_bind]
    · rw [ok_bind, ok_bind]

/-! ## The loop begins again -/

/-- A pass of the loop, with all steps if it is `forced`, makes deductions, and leaves the
propagator `p'` and the store `s'` with which the loop begins again. -/
def BeginsAgain (forced : Bool) (p : AllDifferent) (s : Store) (p' : AllDifferent) (s' : Store) :
    Prop :=
  ∃ changes p₁ s₁, p.synchronize s = .ok (.consistent, changes, p₁, s₁) ∧
    (!forced && changes.isEmpty) = false ∧
    p₁.filter changes s₁ = .ok (.consistent, true, p', s')

/-- The loop of a run begins again with the propagator `p'` and the store `s'`. -/
inductive Restarts (p : AllDifferent) (s : Store) : AllDifferent → Store → Prop
  | first {p' : AllDifferent} {s' : Store}
      (h : BeginsAgain (!p.ready) { p with work := p.alarm } s p' s') : Restarts p s p' s'
  | again {p₁ p' : AllDifferent} {s₁ s' : Store} (h' : BeginsAgain false p₁ s₁ p' s') :
      Restarts p s p₁ s₁ → Restarts p s p' s'

/-- The steps of a pass after which the loop begins again. -/
theorem BeginsAgain.deduced {forced : Bool} (h : BeginsAgain forced p s p' s') (hp : p.Sound s)
    (hhonest : (p.shown s).Honest) : ∃ changes p₁ s₁ p₂ s₂,
      Synchronized p s .consistent changes p₁ s₁ ∧ Prepared p₁ s₁ changes p₂ s₂ ∧
        Deduced p₂ s₂ .consistent true p' s' := by
  obtain ⟨changes, p₁, s₁, hsynchronize, _, hfilter⟩ := h
  obtain ⟨_, _, _, _, hret, hsync⟩ := synchronize_eq hp
  cases hsynchronize.symm.trans hret
  obtain ⟨_, _, hret, _⟩ | ⟨p₂, s₂, hret, hprepared⟩ | ⟨_, hfails, _⟩ :=
    filter_cases hsync.advance.sound changes hsync.touched_lt (hsync.sane hhonest)
  · cases hfilter.symm.trans hret
  · obtain ⟨_, _, _, _, hdeduce, hdeduced⟩ :=
      deduce_eq hprepared.advance.sound hprepared.located hprepared.honest
    cases hfilter.symm.trans (hret.trans hdeduce)
    exact ⟨_, _, _, _, _, hsync, hprepared, hdeduced⟩
  · rw [hfilter] at hfails
    exact hfails.elim (fun hfault => by cases hfault) fun hfault => by cases hfault

/-- When the loop begins again, an edge is stale. -/
theorem BeginsAgain.stale {forced : Bool} (h : BeginsAgain forced p s p' s') (hp : p.Sound s)
    (hhonest : (p.shown s).Honest) : p'.Sound s' ∧ (p'.shown s').Honest ∧ p'.Stale s' := by
  obtain ⟨_, _, _, _, _, _, _, hdeduced⟩ := h.deduced hp hhonest
  exact ⟨hdeduced.advance.sound, hdeduced.honest, hdeduced.stale rfl rfl⟩

/-- The loop goes on as it begins again. -/
theorem BeginsAgain.run_eq {forced repeated : Bool} (h : BeginsAgain forced p s p' s')
    (hp : p.Sound s) (hstale : repeated = true → p.Stale s) (fuel : Nat) :
    run (fuel + 1) forced repeated p s = run fuel false true p' s' := by
  obtain ⟨changes, p₁, s₁, hsynchronize, hmore, hfilter⟩ := h
  obtain ⟨_, _, _, _, hret, hsync⟩ := synchronize_eq hp
  cases hsynchronize.symm.trans hret
  have hprogress : ¬ (repeated && decide (p.edges s ≤ p₁.edges s₁)) = true := by
    rw [Bool.and_eq_true, decide_eq_true_eq]
    rintro ⟨hrepeated, hle⟩
    exact absurd (hsync.edges_lt (hstale hrepeated)) (Nat.not_lt.2 hle)
  rw [run, hp.graph.liveEdges_eq, ok_bind, hsynchronize, ok_bind]
  dsimp only
  rw [if_neg (by rw [hmore]; exact Bool.false_ne_true),
    hsync.advance.sound.graph.liveEdges_eq, ok_bind]
  rw [edges, edges] at hprogress
  rw [if_neg hprogress, hfilter, ok_bind]

namespace Restarts

theorem stale (h : p.Restarts s p' s') (hp : p.Sound s) (hhonest : (p.shown s).Honest) :
    p'.Sound s' ∧ (p'.shown s').Honest ∧ p'.Stale s' := by
  induction h with
  | first h => exact h.stale (Advance.alarm hp).sound hhonest
  | again h' _ ih =>
    obtain ⟨hsound, hhonest, _⟩ := ih
    exact h'.stale hsound hhonest

/-- The graph loses an edge when the loop begins again. -/
theorem edges_lt (h : p.Restarts s p₁ s₁) (hp : p.Sound s) (hhonest : (p.shown s).Honest)
    (hret : p₁.synchronize s₁ = .ok (.consistent, changes, p₂, s₂)) :
    p₂.graph.liveEdges s₂ = .ok (p₂.edges s₂) ∧ p₁.graph.liveEdges s₁ = .ok (p₁.edges s₁) ∧
      p₂.edges s₂ < p₁.edges s₁ := by
  obtain ⟨hsound, _, hstale⟩ := h.stale hp hhonest
  obtain ⟨_, _, _, _, hret', hsync⟩ := synchronize_eq hsound
  cases hret.symm.trans hret'
  exact ⟨hsync.advance.sound.graph.liveEdges_eq, hsound.graph.liveEdges_eq, hsync.edges_lt hstale⟩

/-- After some turns a run has come to where its loop begins again. -/
theorem exists_run_eq (h : p.Restarts s p' s') (hp : p.Sound s) (hhonest : (p.shown s).Honest) :
    ∃ turns, ∀ fuel, run (fuel + turns) (!p.ready) false { p with work := p.alarm } s =
      run fuel false true p' s' := by
  induction h with
  | first h => exact ⟨1, h.run_eq (Advance.alarm hp).sound nofun⟩
  | again h' h ih =>
    obtain ⟨turns, hrun⟩ := ih
    obtain ⟨hsound, _, hstale⟩ := h.stale hp hhonest
    refine ⟨turns + 1, fun fuel => ?_⟩
    rw [← Nat.add_assoc, Nat.add_right_comm, hrun]
    exact h'.run_eq hsound (fun _ => hstale) fuel

end Restarts

/-! ## The loop ends -/

/-- The loop of a run ends.  When it begins again, it goes on from there, and the number of live
edges falls. -/
structure Ends (p : AllDifferent) (s : Store) : Prop where
  returns : Returns (p.propagate s)
  halts : Halts (p.edges s + 2) fun fuel =>
    run fuel (!p.ready) false { p with work := p.alarm } s
  goes_on : ∀ p₁ s₁, p.Restarts s p₁ s₁ →
    ∀ fuel, p.edges s + 2 ≤ fuel → run fuel false true p₁ s₁ = p.propagate s
  falls : ∀ p₁ s₁, p.Restarts s p₁ s₁ → ∀ changes p₂ s₂,
    p₁.synchronize s₁ = .ok (.consistent, changes, p₂, s₂) →
      p₂.graph.liveEdges s₂ = .ok (p₂.edges s₂) ∧ p₁.graph.liveEdges s₁ = .ok (p₁.edges s₁) ∧
        p₂.edges s₂ < p₁.edges s₁

theorem CheckFails.returns {α : Type} {x : Except Fault α} (h : CheckFails x) : Returns x := by
  obtain rfl | rfl := h
  · exact .error (by decide)
  · exact .error (by decide)

namespace Guarded

theorem halts (h : p.Guarded s seen) : Halts (p.edges s + 2) fun fuel =>
    run fuel (!p.ready) false { p with work := p.alarm } s := by
  refine .of_succ (fun _ => run_succ) ?_
  obtain ⟨_, _, _, hret, _⟩ | ⟨_, hfails, _⟩ := run_cases _ (!p.ready) false
    (Advance.alarm h.toSound).sound h.honest (fun hforced => by simpa using hforced) nofun
    (Nat.le_refl _)
  · exact .of_eq hret
  · exact hfails.returns

theorem ends (h : p.Guarded s seen) : p.Ends s := by
  have hfuel : p.edges s + 2 ≤ Word.countBound + 2 :=
    Nat.add_le_add_right h.edges_lt_countBound.le 2
  have hpropagate : p.propagate s =
      run (p.edges s + 2) (!p.ready) false { p with work := p.alarm } s :=
    (propagate_eq_run p s).trans (h.halts.same _ hfuel)
  refine ⟨hpropagate ▸ h.halts.returns, h.halts, fun p₁ s₁ hrestarts fuel hle => ?_,
    fun p₁ s₁ hrestarts changes p₂ s₂ => hrestarts.edges_lt h.toSound h.honest⟩
  obtain ⟨turns, hrun⟩ := hrestarts.exists_run_eq h.toSound h.honest
  rw [hpropagate, ← hrun fuel]
  exact h.halts.same _ (Nat.le_trans hle (Nat.le_add_right ..))

end Guarded

end AllDifferent

instance : Steady AllDifferent where
  propagates h := h.ends.returns
  hints h := by
    obtain ⟨_, hret, _⟩ := hint?_eq h.toSound
    exact .of_eq hret
  size_eq h hret := by
    rw [(h.propagated hret).advance.evolves.definitions_eq]

end FiniteDomain
