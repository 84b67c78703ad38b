import FiniteDomain.Proofs.AllDifferent.Conduct
import FiniteDomain.Proofs.AllDifferent.Sweeps

/-!
# All searches of a constraint

An all different constraint is installed in a model with any other propagators, and the model is used
with discipline.  Then all searches of the constraint from the free values are exact, though each of
them stops as soon as it has reached as many variables as the last one in the same level or above.

* `propagateSwept_cases`: a run that can rely on what it needs gets an answer, and its searches are
  exact.
* `Hosted.searches_exactly` is about all runs of the constraint.
-/

namespace FiniteDomain

open AllDifferent

/-- A propagator that can rely on its matching, its tags and what it counted last gets an answer, and
all searches on the way are exact. -/
theorem AllDifferent.propagateSwept_cases {p : AllDifferent} {s : Store} (h : p.Sound s)
    (hhonest : (p.shown s).Honest) (hassured : p.Assured s)
    (hb : (p.shown s).graph.Bounded (p.shown s).limit) :
    ∃ answer sweeps, p.propagate s = .ok answer ∧ p.propagateSwept s = .ok (answer, sweeps) ∧
      ∀ w ∈ sweeps, w.Exact := by
  obtain ⟨verdict, p', s', hret, _⟩ | ⟨_, _, hnot⟩ := propagate_cases h hhonest
  · have hrun := hret
    rw [propagate_eq] at hrun
    cases hswept : p.propagateSwept s with
    | error fault =>
      rw [hswept, Except.map_error] at hrun
      cases hrun
    | ok swept =>
      obtain ⟨answer, sweeps⟩ := swept
      rw [hswept, Except.map_ok] at hrun
      cases hrun
      exact ⟨_, sweeps, hret, rfl, propagateSwept_exact h hhonest hassured hb hswept⟩
  · exact absurd hassured hnot

namespace Model

variable {π : Type} [Propagator π] [Tame π] {wrap : AllDifferent → π} {m m' : Model π}
  {c : Constraint} {vars : List Var} {options : Options}

/-- Whatever propagators there are in a model and whatever was done to it with discipline: whenever
an all different constraint runs, it gets an answer, and each of its searches from the free values
marks exactly the active variables that an alternating path leads to from a free value, as the search
without a limit does, and gives their number. -/
theorem Hosted.searches_exactly (h : Hosted wrap c vars options m .consistent) (hwrap : Embeds wrap)
    (hruns : (c, m') ∈ m.runs) : ∃ p, m'.propagators[c.index]? = some (wrap p) ∧
      ∃ answer sweeps, p.propagate m'.store = .ok answer ∧
        p.propagateSwept m'.store = .ok (answer, sweeps) ∧ ∀ w ∈ sweeps, w.Exact := by
  obtain ⟨p, hp, hsound, hhonest, hassured, hb⟩ := h.assured hwrap hruns
  exact ⟨p, hp, propagateSwept_cases hsound hhonest hassured hb⟩

/-- Four variables and a view, a constraint that is posted only, and a script that cuts a domain. -/
def crowded : List (Operation Rule) :=
  [.declare (.primitive 0 1), .declare (.primitive 0 1), .declare (.primitive 2 6),
    .declare (.primitive 1 4), .declare (.plus ⟨3⟩ 1), .making .allDifferent [⟨0⟩, ⟨3⟩] .usual,
    posting (.new [.removeAbove ⟨2⟩ 5] none), .schedule ⟨1⟩]

/-- A level is restored in which the free values reached only one of the two variables that they
reach otherwise. -/
def confined : List (Operation Rule) :=
  [.fixpoint, .save, .attempt (.fix ⟨2⟩ 3), .fixpoint, .restore, .save, .attempt (.remove ⟨2⟩ 5)]

/-- The next search stops at two of the four variables, as many as the last one reached. -/
theorem Hosted.searches_exactly_confined : ∃ (m₀ m₁ m m' : Model Rule) (p : AllDifferent) (w : Sweep),
    (Model.empty .lastFirst).conductAll 0 .consistent crowded = .ok (.consistent, m₀) ∧
      m₀.enlist .allDifferent [⟨0⟩, ⟨1⟩, ⟨2⟩, ⟨4⟩] ⟨true, true, true⟩ = .ok m₁ ∧
      m₁.conductAll 3 .consistent confined = .ok (.consistent, m) ∧ (⟨2⟩, m') ∈ m.runs ∧
      m'.propagators[2]? = some (.allDifferent p) ∧
      (∃ answer, p.propagateSwept m'.store = .ok (answer, [w])) ∧
      w.graph.activeCount w.store = .ok 4 ∧ w.store.readCount w.reach.previous = .ok 2 ∧
      w.Exact := by
  have hcrowded : ∀ op ∈ crowded, Welcome op := Welcome.of_posts <| List.forall_mem_cons.2
    ⟨.making Rule.wraps_allDifferent _ _, List.forall_mem_singleton.2 (.posting (by simp [Script.new]))⟩
  have hconfined : ∀ op ∈ confined, Welcome op := Welcome.of_posts (List.forall_mem_nil _)
  have hrun : ((Model.empty .lastFirst : Model Rule).conductAll 0 .consistent crowded >>= fun a =>
      a.2.enlist .allDifferent [⟨0⟩, ⟨1⟩, ⟨2⟩, ⟨4⟩] ⟨true, true, true⟩ >>= fun m₁ =>
      m₁.conductAll 3 .consistent confined >>= fun b => b.2.wake >>= fun x =>
      x.allDifferentAt 2 >>= fun p => p.propagateSwept x.store >>= fun q =>
      .ok ((a.1, b.1), a.2.propagators.size, x.order.arrange x.rounds x.scheduled,
        q.2.map fun w => decide (w.graph.activeCount w.store = .ok 4 ∧
          w.store.readCount w.reach.previous = .ok 2))) =
      .ok ((.consistent, .consistent), 2, [⟨2⟩], [true]) := by decide +kernel
  obtain ⟨⟨v₀, m₀⟩, hm₀, hrun⟩ := bind_eq_ok_iff.1 hrun
  obtain ⟨m₁, hm₁, hrun⟩ := bind_eq_ok_iff.1 hrun
  obtain ⟨⟨v, m⟩, hm, hrun⟩ := bind_eq_ok_iff.1 hrun
  obtain ⟨x, hwake, hrun⟩ := bind_eq_ok_iff.1 hrun
  obtain ⟨p, hp, hrun⟩ := bind_eq_ok_iff.1 hrun
  obtain ⟨⟨answer, sweeps⟩, hswept, hrun⟩ := bind_eq_ok_iff.1 hrun
  injection hrun with hrun
  simp only [Prod.mk.injEq, List.map_eq_singleton_iff, decide_eq_true_eq] at hrun
  obtain ⟨⟨rfl, rfl⟩, hsize, harrange, w, rfl, hactive, hprevious⟩ := hrun
  have hhosted := Hosted.of_conductAll Rule.embeds_allDifferent hcrowded hconfined hm₀ hsize hm₁ hm
  have hruns := mem_runs_of_wake hwake harrange
  have hhere := getElem?_of_allDifferentAt hp
  obtain ⟨q, hq, _, _, _, hswept', hexact⟩ :=
    Hosted.searches_exactly hhosted Rule.embeds_allDifferent hruns
  cases hhere.symm.trans hq
  cases hswept.symm.trans hswept'
  exact ⟨m₀, m₁, m, _, p, w, hm₀, hm₁, hm, hruns, hhere, ⟨answer, hswept⟩, hactive, hprevious,
    hexact w (List.mem_singleton_self w)⟩

end Model

end FiniteDomain
