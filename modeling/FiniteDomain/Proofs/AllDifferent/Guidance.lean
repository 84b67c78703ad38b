import FiniteDomain.Proofs.AllDifferent.Advice
import FiniteDomain.Proofs.AllDifferent.Conduct

/-!
# The hints of an installed constraint

An all different constraint is installed in a model with other propagators, and the model is used
with discipline.

* `Hosted.recommends`: the hint of the constraint is right whenever the propagators have run, as long
  as none of them conceals a failure.
* `Discreet` are propagators that may do so.  They are tame, and `Hosted.misled` is a run in which one
  of them takes the last value of a fixed variable away: the hint names a value although there is no
  choice left.
-/

namespace FiniteDomain

open AllDifferent ValueGraph Tame

namespace Model

variable {π : Type} [Propagator π] [Tame π] {wrap : AllDifferent → π} {m m' : Model π}
  {c : Constraint} {vars : List Var} {options : Options}

/-- Whatever propagators there are in a model, as long as they conceal no failures, and whatever was
done to it with discipline: when they have run without a failure, the hint of an all different
constraint is right. -/
theorem Hosted.recommends [Frank π] (h : Hosted wrap c vars options m .consistent)
    (hwrap : Embeds wrap) (hret : m.fixpoint = .ok (.consistent, m')) :
    ∃ p, m'.propagators[c.index]? = some (wrap p) ∧
      ∃ answer, Propagator.hint? (wrap p) m'.store = .ok answer ∧
        m'.store.Recommends vars answer := by
  have hfrank : True → Frank π := fun _ => inferInstance
  obtain ⟨p, htracks⟩ := h.tracks hfrank hwrap
  obtain ⟨⟨p', hpasses⟩, hquiet⟩ :=
    (htracks.minds rfl).fixpoint hfrank hwrap htracks.listens hret
  have hminds := hpasses.minds rfl
  have hrest := hminds.calm (hquiet rfl)
  obtain ⟨answer, hhint, hrecommends⟩ :=
    hint?_recommends (hminds.guarded hwrap).toSound (hrest.settled trivial) hrest.covered
  refine ⟨p', hminds.here, answer, (hwrap.hint?_eq p' _).trans hhint, ?_⟩
  rwa [hpasses.alike.vars_eq, htracks.vars_eq, List.toList_toArray] at hrecommends

/-- Two variables, a view of the first one, and a script that is told of that one. -/
def scripted : List (Operation Rule) :=
  [.declare (.primitive 1 3), .declare (.primitive 1 4), .declare (.plus ⟨0⟩ 1),
    posting (.new [.removeAbove ⟨1⟩ 3] none), .listen ⟨0⟩ .domainChanged ⟨0⟩]

/-- On a level of its own an attempt fails, and on another one a value is removed. -/
def tried : List (Operation Rule) :=
  [.fixpoint, .save, .attempt (.removeBelow ⟨1⟩ 5), .restore, .fixpoint, .save,
    .attempt (.remove ⟨0⟩ 2)]

/-- The first variable keeps two values.  One of them, `3`, the second variable can take as well. -/
theorem Hosted.recommends_tried : ∃ m₀ m₁ m m' : Model Rule,
    (Model.empty .lastFirst).conductAll 0 .consistent scripted = .ok (.consistent, m₀) ∧
      m₀.enlist .allDifferent [⟨0⟩, ⟨1⟩, ⟨2⟩] .usual = .ok m₁ ∧
      m₁.conductAll 2 .consistent tried = .ok (.consistent, m) ∧
      m.fixpoint = .ok (.consistent, m') ∧
      m'.store.Recommends [⟨0⟩, ⟨1⟩, ⟨2⟩] (some ⟨⟨0⟩, 3, 2⟩) := by
  have hscripted : ∀ op ∈ scripted, Welcome op := Welcome.of_posts <|
    List.forall_mem_singleton.2 (.posting (by simp [Script.new]))
  have htried : ∀ op ∈ tried, Welcome op := Welcome.of_posts (List.forall_mem_nil _)
  have hrun : ((Model.empty .lastFirst : Model Rule).conductAll 0 .consistent scripted >>= fun a =>
      a.2.enlist .allDifferent [⟨0⟩, ⟨1⟩, ⟨2⟩] .usual >>= fun m₁ =>
      m₁.conductAll 2 .consistent tried >>= fun b => b.2.fixpoint >>= fun d =>
      (d.2.propagators[1]?).elim (.error .outOfBounds) (Propagator.hint? · d.2.store) >>=
      fun hint => .ok (a.1, a.2.propagators.size, b.1, d.1, hint)) =
      .ok (.consistent, 1, .consistent, .consistent, some ⟨⟨0⟩, 3, 2⟩) := by
    decide +kernel
  obtain ⟨⟨v₀, m₀⟩, hm₀, hrun⟩ := bind_eq_ok_iff.1 hrun
  obtain ⟨m₁, hm₁, hrun⟩ := bind_eq_ok_iff.1 hrun
  obtain ⟨⟨v, m⟩, hm, hrun⟩ := bind_eq_ok_iff.1 hrun
  obtain ⟨⟨v', m'⟩, hm', hrun⟩ := bind_eq_ok_iff.1 hrun
  obtain ⟨hint, hhint, hrun⟩ := bind_eq_ok_iff.1 hrun
  simp only [Except.ok.injEq, Prod.mk.injEq] at hrun
  obtain ⟨rfl, hsize, rfl, rfl, rfl⟩ := hrun
  have hhosted := Hosted.of_conductAll Rule.embeds_allDifferent hscripted htried hm₀ hsize hm₁ hm
  obtain ⟨p, hp, answer, hanswer, hrecommends⟩ :=
    Hosted.recommends hhosted Rule.embeds_allDifferent hm'
  refine ⟨m₀, m₁, m, m', hm₀, hm₁, hm, hm', ?_⟩
  rw [hp, Option.elim_some, hanswer] at hhint
  rwa [← Except.ok.inj hhint]

end Model

/-! ## Concealed failures -/

/-- A propagator that may keep its failures to itself. -/
structure Discreet (π : Type) where
  inner : π
  conceals : Bool

namespace Discreet

variable {π : Type} [Propagator π]

instance : Propagator (Discreet π) where
  propagate p s := do
    let (verdict, inner, s) ← Propagator.propagate p.inner s
    return (if p.conceals then .consistent else verdict, { p with inner }, s)
  notify p x := { p with inner := Propagator.notify p.inner x }
  onRestore p := { p with inner := Propagator.onRestore p.inner }
  hint? p s := Propagator.hint? p.inner s

variable [Tame π]

instance : Tame (Discreet π) where
  Writes p := Writes p.inner
  Relies p := Relies p.inner
  Fits p := Fits p.inner
  held := Tame.held
  grown := Tame.grown
  evolves := Tame.evolves
  clearEvents := Tame.clearEvents
  save := Tame.save
  restored := Tame.restored
  within_onRestore p := ⟨(Tame.within_onRestore p.inner).writes, (Tame.within_onRestore p.inner).relies⟩
  notified := Tame.notified
  within_notify p x := ⟨(Tame.within_notify p.inner x).writes, (Tame.within_notify p.inner x).relies⟩
  propagated h hret := by
    obtain ⟨⟨_, _, _⟩, hret, heq⟩ := bind_eq_ok_iff.1 hret
    cases heq
    obtain ⟨hfits, hacts, hwithin⟩ := Tame.propagated h hret
    exact ⟨hfits, hacts, hwithin.writes, hwithin.relies⟩

/-- An all different propagator that conceals nothing. -/
def allDifferent (p : AllDifferent) : Discreet Rule := ⟨.allDifferent p, false⟩

theorem embeds_allDifferent : Embeds allDifferent where
  fits := Rule.embeds_allDifferent.fits
  writes := Rule.embeds_allDifferent.writes
  relies := Rule.embeds_allDifferent.relies
  guarded := Rule.embeds_allDifferent.guarded
  relied := Rule.embeds_allDifferent.relied
  propagate_eq p s := by
    show Propagator.propagate (Rule.allDifferent p) s >>= _ = _
    rw [Rule.embeds_allDifferent.propagate_eq]
    cases p.propagate s <;> rfl
  notify_eq _ _ := rfl
  onRestore_eq _ := rfl
  hint?_eq _ _ := rfl

end Discreet

namespace Model

/-- Two variables with values of their own, and a constraint on both of them. -/
def disjoint : List (Operation (Discreet Rule)) :=
  [.declare (.primitive 1 2), .declare (.primitive 3 4)]

/-- The first variable is fixed to 1, and when the propagators have run, another one is posted that
removes the 1 and does not say that it failed. -/
def emptied : List (Operation (Discreet Rule)) :=
  [.fixpoint, .attempt (.fix ⟨0⟩ 1), .fixpoint,
    .post fun s => .ok (⟨.routine [.remove ⟨0⟩ 1], true⟩, s), .schedule ⟨1⟩]

theorem welcome_emptied : ∀ op ∈ emptied, Welcome op := by
  refine Welcome.of_posts (List.forall_mem_singleton.2 fun m hm _ => ⟨trivial, ?_⟩)
  intro make hmake q s hret
  cases hmake
  cases hret
  have hcounts : ∀ d, ¬ Action.Counts [.remove ⟨0⟩ 1] d := by simp [Action.Counts]
  exact ⟨.refl hm.store,
    .of_no_cells (.of_no_counts hm.store hcounts) fun d hd => hd.elim (hcounts d) id⟩

/-- In this run the constraint takes the first variable for fixed and does not look at it again.  No
choice is left, but there is a hint. -/
theorem Hosted.misled : ∃ (m m' : Model (Discreet Rule)) (p : AllDifferent) (hint : Hint),
    Hosted Discreet.allDifferent ⟨0⟩ [⟨0⟩, ⟨1⟩] .usual m .consistent ∧
      m.fixpoint = .ok (.consistent, m') ∧
      m'.propagators[0]? = some (Discreet.allDifferent p) ∧
      Propagator.hint? (Discreet.allDifferent p) m'.store = .ok (some hint) ∧
      (∀ vs, ¬ m'.store.Chooses [⟨0⟩, ⟨1⟩] vs) ∧
      ¬ m'.store.Recommends [⟨0⟩, ⟨1⟩] (some hint) := by
  have hdisjoint : ∀ op ∈ disjoint, Welcome op := Welcome.of_posts (List.forall_mem_nil _)
  have hrun : ((Model.empty .lastFirst : Model (Discreet Rule)).conductAll 0 .consistent disjoint
      >>= fun a => a.2.enlist Discreet.allDifferent [⟨0⟩, ⟨1⟩] .usual >>= fun m₁ =>
      m₁.conductAll 1 .consistent emptied >>= fun b => b.2.fixpoint >>= fun d =>
      d.2.store.size ⟨0⟩ >>= fun width =>
      (d.2.propagators[0]?).elim (.error .outOfBounds) (Propagator.hint? · d.2.store) >>=
      fun hint => .ok ((a.1, b.1, d.1),
        (a.2.propagators.size, d.2.store.definitions.size, width), hint)) =
      .ok ((.consistent, .consistent, .consistent), (0, 2, 0), some ⟨⟨1⟩, 3, 1⟩) := by
    decide +kernel
  obtain ⟨⟨v₀, m₀⟩, hm₀, hrun⟩ := bind_eq_ok_iff.1 hrun
  obtain ⟨m₁, hm₁, hrun⟩ := bind_eq_ok_iff.1 hrun
  obtain ⟨⟨v, m⟩, hm, hrun⟩ := bind_eq_ok_iff.1 hrun
  obtain ⟨⟨v', m'⟩, hm', hrun⟩ := bind_eq_ok_iff.1 hrun
  obtain ⟨width, hwidth, hrun⟩ := bind_eq_ok_iff.1 hrun
  obtain ⟨hint, hhint, hrun⟩ := bind_eq_ok_iff.1 hrun
  simp only [Except.ok.injEq, Prod.mk.injEq] at hrun
  obtain ⟨⟨rfl, rfl, rfl⟩, ⟨hsize, hdefinitions, rfl⟩, rfl⟩ := hrun
  have hhosted := Hosted.of_conductAll Discreet.embeds_allDifferent hdisjoint welcome_emptied hm₀
    hsize hm₁ hm
  obtain ⟨p, htracks⟩ := hhosted.tracks False.elim Discreet.embeds_allDifferent
  obtain ⟨⟨p', hpasses⟩, _⟩ := (htracks.minds rfl).fixpoint False.elim Discreet.embeds_allDifferent
    htracks.listens hm'
  have hhere := hpasses.hosts.here
  rw [hhere, Option.elim_some] at hhint
  have hempty : m'.store.view ⟨0⟩ = ∅ := by
    have hcard := Store.size_eq (x := ⟨0⟩) hpasses.hosts.store (hdefinitions.symm ▸ Nat.zero_lt_two)
    exact Finset.card_eq_zero.1 (Except.ok.inj (hcard.symm.trans hwidth))
  have hnone : ∀ vs, ¬ m'.store.Chooses [⟨0⟩, ⟨1⟩] vs := fun _ hvs =>
    hvs.view_ne_empty List.mem_cons_self hempty
  refine ⟨m, m', p', _, hhosted, hm', hhere, hhint, hnone, fun hrecommends => ?_⟩
  obtain ⟨vs, _, hvs, _⟩ := (hrecommends.advised _ rfl).chosen
  exact hnone vs hvs

end Model

end FiniteDomain
