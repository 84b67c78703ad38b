import FiniteDomain.Proofs.AllDifferent.Settling
import FiniteDomain.Proofs.AllDifferent.Solutions

/-!
# Runs with discipline

A run has discipline when a level is saved only while the model is quiet, and restored right after
every failure.

* `Model.Driven` holds of the models that such runs come to, with the answer of the last call.
* `Model.Kept` is what all of them keep: `Kept.perform` for calls within a level, `Kept.save` and
  `Kept.restore` for levels, and `Driven.kept` where all constraints are installed.
-/

namespace FiniteDomain.Model

open AllDifferent ValueGraph

variable {m m' : Model AllDifferent} {s : Store} {due : List Constraint} {late late' : Nat → Prop}
  {lacking : Nat → Nat → Prop} {verdict last : Verdict} {c : Call}

/-! ## Disciplined calls -/

/-- After a failure a level is restored, and levels are saved while the model is quiet. -/
def Call.Disciplined (m : Model AllDifferent) (last : Verdict) : Call → Prop
  | .restore => True
  | .save => last = .consistent ∧ m.Quiet
  | _ => last = .consistent

theorem Call.Disciplined.consistent (h : c.Disciplined m last) (hc : c ≠ .restore) :
    last = .consistent := by
  cases c with
  | restore => exact absurd rfl hc
  | save => exact h.1
  | _ => exact h

/-- What disciplined calls come to that are allowed, with the answer of the last one. -/
inductive Driven (allowed : Model AllDifferent → Call → Prop) :
    Model AllDifferent → Verdict → Prop
  | start (order : DrainOrder) : Driven allowed (Model.empty order) .consistent
  | call {m m' : Model AllDifferent} {c : Call} {last verdict : Verdict} (hallowed : allowed m c)
      (hvalid : c.Valid m) (hdiscipline : c.Disciplined m last)
      (hret : m.perform c = .ok (verdict, m')) : Driven allowed m last → Driven allowed m' verdict

theorem Driven.reached {allowed : Model AllDifferent → Call → Prop} (h : Driven allowed m last) :
    m.Reached := by
  induction h with
  | start order => exact .start order
  | call _ hvalid _ hret _ ih => exact ih.call hvalid hret

instance (m : Model AllDifferent) : Decidable m.Quiet := inferInstanceAs (Decidable (_ ∧ _))

instance (m : Model AllDifferent) (last : Verdict) : DecidablePred (Call.Disciplined m last)
  | .restore => .isTrue trivial
  | .save => inferInstanceAs (Decidable (_ ∧ _))
  | .declare _ | .add _ _ | .listen _ _ _ | .attach _ _ | .schedule _ | .install _ _ | .attempt _
  | .fixpoint => inferInstanceAs (Decidable (last = .consistent))

/-- Performs several calls with discipline that are allowed, and gives the answer of the last one. -/
def driveAll (allowed : Model AllDifferent → Call → Prop) [∀ m, DecidablePred (allowed m)]
    (last : Verdict) (m : Model AllDifferent) : List Call → Except Fault (Verdict × Model AllDifferent)
  | [] => .ok (last, m)
  | c :: rest =>
    if allowed m c ∧ c.Valid m ∧ c.Disciplined m last then do
      let (verdict, m) ← m.perform c
      m.driveAll allowed verdict rest
    else
      .error .outOfBounds

theorem Driven.driveAll {allowed : Model AllDifferent → Call → Prop}
    [∀ m, DecidablePred (allowed m)] (h : Driven allowed m last) {calls : List Call}
    (hret : m.driveAll allowed last calls = .ok (verdict, m')) : Driven allowed m' verdict := by
  induction calls generalizing m last with
  | nil =>
    cases hret
    exact h
  | cons c rest ih =>
    rw [Model.driveAll] at hret
    split at hret
    · rename_i hchecked
      obtain ⟨⟨v, m₁⟩, hcall, hret⟩ := bind_eq_ok_iff.1 hret
      exact ih (h.call hchecked.1 hchecked.2.1 hchecked.2.2 hcall) hret
    · cases hret

/-! ## What single calls keep -/

namespace Poised

/-- Who is late may be due instead. -/
theorem relate (h : m.Poised late due) (hlate : ∀ i, late i → ⟨i⟩ ∈ due ∨ late' i) :
    m.Poised late' due := by
  refine ⟨h.toTended, fun i p hp => ?_⟩
  refine (h.firm i p hp).imp_right fun hfirst => ⟨hfirst.1, ?_⟩
  exact hfirst.2.elim Or.inl (hlate i)

/-- Variables, constraints and registrations are added.  The new constraints are late. -/
theorem extend (h : m.Poised late due) (he : Extends m m')
    (hnew : ∀ (i : Nat) (p : AllDifferent), m'.propagators[i]? = some p → m.propagators.size ≤ i →
      ((p.shown m'.store).Settled fun _ => False) ∧ p.work = .empty ∧ p.ready = false ∧ late i ∧
        ∀ x < p.graph.varTotal, (⟨.domainChanged, p.graph.sourceOf x⟩, ⟨i⟩) ∈ m'.conditions) :
    m'.Poised late due := by
  refine ⟨h.toTended.extend he fun i p hp hle => ?_, h.firm.extend he (fun _ => id)
    fun i p hp hle => ?_⟩
  · obtain ⟨hsettled, hwork, _, _, hlistens⟩ := hnew i p hp hle
    exact ⟨hsettled, hwork, hlistens⟩
  · obtain ⟨_, _, hready, hlate, _⟩ := hnew i p hp hle
    exact ⟨hready, Or.inr hlate⟩

/-- Something is added to a model, but no constraint. -/
theorem extend_of_size (h : m.Poised late due) (he : Extends m m')
    (hsize : m'.propagators.size = m.propagators.size) : m'.Poised late due :=
  h.extend he fun _ _ hp hle =>
    absurd (hsize ▸ (Array.getElem?_eq_some_iff.1 hp).1) (Nat.not_lt.2 hle)

theorem schedule (h : m.Poised late m.scheduled) {c : Constraint}
    (hc : c.index < m.propagators.size) : (m.schedule c).Poised late (m.schedule c).scheduled :=
  ⟨h.toTended.schedule hc, h.firm.schedule c⟩

/-- A constraint is attached, and is late. -/
theorem attach (h : m.Poised late due) {vars : List Var}
    (hvars : ∀ x ∈ vars, x.index < m.store.definitions.size) {options : Options} {c : Constraint}
    (hret : m.attach vars options = .ok (c, m')) :
    m'.Poised (fun i => late i ∨ i = m.propagators.size) due := by
  obtain ⟨p, hattached⟩ := h.toGuarded.attach_eq hvars hret
  refine (h.relate fun i hi => Or.inr (Or.inl hi)).extend hattached.toExtends fun i q hq hle => ?_
  have hpush := hattached.propagators_push
  have hi : i = m.propagators.size := by
    have hlt := (Array.getElem?_eq_some_iff.1 hq).1
    rw [hpush, Array.size_push] at hlt
    omega
  subst hi
  rw [hpush, Array.getElem?_push_size] at hq
  obtain rfl := Option.some.inj hq
  refine ⟨hattached.settled, hattached.work_eq, hattached.ready_eq, Or.inr rfl, fun x hx => ?_⟩
  rw [← hattached.constraint_eq]
  exact hattached.listening x hx

/-- A constraint is attached and scheduled. -/
theorem enlist (h : m.Poised late m.scheduled) {vars : List Var}
    (hvars : ∀ x ∈ vars, x.index < m.store.definitions.size) {options : Options}
    (hret : m.enlist id vars options = .ok m') : m'.Poised late m'.scheduled := by
  rw [enlist_eq] at hret
  obtain ⟨⟨c, m₁⟩, hattach, hret⟩ := bind_eq_ok_iff.1 hret
  cases hret
  obtain ⟨p, hattached⟩ := h.toGuarded.attach_eq hvars hattach
  have hpoised := h.attach hvars hattach
  rw [← hattached.scheduled_eq] at hpoised
  have hlt : c.index < m₁.propagators.size := by
    rw [hattached.constraint_eq, hattached.propagators_push, Array.size_push]
    exact Nat.lt_succ_self _
  refine (hpoised.schedule hlt).relate fun i hi => ?_
  obtain hi | rfl := hi
  · exact Or.inr hi
  · rw [← hattached.constraint_eq]
    exact Or.inl (mem_schedule.2 (Or.inl rfl))

/-- A domain is narrowed, and does not become empty. -/
theorem attempt (h : m.Poised late due) {a : Attempt}
    (hret : m.store.attempt a = .ok (.consistent, s)) :
    ({ m with store := s } : Model AllDifferent).Poised late due := by
  obtain ⟨_, _, _, _, hshrinks, _⟩ := Store.attempt_spec h.store hret
  exact ⟨h.toTended.narrow hshrinks.toEvolves (Store.alive_attempt h.store hret),
    h.firm.narrow h.toGuarded hshrinks.toEvolves⟩

end Poised

/-! ## What all calls keep -/

/-- What holds after a call with the answer `last`. -/
structure Kept (late : Nat → Prop) (lacking : Nat → Nat → Prop) (last : Verdict)
    (m : Model AllDifferent) : Prop where
  recoverable : m.Recoverable
  secured : m.Secured lacking
  poised : last = .consistent → m.Poised late m.scheduled

namespace Kept

/-- Nothing failed. -/
theorem of_poised (h : m.Secured lacking) (hpoised : m.Poised late m.scheduled) :
    m.Kept late lacking verdict :=
  ⟨hpoised.toRecoverable, h, fun _ => hpoised⟩

/-- The propagators are run. -/
theorem fixpoint (h : m.Secured lacking) (hpoised : m.Poised late m.scheduled)
    (hret : m.fixpoint = .ok (verdict, m')) : m'.Kept late lacking verdict := by
  have hfollows := (hpoised.toGuarded.fixpoint_obeys hret).toFollows
  refine ⟨hpoised.recoverable_of_fixpoint hret, h.continue hpoised.toTallied hfollows.continues,
    fun hv => ?_⟩
  subst hv
  obtain ⟨m₁, hret', hpoised', hquiet⟩ | ⟨why, m₁, hret'⟩ := hpoised.fixpoint_cases
  · cases hret.symm.trans hret'
    rw [hquiet.2]
    exact hpoised'
  · cases hret.symm.trans hret'

/-- A domain is narrowed. -/
theorem attempt (h : m.Kept late lacking .consistent) {a : Attempt}
    (hret : m.onStore (·.attempt a) = .ok (verdict, m')) : m'.Kept late lacking verdict := by
  have hpoised := h.poised rfl
  obtain ⟨s, hs, rfl⟩ := onStore_eq_ok_iff.1 hret
  obtain ⟨_, _, _, _, hshrinks, _⟩ := Store.attempt_spec hpoised.store hs
  refine ⟨h.recoverable.narrow hshrinks.toEvolves, h.secured.continue hpoised.toTallied
    (hpoised.toGuarded.continues_of_evolves hshrinks.toEvolves), fun hv => ?_⟩
  subst hv
  exact hpoised.attempt hs

/-- A level is saved while the model is quiet. -/
theorem save (h : m.Kept late (fun k => lacking (k + 1)) .consistent) (hquiet : m.Quiet)
    (hcovered : ∀ (i : Nat) (p : AllDifferent), m.propagators[i]? = some p →
      (p.shown m.store).graph.Covered ∨ lacking 0 i) : m.save.Kept late lacking .consistent := by
  have hpoised := h.poised rfl
  rw [hquiet.2] at hpoised
  refine of_poised (h.secured.save hpoised.toGuarded hcovered) ?_
  show m.save.Poised late m.scheduled
  rw [hquiet.2]
  exact ⟨hpoised.toTended.save hquiet, hpoised.firm.save hpoised.toGuarded⟩

/-- A level is restored.  The constraints that were lacking a matching in it still are. -/
theorem restore (h : m.Kept late lacking last)
    (hlacking : ∀ (i : Nat) (p : AllDifferent), m.propagators[i]? = some p → lacking 0 i →
      p.ready = false ∧ late i) (hret : m.restore = .ok m') :
    m'.Kept late (fun k => lacking (k + 1)) .consistent ∧ m'.Quiet := by
  obtain ⟨htended, hquiet⟩ := h.recoverable.restore hret
  obtain ⟨hsecured, hfirm⟩ := h.secured.restore h.recoverable.toGuarded hlacking hret
  refine ⟨of_poised hsecured ?_, hquiet⟩
  rw [hquiet.2]
  exact ⟨htended, hfirm⟩

/-- A disciplined call is made within a level.  Constraints that are not scheduled are added only where
they may be late. -/
theorem perform (h : m.Kept late lacking last) (hvalid : c.Valid m)
    (hdiscipline : c.Disciplined m last) (hsave : c ≠ .save) (hrestore : c ≠ .restore)
    (hadd : ∀ vars options, c ≠ .add vars options)
    (hattach : ∀ vars options, c = .attach vars options → ∀ i, late i)
    (hret : m.perform c = .ok (verdict, m')) : m'.Kept late lacking verdict := by
  have hpoised := h.poised (hdiscipline.consistent hrestore)
  cases c with
  | declare d =>
    obtain ⟨⟨x, m₁⟩, hdeclare, hret⟩ := bind_eq_ok_iff.1 hret
    obtain ⟨s, hs, rfl⟩ := onStore_eq_ok_iff.1 hdeclare
    cases hret
    have hextends := hpoised.toGuarded.extends_of_grown
      (Declaration.declare_grown hpoised.store hvalid hs)
    exact of_poised (h.secured.continue hpoised.toTallied hextends.toContinues)
      (hpoised.extend_of_size hextends rfl)
  | add vars options => exact absurd rfl (hadd vars options)
  | listen c kind x =>
    obtain ⟨m₁, hlisten, hret⟩ := bind_eq_ok_iff.1 hret
    cases hret
    obtain ⟨hextends, hsame, _⟩ := hpoised.toGuarded.listen_eq hvalid.1 hlisten
    refine of_poised (h.secured.continue hpoised.toTallied hextends.toContinues) ?_
    rw [hextends.scheduled_eq]
    exact hpoised.extend_of_size hextends (by rw [hsame])
  | attach vars options =>
    obtain ⟨⟨c, m₁⟩, hret', hret⟩ := bind_eq_ok_iff.1 hret
    cases hret
    obtain ⟨p, hattached⟩ := hpoised.toGuarded.attach_eq hvalid hret'
    refine of_poised (h.secured.continue hpoised.toTallied hattached.toContinues) ?_
    rw [hattached.scheduled_eq]
    exact (hpoised.attach hvalid hret').relate fun i _ => Or.inr (hattach _ _ rfl i)
  | schedule c =>
    cases hret
    exact of_poised (h.secured.schedule c) (hpoised.schedule hvalid)
  | install vars options =>
    obtain ⟨m₁, henlist, hret⟩ := bind_eq_ok_iff.1 hret
    refine fixpoint ?_ (hpoised.enlist hvalid henlist) hret
    rw [enlist_eq] at henlist
    obtain ⟨⟨c, m₂⟩, hattach, henlist⟩ := bind_eq_ok_iff.1 henlist
    cases henlist
    obtain ⟨p, hattached⟩ := hpoised.toGuarded.attach_eq hvalid hattach
    exact (h.secured.continue hpoised.toTallied hattached.toContinues).schedule c
  | attempt a =>
    obtain rfl : last = .consistent := hdiscipline
    exact h.attempt hret
  | save => exact absurd rfl hsave
  | restore => exact absurd rfl hrestore
  | fixpoint => exact fixpoint h.secured hpoised hret

end Kept

/-! ## Installed constraints -/

/-- The call adds constraints by installing them only. -/
def Call.Installs (_ : Model AllDifferent) : Call → Prop
  | .add _ _ | .attach _ _ => False
  | _ => True

instance (m : Model AllDifferent) : DecidablePred (Call.Installs m)
  | .add _ _ | .attach _ _ => .isFalse id
  | .declare _ | .listen _ _ _ | .schedule _ | .install _ _ | .attempt _ | .save | .restore
  | .fixpoint => .isTrue trivial

theorem empty_poised (order : DrainOrder) : (Model.empty order : Model AllDifferent).Poised late [] :=
  ⟨⟨⟨.empty order, fun _ _ hp => (nomatch hp), fun _ _ hp => (nomatch hp)⟩,
    fun _ hc => absurd hc List.not_mem_nil, fun _ _ hp => (nomatch hp), fun _ _ hp => (nomatch hp)⟩,
    fun _ _ hp => (nomatch hp)⟩

/-- What holds after a call with the answer `last` where all constraints are installed. -/
abbrev Assembled (last : Verdict) (m : Model AllDifferent) : Prop :=
  m.Kept (fun _ => False) (fun _ _ => False) last

/-- A level is restored. -/
theorem Assembled.restore (h : m.Assembled last) (hret : m.restore = .ok m') :
    m'.Assembled .consistent ∧ m'.Quiet :=
  Kept.restore h (fun _ _ _ => False.elim) hret

/-- A disciplined call is made that adds constraints by installing them only. -/
theorem Kept.perform_installs (h : m.Assembled last) (hallowed : Call.Installs m c)
    (hvalid : c.Valid m) (hdiscipline : c.Disciplined m last)
    (hret : m.perform c = .ok (verdict, m')) : m'.Assembled verdict := by
  by_cases hsave : c = .save
  · subst hsave
    obtain ⟨rfl, hquiet⟩ := hdiscipline
    cases hret
    have hpoised := h.poised rfl
    rw [hquiet.2] at hpoised
    exact h.save hquiet fun i p hp => Or.inl (hpoised.firm.covered hp)
  by_cases hrestore : c = .restore
  · subst hrestore
    obtain ⟨m₁, hrestore, hret⟩ := bind_eq_ok_iff.1 hret
    cases hret
    exact (Assembled.restore h hrestore).1
  refine h.perform hvalid hdiscipline hsave hrestore (fun vars options hc => ?_)
    (fun vars options hc => ?_) hret
  · subst hc
    exact hallowed.elim
  · subst hc
    exact hallowed.elim

/-- In a disciplined run with installed constraints every constraint has its matching. -/
theorem Driven.kept (h : Driven Call.Installs m last) : m.Assembled last := by
  induction h with
  | start order => exact .of_poised (fun _ _ hp => (nomatch hp)) (empty_poised order)
  | call hallowed hvalid hdiscipline hret _ ih =>
    exact ih.perform_installs hallowed hvalid hdiscipline hret

end FiniteDomain.Model
