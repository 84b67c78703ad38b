import FiniteDomain.Proofs.Model.Tame
import FiniteDomain.Proofs.Store.Returns

/-!
# Propagators that return

Tame propagators that return and make no variables can only take values away.  Then a run of the
propagators comes to an end, whatever it begins with: the weight of the domains falls with each
round but the last two.

* `Steady` are the laws, and `Store.Acts.lessens` what they mean for a store.
* `Model.primed` is a model with any events, any constraints scheduled and any order of the rounds.
* `Model.Orderly.concludes_fixpoint` says how a run ends, and `Model.Orderly.halts_runRounds` that
  more turns change nothing.
-/

namespace FiniteDomain

open Tame

/-- The propagators of the type return, and make no variables. -/
class Steady (π : Type) [Propagator π] [Tame π] : Prop where
  propagates : ∀ {p : π} {s : Store} {seen : Frame → Prop}, Fits p s seen →
    Returns (Propagator.propagate p s)
  hints : ∀ {p : π} {s : Store} {seen : Frame → Prop}, Fits p s seen →
    Returns (Propagator.hint? p s)
  size_eq : ∀ {p p' : π} {s s' : Store} {seen : Frame → Prop} {verdict : Verdict},
    Fits p s seen → Propagator.propagate p s = .ok (verdict, p', s') →
      s'.definitions.size = s.definitions.size

namespace Store

variable {C : Cell → Prop} {s s' : Store}

/-- Where no variable was made, domains have only lost values. -/
theorem Acts.lessens (h : s.Acts C s') (hsize : s'.definitions.size = s.definitions.size) :
    s.Lessens s' := by
  induction h with
  | done => exact .refl s
  | @grown s₁ s₂ hg hacts ih =>
    have hsame : s₁.definitions.size = s.definitions.size :=
      Nat.le_antisymm (hsize ▸ hg.definitions_le) hacts.definitions_le
    have hdomain : ∀ q, s₂.domain q = s₁.domain q := fun q => by
      by_cases hq : q.index < s₁.definitions.size
      · exact hg.domain_eq q hq
      · have hq : s₁.definitions.size ≤ q.index := Nat.le_of_not_lt hq
        rw [domain_eq_empty hq, domain_eq_empty (hsize.trans hsame.symm ▸ hq)]
    exact (ih hsame).trans ⟨hsize.trans hsame.symm, fun q => (hdomain q).subset,
      fun q hq => Or.inl ((hg.pending_iff q).1 hq)⟩
  | evolves he _ ih =>
    rw [he.definitions_eq] at hsize
    exact (ih hsize).trans (.of_evolves he)

theorem clearEvents_clearEvents (s : Store) : s.clearEvents.clearEvents = s.clearEvents := by
  simp [clearEvents, Event.quiet]

end Store

namespace Model

variable {π : Type} [Propagator π] {m m' w : Model π}

/-! ## Turns to spare -/

/-- A run that does not want for turns does the same with one more. -/
theorem runRounds_succ {fuel : Nat} (h : m.runRounds fuel ≠ .error .outOfFuel) :
    m.runRounds (fuel + 1) = m.runRounds fuel := by
  induction fuel generalizing m with
  | zero => exact absurd rfl h
  | succ fuel ih =>
    cases hwake : m.wake with
    | error fault => rw [runRounds, runRounds, hwake, error_bind, error_bind]
    | ok w =>
      rw [runRounds, hwake, ok_bind] at h
      rw [runRounds, runRounds, hwake, ok_bind, ok_bind]
      by_cases hidle : w.scheduled.isEmpty = true
      · rw [if_pos hidle, if_pos hidle]
      · rw [if_neg hidle] at h
        rw [if_neg hidle, if_neg hidle]
        cases hdrain : w.drain with
        | error fault => rw [error_bind, error_bind]
        | ok answer =>
          obtain ⟨verdict, m₁⟩ := answer
          rw [hdrain, ok_bind] at h
          rw [ok_bind, ok_bind]
          cases verdict with
          | failed why => rfl
          | consistent => exact ih h

/-- A run begins with the constraints that wake, whether they wake now or have woken already. -/
theorem runRounds_of_wake (hwake : m.wake = .ok w) (hw : w.wake = .ok w) (fuel : Nat) :
    m.runRounds fuel = w.runRounds fuel := by
  cases fuel with
  | zero => rfl
  | succ fuel => rw [runRounds, runRounds, hwake, hw]

/-! ## Runs of steady propagators -/

/-- The events, the constraints that are scheduled, the order of the rounds and their number are
given. -/
def primed (m : Model π) (events : Array Event) (scheduled : List Constraint) (order : DrainOrder)
    (rounds : Nat) : Model π :=
  { m with store := { m.store with events }, scheduled, order, rounds }

variable [Tame π]

/-- What a run of the propagators comes to, if the domains weigh at most `weight` when it begins: it
ends with all constraints asleep, or it fails, or a propagator faults. -/
def Concludes (weight : Nat) (run : Except Fault (Verdict × Model π)) : Prop :=
  (∃ m', run = .ok (.consistent, m') ∧ (m'.Orderly ∧ m'.store.weight ≤ weight) ∧ m'.Quiet) ∨
  (∃ why m', run = .ok (.failed why, m')) ∨
  ∃ fault, run = .error fault ∧ ¬ fault.Endless

theorem Concludes.returns {weight : Nat} {run : Except Fault (Verdict × Model π)}
    (h : Concludes weight run) : Returns run := by
  obtain ⟨_, hret, _⟩ | ⟨_, _, hret⟩ | ⟨fault, hret, hfault⟩ := h
  · exact .of_eq hret
  · exact .of_eq hret
  · exact hret ▸ .error hfault

/-- Whatever happened, the constraints that listen wake, once and for all. -/
theorem Orderly.wake_primed (h : m.Orderly) {events : Array Event}
    (scheduled : List Constraint) (order : DrainOrder) (rounds : Nat)
    (hevents : events.map Event.var = m.store.events.map Event.var) :
    ∃ w, (m.primed events scheduled order rounds).wake = .ok w ∧ w.wake = .ok w ∧ w.Orderly ∧
      w.store.weight = m.store.weight := by
  have hquiet : (m.primed events scheduled order rounds).store.clearEvents =
      m.store.clearEvents := by
    have hmap : events.map (fun e => Event.quiet e.var) =
        m.store.events.map fun e => Event.quiet e.var := by
      simpa only [Array.map_map, Function.comp_def] using congrArg (Array.map Event.quiet) hevents
    rw [primed, Store.clearEvents, Store.clearEvents, hmap]
  have hfired : ∀ pair ∈ (m.primed events scheduled order rounds).fired,
      pair.1.index < m.propagators.size := by
    intro pair hpair
    obtain ⟨_, _, _, _, _, hlistening⟩ := mem_fired.1 hpair
    exact h.listening_lt hlistening
  -- What is told of is told to the orderly model whose events are cleared.
  have horderly : ({ m.primed events scheduled order rounds with
      store := (m.primed events scheduled order rounds).store.clearEvents } : Model π).Orderly := by
    rw [hquiet]
    exact h.stays_clearEvents.orderly.plan scheduled order rounds
  obtain ⟨w, hwake⟩ := exists_told (m := { m.primed events scheduled order rounds with
    store := (m.primed events scheduled order rounds).store.clearEvents }) hfired
  obtain ⟨hstore, _⟩ := wake_eq (m := m.primed events scheduled order rounds) hwake
  rw [hquiet] at hstore
  have hagain : w.wake = .ok w := by
    rw [wake_of_news (by rw [hstore]; exact Store.news_clearEvents _)]
    have hsame : w.store.clearEvents = w.store := by
      rw [hstore, Store.clearEvents_clearEvents]
    rw [hsame]
  refine ⟨w, hwake, hagain, (horderly.told hwake).orderly, ?_⟩
  rw [hstore]
  rfl

variable [Steady π]

/-- The steps of a run of steady propagators, from a model that weighs at most `weight`. -/
theorem turns (weight : Nat) :
    Turns (π := π) (fun _ m => m.Orderly ∧ m.store.weight ≤ weight) fun f => ¬ f.Endless where
  sound h := h.1.store
  wakes {m} h := by
    obtain ⟨w, hwake⟩ := h.1.toTallied.exists_wake
    obtain ⟨hstore, _⟩ := wake_eq hwake
    refine ⟨w, hwake, (h.1.wake hwake).orderly, ?_⟩
    rw [hstore]
    exact h.2
  plans _ h := ⟨h.1.plan _ _ _, h.2⟩
  runs {c rest m} h := by
    obtain ⟨horderly, hweight⟩ := h
    cases hp : m.propagators[c.index]? with
    | none =>
      refine Or.inr (Or.inr ⟨.outOfBounds, ?_, by decide⟩)
      rw [runOne, fetch, hp]
      rfl
    | some p =>
      have hfits := horderly.fits _ _ hp
      obtain ⟨herror, hok⟩ := runOne_of_propagate hp
      cases hret : Propagator.propagate p m.store with
      | error fault =>
        exact Or.inr (Or.inr ⟨fault, herror fault hret, Steady.propagates hfits fault hret⟩)
      | ok answer =>
        obtain ⟨verdict, p', s'⟩ := answer
        have hone := hok verdict p' s' hret
        cases verdict with
        | failed why => exact Or.inr (Or.inl ⟨why, _, hone⟩)
        | consistent =>
          have hless := (Tame.propagated hfits hret).2.1.lessens (Steady.size_eq hfits hret)
          exact Or.inl ⟨_, hone,
            ⟨(horderly.runOne hone).orderly, hless.weight_le.trans hweight⟩, hless⟩

namespace Orderly

variable {events : Array Event} (scheduled : List Constraint) (order : DrainOrder) (rounds : Nat)

/-- A run comes to an end in two rounds more than there are values to lose. -/
theorem concludes_runRounds (h : m.Orderly)
    (hevents : events.map Event.var = m.store.events.map Event.var) {fuel : Nat}
    (hfuel : m.store.weight + 2 ≤ fuel) :
    Concludes m.store.weight ((m.primed events scheduled order rounds).runRounds fuel) := by
  obtain ⟨w, hwake, hagain, hw, hweight⟩ := h.wake_primed scheduled order rounds hevents
  rw [runRounds_of_wake hwake hagain]
  exact (turns _).runRounds_cases ⟨hw, hweight.le⟩ ⟨by omega, Or.inr (hweight.symm ▸ hfuel)⟩

theorem concludes_fixpoint (h : m.Orderly)
    (hevents : events.map Event.var = m.store.events.map Event.var) :
    Concludes m.store.weight (m.primed events scheduled order rounds).fixpoint := by
  have hweight : m.store.weight ≤ m.capacity := h.store.weight_le_capacity
  have hbound : 2 ≤ Word.countBound := by decide
  exact h.concludes_runRounds scheduled order rounds hevents (by
    show m.store.weight + 2 ≤ m.capacity + Word.countBound
    omega)

/-- More rounds change nothing. -/
theorem halts_runRounds (h : m.Orderly)
    (hevents : events.map Event.var = m.store.events.map Event.var) :
    Halts (m.store.weight + 2) fun fuel =>
      (m.primed events scheduled order rounds).runRounds fuel :=
  .of_succ (fun _ => runRounds_succ)
    (h.concludes_runRounds scheduled order rounds hevents (Nat.le_refl _)).returns

end Orderly

end Model

end FiniteDomain
