import FiniteDomain.Proofs.AllDifferent.Attachment
import FiniteDomain.Proofs.Model.Rounds

/-!
# Models that are used with discipline

A level is saved only when nothing happened since the propagators have run, and after a failure a
level is restored.  Then what a propagator remembers is never out of date by more than it is told.

* `Model.Recoverable` is what holds at any moment, also after a failure: each constraint listens to
  its variables, and its propagator was settled whenever a level was saved.
* `Model.Tended` is what holds as long as nothing failed: a propagator is settled except for variables
  that wait in it or that something happened to.  The constraints that are `due` will run.
* `Model.Firm` says that the constraints have their matchings, or are going to find a first one, and
  `Model.Secured` that they had them whenever a level was saved, but for constraints that may have been
  lacking one then.

What clients do keeps all of them: `Tended.extend`, `Tended.narrow`, `Tended.schedule`, `Tended.save`,
`Recoverable.restore`.
-/

namespace FiniteDomain.Model

open AllDifferent ValueGraph

variable {m m' : Model AllDifferent} {s : Store} {due : List Constraint} {late : Nat → Prop}
  {lacking lacking' : Nat → Nat → Prop} {i : Nat}

/-- Each constraint listens to all changes of its variables, in every frame in which there is the
constraint, and its propagator was settled in the frames of the past. -/
structure Recoverable (m : Model AllDifferent) : Prop extends Guarded m where
  attentive : ∀ (i : Nat) (p : AllDifferent), m.propagators[i]? = some p →
    ∀ x < p.graph.varTotal, ∀ w ∈ m.store.trail.frames, i < m.constraintsIn w →
      ∃ k < m.conditionsIn w,
        m.conditions[k]? = some (⟨.domainChanged, p.graph.sourceOf x⟩, ⟨i⟩)
  settled_past : ∀ (i : Nat) (p : AllDifferent), m.propagators[i]? = some p →
    ∀ w ∈ m.store.trail.past, i < m.constraintsIn w →
      (p.sight m.store w).Settled fun _ => False

/-- The propagators are settled, except for variables that wait or that something happened to.  A
propagator in which variables wait is due. -/
structure Tended (due : List Constraint) (m : Model AllDifferent) : Prop extends Recoverable m where
  due_lt : ∀ c ∈ due, c.index < m.propagators.size
  settled : ∀ (i : Nat) (p : AllDifferent), m.propagators[i]? = some p →
    (p.shown m.store).Settled fun x =>
      x ∈ p.work.waiting ∨ m.store.Pending (p.graph.sourceOf x)
  waiting : ∀ (i : Nat) (p : AllDifferent), m.propagators[i]? = some p →
    p.work.waiting ≠ [] → ⟨i⟩ ∈ due

/-- The matching of each constraint covers its variables, or none was found yet and the constraint is
due.  Those that are `late` need not be due. -/
def Firm (late : Nat → Prop) (due : List Constraint) (m : Model AllDifferent) : Prop :=
  ∀ (i : Nat) (p : AllDifferent), m.propagators[i]? = some p →
    (p.shown m.store).graph.Covered ∨ p.ready = false ∧ (⟨i⟩ ∈ due ∨ late i)

/-- In the frames of the past the matchings covered the variables, except for the constraints that were
`lacking` a matching then.  The frames are counted from the last one. -/
def Secured (lacking : Nat → Nat → Prop) (m : Model AllDifferent) : Prop :=
  ∀ (i : Nat) (p : AllDifferent), m.propagators[i]? = some p →
    ∀ (k : Nat) (w : Frame), m.store.trail.past[k]? = some w → i < m.constraintsIn w →
      (p.sight m.store w).graph.Covered ∨ lacking k i

/-! ## Within a level -/

/-- Where a constraint is seen in the past, there was its propagator, which showed what it shows. -/
theorem Continues.recalls (h : Continues m m') (hm : m.Tallied) {p' : AllDifferent}
    (hp' : m'.propagators[i]? = some p') {w : Frame} (hw : w ∈ m'.store.trail.past)
    (hseen : i < m'.constraintsIn w) :
    ∃ p, m.propagators[i]? = some p ∧ w ∈ m.store.trail.past ∧ i < m.constraintsIn w ∧
      p'.sight m'.store w = p.sight m.store w := by
  rw [h.constraintsIn_eq] at hseen
  have hw' := h.past_eq ▸ hw
  have hlt := Nat.lt_of_lt_of_le hseen (hm.past_le hw').1
  obtain ⟨p, hp, _, _, hrecalls⟩ := h.alike i _ (Array.getElem?_eq_getElem hlt)
  obtain rfl := Option.some.inj (hp'.symm.trans hp)
  exact ⟨_, Array.getElem?_eq_getElem hlt, hw', hseen, hrecalls w hw hseen⟩

/-- Levels can be restored as before, if new constraints listen to their variables. -/
theorem Recoverable.continue (h : m.Recoverable) (hc : Continues m m')
    (hnew : ∀ (i : Nat) (p : AllDifferent), m'.propagators[i]? = some p → m.propagators.size ≤ i →
      ∀ x < p.graph.varTotal, (⟨.domainChanged, p.graph.sourceOf x⟩, ⟨i⟩) ∈ m'.conditions) :
    m'.Recoverable := by
  refine ⟨hc.guarded, fun i p' hp' x hx w hw hseen => ?_, fun i p' hp' w hw hseen => ?_⟩
  · obtain rfl | hw := List.mem_cons.1 hw
    · -- In the present it is enough to listen.
      have hmem : (⟨.domainChanged, p'.graph.sourceOf x⟩, ⟨i⟩) ∈ m'.conditions := by
        by_cases hlt : i < m.propagators.size
        · obtain ⟨p, hp, halike, _⟩ := hc.alike i _ (Array.getElem?_eq_getElem hlt)
          obtain rfl := Option.some.inj (hp'.symm.trans hp)
          obtain ⟨k, _, hk⟩ := h.attentive i _ (Array.getElem?_eq_getElem hlt) x
            (halike.varTotal_eq ▸ hx) _ (List.mem_cons_self ..) (by rw [h.propagators_now]; exact hlt)
          rw [halike.sourceOf_eq]
          exact hc.mem_conditions (Array.mem_of_getElem? hk)
        · exact hnew i p' hp' (Nat.not_lt.1 hlt) x hx
      obtain ⟨k, hk, heq⟩ := Array.mem_iff_getElem.1 hmem
      refine ⟨k, by rw [hc.guarded.conditions_now]; exact hk, ?_⟩
      rw [Array.getElem?_eq_getElem hk, heq]
    · obtain ⟨p, hp, hw', hseen', _⟩ := hc.recalls h.toTallied hp' hw hseen
      obtain ⟨p'', hp'', halike, _⟩ := hc.alike i p hp
      obtain rfl := Option.some.inj (hp'.symm.trans hp'')
      obtain ⟨k, hk, heq⟩ := h.attentive i p hp x (halike.varTotal_eq ▸ hx) w
        (List.mem_cons_of_mem _ hw') hseen'
      rw [hc.conditionsIn_eq, halike.sourceOf_eq]
      exact ⟨k, hk, (hc.conditions_eq k
        (Nat.lt_of_lt_of_le hk (h.past_le hw').2)).trans heq⟩
  · obtain ⟨p, hp, hw', hseen', hsight⟩ := hc.recalls h.toTallied hp' hw hseen
    rw [hsight]
    exact h.settled_past i p hp w hw' hseen'

theorem Secured.continue (h : m.Secured lacking) (hm : m.Tallied) (hc : Continues m m') :
    m'.Secured lacking := by
  intro i p' hp' k w hw hseen
  obtain ⟨p, hp, _, hseen', hsight⟩ := hc.recalls hm hp' (List.mem_of_getElem? hw) hseen
  rw [hsight]
  exact h i p hp k w (hc.past_eq ▸ hw) hseen'

theorem Secured.schedule (h : m.Secured lacking) (c : Constraint) :
    (m.schedule c).Secured lacking := by
  rw [Model.schedule]
  split
  · exact h
  · exact h

namespace Tended

/-- Variables, constraints and registrations are added. -/
theorem extend (h : m.Tended due) (he : Extends m m')
    (hnew : ∀ (i : Nat) (p : AllDifferent), m'.propagators[i]? = some p → m.propagators.size ≤ i →
      ((p.shown m'.store).Settled fun _ => False) ∧ p.work = .empty ∧
        ∀ x < p.graph.varTotal, (⟨.domainChanged, p.graph.sourceOf x⟩, ⟨i⟩) ∈ m'.conditions) :
    m'.Tended due := by
  have hcases : ∀ {i : Nat} {p : AllDifferent}, m'.propagators[i]? = some p →
      m.propagators[i]? = some p ∨ m.propagators.size ≤ i := by
    intro i p hp
    by_cases hlt : i < m.propagators.size
    · have hp' := he.propagators_eq i _ (Array.getElem?_eq_getElem hlt)
      exact Or.inl ((Array.getElem?_eq_getElem hlt).trans (hp'.symm.trans hp))
    · exact Or.inr (Nat.not_lt.1 hlt)
  refine ⟨h.toRecoverable.continue he.toContinues fun i p hp hle => (hnew i p hp hle).2.2,
    fun c hc => ?_, fun i p hp => ?_, fun i p hp hne => ?_⟩
  · have hp := he.propagators_eq _ _ (Array.getElem?_eq_getElem (h.due_lt c hc))
    exact (Array.getElem?_eq_some_iff.1 hp).1
  · obtain hp' | hle := hcases hp
    · rw [he.shown_eq i p hp']
      exact (h.settled i p hp').mono fun x _ => Or.imp_right (he.pending_iff _).2
    · exact (hnew i p hp hle).1.mono fun _ _ => False.elim
  · obtain hp' | hle := hcases hp
    · exact h.waiting i p hp' hne
    · rw [(hnew i p hp hle).2.1] at hne
      exact absurd rfl hne

/-- More constraints may be due. -/
theorem mono {due' : List Constraint} (h : m.Tended due) (hdue : ∀ c ∈ due, c ∈ due')
    (hlt : ∀ c ∈ due', c.index < m.propagators.size) : m.Tended due' :=
  ⟨h.toRecoverable, hlt, h.settled, fun i p hp hne => hdue _ (h.waiting i p hp hne)⟩

/-- Which constraints are scheduled does not matter to the rest. -/
theorem plan (h : m.Tended due) (scheduled : List Constraint) (rounds : Nat) :
    ({ m with scheduled, rounds } : Model AllDifferent).Tended due :=
  ⟨h.toRecoverable.continue (h.toGuarded.plan scheduled rounds).continues
    fun _ _ hp hle => absurd (Array.getElem?_eq_some_iff.1 hp).1 (Nat.not_lt.2 hle),
    h.due_lt, h.settled, h.waiting⟩

/-- A constraint is scheduled. -/
theorem schedule (h : m.Tended m.scheduled) {c : Constraint} (hc : c.index < m.propagators.size) :
    (m.schedule c).Tended (m.schedule c).scheduled := by
  rw [Model.schedule]
  split
  · exact h
  · refine (h.mono (fun d hd => List.mem_cons_of_mem c hd) fun d hd => ?_).plan _ m.rounds
    obtain rfl | hd := List.mem_cons.1 hd
    · exact hc
    · exact h.due_lt d hd

end Tended

namespace Firm

theorem mono {due' : List Constraint} (h : m.Firm late due) (hdue : ∀ c ∈ due, c ∈ due') :
    m.Firm late due' :=
  fun i p hp => (h i p hp).imp_right fun hfirst => ⟨hfirst.1, hfirst.2.imp_left (hdue _)⟩

/-- Variables, constraints and registrations are added.  The new constraints are due or late. -/
theorem extend {due' : List Constraint} (h : m.Firm late due) (he : Extends m m')
    (hdue : ∀ c ∈ due, c ∈ due')
    (hnew : ∀ (i : Nat) (p : AllDifferent), m'.propagators[i]? = some p → m.propagators.size ≤ i →
      p.ready = false ∧ (⟨i⟩ ∈ due' ∨ late i)) : m'.Firm late due' := by
  intro i p hp
  by_cases hi : i < m.propagators.size
  · have hp' := Array.getElem?_eq_getElem hi
    obtain rfl := Option.some.inj (hp.symm.trans (he.propagators_eq i _ hp'))
    rw [he.shown_eq i _ hp']
    exact h.mono hdue i _ hp'
  · exact Or.inr (hnew i p hp (Nat.not_lt.1 hi))

theorem schedule (h : m.Firm late m.scheduled) (c : Constraint) :
    (m.schedule c).Firm late (m.schedule c).scheduled := by
  rw [Model.schedule]
  split
  · exact h
  · exact h.mono fun d hd => List.mem_cons_of_mem c hd

/-- Where nobody is late and nothing is due, the constraints have their matchings. -/
theorem covered (h : m.Firm (fun _ => False) []) {p : AllDifferent}
    (hp : m.propagators[i]? = some p) : (p.shown m.store).graph.Covered :=
  (h i p hp).resolve_right fun hfirst => hfirst.2.elim List.not_mem_nil id

end Firm

/-! ## Narrowed domains -/

namespace Guarded

/-- Domains are narrowed. -/
theorem continues_of_evolves (h : m.Guarded) (he : m.store.Evolves (fun _ => False) s) :
    Continues m { m with store := s } :=
  ⟨h.of_evolves he, rfl, rfl, he.past_eq, fun _ _ => rfl, fun i p hp =>
    ⟨p, hp, .refl _, rfl, ((h.guarded i p hp).of_evolves he fun _ _ => id).2.1⟩⟩

end Guarded

/-- Domains are narrowed, and levels can be restored as before. -/
theorem Recoverable.narrow (h : m.Recoverable) (he : m.store.Evolves (fun _ => False) s) :
    ({ m with store := s } : Model AllDifferent).Recoverable :=
  h.continue (h.toGuarded.continues_of_evolves he)
    fun _ _ hp hle => absurd (Array.getElem?_eq_some_iff.1 hp).1 (Nat.not_lt.2 hle)

/-- Domains are narrowed, and none becomes empty. -/
theorem Tended.narrow (h : m.Tended due) (he : m.store.Evolves (fun _ => False) s)
    (halive : m.store.Alive s) : ({ m with store := s } : Model AllDifferent).Tended due := by
  refine ⟨h.toRecoverable.narrow he, h.due_lt, fun i p hp => ?_, h.waiting⟩
  have hsettled := (h.guarded i p hp).settled_narrow he (fun _ _ => id) halive (h.settled i p hp)
  refine hsettled.mono fun x _ hlate => ?_
  obtain (hwaits | hpending) | hchanged := hlate
  · exact Or.inl hwaits
  · exact Or.inr ((he.pending_iff _).2 (Or.inl hpending))
  · exact Or.inr ((he.pending_iff _).2 (Or.inr hchanged))

/-- Whoever narrows the domains does not touch the graph of a propagator. -/
theorem Firm.narrow (h : m.Firm late due) (hm : m.Guarded)
    (he : m.store.Evolves (fun _ => False) s) :
    ({ m with store := s } : Model AllDifferent).Firm late due := by
  intro i p hp
  refine (h i p hp).imp_left fun hcovered => ?_
  rw [((hm.guarded i p hp).of_evolves he fun _ _ => id).2.2]
  exact hcovered

/-! ## Levels -/

/-- What a propagator shows in a level that is saved. -/
theorem Guarded.sight_save (h : m.Guarded) {p : AllDifferent} (hp : m.propagators[i]? = some p) :
    (∀ w, p.sight m.save.store w = p.sight m.store w) ∧ p.shown m.save.store = p.shown m.store ∧
      m.save.store.trail.past = m.store.trail.now :: m.store.trail.past ∧
      m.save.store.trail.now = m.store.trail.now := by
  obtain ⟨_, hsight, hpast, hnow⟩ := (h.guarded i p hp).save
  exact ⟨hsight, (hsight _).trans (congrArg (p.sight m.store) hnow), hpast, hnow⟩

namespace Tended

/-- No variable waits where nothing is due. -/
theorem waiting_eq (h : m.Tended []) {p : AllDifferent} (hp : m.propagators[i]? = some p) :
    p.work.waiting = [] := by
  by_contra hne
  exact List.not_mem_nil (h.waiting i p hp hne)

/-- When nothing is due and nothing happened, the propagators are settled. -/
theorem calm (h : m.Tended []) (hquiet : m.Quiet) {p : AllDifferent}
    (hp : m.propagators[i]? = some p) : (p.shown m.store).Settled fun _ => False := by
  refine (h.settled i p hp).mono fun x _ hlate => ?_
  obtain hwaits | hpending := hlate
  · rw [h.waiting_eq hp] at hwaits
    exact List.not_mem_nil hwaits
  · exact hquiet.not_pending h.store _ hpending

/-- A level is saved. -/
theorem save (h : m.Tended []) (hquiet : m.Quiet) : m.save.Tended [] := by
  refine ⟨⟨h.toGuarded.save, fun i p hp x hx w hw hseen => ?_, fun i p hp w hw hseen => ?_⟩,
    h.due_lt, fun i p hp => ?_, h.waiting⟩
  · obtain ⟨_, _, hpast, hnow⟩ := h.toGuarded.sight_save hp
    refine h.attentive i p hp x hx w ?_ hseen
    rw [Trail.frames] at hw ⊢
    obtain rfl | hw := List.mem_cons.1 hw
    · exact List.mem_cons.2 (Or.inl hnow)
    · exact hpast ▸ hw
  · obtain ⟨hsight, _, hpast, _⟩ := h.toGuarded.sight_save hp
    rw [hsight]
    obtain rfl | hw := List.mem_cons.1 (hpast ▸ hw)
    · exact h.calm hquiet hp
    · exact h.settled_past i p hp w hw hseen
  · obtain ⟨_, hshown, _, _⟩ := h.toGuarded.sight_save hp
    rw [hshown]
    exact h.settled i p hp

end Tended

/-- A level is saved.  The constraints have their matchings in it, or are lacking one. -/
theorem Secured.save (h : m.Secured fun k => lacking (k + 1)) (hm : m.Guarded)
    (hcovered : ∀ (i : Nat) (p : AllDifferent), m.propagators[i]? = some p →
      (p.shown m.store).graph.Covered ∨ lacking 0 i) : m.save.Secured lacking := by
  intro i p hp k w hw hseen
  obtain ⟨hsight, _, hpast, _⟩ := hm.sight_save hp
  rw [hsight]
  rw [hpast] at hw
  cases k with
  | zero =>
    obtain rfl := Option.some.inj hw
    exact hcovered i p hp
  | succ k => exact h i p hp k w hw hseen

theorem Firm.save (h : m.Firm late due) (hm : m.Guarded) : m.save.Firm late due := by
  intro i p hp
  refine (h i p hp).imp_left fun hcovered => ?_
  rw [(hm.sight_save hp).2.1]
  exact hcovered

/-- A level is restored.  Nothing is due afterwards. -/
theorem Recoverable.restore (h : m.Recoverable) (hret : m.restore = .ok m') :
    m'.Tended [] ∧ m'.Quiet := by
  obtain ⟨hguarded, w, rest, hpast, hrestored, hscheduled, _, _, hcount, hcount', hconditions,
    hold⟩ := h.toGuarded.restore_eq hret
  have hpropagatorsIn : ∀ w, m'.constraintsIn w = m.constraintsIn w := by
    intro w
    rw [constraintsIn, constraintsIn, hcount]
  have hconditionsIn : ∀ w, m'.conditionsIn w = m.conditionsIn w := by
    intro w
    rw [conditionsIn, conditionsIn, hcount']
  have hframes : ∀ w' ∈ m'.store.trail.frames, w' ∈ m.store.trail.past := by
    intro w' hw'
    rw [Trail.frames, hrestored.now_eq, hrestored.past_eq] at hw'
    exact hpast ▸ hw'
  have hafter : ∀ w' ∈ w :: rest, m.conditionsIn w' ≤ m.conditionsIn w := by
    intro w' hw'
    obtain rfl | hw' := List.mem_cons.1 hw'
    · exact Nat.le_refl _
    · have hpairs := (List.pairwise_cons.1 h.after).2
      rw [hpast] at hpairs
      exact ((List.pairwise_cons.1 hpairs).1 w' hw').2
  have hquiet : m'.Quiet :=
    ⟨Store.news_eq_nil hguarded.store hrestored.not_pending, hscheduled⟩
  refine ⟨⟨⟨hguarded, fun i p' hp' x hx w' hw' hseen => ?_, fun i p' hp' w' hw' hseen => ?_⟩,
    fun c hc => absurd hc List.not_mem_nil, fun i p' hp' => ?_, fun i p' hp' hne => ?_⟩, hquiet⟩
  · obtain ⟨hlt, p, hp, rfl, _, _⟩ := hold i p' hp'
    rw [hpropagatorsIn] at hseen
    obtain ⟨k, hk, hlistens⟩ :=
      h.attentive i p hp x hx w' (List.mem_cons_of_mem _ (hframes w' hw')) hseen
    have hle := hafter w' (hpast ▸ hframes w' hw')
    refine ⟨k, by rw [hconditionsIn]; exact hk, ?_⟩
    rw [hconditions, Trail.getElem?_shrink, if_pos (Nat.lt_of_lt_of_le hk hle)]
    exact hlistens
  · obtain ⟨hlt, p, hp, rfl, _, hrecalls⟩ := hold i p' hp'
    rw [hpropagatorsIn] at hseen
    rw [hrecalls w' hw' hseen]
    exact h.settled_past i p hp w' (hframes w' (List.mem_cons_of_mem _ hw')) hseen
  · obtain ⟨hlt, p, hp, rfl, hshown, _⟩ := hold i p' hp'
    rw [hshown]
    exact (h.settled_past i p hp w (hpast ▸ List.mem_cons_self ..) hlt).mono
      fun _ _ => False.elim
  · obtain ⟨_, p, _, rfl, _⟩ := hold i p' hp'
    exact absurd rfl hne

/-- A level is restored.  The constraints that are left have their matchings, if those that were
lacking one in that level are still without one. -/
theorem Secured.restore (h : m.Secured lacking) (hm : m.Guarded)
    (hlacking : ∀ (i : Nat) (p : AllDifferent), m.propagators[i]? = some p → lacking 0 i →
      p.ready = false ∧ late i) (hret : m.restore = .ok m') :
    (m'.Secured fun k => lacking (k + 1)) ∧ m'.Firm late [] := by
  obtain ⟨_, w, rest, hpast, hrestored, _, _, _, hcount, _, _, hold⟩ := hm.restore_eq hret
  refine ⟨fun i p' hp' k w' hw' hseen => ?_, fun i p' hp' => ?_⟩
  · obtain ⟨_, p, hp, rfl, _, hrecalls⟩ := hold i p' hp'
    rw [constraintsIn, hcount] at hseen
    have hw : m.store.trail.past[k + 1]? = some w' := by
      rw [hpast, ← hrestored.past_eq]
      exact hw'
    rw [hrecalls w' (List.mem_of_getElem? hw') hseen]
    exact h i p hp (k + 1) w' hw hseen
  · obtain ⟨hlt, p, hp, rfl, hshown, _⟩ := hold i p' hp'
    rw [hshown]
    refine (h i p hp 0 w (by rw [hpast]; rfl) hlt).imp_right fun hlack => ?_
    obtain ⟨hready, hlate⟩ := hlacking i p hp hlack
    exact ⟨hready, Or.inr hlate⟩

end FiniteDomain.Model
