import FiniteDomain.Proofs.AllDifferent.Checks
import FiniteDomain.Proofs.AllDifferent.Driving

/-!
# Models in step

Two models mirror each other when their stores do, up to the tags of the constraints, and their
propagators do.  Everything else is the same: who listens, what is scheduled, and in which order the
constraints are drained.

* `Model.Mirrors hidden` relates the models.  `Model.Paired hidden` relates what two operations give.
* What is asked and what clients do gets the same answers: `Mirrors.hint?`, `Mirrors.listen`,
  `Mirrors.save`.  New constraints have new tags (`Mirrors.enlist`), and the tags of lost constraints
  are lost with them (`Mirrors.restore`).
* `Mirrors.fixpoint` says that the propagators run in step, if both models were used with discipline.
-/

namespace FiniteDomain.Model

open AllDifferent

variable {hidden : Cell → Prop} {m m' m₁ : Model AllDifferent} {p p' : AllDifferent}
  {s s' : Store} {c : Constraint} {vars : List Var} {due : List Constraint} {late : Nat → Prop}

/-- Two models differ in the tags of their constraints, which are hidden, and in which of them
check.  The counters are not hidden. -/
structure Mirrors (hidden : Cell → Prop) (m m' : Model AllDifferent) : Prop where
  store : m.store.Mirrors hidden m'.store
  size_eq : m'.propagators.size = m.propagators.size
  propagators : ∀ (i : Nat) (p p' : AllDifferent), m.propagators[i]? = some p →
    m'.propagators[i]? = some p' → p.Mirrors hidden p'
  rest_eq : m' = { m with store := m'.store, propagators := m'.propagators }
  propagatorCount_shown : ¬ hidden m.propagatorCount
  conditionCount_shown : ¬ hidden m.conditionCount

/-- The two sides give the same answer and models that mirror each other. -/
def Paired {α : Type} (hidden : Cell → Prop) (r r' : α × Model AllDifferent) : Prop :=
  r.1 = r'.1 ∧ Mirrors hidden r.2 r'.2

namespace Mirrors

/-- An empty model mirrors itself. -/
theorem empty (order : DrainOrder) : Mirrors (fun _ => False) (Model.empty order) (Model.empty order) :=
  ⟨.refl (Guarded.empty order).store.trail.tracked, rfl, fun _ _ _ hp => (nomatch hp), rfl, id, id⟩

theorem listeners_eq (h : Mirrors hidden m m') : m'.listeners = m.listeners := by rw [h.rest_eq]

theorem conditions_eq (h : Mirrors hidden m m') : m'.conditions = m.conditions := by
  rw [h.rest_eq]

theorem conditionCount_eq (h : Mirrors hidden m m') : m'.conditionCount = m.conditionCount := by
  rw [h.rest_eq]

theorem propagatorCount_eq (h : Mirrors hidden m m') : m'.propagatorCount = m.propagatorCount := by
  rw [h.rest_eq]

theorem scheduled_eq (h : Mirrors hidden m m') : m'.scheduled = m.scheduled := by rw [h.rest_eq]

theorem order_eq (h : Mirrors hidden m m') : m'.order = m.order := by rw [h.rest_eq]

theorem rounds_eq (h : Mirrors hidden m m') : m'.rounds = m.rounds := by rw [h.rest_eq]

/-- Where there is a propagator, there is the one that mirrors it. -/
theorem exists_of_getElem? (h : Mirrors hidden m m') {i : Nat} (hp : m.propagators[i]? = some p) :
    ∃ p', m'.propagators[i]? = some p' ∧ p.Mirrors hidden p' := by
  have hi : i < m'.propagators.size := h.size_eq ▸ (Array.getElem?_eq_some_iff.1 hp).1
  exact ⟨_, Array.getElem?_eq_getElem hi, h.propagators i p _ hp (Array.getElem?_eq_getElem hi)⟩

/-! ## Parts of a model -/

/-- The stores go on. -/
theorem of_store (h : Mirrors hidden m m') (hs : s.Mirrors hidden s') :
    Mirrors hidden { m with store := s } { m' with store := s' } := by
  refine ⟨hs, h.size_eq, h.propagators, ?_, h.propagatorCount_shown, h.conditionCount_shown⟩
  rw [h.rest_eq]

/-- Other propagators take the place of the present ones. -/
theorem of_propagators (h : Mirrors hidden m m') {ps ps' : Array AllDifferent}
    (hsize : ps'.size = ps.size) (hps : ∀ (i : Nat) (p p' : AllDifferent), ps[i]? = some p →
      ps'[i]? = some p' → p.Mirrors hidden p') :
    Mirrors hidden { m with propagators := ps } { m' with propagators := ps' } := by
  refine ⟨h.store, hsize, hps, ?_, h.propagatorCount_shown, h.conditionCount_shown⟩
  rw [h.rest_eq]

/-- The same constraints are scheduled, and the same rounds were run. -/
theorem plan (h : Mirrors hidden m m') {scheduled scheduled' : List Constraint}
    {rounds rounds' : Nat} (hscheduled : scheduled' = scheduled) (hrounds : rounds' = rounds) :
    Mirrors hidden { m with scheduled, rounds }
      { m' with scheduled := scheduled', rounds := rounds' } := by
  refine ⟨h.store, h.size_eq, h.propagators, ?_, h.propagatorCount_shown, h.conditionCount_shown⟩
  rw [h.rest_eq, hscheduled, hrounds]

/-- The same constraints listen. -/
theorem of_listeners (h : Mirrors hidden m m') {listeners listeners' : Listeners}
    {conditions conditions' : Array (Condition × Constraint)} (hlisteners : listeners' = listeners)
    (hconditions : conditions' = conditions) :
    Mirrors hidden { m with listeners, conditions }
      { m' with listeners := listeners', conditions := conditions' } := by
  refine ⟨h.store, h.size_eq, h.propagators, ?_, h.propagatorCount_shown, h.conditionCount_shown⟩
  rw [h.rest_eq, hlisteners, hconditions]

theorem push (h : Mirrors hidden m m') (hp : p.Mirrors hidden p') :
    Mirrors hidden { m with propagators := m.propagators.push p }
      { m' with propagators := m'.propagators.push p' } := by
  refine h.of_propagators (by rw [Array.size_push, Array.size_push, h.size_eq])
    fun i q q' hq hq' => ?_
  rw [Array.getElem?_push] at hq hq'
  rw [h.size_eq] at hq'
  split at hq
  · rename_i hi
    rw [if_pos hi] at hq'
    cases hq
    cases hq'
    exact hp
  · rename_i hi
    rw [if_neg hi] at hq'
    exact h.propagators i q q' hq hq'

theorem set (h : Mirrors hidden m m') (hp : p.Mirrors hidden p') (i : Nat) :
    Mirrors hidden { m with propagators := m.propagators.setIfInBounds i p }
      { m' with propagators := m'.propagators.setIfInBounds i p' } := by
  refine h.of_propagators
    (by rw [Array.size_setIfInBounds, Array.size_setIfInBounds, h.size_eq]) fun j q q' hq hq' => ?_
  rw [Array.getElem?_setIfInBounds] at hq hq'
  rw [h.size_eq] at hq'
  split at hq
  · rename_i hj
    rw [if_pos hj] at hq'
    split at hq
    · rename_i hlt
      rw [if_pos hlt] at hq'
      cases hq
      cases hq'
      exact hp
    · cases hq
  · rename_i hj
    rw [if_neg hj] at hq'
    exact h.propagators j q q' hq hq'

theorem onStore {α : Type} {R : α → α → Prop} {f f' : Store → Except Fault (α × Store)}
    (h : Mirrors hidden m m') (hf : InStep (fun r r' => R r.1 r'.1 ∧ r.2.Mirrors hidden r'.2)
      (f m.store) (f' m'.store)) :
    InStep (fun r r' => R r.1 r'.1 ∧ r.2.Mirrors hidden r'.2) (m.onStore f) (m'.onStore f') :=
  hf.bind fun _ _ hr => .ok ⟨hr.1, h.of_store hr.2⟩

theorem attempt (h : Mirrors hidden m m') (a : Attempt) :
    InStep (Paired hidden) (m.onStore (·.attempt a)) (m'.onStore (·.attempt a)) :=
  h.onStore (h.store.attempt a)

/-! ## Listening -/

theorem listening_eq (h : Mirrors hidden m m') (condition : Condition) :
    m'.listening condition = m.listening condition := by
  rw [listening, listening, h.listeners_eq]

theorem post (h : Mirrors hidden m m') (hp : p.Mirrors hidden p') :
    InStep (Paired hidden) (m.post p) (m'.post p') := by
  rw [Model.post, Model.post, h.propagatorCount_eq]
  refine (h.onStore (h.store.increment h.propagatorCount_shown)).bind ?_
  rintro ⟨count, m₁⟩ ⟨_, m₁'⟩ ⟨rfl, h₁⟩
  exact (InStep.check _).andThen fun id => .ok ⟨rfl, h₁.push hp⟩

theorem schedule (h : Mirrors hidden m m') (c : Constraint) :
    Mirrors hidden (m.schedule c) (m'.schedule c) := by
  rw [Model.schedule, Model.schedule, h.scheduled_eq]
  split
  · exact h
  · exact h.plan rfl h.rounds_eq

theorem listen (h : Mirrors hidden m m') (c : Constraint) (kind : Condition.Kind) (x : Var) :
    InStep (Mirrors hidden) (m.listen c kind x) (m'.listen c kind x) := by
  refine (h.store.source x).andThen fun y => ?_
  dsimp only
  rw [h.listening_eq, h.conditionCount_eq]
  refine .ite (fun _ => .ok h) fun _ =>
    (h.onStore (h.store.increment h.conditionCount_shown)).bind ?_
  rintro ⟨count, m₁⟩ ⟨_, m₁'⟩ ⟨_, h₁⟩
  refine .ok (h₁.of_listeners ?_ ?_)
  · rw [h₁.listeners_eq]
  · rw [h₁.conditions_eq]

theorem listenAll (h : Mirrors hidden m m') (c : Constraint) (vars : List Var) :
    InStep (Mirrors hidden) (listenAll c vars m) (listenAll c vars m') := by
  induction vars generalizing m m' with
  | nil => exact .ok h
  | cons x rest ih => exact (h.listen c .domainChanged x).bind fun _ _ h₁ => ih h₁

/-! ## Hints -/

/-- The propagators suggest the same. -/
theorem hint? (h : Mirrors hidden m m') : InStep Eq m.hint? m'.hint? := by
  -- The induction is on the propagators that were not asked yet.
  suffices hbest : ∀ (ps ps' : List AllDifferent), List.Forall₂ (AllDifferent.Mirrors hidden) ps ps' →
      ∀ best, InStep Eq (bestHint? m.store ps best) (bestHint? m'.store ps' best) by
    refine hbest _ _ (List.forall₂_iff_get.2 ⟨?_, fun i hi hi' => ?_⟩) none
    · rw [Array.length_toList, Array.length_toList, h.size_eq]
    · exact h.propagators i _ _ (Array.getElem?_eq_getElem _) (Array.getElem?_eq_getElem _)
  intro ps ps' hps
  induction hps with
  | nil => exact fun best => .ok rfl
  | cons hp _ ih =>
    intro best
    refine (hp.hint? h.store).andThen fun hint => ?_
    cases hint with
    | none => exact ih best
    | some hint =>
      cases best with
      | none => exact ih _
      | some other => exact ih _

/-! ## Runs of the propagators -/

theorem fired_eq (h : Mirrors hidden m m') : m'.fired = m.fired := by
  have hconcerned : m'.concerned = m.concerned := by
    funext e
    simp only [concerned, h.listening_eq]
  rw [fired, fired, hconcerned, h.store.news_eq]

/-- The same constraint is told. -/
theorem tell (h : Mirrors hidden m m') (pair : Constraint × Var) :
    InStep (Mirrors hidden) (m.tell pair) (m'.tell pair) := by
  rw [Model.tell, Model.tell, h.size_eq]
  refine .ite (fun _ => .ok ?_) fun _ => .error (by decide)
  refine (h.of_propagators ?_ fun i q q' hq hq' => ?_).schedule pair.1
  · rw [Array.size_modify, Array.size_modify, h.size_eq]
  · rw [Array.getElem?_modify] at hq hq'
    split at hq
    · rename_i hi
      rw [if_pos hi] at hq'
      obtain ⟨p, hp, rfl⟩ := Option.map_eq_some_iff.1 hq
      obtain ⟨p', hp', rfl⟩ := Option.map_eq_some_iff.1 hq'
      exact (h.propagators i p p' hp hp').notify pair.2
    · rename_i hi
      rw [if_neg hi] at hq'
      exact h.propagators i q q' hq hq'

theorem wake (h : Mirrors hidden m m') : InStep (Mirrors hidden) m.wake m'.wake := by
  rw [Model.wake, Model.wake, h.fired_eq]
  exact .foldlM (h.of_store h.store.clearEvents) fun pair _ _ _ h => h.tell pair

/-- What a propagator can rely on in a model that is used with discipline. -/
theorem reliable (h : m.Poised late due) {i : Nat} (hp : m.propagators[i]? = some p) :
    p.Reliable m.store :=
  ⟨(h.guarded i p hp).toSound, (h.guarded i p hp).honest, h.assured hp⟩

theorem runOne (h : Mirrors hidden m m') (hm : m.Poised late due) (hm' : m'.Poised late due)
    (c : Constraint) : InStep (Paired hidden) (m.runOne c) (m'.runOne c) := by
  have hfetch : InStep (fun p p' => m.propagators[c.index]? = some p ∧
      m'.propagators[c.index]? = some p') (fetch m.propagators c.index)
      (fetch m'.propagators c.index) := by
    unfold fetch
    cases hp : m.propagators[c.index]? with
    | none =>
      rw [Array.getElem?_eq_none (h.size_eq ▸ Array.getElem?_eq_none_iff.1 hp)]
      exact .error (by decide)
    | some p =>
      obtain ⟨p', hp', _⟩ := h.exists_of_getElem? hp
      rw [hp']
      exact .ok ⟨rfl, rfl⟩
  refine hfetch.bind fun p p' hp => ?_
  have hpropagate := (h.propagators _ p p' hp.1 hp.2).propagate h.store (reliable hm hp.1)
    (reliable hm' hp.2)
  refine (h.onStore (R := fun r r' => r.1 = r'.1 ∧ r.2.Mirrors hidden r'.2)
    (hpropagate.bind fun r r' hr => .ok ⟨⟨hr.1, hr.2.1⟩, hr.2.2⟩)).bind ?_
  rintro ⟨⟨verdict, p₁⟩, m₁⟩ ⟨⟨_, p₁'⟩, m₁'⟩ ⟨⟨rfl, hp₁⟩, h₁⟩
  exact .ok ⟨rfl, h₁.set hp₁ c.index⟩

/-- After a constraint ran without a failure, the others are due. -/
theorem poised_of_runOne {rest : List Constraint} (h : m.Poised late (c :: rest))
    (hret : m.runOne c = .ok (.consistent, m₁)) : m₁.Poised late rest := by
  obtain ⟨m₂, hret', hm₂, _⟩ | ⟨why, m₂, hret'⟩ := h.runOne_cases
  · cases hret.symm.trans hret'
    exact hm₂
  · cases hret.symm.trans hret'

theorem runAll (h : Mirrors hidden m m') {cs : List Constraint} (hm : m.Poised late cs)
    (hm' : m'.Poised late cs) :
    InStep (fun r r' => Paired hidden r r' ∧ (r.1 = .consistent → r.2.Poised late [] ∧
      r'.2.Poised late [])) (runAll cs m) (runAll cs m') := by
  induction cs generalizing m m' with
  | nil => exact .ok ⟨⟨rfl, h⟩, fun _ => ⟨hm, hm'⟩⟩
  | cons c rest ih =>
    refine (h.runOne hm hm' c).bind_of_eq ?_
    rintro ⟨verdict, m₁⟩ ⟨_, m₁'⟩ hret hret' ⟨rfl, h₁⟩
    cases verdict with
    | failed why => exact .ok ⟨⟨rfl, h₁⟩, nofun⟩
    | consistent => exact ih h₁ (poised_of_runOne hm hret) (poised_of_runOne hm' hret')

theorem drain (h : Mirrors hidden m m') (hm : m.Poised late m.scheduled)
    (hm' : m'.Poised late m'.scheduled) :
    InStep (fun r r' => Paired hidden r r' ∧ (r.1 = .consistent → r.2.Poised late [] ∧
      r'.2.Poised late [])) m.drain m'.drain := by
  have hplan : Mirrors hidden { m with scheduled := [], rounds := m.rounds + 1 }
      { m' with scheduled := [], rounds := m'.rounds + 1 } :=
    h.plan rfl (congrArg (· + 1) h.rounds_eq)
  have harrange : m'.order.arrange m'.rounds m'.scheduled =
      m.order.arrange m.rounds m.scheduled := by
    rw [h.order_eq, h.rounds_eq, h.scheduled_eq]
  have hperm := m.order.arrange_perm m.rounds m.scheduled
  rw [h.scheduled_eq] at hm'
  rw [Model.drain, Model.drain, harrange]
  exact hplan.runAll (hm.plan hperm _ _) (hm'.plan hperm _ _)

/-- The rounds are run in step.  The induction is on the turns. -/
theorem runRounds (h : Mirrors hidden m m') (fuel : Nat) (hm : m.Poised late m.scheduled)
    (hm' : m'.Poised late m'.scheduled) :
    InStep (Paired hidden) (m.runRounds fuel) (m'.runRounds fuel) := by
  induction fuel generalizing m m' with
  | zero => exact .error (by decide)
  | succ fuel ih =>
    refine h.wake.bind_of_eq fun w w' hwake hwake' hw => ?_
    rw [hw.scheduled_eq]
    refine .ite (fun _ => .ok ⟨rfl, hw⟩) fun _ =>
      (hw.drain (hm.wake hwake) (hm'.wake hwake')).bind_of_eq ?_
    rintro ⟨verdict, m₁⟩ ⟨_, m₁'⟩ hret hret' ⟨⟨rfl, h₁⟩, hdone⟩
    cases verdict with
    | failed why => exact .ok ⟨rfl, h₁⟩
    | consistent =>
      obtain ⟨hm₁, hm₁'⟩ := hdone rfl
      refine ih h₁ ?_ ?_
      · rw [(drain_eq hret).1]
        exact hm₁
      · rw [(drain_eq hret').1]
        exact hm₁'

theorem capacity_eq (h : Mirrors hidden m m') : m'.capacity = m.capacity := by
  rw [capacity, capacity, h.store.trail.sets_eq]

/-- The propagators run in step until nothing changes any more. -/
theorem fixpoint (h : Mirrors hidden m m') (hm : m.Poised late m.scheduled)
    (hm' : m'.Poised late m'.scheduled) :
    InStep (Paired hidden) m.fixpoint m'.fixpoint := by
  rw [Model.fixpoint, Model.fixpoint, h.capacity_eq]
  exact h.runRounds _ hm hm'

/-! ## Levels -/

theorem save (h : Mirrors hidden m m') : Mirrors hidden m.save m'.save :=
  h.of_store h.store.save

/-- A level is restored.  The tags of the constraints that are lost are hidden no longer. -/
theorem restore (h : Mirrors hidden m m') (hm : m.Guarded) :
    InStep (fun r r' => ∃ hidden', Mirrors hidden' r r') m.restore m'.restore := by
  have hrestore : InStep (fun r r' =>
      r.store.Mirrors (fun c => hidden c ∧ r.store.trail.now.Has c) r'.store ∧
      r'.propagators.size = r.propagators.size ∧
      (∀ (i : Nat) (p p' : AllDifferent), r.propagators[i]? = some p →
        r'.propagators[i]? = some p' → p.Mirrors hidden p') ∧
      r' = { r with store := r'.store, propagators := r'.propagators } ∧
      ¬ hidden r.propagatorCount ∧ ¬ hidden r.conditionCount) m.restore m'.restore := by
    rw [Model.restore, Model.restore, h.propagatorCount_eq, h.conditionCount_eq, h.listeners_eq,
      h.conditions_eq]
    refine (h.store.restore hm.store.trail).bind fun s s' hs =>
      (hs.readCount fun hc => h.propagatorCount_shown hc.1).andThen fun kept =>
        (hs.readCount fun hc => h.conditionCount_shown hc.1).andThen fun left => .ok ?_
    refine ⟨hs, ?_, fun i p p' hp hp' => ?_, ?_, h.propagatorCount_shown, h.conditionCount_shown⟩
    · rw [Array.size_map, Array.size_map, Array.size_shrink, Array.size_shrink, h.size_eq]
    · rw [Array.getElem?_map, Trail.getElem?_shrink] at hp hp'
      obtain ⟨q, hq, rfl⟩ := Option.map_eq_some_iff.1 hp
      obtain ⟨q', hq', rfl⟩ := Option.map_eq_some_iff.1 hp'
      split at hq
      · rename_i hi
        rw [if_pos hi] at hq'
        exact (h.propagators i q q' hq hq').onRestore
      · cases hq
    · rw [h.order_eq, h.rounds_eq]
  refine hrestore.of_ok fun r r' hret _ hr => ?_
  obtain ⟨hs, hsize, hps, hrest, hpropagatorCount, hconditionCount⟩ := hr
  refine ⟨_, hs, hsize, fun i p p' hp hp' => ?_, hrest, fun hc => hpropagatorCount hc.1,
    fun hc => hconditionCount hc.1⟩
  -- The constraints that are left have their tags.
  have hfitted := ((hm.restore_eq hret).1.guarded i p hp).toFitted
  exact (hps i p p' hp hp').rehide
    (fun d hd => ⟨(hps i p p' hp hp').tags_hidden d hd, hfitted.tags_wired.has d hd⟩)
    fun c _ hc => hc.1

/-! ## New constraints -/

/-- A constraint is added whose tags are hidden, whether it is going to check or not. -/
theorem enlist (h : Mirrors hidden m m') (hm : m.Guarded)
    (hvars : ∀ x ∈ vars, x.index < m.store.definitions.size) (options : Options) (checked : Bool) :
    InStep (fun r r' => ∃ hidden', Mirrors hidden' r r') (m.enlist id vars options)
      (m'.enlist id vars { options with checked }) := by
  have hvars : ∀ x ∈ vars.toArray, x.index < m.store.definitions.size :=
    fun x hx => hvars x (List.mem_toArray.1 hx)
  have hmade : InStep (fun r r' => ∃ hidden', r.1.Mirrors hidden' r'.1 ∧ r.2.Mirrors hidden' r'.2)
      (m.onStore fun s => AllDifferent.new s vars.toArray options)
      (m'.onStore fun s => AllDifferent.new s vars.toArray { options with checked }) := by
    refine (new_inStep h.store hm.store hvars options checked).bind_of_eq fun r r' hret _ hr => ?_
    have hnew := (new_eq hm.store hvars hret).new
    -- What was there before is no new tag.
    have hfresh : ∀ c, m.store.trail.now.Has c → hidden c ∨ c ∈ r.1.tagging.tags → hidden c :=
      fun c hc hor => hor.resolve_right fun htag => hnew c (Or.inr (Or.inl htag)) hc
    refine .ok ⟨_, hr.1, hr.2, h.size_eq, fun i p p' hp hp' => ?_, ?_, ?_, ?_⟩
    · have hmirrors := h.propagators i p p' hp hp'
      exact hmirrors.rehide (fun d hd => Or.inl (hmirrors.tags_hidden d hd))
        fun c hc => hfresh c ((hm.guarded i p hp).toFitted.has hc)
    · rw [h.rest_eq]
    · exact fun hc => h.propagatorCount_shown (hfresh _ hm.toTallied.now.has_propagators hc)
    · exact fun hc => h.conditionCount_shown (hfresh _ hm.toTallied.now.has_conditions hc)
  refine hmade.bind fun r r' hr => ?_
  obtain ⟨hidden', hp, hmodel⟩ := hr
  refine (hmodel.post hp).bind ?_
  rintro ⟨c, m₂⟩ ⟨_, m₂'⟩ ⟨rfl, h₂⟩
  exact (h₂.listenAll c vars).bind fun m₃ m₃' h₃ => .ok ⟨hidden', h₃.schedule c⟩

end Mirrors

end FiniteDomain.Model
