import FiniteDomain.Proofs.Store.Reached
import FiniteDomain.Proofs.Trail.Mirrors

/-!
# Stores that differ in hidden cells

Two stores mirror each other when their trails do, and all the rest of them is the same.

* `Store.Mirrors hidden` relates the stores.  `Store.Paired hidden` relates what two operations give:
  the same answer, and stores that mirror each other.
* All questions are answered in step, down to the order in which values are listed (`Mirrors.values`).
* All operations are carried out in step: `Mirrors.declare`, `Mirrors.attempt`, `Mirrors.save` and
  `Mirrors.restore`.
-/

namespace FiniteDomain.Store

variable {hidden hidden' : Cell → Prop} {s s' s₁ s₁' : Store} {c : Cell} {b : Base}

/-- Two stores differ in the hidden cells only.  The counters are not hidden. -/
structure Mirrors (hidden : Cell → Prop) (s s' : Store) : Prop where
  trail : s.trail.Mirrors hidden s'.trail
  rest_eq : s' = { s with trail := s'.trail }
  varCount_shown : ¬ hidden s.varCount
  eventCount_shown : ¬ hidden s.eventCount

/-- The two sides give the same answer and stores that mirror each other. -/
def Paired {α : Type} (hidden : Cell → Prop) (r r' : α × Store) : Prop :=
  r.1 = r'.1 ∧ Mirrors hidden r.2 r'.2

namespace Mirrors

theorem refl (h : s.trail.Tracked) : Mirrors (fun _ => False) s s :=
  ⟨.refl h, rfl, id, id⟩

theorem symm (h : Mirrors hidden s s') : Mirrors hidden s' s := by
  have heq := h.rest_eq
  refine ⟨h.trail.symm, ?_, ?_, ?_⟩
  · rw [heq]
  · rw [heq]
    exact h.varCount_shown
  · rw [heq]
    exact h.eventCount_shown

/-- More cells are hidden, none of which the store uses for itself. -/
theorem hide (h : Mirrors hidden s s') (hmore : ∀ c, hidden c → hidden' c)
    (hfree : ∀ c, hidden' c → s.Free c) (hhas : ∀ c, hidden' c → s.trail.now.Has c) :
    Mirrors hidden' s s' :=
  ⟨h.trail.hide hmore (fun c hset hc => (hfree c hc).not_isSetCell hset) hhas, h.rest_eq,
    fun hc => (hfree _ hc).ne_varCount rfl, fun hc => (hfree _ hc).ne_eventCount rfl⟩

/-- The trails go on, and the same happens to all the rest. -/
theorem of_trail {t t' : Trail} (h : Mirrors hidden s s') (ht : t.Mirrors hidden t') :
    Mirrors hidden { s with trail := t } { s' with trail := t' } := by
  refine ⟨ht, ?_, h.varCount_shown, h.eventCount_shown⟩
  rw [h.rest_eq]

/-- The same variables and events take the place of those there were. -/
theorem of_rest (h : Mirrors hidden s s') {definitions definitions' : Array Definition}
    {events events' : Array Event} (hdefinitions : definitions' = definitions)
    (hevents : events' = events) :
    Mirrors hidden { s with definitions, events }
      { s' with definitions := definitions', events := events' } := by
  refine ⟨h.trail, ?_, h.varCount_shown, h.eventCount_shown⟩
  rw [h.rest_eq, hdefinitions, hevents]

/-- The store does not use the hidden cells for itself. -/
theorem free (h : Mirrors hidden s s') (hc : hidden c) : s.Free c where
  not_isSetCell hset := h.trail.shown c hset hc
  ne_varCount heq := h.varCount_shown (heq ▸ hc)
  ne_eventCount heq := h.eventCount_shown (heq ▸ hc)

theorem varCount_eq (h : Mirrors hidden s s') : s'.varCount = s.varCount := by rw [h.rest_eq]

theorem definitions_eq (h : Mirrors hidden s s') : s'.definitions = s.definitions := by
  rw [h.rest_eq]

theorem eventCount_eq (h : Mirrors hidden s s') : s'.eventCount = s.eventCount := by
  rw [h.rest_eq]

theorem events_eq (h : Mirrors hidden s s') : s'.events = s.events := by rw [h.rest_eq]

/-! ## Cells -/

theorem onTrail {α : Type} {f f' : Trail → Except Fault (α × Trail)} (h : Mirrors hidden s s')
    (hf : InStep (Trail.Mirrors.Paired hidden) (f s.trail) (f' s'.trail)) :
    InStep (Paired hidden) (s.onTrail f) (s'.onTrail f') :=
  hf.bind fun _ _ hr => .ok ⟨hr.1, h.of_trail hr.2⟩

theorem updateTrail {f f' : Trail → Except Fault Trail} (h : Mirrors hidden s s')
    (hf : InStep (Trail.Mirrors hidden) (f s.trail) (f' s'.trail)) :
    InStep (Mirrors hidden) (s.updateTrail f) (s'.updateTrail f') :=
  hf.bind fun _ _ ht => .ok (h.of_trail ht)

theorem read (h : Mirrors hidden s s') (hc : ¬ hidden c) : InStep Eq (s.read c) (s'.read c) :=
  h.trail.read hc

theorem readCount (h : Mirrors hidden s s') (hc : ¬ hidden c) :
    InStep Eq (s.readCount c) (s'.readCount c) :=
  h.trail.readCount hc

theorem write (h : Mirrors hidden s s') (c : Cell) (v : Int) :
    InStep (Mirrors hidden) (s.write c v) (s'.write c v) :=
  h.updateTrail (h.trail.write c v)

/-- A hidden cell may be written on one side alone. -/
theorem write_hidden (h : Mirrors hidden s s') (hc : hidden c) {v : Int}
    (hret : s'.write c v = .ok s₁') : Mirrors hidden s s₁' := by
  obtain ⟨t, hwrite, heq⟩ := bind_eq_ok_iff.1 hret
  cases heq
  refine ⟨h.trail.write_hidden hc hwrite, ?_, h.varCount_shown, h.eventCount_shown⟩
  rw [h.rest_eq]

theorem increment (h : Mirrors hidden s s') (hc : ¬ hidden c) :
    InStep (Paired hidden) (s.increment c) (s'.increment c) :=
  h.onTrail (h.trail.increment hc)

theorem decrement (h : Mirrors hidden s s') (hc : ¬ hidden c) :
    InStep (Paired hidden) (s.decrement c) (s'.decrement c) :=
  h.onTrail (h.trail.decrement hc)

theorem newCell (h : Mirrors hidden s s') (v : Int) :
    Paired hidden (s.newCell v) (s'.newCell v) :=
  ⟨(h.trail.newCell v).1, h.of_trail (h.trail.newCell v).2⟩

/-- A new cell is not hidden. -/
theorem not_hidden_newCell (h : Mirrors hidden s s') (v : Int) : ¬ hidden (s.newCell v).1 :=
  h.trail.not_hidden_newCell v

theorem newCells (h : Mirrors hidden s s') (values : List Int) :
    Paired hidden (s.newCells values) (s'.newCells values) ∧
      ∀ c ∈ (s.newCells values).1, ¬ hidden c := by
  -- What the loop has collected is on both sides the same, and not hidden.
  suffices hloop : ∀ (values : List Int) (cells : Array Cell) (s s' : Store),
      Mirrors hidden s s' → (∀ c ∈ cells, ¬ hidden c) →
      let step : Array Cell × Store → Int → Array Cell × Store :=
        fun r v => (r.1.push (r.2.newCell v).1, (r.2.newCell v).2)
      Paired hidden (values.foldl step (cells, s)) (values.foldl step (cells, s')) ∧
        ∀ c ∈ (values.foldl step (cells, s)).1, ¬ hidden c from
    hloop values #[] s s' h fun c hc => absurd hc (Array.not_mem_empty c)
  intro values
  induction values with
  | nil => exact fun cells s s' h hcells => ⟨⟨rfl, h⟩, hcells⟩
  | cons v rest ih =>
    intro cells s s' h hcells
    obtain ⟨hcell, hstore⟩ := h.newCell v
    dsimp only [List.foldl_cons]
    rw [← hcell]
    refine ih _ _ _ hstore fun c hc => ?_
    obtain hc | rfl := Array.mem_push.1 hc
    · exact hcells c hc
    · exact h.not_hidden_newCell v

/-! ## Questions -/

theorem path_eq (h : Mirrors hidden s s') (x : Var) : s'.path x = s.path x := by
  rw [path, path, h.definitions_eq]

theorem pullAlong (h : Mirrors hidden s s') (count : Nat) (x : Var) (v : Int) :
    InStep Eq (s.pullAlong count x v) (s'.pullAlong count x v) := by
  induction count generalizing x v with
  | zero => exact .error (by decide)
  | succ count ih =>
    rw [Store.pullAlong, Store.pullAlong, h.path_eq]
    refine (InStep.pull _ _).andThen fun landing => ?_
    obtain _ | ⟨b, r⟩ | ⟨y, w⟩ := landing
    · exact .ok rfl
    · exact .ok rfl
    · exact ih y w

theorem pullBoundAlong (h : Mirrors hidden s s') (count : Nat) (x : Var) (side : Side) (v : Int) :
    InStep Eq (s.pullBoundAlong count x side v) (s'.pullBoundAlong count x side v) := by
  induction count generalizing x side v with
  | zero => exact .error (by decide)
  | succ count ih =>
    rw [Store.pullBoundAlong, Store.pullBoundAlong, h.path_eq]
    refine (InStep.pullBound _ _ _).andThen fun landing => ?_
    obtain ⟨b, bound⟩ | ⟨y, side, w⟩ := landing
    · exact .ok rfl
    · exact ih y side w

theorem pull (h : Mirrors hidden s s') (x : Var) (v : Int) :
    InStep Eq (s.pull x v) (s'.pull x v) :=
  h.pullAlong pathBound x v

theorem pullBound (h : Mirrors hidden s s') (x : Var) (side : Side) (v : Int) :
    InStep Eq (s.pullBound x side v) (s'.pullBound x side v) :=
  h.pullBoundAlong pathBound x side v

theorem bound? (h : Mirrors hidden s s') (side : Side) (x : Var) :
    InStep Eq (s.bound? side x) (s'.bound? side x) := by
  rw [Store.bound?, Store.bound?, h.path_eq]
  refine (InStep.source _).andThen fun b => (h.trail.bound? _ _).andThen fun bound => ?_
  cases bound with
  | none => exact .ok rfl
  | some v => exact (InStep.push _ _).andThen fun _ => .ok rfl

theorem min? (h : Mirrors hidden s s') (x : Var) : InStep Eq (s.min? x) (s'.min? x) :=
  h.bound? .lower x

theorem max? (h : Mirrors hidden s s') (x : Var) : InStep Eq (s.max? x) (s'.max? x) :=
  h.bound? .upper x

theorem size (h : Mirrors hidden s s') (x : Var) : InStep Eq (s.size x) (s'.size x) := by
  rw [Store.size, Store.size, h.path_eq]
  exact (InStep.source _).andThen fun b => h.trail.card b.domain

theorem isFixed (h : Mirrors hidden s s') (x : Var) : InStep Eq (s.isFixed x) (s'.isFixed x) :=
  (h.size x).andThen fun _ => .ok rfl

theorem contains (h : Mirrors hidden s s') (x : Var) (v : Int) :
    InStep Eq (s.contains x v) (s'.contains x v) := by
  refine (h.pull x v).andThen fun landing => ?_
  obtain _ | ⟨b, r⟩ := landing
  · exact .ok rfl
  · exact h.trail.member b.domain r

theorem values (h : Mirrors hidden s s') (x : Var) : InStep Eq (s.values x) (s'.values x) := by
  rw [Store.values, Store.values, h.path_eq]
  exact (InStep.source _).andThen fun b => (h.trail.elements b.domain).andThen fun _ =>
    .mapM fun _ _ => .push _ _

theorem source (h : Mirrors hidden s s') (x : Var) : InStep Eq (s.source x) (s'.source x) := by
  rw [Store.source, Store.source, h.path_eq]
  exact (InStep.source _).andThen fun _ => .ok rfl

/-! ## Narrowing -/

theorem note (h : Mirrors hidden s s') (slot : Nat) (change : Event → Event) :
    InStep (Mirrors hidden) (s.note slot change) (s'.note slot change) := by
  rw [Store.note, Store.note, h.events_eq]
  exact .ite (fun _ => .ok (h.of_rest h.definitions_eq rfl)) fun _ => .error (by decide)

theorem fixBase (h : Mirrors hidden s s') (b : Base) (v : Int) :
    InStep (Paired hidden) (s.fixBase b v) (s'.fixBase b v) :=
  (h.trail.member b.domain v).andThen fun _ => .ite (fun _ => .ok ⟨rfl, h⟩) fun _ =>
    (h.trail.card b.domain).andThen fun _ => .ite (fun _ => .ok ⟨rfl, h⟩) fun _ =>
      (h.trail.least? b.domain).andThen fun _ => (h.trail.greatest? b.domain).andThen fun _ =>
        (h.updateTrail (h.trail.keepOnly b.domain v)).bind fun _ _ h₁ =>
          (h₁.note b.slot _).bind fun _ _ h₂ => .ok ⟨rfl, h₂⟩

theorem removeBase (h : Mirrors hidden s s') (b : Base) (v : Int) :
    InStep (Paired hidden) (s.removeBase b v) (s'.removeBase b v) :=
  (h.trail.member b.domain v).andThen fun _ => .ite (fun _ => .ok ⟨rfl, h⟩) fun _ =>
    (h.trail.least? b.domain).andThen fun _ => (h.trail.greatest? b.domain).andThen fun _ =>
      (h.onTrail (h.trail.erase b.domain v)).bind fun _ _ h₁ =>
        (h₁.2.trail.card b.domain).andThen fun _ =>
          (h₁.2.note b.slot _).bind fun _ _ h₂ => .ok ⟨rfl, h₂⟩

theorem removeBeyondBase (h : Mirrors hidden s s') (b : Base) (side : Side) (v : Int) :
    InStep (Paired hidden) (s.removeBeyondBase b side v) (s'.removeBeyondBase b side v) := by
  refine (h.trail.bound? side b.domain).andThen fun bound => ?_
  cases bound with
  | none => exact .ok ⟨rfl, h⟩
  | some bound =>
    exact .ite (fun _ => (h.updateTrail (h.trail.eraseBeyond side b.domain v)).bind fun _ _ h₁ =>
      (h₁.trail.card b.domain).andThen fun _ =>
        (h₁.note b.slot _).bind fun _ _ h₂ => .ok ⟨rfl, h₂⟩) fun _ => .ok ⟨rfl, h⟩

theorem fix (h : Mirrors hidden s s') (x : Var) (v : Int) :
    InStep (Paired hidden) (s.fix x v) (s'.fix x v) := by
  refine (h.pull x v).andThen fun landing => ?_
  obtain _ | ⟨b, r⟩ := landing
  · exact .ok ⟨rfl, h⟩
  · exact h.fixBase b r

theorem remove (h : Mirrors hidden s s') (x : Var) (v : Int) :
    InStep (Paired hidden) (s.remove x v) (s'.remove x v) := by
  refine (h.pull x v).andThen fun landing => ?_
  obtain _ | ⟨b, r⟩ := landing
  · exact .ok ⟨rfl, h⟩
  · exact h.removeBase b r

theorem removeBeyond (h : Mirrors hidden s s') (side : Side) (x : Var) (v : Int) :
    InStep (Paired hidden) (s.removeBeyond side x v) (s'.removeBeyond side x v) :=
  (h.pullBound x side v).andThen fun r => h.removeBeyondBase r.1 r.2.1 r.2.2

/-- An attempt comes to the same on both. -/
theorem attempt (h : Mirrors hidden s s') (a : Attempt) :
    InStep (Paired hidden) (s.attempt a) (s'.attempt a) := by
  cases a with
  | fix x v => exact h.fix x v
  | remove x v => exact h.remove x v
  | removeBelow x v => exact h.removeBeyond .lower x v
  | removeAbove x v => exact h.removeBeyond .upper x v

/-! ## Variables -/

theorem newVar (h : Mirrors hidden s s') (d : Definition) :
    InStep (Paired hidden) (s.newVar d) (s'.newVar d) := by
  rw [Store.newVar, Store.newVar, h.varCount_eq]
  refine (h.increment h.varCount_shown).bind ?_
  rintro ⟨count, s₁⟩ ⟨_, s₁'⟩ ⟨rfl, h₁⟩
  exact (InStep.check _).andThen fun id =>
    .ok ⟨rfl, h₁.of_rest (congrArg (·.push d) h₁.definitions_eq) h₁.events_eq⟩

theorem newPrimitive (h : Mirrors hidden s s') (min max : Int) :
    InStep (Paired hidden) (s.newPrimitive min max) (s'.newPrimitive min max) := by
  rw [Store.newPrimitive, Store.newPrimitive, h.eventCount_eq, h.trail.dense_eq]
  refine (InStep.check _).andThen fun _ => (InStep.check _).andThen fun width =>
    (InStep.addCount _ _).andThen fun _ => (h.increment h.eventCount_shown).bind ?_
  rintro ⟨count, s₁⟩ ⟨_, s₁'⟩ ⟨rfl, h₁⟩
  refine (InStep.check _).andThen fun slot =>
    (h₁.onTrail (.ok (h₁.trail.newSet width.toNat min))).bind ?_
  rintro ⟨domain, s₂⟩ ⟨_, s₂'⟩ ⟨rfl, h₂⟩
  refine (h₂.newVar _).bind ?_
  rintro ⟨x, s₃⟩ ⟨_, s₃'⟩ ⟨rfl, h₃⟩
  exact .ok ⟨rfl, h₃.of_rest h₃.definitions_eq (congrArg (·.push (.quiet x)) h₃.events_eq)⟩

theorem times (h : Mirrors hidden s s') (x : Var) (k : Int) :
    InStep (Paired hidden) (s.times x k) (s'.times x k) := by
  refine .ite (fun _ => .error (by decide)) fun _ => .ite (fun _ => .ok ⟨rfl, h⟩) fun _ =>
    .ite (fun _ => (h.newVar _).bind ?_) fun _ => h.newVar _
  rintro ⟨y, s₁⟩ ⟨_, s₁'⟩ ⟨rfl, h₁⟩
  exact (InStep.check _).andThen fun _ => .ite (fun _ => .ok ⟨rfl, h₁⟩) fun _ => h₁.newVar _

/-- A variable is declared on both. -/
theorem declare (h : Mirrors hidden s s') (d : Declaration) :
    InStep (Paired hidden) (s.declare d) (s'.declare d) := by
  cases d with
  | primitive min max => exact h.newPrimitive min max
  | plus x k => exact h.newVar _
  | minus x k => exact (InStep.check _).andThen fun _ => h.newVar _
  | negate x => exact h.newVar _
  | times x k => exact h.times x k

/-! ## Events and levels -/

theorem clearEvents (h : Mirrors hidden s s') :
    Mirrors hidden s.clearEvents s'.clearEvents :=
  h.of_rest h.definitions_eq (congrArg (·.map fun e => Event.quiet e.var) h.events_eq)

theorem news_eq (h : Mirrors hidden s s') : s'.news = s.news := by
  rw [news, news, h.events_eq]

theorem save (h : Mirrors hidden s s') : Mirrors hidden s.save s'.save :=
  h.of_trail h.trail.save

/-- A level is restored.  The cells that were made since then are hidden no longer. -/
theorem restore (h : Mirrors hidden s s') (hsound : s.trail.Sound) :
    InStep (fun s₁ s₁' => Mirrors (fun c => hidden c ∧ s₁.trail.now.Has c) s₁ s₁') s.restore
      s'.restore := by
  have htrail : InStep (fun s₁ s₁' => Mirrors (fun c => hidden c ∧ s₁.trail.now.Has c) s₁ s₁')
      (s.updateTrail (·.restore)) (s'.updateTrail (·.restore)) := by
    refine (h.trail.restore hsound).bind fun t t' ht => .ok ⟨ht, ?_, ?_, ?_⟩
    · rw [h.rest_eq]
    · exact fun hc => h.varCount_shown hc.1
    · exact fun hc => h.eventCount_shown hc.1
  refine htrail.bind fun s₁ s₁' h₁ => ?_
  have hvars : InStep Eq (s₁.readCount s₁.varCount) (s₁'.readCount s₁'.varCount) := by
    rw [h₁.varCount_eq]
    exact h₁.readCount h₁.varCount_shown
  have hevents : InStep Eq (s₁.readCount s₁.eventCount) (s₁'.readCount s₁'.eventCount) := by
    rw [h₁.eventCount_eq]
    exact h₁.readCount h₁.eventCount_shown
  refine hvars.andThen fun vars => hevents.andThen fun events => ?_
  have hleft := h₁.of_rest (congrArg (·.shrink vars) h₁.definitions_eq)
    (congrArg (·.shrink events) h₁.events_eq)
  exact .ok hleft.clearEvents

end Mirrors

end FiniteDomain.Store
