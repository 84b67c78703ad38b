import FiniteDomain.Model.Fixpoint

/-!
# Propagators that record what happens to them

A model knows nothing of its propagators but what `Propagator` offers.  So it runs in the same way with
propagators of another type, if these answer in the same way.

* `Propagator.Maps` says that a function between two types of propagators respects the answers, and
  `Model.fixpoint_map` that it then respects the runs of a model.
* `Recorded` adds to any propagator a record of what it was told and when it ran.  A model of recorded
  propagators runs like the model without the records: `Model.fixpoint_record`.
-/

namespace FiniteDomain

variable {π ρ : Type} [Propagator π] [Propagator ρ]

/-- Propagators of one type answer like those of another type that they stand for. -/
structure Propagator.Maps (f : ρ → π) : Prop where
  propagate_eq : ∀ p s, Propagator.propagate (f p) s =
    (Propagator.propagate p s).map fun (verdict, p, s) => (verdict, f p, s)
  notify_eq : ∀ p x, Propagator.notify (f p) x = f (Propagator.notify p x)

namespace Model

/-- The model with other propagators. -/
def mapPropagators (f : ρ → π) (m : Model ρ) : Model π :=
  ⟨m.store, m.listeners, m.conditions, m.conditionCount, m.propagators.map f, m.propagatorCount,
    m.scheduled, m.order, m.rounds⟩

variable {f : ρ → π}

omit [Propagator π] [Propagator ρ] in
theorem map_modify {g : ρ → ρ} {g' : π → π} (h : ∀ p, g' (f p) = f (g p)) (ps : Array ρ)
    (i : Nat) : (ps.map f).modify i g' = (ps.modify i g).map f := by
  apply Array.ext_getElem?
  intro j
  simp only [Array.getElem?_modify, Array.getElem?_map]
  split
  · cases ps[j]? with
    | none => rfl
    | some p => exact congrArg some (h p)
  · rfl

theorem tell_map (hf : Propagator.Maps f) (m : Model ρ) (pair : Constraint × Var) :
    (m.mapPropagators f).tell pair = (m.tell pair).map (mapPropagators f) := by
  rw [tell, tell]
  by_cases hlt : pair.1.index < m.propagators.size
  · have harray : (m.propagators.map f).modify pair.1.index (Propagator.notify · pair.2) =
        (m.propagators.modify pair.1.index (Propagator.notify · pair.2)).map f :=
      map_modify (fun p => hf.notify_eq p pair.2) _ _
    rw [if_pos hlt, if_pos (by rw [mapPropagators, Array.size_map]; exact hlt)]
    show Except.ok _ = Except.ok _
    rw [schedule, schedule, mapPropagators]
    dsimp only
    rw [harray]
    split <;> rfl
  · rw [if_neg hlt, if_neg (by rw [mapPropagators, Array.size_map]; exact hlt)]
    rfl

theorem tellAll_map (hf : Propagator.Maps f) (pairs : List (Constraint × Var)) (m : Model ρ) :
    pairs.foldlM tell (m.mapPropagators f) = (pairs.foldlM tell m).map (mapPropagators f) := by
  induction pairs generalizing m with
  | nil => rfl
  | cons pair pairs ih =>
    rw [List.foldlM_cons, List.foldlM_cons, tell_map hf]
    cases m.tell pair with
    | error e => rfl
    | ok m' => exact ih m'

theorem wake_map (hf : Propagator.Maps f) (m : Model ρ) :
    (m.mapPropagators f).wake = m.wake.map (mapPropagators f) :=
  tellAll_map hf m.fired { m with store := m.store.clearEvents }

theorem runOne_map (hf : Propagator.Maps f) (m : Model ρ) (c : Constraint) :
    (m.mapPropagators f).runOne c = (m.runOne c).map fun (v, m) => (v, m.mapPropagators f) := by
  rw [runOne, runOne, fetch, fetch, mapPropagators, Array.getElem?_map]
  dsimp only
  cases hp : m.propagators[c.index]? with
  | none => rfl
  | some p =>
    rw [Option.map_some]
    dsimp only
    rw [ok_bind, ok_bind, onStore, onStore, hf.propagate_eq]
    dsimp only
    cases Propagator.propagate p m.store with
    | error e => rfl
    | ok answer =>
      obtain ⟨v, q, s⟩ := answer
      show Except.ok _ = Except.ok _
      simp only [mapPropagators, Array.map_setIfInBounds]

theorem runAll_map (hf : Propagator.Maps f) (cs : List Constraint) (m : Model ρ) :
    runAll cs (m.mapPropagators f) = (runAll cs m).map fun (v, m) => (v, m.mapPropagators f) := by
  induction cs generalizing m with
  | nil => rfl
  | cons c cs ih =>
    rw [runAll, runAll, runOne_map hf]
    cases m.runOne c with
    | error e => rfl
    | ok answer =>
      obtain ⟨_ | why, m'⟩ := answer
      · exact ih m'
      · rfl

theorem drain_map (hf : Propagator.Maps f) (m : Model ρ) :
    (m.mapPropagators f).drain = m.drain.map fun (v, m) => (v, m.mapPropagators f) :=
  runAll_map hf (m.order.arrange m.rounds m.scheduled)
    { m with scheduled := [], rounds := m.rounds + 1 }

theorem runRounds_map (hf : Propagator.Maps f) (fuel : Nat) (m : Model ρ) :
    (m.mapPropagators f).runRounds fuel =
      (m.runRounds fuel).map fun (v, m) => (v, m.mapPropagators f) := by
  induction fuel generalizing m with
  | zero => rfl
  | succ fuel ih =>
    rw [runRounds, runRounds, wake_map hf]
    cases m.wake with
    | error e => rfl
    | ok w =>
      show (if w.scheduled.isEmpty then _ else _) = Except.map _ (if w.scheduled.isEmpty then _ else _)
      split
      · rfl
      · rw [drain_map hf]
        cases w.drain with
        | error e => rfl
        | ok answer =>
          obtain ⟨_ | why, m'⟩ := answer
          · exact ih m'
          · rfl

/-- A model runs in the same way with propagators that answer in the same way. -/
theorem fixpoint_map (hf : Propagator.Maps f) (m : Model ρ) :
    (m.mapPropagators f).fixpoint = m.fixpoint.map fun (v, m) => (v, m.mapPropagators f) :=
  runRounds_map hf _ m

end Model

/-! ## Records -/

/-- What may happen to a propagator. -/
inductive Notice where
  | told (x : Var)
  | ran
  deriving DecidableEq, Repr

/-- A propagator with a record of what happened to it, in order. -/
structure Recorded (π : Type) where
  inner : π
  notices : List Notice

instance : Propagator (Recorded π) where
  propagate p s := do
    let (verdict, inner, s) ← Propagator.propagate p.inner s
    return (verdict, ⟨inner, p.notices ++ [.ran]⟩, s)
  notify p x := ⟨Propagator.notify p.inner x, p.notices ++ [.told x]⟩
  onRestore p := { p with inner := Propagator.onRestore p.inner }
  hint? p s := Propagator.hint? p.inner s

theorem Recorded.maps_inner : Propagator.Maps (Recorded.inner : Recorded π → π) where
  propagate_eq p s := by
    show _ = Except.map _ (Propagator.propagate p.inner s >>= _)
    cases Propagator.propagate p.inner s <;> rfl
  notify_eq _ _ := rfl

namespace Model

omit [Propagator π] in
/-- The model with empty records. -/
def record (m : Model π) : Model (Recorded π) := m.mapPropagators fun p => ⟨p, []⟩

omit [Propagator π] in
theorem map_inner_record (m : Model π) : m.record.mapPropagators Recorded.inner = m := by
  have h : (m.propagators.map fun p => (⟨p, []⟩ : Recorded π)).map Recorded.inner =
      m.propagators := by
    simp [Array.map_map, Function.comp_def]
  rw [record, mapPropagators, mapPropagators]
  dsimp only
  rw [h]

/-- The records change nothing in how a model runs. -/
theorem fixpoint_record (m : Model π) :
    m.fixpoint = m.record.fixpoint.map fun (v, m) => (v, m.mapPropagators Recorded.inner) := by
  rw [← fixpoint_map Recorded.maps_inner, map_inner_record]

end Model

end FiniteDomain
