import FiniteDomain.Model.Propagator
import FiniteDomain.Model.Listeners

/-!
# Models

A model is a store together with propagators and the conditions under which they have to run.

Conditions are stated on primitive variables.  A constraint that listens through a view listens to
the primitive variable below it.  The listeners of each condition are kept in a table, and the list
of all pairs in the order in which they came is kept beside it, so that restoring a level can take
the latest ones back.

* The order in which the constraints of a round are run is a parameter: `DrainOrder`.
* The model, its construction and its levels: `Model`.

`FiniteDomain.Model.Fixpoint` runs the propagators.
-/

namespace FiniteDomain

/-! ## The order of a round -/

/-- In which order the constraints of a round are run.  The order may change from one round to the
next, but each constraint is run once. -/
structure DrainOrder where
  arrange : Nat → List Constraint → List Constraint
  arrange_perm : ∀ round scheduled, (arrange round scheduled).Perm scheduled

/-- The constraint that was scheduled last is run first. -/
def DrainOrder.lastFirst : DrainOrder where
  arrange _ scheduled := scheduled
  arrange_perm _ _ := .refl _

/-! ## The model -/

/-- Variables, propagators of the type `π`, and who listens to what. -/
structure Model (π : Type) where
  store : Store
  listeners : Listeners
  /-- The pairs of the table, in the order in which they came. -/
  conditions : Array (Condition × Constraint)
  conditionCount : Cell
  propagators : Array π
  propagatorCount : Cell
  /-- The constraints that have to run, each once. -/
  scheduled : List Constraint
  order : DrainOrder
  /-- The number of rounds so far. -/
  rounds : Nat

namespace Model

variable {π : Type}

/-- A model without variables and constraints. -/
def empty (order : DrainOrder) : Model π :=
  let t := Trail.empty
  let (conditionCount, t) := t.newCell 0
  let (propagatorCount, t) := t.newCell 0
  { store := .ofTrail t
    listeners := []
    conditions := #[]
    conditionCount
    propagators := #[]
    propagatorCount
    scheduled := []
    order
    rounds := 0 }

/-- Applies an operation to the store. -/
@[inline]
def onStore {α : Type} (m : Model π) (f : Store → Except Fault (α × Store)) :
    Except Fault (α × Model π) :=
  match m with
  | ⟨store, listeners, conditions, conditionCount, propagators, propagatorCount, scheduled, order,
      rounds⟩ => do
    let (a, store) ← f store
    return (a, ⟨store, listeners, conditions, conditionCount, propagators, propagatorCount,
      scheduled, order, rounds⟩)

/-! ### Constraints -/

/-- Adds a propagator.  It listens to nothing and is not scheduled. -/
def post (m : Model π) (p : π) : Except Fault (Constraint × Model π) := do
  let (count, m) ← m.onStore (·.increment m.propagatorCount)
  let id := Word.unsigned (← Word.sub count 1)
  return (⟨id⟩, { m with propagators := m.propagators.push p })

/-- Makes a constraint run in the next round. -/
def schedule (m : Model π) (c : Constraint) : Model π :=
  if c ∈ m.scheduled then m else { m with scheduled := c :: m.scheduled }

/-- The constraints that listen to a condition. -/
def listening (m : Model π) (condition : Condition) : List Constraint :=
  Listeners.get m.listeners condition

/-- Makes a constraint listen to a condition on a variable, which is a condition on the primitive
variable below it. -/
def listen (m : Model π) (c : Constraint) (kind : Condition.Kind) (x : Var) :
    Except Fault (Model π) := do
  let condition : Condition := ⟨kind, ← m.store.source x⟩
  if c ∈ m.listening condition then
    return m
  else
    let (_, m) ← m.onStore (·.increment m.conditionCount)
    return { m with
      listeners := Listeners.add m.listeners condition c
      conditions := m.conditions.push (condition, c) }

/-! ### Levels -/

/-- Begins a new level. -/
def save (m : Model π) : Model π :=
  { m with store := m.store.save }

/-- Takes the listeners of several pairs back, the last one first. -/
def dropListeners (listeners : Listeners) (pairs : List (Condition × Constraint)) : Listeners :=
  pairs.foldr (fun pair listeners => Listeners.drop listeners pair.1 pair.2) listeners

/-- Restores the last level: the store, the constraints and the listeners there were.  Nothing is
scheduled, and the propagators that are left hear of it. -/
def restore [Propagator π] (m : Model π) : Except Fault (Model π) := do
  let store ← m.store.restore
  let propagatorCount ← store.readCount m.propagatorCount
  let conditionCount ← store.readCount m.conditionCount
  return { m with
    store
    listeners := dropListeners m.listeners (m.conditions.toList.drop conditionCount)
    conditions := m.conditions.shrink conditionCount
    propagators := (m.propagators.shrink propagatorCount).map Propagator.onRestore
    scheduled := [] }

/-! ### Narrowing and hints -/

/-- Keeps the value `v` of a variable alone. -/
def fix (m : Model π) (x : Var) (v : Int) : Except Fault (Verdict × Model π) :=
  m.onStore (·.fix x v)

/-- Removes a value of a variable. -/
def remove (m : Model π) (x : Var) (v : Int) : Except Fault (Verdict × Model π) :=
  m.onStore (·.remove x v)

/-- The hint with the highest score, the last one of several. -/
def bestHint? [Propagator π] (s : Store) : List π → Option Hint → Except Fault (Option Hint)
  | [], best => .ok best
  | p :: rest, best => do
    match ← Propagator.hint? p s, best with
    | none, best => bestHint? s rest best
    | some hint, none => bestHint? s rest (some hint)
    | some hint, some other =>
      bestHint? s rest (if other.score ≤ hint.score then some hint else some other)

/-- The hint of the propagators. -/
def hint? [Propagator π] (m : Model π) : Except Fault (Option Hint) :=
  bestHint? m.store m.propagators.toList none

end Model

end FiniteDomain
