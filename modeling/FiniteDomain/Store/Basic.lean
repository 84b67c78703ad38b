import FiniteDomain.Trail.SparseSet
import FiniteDomain.Verdict

/-!
# The store of the variables

A store holds variables on a trail.  A variable is either primitive, and then a reversible set is
its domain, or a view that shifts, scales or flips another variable.  Views have no domain of their
own.

Each primitive variable also has an event, which sums up how its domain changed since the events
were last cleared.  Events are not reversible: restoring a level clears all of them.

* Identifiers and definitions: `Var`, `Definition`.
* Events: `Event`.
* The store, its cells, its variables and its levels: `Store`.

Domains are read in `FiniteDomain.Store.Path` and narrowed in `FiniteDomain.Store.Domain`.
-/

namespace FiniteDomain

/-- The identifier of a variable. -/
structure Var where
  index : Nat
  deriving DecidableEq, Repr

/-- What a variable is. -/
inductive Definition where
  /-- A variable with a domain, whose changes are told by the event at `slot`. -/
  | primitive (slot : Nat) (domain : SetId)
  /-- The variable `x + k`. -/
  | shift (x : Var) (k : Int)
  /-- The variable `x * c`, for a coefficient greater than one. -/
  | scale (x : Var) (c : Int)
  /-- The variable `-x`. -/
  | flip (x : Var)
  deriving DecidableEq, Repr

/-! ## Events -/

/-- What happened to the domain of a primitive variable. -/
structure Event where
  var : Var
  /-- One value is left. -/
  fixed : Bool
  /-- No value is left. -/
  emptied : Bool
  minChanged : Bool
  maxChanged : Bool
  domainChanged : Bool
  deriving DecidableEq, Repr

/-- The event of a variable to which nothing happened. -/
def Event.quiet (x : Var) : Event :=
  ⟨x, false, false, false, false, false⟩

/-- Whether anything happened. -/
def Event.isSet (e : Event) : Bool :=
  e.fixed || e.emptied || e.minChanged || e.maxChanged || e.domainChanged

/-! ## The store -/

/-- Variables and their events, on a trail.  The numbers of variables and of events are cells, so
that restoring a level tells how many are left. -/
structure Store where
  trail : Trail
  varCount : Cell
  definitions : Array Definition
  eventCount : Cell
  events : Array Event
  deriving DecidableEq, Repr

namespace Store

/-- A store without variables on a trail. -/
def ofTrail (t : Trail) : Store :=
  let (varCount, t) := t.newCell 0
  let (eventCount, t) := t.newCell 0
  ⟨t, varCount, #[], eventCount, #[]⟩

/-- A store without variables on a trail of its own. -/
def empty : Store := ofTrail .empty

/-- Applies an operation to the trail. -/
@[inline]
def onTrail {α : Type} (s : Store) (f : Trail → Except Fault (α × Trail)) :
    Except Fault (α × Store) :=
  match s with
  | ⟨trail, varCount, definitions, eventCount, events⟩ => do
    let (a, trail) ← f trail
    return (a, ⟨trail, varCount, definitions, eventCount, events⟩)

/-- Applies an operation without an answer to the trail. -/
@[inline]
def updateTrail (s : Store) (f : Trail → Except Fault Trail) : Except Fault Store :=
  match s with
  | ⟨trail, varCount, definitions, eventCount, events⟩ => do
    let trail ← f trail
    return ⟨trail, varCount, definitions, eventCount, events⟩

/-! ### Cells -/

/-- A new cell that holds `v`. -/
def newCell (s : Store) (v : Int) : Cell × Store :=
  match s with
  | ⟨trail, varCount, definitions, eventCount, events⟩ =>
    let (c, trail) := trail.newCell v
    (c, ⟨trail, varCount, definitions, eventCount, events⟩)

/-- New cells with the given values. -/
def newCells (s : Store) (values : List Int) : Array Cell × Store :=
  values.foldl (fun (cells, s) v => let (c, s) := s.newCell v; (cells.push c, s)) (#[], s)

/-- The value of a cell. -/
def read (s : Store) (c : Cell) : Except Fault Int := s.trail.read c

/-- The value of a cell that holds a count. -/
def readCount (s : Store) (c : Cell) : Except Fault Nat := s.trail.readCount c

/-- Puts `v` into a cell. -/
def write (s : Store) (c : Cell) (v : Int) : Except Fault Store :=
  s.updateTrail (·.write c v)

/-- Adds one to a cell and gives the new value. -/
def increment (s : Store) (c : Cell) : Except Fault (Int × Store) :=
  s.onTrail (·.increment c)

/-- Takes one from a cell and gives the new value. -/
def decrement (s : Store) (c : Cell) : Except Fault (Int × Store) :=
  s.onTrail (·.decrement c)

/-! ### Variables -/

/-- The variable with the next identifier. -/
def newVar (s : Store) (d : Definition) : Except Fault (Var × Store) := do
  let (count, s) ← s.increment s.varCount
  let id := Word.unsigned (← Word.sub count 1)
  return (⟨id⟩, { s with definitions := s.definitions.push d })

/-- A new primitive variable with the values from `min` to `max`; no value at all if `max` is the
smaller one.  The values of all sets stand in one array, whose length is a count. -/
def newPrimitive (s : Store) (min max : Int) : Except Fault (Var × Store) := do
  let width ← Word.add (← Word.sub max min) 1
  let _ ← Word.addCount s.trail.dense.size width.toNat
  let (count, s) ← s.increment s.eventCount
  let slot := Word.unsigned (← Word.sub count 1)
  let (domain, s) ← s.onTrail fun t => .ok (t.newSet width.toNat min)
  let (x, s) ← s.newVar (.primitive slot domain)
  return (x, { s with events := s.events.push (.quiet x) })

/-- The view `x + k`. -/
def plus (s : Store) (x : Var) (k : Int) : Except Fault (Var × Store) :=
  s.newVar (.shift x k)

/-- The view `x - k`. -/
def minus (s : Store) (x : Var) (k : Int) : Except Fault (Var × Store) := do
  s.plus x (← Word.neg k)

/-- The view `-x`. -/
def negate (s : Store) (x : Var) : Except Fault (Var × Store) :=
  s.newVar (.flip x)

/-- The view `x * c`.  Coefficients of views are greater than one: the factor one gives `x` itself,
and a negative coefficient scales the view `-x`. -/
def times (s : Store) (x : Var) (c : Int) : Except Fault (Var × Store) := do
  if c = 0 then
    throw .zeroCoefficient
  else if c = 1 then
    return (x, s)
  else if c < 0 then
    let (y, s) ← s.negate x
    let c ← Word.neg c
    if c = 1 then
      return (y, s)
    else
      s.newVar (.scale y c)
  else
    s.newVar (.scale x c)

/-! ### Events and levels -/

/-- Forgets what happened. -/
def clearEvents (s : Store) : Store :=
  { s with events := s.events.map fun e => .quiet e.var }

/-- The variables to which something happened, in the order of their creation. -/
def news (s : Store) : List Event :=
  s.events.toList.filter Event.isSet

/-- The number of levels that can be restored. -/
def depth (s : Store) : Nat := s.trail.depth

/-- Begins a new level. -/
def save (s : Store) : Store :=
  { s with trail := s.trail.save }

/-- Restores the last level: the domains and cells, and the variables there were.  All events are
cleared. -/
def restore (s : Store) : Except Fault Store := do
  let s ← s.updateTrail (·.restore)
  let vars ← s.readCount s.varCount
  let events ← s.readCount s.eventCount
  let s := { s with
    definitions := s.definitions.shrink vars
    events := s.events.shrink events }
  return s.clearEvents

end Store

end FiniteDomain
