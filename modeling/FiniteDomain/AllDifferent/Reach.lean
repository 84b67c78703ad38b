import FiniteDomain.AllDifferent.Marks
import FiniteDomain.AllDifferent.ValueGraph

/-!
# What can be reached from the free values

An active variable is reached from a free value by an alternating path: an edge leads from a value
to a variable that may take it, and the matching leads from the variable to its mate.  A variable
that is reached can give its mate up, so every edge to that mate is possible.

The set of variables that are reached does not depend on the matching, as long as it is a maximum
one, and can only shrink as edges go.  So the search, which is breadth first, stops as soon as it
has reached as many variables as the last time.
-/

namespace FiniteDomain.AllDifferent

/-- The variables that the last search reached, and how many free values it began with. -/
structure Reach where
  reached : Marks
  /-- How many variables were reached. -/
  previous : Cell
  freeCount : Nat
  deriving DecidableEq, Repr

namespace Reach

/-- No search yet among `n` variables, so all of them may be reached. -/
def new (s : Store) (n : Nat) : Reach × Store :=
  let (previous, s) := s.newCell n
  (⟨.blank n, previous, 0⟩, s)

/-- Whether the last search reached a variable. -/
def isReached (r : Reach) (x : Nat) : Except Fault Bool :=
  r.reached.isMarked x

/-- A search: the marks, the number of variables reached, and the values to expand, in order. -/
structure Wave where
  reached : Marks
  count : Nat
  queue : Array Nat
  deriving DecidableEq, Repr

/-- Enters the active variables at the end of `left` edges of the value `v`, from the place `k` on,
and lets their mates wait.  Stops, and tells so, when `limit` variables are reached. -/
def expand (g : ValueGraph) (s : Store) (limit v : Nat) : Nat → Nat → Wave →
    Except Fault (Bool × Wave)
  | 0, _, w => .ok (false, w)
  | left + 1, k, w => do
    let y ← g.liveVar v k
    if ← w.reached.isMarked y then
      expand g s limit v left (k + 1) w
    else if ← g.isActive s y then
      let w := { w with reached := w.reached.mark y, count := w.count + 1 }
      if w.count = limit then
        return (true, w)
      else
        match ← g.mate? s y with
        | none => expand g s limit v left (k + 1) w
        | some a => expand g s limit v left (k + 1) { w with queue := w.queue.push a }
    else
      expand g s limit v left (k + 1) w

/-- Expands the values that wait from place `head` on, at most `fuel` of them, until `limit`
variables are reached. -/
def spread (g : ValueGraph) (s : Store) (limit : Nat) : Nat → Nat → Wave → Except Fault Wave
  | 0, _, _ => .error .outOfFuel
  | fuel + 1, head, w =>
    match w.queue[head]? with
    | none => .ok w
    | some v =>
      if w.count < limit then do
        match ← expand g s limit v (← g.liveCount s v) 0 w with
        | (true, w) => return w
        | (false, w) => spread g s limit fuel (head + 1) w
      else
        .ok w

/-- Marks the variables that are reached from a free value, and gives their number.  Each variable
lets at most one value wait, which bounds the number of values to expand. -/
def compute (g : ValueGraph) (r : Reach) (s : Store) : Except Fault (Nat × Reach × Store) := do
  let free ← (List.range g.valueTotal).filterM (g.isFree s)
  let previous ← s.readCount r.previous
  let limit := min previous (← g.activeCount s)
  let fuel := g.valueTotal + g.varTotal + 1
  let w ← spread g s limit fuel 0 ⟨r.reached.forget, 0, free.toArray⟩
  if previous < w.count then
    throw .grownReach
  else
    let s ← s.write r.previous w.count
    return (w.count, { r with reached := w.reached, freeCount := free.length }, s)

end Reach

end FiniteDomain.AllDifferent
