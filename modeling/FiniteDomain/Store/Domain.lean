import FiniteDomain.Store.Path

/-!
# Narrowing the domains

There are three ways to narrow a domain: to one value, by one value, and to the values on one side
of a bound.  Each is first done to a primitive variable, where it changes the domain and notes in
the event what became of it; a variable is narrowed by carrying the value down its path.

A domain that becomes empty fails the attempt and stays empty.  Asking for what already holds
changes nothing, and is not noted.
-/

namespace FiniteDomain.Store

/-! ## Primitive variables -/

/-- Notes a change in the event at `slot`. -/
def note (s : Store) (slot : Nat) (change : Event → Event) : Except Fault Store :=
  if slot < s.events.size then
    .ok { s with events := s.events.modify slot change }
  else
    .error .outOfBounds

/-- Keeps the value `v` alone.  A domain without it is left as it is. -/
def fixBase (s : Store) (b : Base) (v : Int) : Except Fault (Verdict × Store) := do
  if !(← s.trail.member b.domain v) then
    return (.failed .domainWipeout, s)
  else if (← s.trail.card b.domain) = 1 then
    return (.consistent, s)
  else
    let minMoves := (← s.trail.least? b.domain) != some v
    let maxMoves := (← s.trail.greatest? b.domain) != some v
    let s ← s.updateTrail (·.keepOnly b.domain v)
    let s ← s.note b.slot fun e =>
      { e with
        minChanged := e.minChanged || minMoves
        maxChanged := e.maxChanged || maxMoves
        domainChanged := true
        fixed := true }
    return (.consistent, s)

/-- Removes the value `v`. -/
def removeBase (s : Store) (b : Base) (v : Int) : Except Fault (Verdict × Store) := do
  if !(← s.trail.member b.domain v) then
    return (.consistent, s)
  else
    let minMoves := (← s.trail.least? b.domain) == some v
    let maxMoves := (← s.trail.greatest? b.domain) == some v
    let (_, s) ← s.onTrail (·.erase b.domain v)
    let size ← s.trail.card b.domain
    let s ← s.note b.slot fun e =>
      { e with
        minChanged := e.minChanged || minMoves
        maxChanged := e.maxChanged || maxMoves
        domainChanged := true
        fixed := e.fixed || size == 1
        emptied := e.emptied || size == 0 }
    return (if size = 0 then .failed .domainWipeout else .consistent, s)

/-- Whether `bound` lies beyond `v` on one side. -/
def liesBeyond (side : Side) (bound v : Int) : Bool :=
  match side with
  | .lower => bound < v
  | .upper => v < bound

/-- Removes the values beyond `v` on one side. -/
def removeBeyondBase (s : Store) (b : Base) (side : Side) (v : Int) :
    Except Fault (Verdict × Store) := do
  match ← s.trail.bound? side b.domain with
  | none => return (.consistent, s)
  | some bound =>
    if liesBeyond side bound v then
      let s ← s.updateTrail (·.eraseBeyond side b.domain v)
      let size ← s.trail.card b.domain
      let s ← s.note b.slot fun e =>
        { e with
          minChanged := e.minChanged || side == .lower
          maxChanged := e.maxChanged || side == .upper
          domainChanged := true
          fixed := e.fixed || size == 1
          emptied := e.emptied || size == 0 }
      return (if size = 0 then .failed .domainWipeout else .consistent, s)
    else
      return (.consistent, s)

/-! ## All variables -/

/-- Keeps the value `v` alone; fails without a change if the variable does not have it. -/
def fix (s : Store) (x : Var) (v : Int) : Except Fault (Verdict × Store) := do
  match ← s.pull x v with
  | none => return (.failed .domainWipeout, s)
  | some (b, r) => s.fixBase b r

/-- Removes the value `v`. -/
def remove (s : Store) (x : Var) (v : Int) : Except Fault (Verdict × Store) := do
  match ← s.pull x v with
  | none => return (.consistent, s)
  | some (b, r) => s.removeBase b r

/-- Removes the values beyond `v` on one side. -/
def removeBeyond (s : Store) (side : Side) (x : Var) (v : Int) :
    Except Fault (Verdict × Store) := do
  let (b, side, r) ← s.pullBound x side v
  s.removeBeyondBase b side r

/-- Removes the values below `v`. -/
def removeBelow (s : Store) (x : Var) (v : Int) : Except Fault (Verdict × Store) :=
  s.removeBeyond .lower x v

/-- Removes the values above `v`. -/
def removeAbove (s : Store) (x : Var) (v : Int) : Except Fault (Verdict × Store) :=
  s.removeBeyond .upper x v

/-! ## Variables with given values -/

/-- Removes from a variable those of the `count` values from `v` on that are not to be kept. -/
def removeGaps (x : Var) (keep : List Int) : Nat → Int → Store → Except Fault Store
  | 0, _, s => .ok s
  | count + 1, v, s => do
    if v ∈ keep then
      removeGaps x keep count (v + 1) s
    else
      let (_, s) ← s.remove x v
      removeGaps x keep count (v + 1) s

/-- A new primitive variable with the value `v` and some others. -/
def newEnumerated (s : Store) (v : Int) (others : List Int) : Except Fault (Var × Store) := do
  let least := others.foldl min v
  let greatest := others.foldl max v
  let (x, s) ← s.newPrimitive least greatest
  return (x, ← removeGaps x (v :: others) (greatest - least).toNat least s)

end FiniteDomain.Store
