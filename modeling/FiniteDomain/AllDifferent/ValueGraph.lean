import FiniteDomain.Store.Domain

/-!
# The value graph

The value graph of an all different constraint has the variables of the constraint on one side, by
their positions, and the values that they could take at first on the other side, by the order in
which they were met.  An edge joins a variable and a value of its first domain.

Edges and variables are never deleted.  The edges that reach a value stand in one segment of
`adjacency`, the live ones first, and a cell says how many are live: an edge is unlinked by
exchanging it with the last live one and lowering the cell.  In the same way the variables that are
not grounded yet come first in `active`.  The permutations are not reversible and need not be:
restoring the cells brings back the edges and variables, whatever their order.

A matching joins variables and values.  It is kept from both ends: the mate of a variable and the
owner of a value, each a cell that is negative where there is none.

* The representation: `ValueGraph`.
* Questions: edges, live edges, active variables, mates and owners.
* The matching cells: `assignMate`, `releaseMate`.
* Removals: `unlink` takes an edge out, `ground` takes a variable out of the active ones.

`FiniteDomain.AllDifferent.ValueGraph.Build` makes the graph of given variables.
-/

namespace FiniteDomain.AllDifferent

/-- Variables, the values they could take at first, and which of the edges between them are live. -/
structure ValueGraph where
  vars : Array Var
  /-- The primitive variable of each variable. -/
  sources : Array Var
  values : Array Int
  /-- The edges of the variable `x` are numbered from `edgeStart[x]` up to `edgeStart[x + 1]`. -/
  edgeStart : Array Nat
  /-- The variable of each edge. -/
  edgeVar : Array Nat
  /-- The value of each edge. -/
  edgeValue : Array Nat
  /-- Where the segment of each value begins in `adjacency`. -/
  valueStart : Array Nat
  adjacency : Array Nat
  /-- The place of each edge in `adjacency`. -/
  slot : Array Nat
  /-- The number of live edges of each value. -/
  live : Array Cell
  /-- The number of all live edges. -/
  liveTotal : Cell
  active : Array Nat
  /-- The place of each variable in `active`. -/
  activePlace : Array Nat
  /-- The number of variables that are not grounded. -/
  activeTotal : Cell
  mates : Array Cell
  owners : Array Cell
  deriving DecidableEq, Repr

namespace ValueGraph

/-! ## Questions -/

/-- The number of variables. -/
def varTotal (g : ValueGraph) : Nat := g.vars.size

/-- The number of values. -/
def valueTotal (g : ValueGraph) : Nat := g.values.size

/-- The number of edges, live or not. -/
def edgeTotal (g : ValueGraph) : Nat := g.edgeVar.size

/-- The variable at a position. -/
def var (g : ValueGraph) (x : Nat) : Except Fault Var := fetch g.vars x

/-- The value with a number. -/
def value (g : ValueGraph) (v : Nat) : Except Fault Int := fetch g.values v

/-- The number of a value, if it was ever possible. -/
def valueId? (g : ValueGraph) (value : Int) : Option Nat :=
  g.values.findIdx? (· == value)

/-- The positions of the variables whose primitive variable is `p`. -/
def route (g : ValueGraph) (p : Var) : List Nat :=
  (List.range g.sources.size).filter fun x => g.sources[x]? == some p

/-- The positions that share the primitive variable of `x`, which is one of them. -/
def sharers (g : ValueGraph) (x : Nat) : Except Fault (List Nat) := do
  return g.route (← fetch g.sources x)

/-- The edges of a variable, in the order of its first domain. -/
def edgesOf (g : ValueGraph) (x : Nat) : Except Fault (List Nat) := do
  let start ← fetch g.edgeStart x
  let stop ← fetch g.edgeStart (x + 1)
  return List.range' start (stop - start)

/-- The number of all live edges. -/
def liveEdges (g : ValueGraph) (s : Store) : Except Fault Nat :=
  s.readCount g.liveTotal

/-- The number of live edges of a value. -/
def liveCount (g : ValueGraph) (s : Store) (v : Nat) : Except Fault Nat := do
  s.readCount (← fetch g.live v)

/-- The variable at the end of the edge in the `k`-th place of a value. -/
def liveVar (g : ValueGraph) (v k : Nat) : Except Fault Nat := do
  let start ← fetch g.valueStart v
  fetch g.edgeVar (← fetch g.adjacency (start + k))

/-- The variables that may still take a value. -/
def liveVars (g : ValueGraph) (s : Store) (v : Nat) : Except Fault (List Nat) := do
  let start ← fetch g.valueStart v
  let stop ← Word.addCount start (← g.liveCount s v)
  if g.adjacency.size < stop then
    throw .outOfBounds
  else
    (g.adjacency.extract start stop).toList.mapM (fetch g.edgeVar)

/-- Whether an edge is live. -/
def isLive (g : ValueGraph) (s : Store) (e : Nat) : Except Fault Bool := do
  let v ← fetch g.edgeValue e
  let place ← fetch g.slot e
  let start ← fetch g.valueStart v
  return place < (← Word.addCount start (← g.liveCount s v))

/-- The number of active variables. -/
def activeCount (g : ValueGraph) (s : Store) : Except Fault Nat :=
  s.readCount g.activeTotal

/-- Whether a variable is active. -/
def isActive (g : ValueGraph) (s : Store) (x : Nat) : Except Fault Bool := do
  return (← fetch g.activePlace x) < (← g.activeCount s)

/-- The active variables. -/
def activeVars (g : ValueGraph) (s : Store) : Except Fault (List Nat) := do
  let stop ← g.activeCount s
  if g.active.size < stop then
    throw .outOfBounds
  else
    return (g.active.extract 0 stop).toList

/-- What a matching cell holds: a number, or none where the cell is negative. -/
def partner? (s : Store) (c : Cell) : Except Fault (Option Nat) := do
  let v ← s.read c
  return if 0 ≤ v then some v.toNat else none

/-- The value that is matched to a variable. -/
def mate? (g : ValueGraph) (s : Store) (x : Nat) : Except Fault (Option Nat) := do
  partner? s (← fetch g.mates x)

/-- The variable that is matched to a value. -/
def owner? (g : ValueGraph) (s : Store) (v : Nat) : Except Fault (Option Nat) := do
  partner? s (← fetch g.owners v)

/-- Whether a value has a live edge but no owner. -/
def isFree (g : ValueGraph) (s : Store) (v : Nat) : Except Fault Bool := do
  match ← g.owner? s v with
  | some _ => return false
  | none => return 0 < (← g.liveCount s v)

/-- Whether a live edge joins `x` and the value `v`. -/
def hasLiveEdge (g : ValueGraph) (s : Store) (x v : Nat) : Except Fault Bool := do
  (← g.edgesOf x).anyM fun e => do
    if (← fetch g.edgeValue e) = v then g.isLive s e else return false

/-- Whether every variable has a mate that it owns along a live edge. -/
def isCovered (g : ValueGraph) (s : Store) : Except Fault Bool :=
  (List.range g.varTotal).allM fun x => do
    match ← g.mate? s x with
    | none => return false
    | some v => if (← g.owner? s v) = some x then g.hasLiveEdge s x v else return false

/-! ## The matching cells -/

/-- Matches a variable with a value.  Their partners so far keep their cells. -/
def assignMate (g : ValueGraph) (s : Store) (x v : Nat) : Except Fault Store := do
  let s ← s.write (← fetch g.mates x) v
  s.write (← fetch g.owners v) x

/-- Takes the mate of a variable away. -/
def releaseMate (g : ValueGraph) (s : Store) (x : Nat) : Except Fault Store := do
  match ← g.mate? s x with
  | none => return s
  | some v =>
    let s ← s.write (← fetch g.mates x) (-1)
    if (← g.owner? s v) = some x then
      s.write (← fetch g.owners v) (-1)
    else
      return s

/-! ## Removals -/

/-- Takes an edge out of the live ones. -/
def unlink (g : ValueGraph) (s : Store) (e : Nat) : Except Fault (ValueGraph × Store) := do
  let v ← fetch g.edgeValue e
  let start ← fetch g.valueStart v
  let last ← Word.subCount (← Word.addCount start (← g.liveCount s v)) 1
  let place ← fetch g.slot e
  let other ← fetch g.adjacency last
  let (_, s) ← s.decrement (← fetch g.live v)
  let (_, s) ← s.decrement g.liveTotal
  return ({ g with
    adjacency := g.adjacency.swapIfInBounds place last
    slot := (g.slot.setIfInBounds other place).setIfInBounds e last }, s)

/-- Takes a variable out of the active ones. -/
def ground (g : ValueGraph) (s : Store) (x : Nat) : Except Fault (ValueGraph × Store) := do
  let last ← Word.subCount (← g.activeCount s) 1
  let place ← fetch g.activePlace x
  let other ← fetch g.active last
  let (_, s) ← s.decrement g.activeTotal
  return ({ g with
    active := g.active.swapIfInBounds place last
    activePlace := (g.activePlace.setIfInBounds other place).setIfInBounds x last }, s)

end ValueGraph

end FiniteDomain.AllDifferent
