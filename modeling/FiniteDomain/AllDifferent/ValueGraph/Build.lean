import FiniteDomain.AllDifferent.ValueGraph

/-!
# The value graph of given variables

The graph is made in two steps.  First the variables are read one after the other: each value of a
domain becomes an edge, and a value that was not met before gets the next number.  Then the edges
are sorted by their values, which keeps their order within a value, and the cells are made.

All edges are live, all variables are active, and nothing is matched.  The numbers of edges and of
variables are kept in cells, so they have to be values.
-/

namespace FiniteDomain.AllDifferent.ValueGraph

/-! ## Reading the domains -/

/-- The edges of the variables that were read so far. -/
structure Draft where
  sources : Array Var
  values : Array Int
  edgeStart : Array Nat
  edgeVar : Array Nat
  edgeValue : Array Nat
  deriving DecidableEq, Repr

/-- No variable was read. -/
def Draft.empty : Draft := ⟨#[], #[], #[], #[], #[]⟩

/-- Adds an edge from the variable at position `x`. -/
def Draft.addEdge (x : Nat) (d : Draft) (value : Int) : Draft :=
  match d.values.findIdx? (· == value) with
  | some v =>
    { d with edgeVar := d.edgeVar.push x, edgeValue := d.edgeValue.push v }
  | none =>
    { d with
      edgeVar := d.edgeVar.push x
      edgeValue := d.edgeValue.push d.values.size
      values := d.values.push value }

/-- Adds a variable with an edge for each of its values. -/
def Draft.addVar (s : Store) (d : Draft) (x : Var) : Except Fault Draft := do
  let source ← s.source x
  let values ← s.values x
  let d := { d with edgeStart := d.edgeStart.push d.edgeVar.size }
  let d := values.foldl (Draft.addEdge d.sources.size) d
  return { d with sources := d.sources.push source }

/-! ## Sorting the edges -/

/-- The edges of each value, in increasing order. -/
def Draft.byValue (d : Draft) : Array (Array Nat) :=
  d.edgeValue.toList.zipIdx.foldl
    (fun segments (v, e) => segments.modify v (·.push e))
    (Array.replicate d.values.size #[])

/-- Where each of several segments begins when they stand one after the other, and where the last
one ends. -/
def starts (segments : Array (Array Nat)) : Array Nat :=
  segments.foldl (fun starts segment => starts.push (starts.back?.getD 0 + segment.size)) #[0]

/-- The place of each number below the size of `xs`, which lists all of them. -/
def places (xs : Array Nat) : Array Nat :=
  xs.toList.zipIdx.foldl
    (fun places (x, place) => places.setIfInBounds x place)
    (Array.replicate xs.size 0)

/-- The graph of the variables `vars`. -/
def build (s : Store) (vars : Array Var) : Except Fault (ValueGraph × Store) := do
  let d ← vars.foldlM (Draft.addVar s) Draft.empty
  let n := vars.size
  let edgeTotal ← Word.check d.edgeVar.size
  let varTotal ← Word.check n
  let segments := d.byValue
  let adjacency := segments.flatten
  let (live, s) := s.newCells (segments.toList.map fun segment => (segment.size : Int))
  let (liveTotal, s) := s.newCell edgeTotal
  let (activeTotal, s) := s.newCell varTotal
  let (mates, s) := s.newCells (List.replicate n (-1))
  let (owners, s) := s.newCells (List.replicate d.values.size (-1))
  let g : ValueGraph := {
    vars
    sources := d.sources
    values := d.values
    edgeStart := d.edgeStart.push d.edgeVar.size
    edgeVar := d.edgeVar
    edgeValue := d.edgeValue
    valueStart := starts segments
    adjacency
    slot := places adjacency
    live
    liveTotal
    active := Array.range n
    activePlace := Array.range n
    activeTotal
    mates
    owners }
  return (g, s)

end FiniteDomain.AllDifferent.ValueGraph
