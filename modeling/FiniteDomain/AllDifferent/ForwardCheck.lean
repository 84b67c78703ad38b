import FiniteDomain.AllDifferent.ValueGraph
import FiniteDomain.AllDifferent.Worklist

/-!
# Forward checking

Brings a value graph back in line with the domains of the variables that wait.  A variable loses
the edges to the values that left its domain.  One with a single value is grounded: it is matched
to that value for good, and the value is taken away from all other variables, which then wait in
their turn.  When nobody waits any more, no single value is left to take away.

`Sync` is what the work is done on.  `visit` treats one variable, and `forwardCheck` repeats it until
the worklist is empty.  A domain that becomes empty stops the work where it is.
-/

namespace FiniteDomain.AllDifferent

/-- A value graph, the store of its variables, the variables that wait, and what was done. -/
structure Sync where
  graph : ValueGraph
  store : Store
  work : Worklist
  changes : Changes
  deriving DecidableEq, Repr

namespace Sync

/-! ## Stale edges -/

/-- Unlinks an edge of `x` if it is live and its value left the domain.  A matching along the edge
is given up.  Tells whether the edge was unlinked. -/
def dropIfStale (x : Nat) (var : Var) (e : Nat) (y : Sync) : Except Fault (Bool × Sync) :=
  match y with
  | ⟨graph, store, work, changes⟩ => do
    let v ← fetch graph.edgeValue e
    if !(← graph.isLive store e) then
      return (false, ⟨graph, store, work, changes⟩)
    else if ← store.contains var (← graph.value v) then
      return (false, ⟨graph, store, work, changes⟩)
    else
      let (graph, store) ← graph.unlink store e
      let changes := { changes with unlinked := changes.unlinked + 1 }
      if (← graph.mate? store x) = some v then
        let store ← graph.releaseMate store x
        return (true, ⟨graph, store, work, { changes with freed := changes.freed.push x }⟩)
      else
        return (true, ⟨graph, store, work, changes⟩)

/-- Unlinks the stale ones of several edges of `x`.  Tells whether there were any. -/
def dropStale (x : Nat) (var : Var) : List Nat → Sync → Except Fault (Bool × Sync)
  | [], y => .ok (false, y)
  | e :: rest, y => do
    let (dropped, y) ← y.dropIfStale x var e
    let (more, y) ← dropStale x var rest y
    return (dropped || more, y)

/-! ## Grounding -/

/-- Matches `x` to the value `a`, which is taken away from its owner. -/
def takeValue (x a : Nat) (y : Sync) : Except Fault Sync :=
  match y with
  | ⟨graph, store, work, changes⟩ => do
    if (← graph.mate? store x) = some a then
      return ⟨graph, store, work, changes⟩
    else
      match ← graph.owner? store a with
      | none =>
        let store ← graph.releaseMate store x
        let store ← graph.assignMate store x a
        return ⟨graph, store, work, { changes with rematched := true }⟩
      | some owner =>
        let store ← graph.releaseMate store owner
        let store ← graph.releaseMate store x
        let store ← graph.assignMate store x a
        return ⟨graph, store, work,
          { changes with rematched := true, freed := changes.freed.push owner }⟩

/-- Takes `x` out of the active variables. -/
def retire (x : Nat) (y : Sync) : Except Fault Sync :=
  match y with
  | ⟨graph, store, work, changes⟩ => do
    let (graph, store) ← graph.ground store x
    return ⟨graph, store, work, { changes with grounded := changes.grounded + 1 }⟩

/-- Takes a value away from several variables.  Each of them waits afterwards, together with those
that share its primitive variable. -/
def denyAll (value : Int) : List Nat → Sync → Except Fault (Verdict × Sync)
  | [], y => .ok (.consistent, y)
  | z :: rest, ⟨graph, store, work, changes⟩ => do
    match ← store.remove (← graph.var z) value with
    | (.failed why, store) => return (.failed why, ⟨graph, store, work, changes⟩)
    | (.consistent, store) =>
      let work := work.pushAll (← graph.sharers z)
      denyAll value rest ⟨graph, store, work, changes⟩

/-- Grounds a variable with one value. -/
def settle (x : Nat) (var : Var) (y : Sync) : Except Fault (Verdict × Sync) := do
  match ← y.store.min? var with
  | none => return (.failed .domainWipeout, y)
  | some value =>
    match y.graph.valueId? value with
    | none => throw .unknownValue
    | some a =>
      let y ← y.takeValue x a
      let y ← y.retire x
      let others := (← y.graph.liveVars y.store a).filter (· != x)
      y.denyAll value others

/-! ## The loop -/

/-- Notes that `x` lost an edge or was grounded. -/
def touch (x : Nat) (y : Sync) : Sync :=
  { y with changes := { y.changes with touched := y.changes.touched.push x } }

/-- Brings the graph in line with the domain of one variable, which is left alone if it is grounded
already. -/
def visit (x : Nat) (y : Sync) : Except Fault (Verdict × Sync) := do
  if !(← y.graph.isActive y.store x) then
    return (.consistent, y)
  else
    let var ← y.graph.var x
    let edges ← y.graph.edgesOf x
    let (touched, y) ← y.dropStale x var edges
    if (← y.store.size var) = 1 then
      match ← y.settle x var with
      | (.failed why, y) => return (.failed why, y)
      | (.consistent, y) => return (.consistent, y.touch x)
    else
      return (.consistent, if touched then y.touch x else y)

/-- Visits the variables that wait, for at most `fuel` visits. -/
def run : Nat → Sync → Except Fault (Verdict × Sync)
  | 0, _ => .error .outOfFuel
  | fuel + 1, ⟨graph, store, work, changes⟩ =>
    match work.pop? with
    | none => .ok (.consistent, ⟨graph, store, work, changes⟩)
    | some (x, work) => do
      match ← visit x ⟨graph, store, work, changes⟩ with
      | (.failed why, y) => return (.failed why, y)
      | (.consistent, y) => run fuel y

end Sync

/-- Brings the graph in line with the domains of all variables that wait.  Only the grounding of a
variable lets others wait, and each variable is grounded once, unless the number of active variables
is kept in a cell that a domain uses as well; the rest of the bound is for that case. -/
def forwardCheck (y : Sync) : Except Fault (Verdict × Sync) :=
  let n := y.graph.varTotal
  Sync.run (y.work.waiting.length + n * n + Word.countBound) y

end FiniteDomain.AllDifferent
