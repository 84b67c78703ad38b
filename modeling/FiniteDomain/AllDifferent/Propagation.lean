import FiniteDomain.AllDifferent.ValueGraph.Build
import FiniteDomain.AllDifferent.ForwardCheck
import FiniteDomain.AllDifferent.Matching
import FiniteDomain.AllDifferent.Components
import FiniteDomain.AllDifferent.Reach
import FiniteDomain.Model.Propagator

/-!
# The all different propagator

Removes from the domains of several variables the values that no choice of pairwise distinct values
uses.  The variables and their values form a graph, and a choice is a matching that covers the
variables.  Given one such matching, an edge outside of it belongs to another one exactly when it
closes an alternating cycle or lies on an alternating path from a free value.  So the edges to keep
are the matched ones, those within a component, and those to the mate of a variable that is
reached.

A run repeats these steps until nothing follows any more.

1. The graph is brought in line with the domains (`forwardCheck`).
2. The matching is repaired, if it lost an edge.
3. The components are tagged, again or where they were touched.
4. The variables that the free values reach are marked.
5. What follows is collected (`shortcuts`, `prunable`) and done.

The matching, the tags, the numbers of live edges and of active variables, and the size of the last
reach are on the trail.  The rest is not and need not be: the permutations behind those numbers, the
marks, which are forgotten before they are used, and the worklist, which is emptied when a level is
restored.
-/

namespace FiniteDomain

namespace AllDifferent

/-- How the propagator works. -/
structure Options where
  /-- Tag only the components that were touched, when the matching stayed the same. -/
  reuseComponents : Bool
  /-- Give a value that one variable alone can take to that variable, when all values are used. -/
  permutationShortcut : Bool
  /-- Check the matching after each repair, and the tags after each partial pass. -/
  checked : Bool
  deriving DecidableEq, Repr

/-- Both shortcuts are taken, and nothing is checked. -/
def Options.usual : Options := ⟨true, true, false⟩

end AllDifferent

open AllDifferent in
/-- The state of an all different propagator. -/
structure AllDifferent where
  options : Options
  graph : ValueGraph
  matcher : Matcher
  tagging : Tagging
  reach : Reach
  work : Worklist
  /-- Whether a first matching was found. -/
  ready : Bool
  deriving DecidableEq, Repr

namespace AllDifferent

/-- The propagator of the given variables. -/
def new (s : Store) (vars : Array Var) (options : Options) :
    Except Fault (AllDifferent × Store) := do
  let (graph, s) ← ValueGraph.build s vars
  let (tagging, s) := Tagging.new s graph.varTotal
  let (reach, s) := Reach.new s graph.varTotal
  return ({
    options
    graph
    matcher := .new graph.varTotal graph.valueTotal
    tagging
    reach
    work := .empty
    ready := false }, s)

/-! ## Repair and tags -/

/-- What became of the matching. -/
inductive Repair where
  | unchanged
  | repaired
  | impossible
  deriving DecidableEq, Repr

/-- Extends the matching. -/
def extend (p : AllDifferent) (s : Store) : Except Fault (Repair × AllDifferent × Store) := do
  match ← Matcher.augment p.graph p.matcher s with
  | (.impossible, matcher, s) => return (.impossible, { p with matcher }, s)
  | (.covered _, matcher, s) => return (.repaired, { p with matcher, ready := true }, s)

/-- Finds a first matching, or repairs the one there is if it lost an edge. -/
def repair (p : AllDifferent) (changes : Changes) (s : Store) :
    Except Fault (Repair × AllDifferent × Store) := do
  if !p.ready then
    p.extend (← Matcher.greedy p.graph s)
  else if changes.matchingChanged then
    p.extend s
  else
    return (.unchanged, p, s)

/-- Checks that the matching covers the variables along live edges. -/
def checkMatching (p : AllDifferent) (s : Store) : Except Fault Unit := do
  if p.options.checked then
    if !(← p.graph.isCovered s) then
      throw .brokenMatching

/-- Checks that the tags describe the components. -/
def checkTags (p : AllDifferent) (s : Store) : Except Fault (AllDifferent × Store) := do
  if p.options.checked then
    let (same, tagging, s) ← Tagging.tagsAgree p.graph p.tagging s
    if same then
      return ({ p with tagging }, s)
    else
      throw .staleComponents
  else
    return (p, s)

/-- Tags the components: those that contain a touched variable, if the matching stayed the same and
the options allow it, and all of them otherwise. -/
def retag (p : AllDifferent) (repair : Repair) (touched : List Nat) (s : Store) :
    Except Fault (AllDifferent × Store) := do
  if p.options.reuseComponents && repair == .unchanged then
    let (tagging, s) ← Tagging.tagTouched p.graph touched p.tagging s
    checkTags { p with tagging } s
  else
    let (tagging, s) ← Tagging.tagAll p.graph p.tagging s
    return ({ p with tagging }, s)

/-! ## What follows -/

/-- A variable of the constraint, and a value. -/
abbrev Deduction := Nat × Int

/-- The variables to fix because some value can be taken by them alone, each with that value.  All
values have to be used when none is free. -/
def shortcuts (p : AllDifferent) (s : Store) : Except Fault (List Deduction) := do
  if !p.options.permutationShortcut || 0 < p.reach.freeCount then
    return []
  else
    (List.range p.graph.valueTotal).filterMapM fun v => do
      if (← p.graph.liveCount s v) = 1 then
        match ← p.graph.owner? s v with
        | none => return none
        | some x =>
          if ← p.graph.isActive s x then
            if 1 < (← s.size (← p.graph.var x)) then
              return some (x, ← p.graph.value v)
            else
              return none
          else
            return none
      else
        return none

/-- The active variables that have to do without the value `a`, which is the mate of `x`, because
they are not in the component of `x`. -/
def outsiders (p : AllDifferent) (s : Store) (x a : Nat) : Except Fault (List Deduction) := do
  let tag ← p.tagging.tag s x
  (← p.graph.liveVars s a).filterMapM fun y => do
    if y = x then
      return none
    else if ← p.graph.isActive s y then
      if (← p.tagging.tag s y) = tag then
        return none
      else
        return some (y, ← p.graph.value a)
    else
      return none

/-- The values to remove: the mate of each active variable that is not reached, from the variables
outside of its component. -/
def prunable (p : AllDifferent) (s : Store) : Except Fault (List Deduction) := do
  let removals ← (← p.graph.activeVars s).mapM fun x => do
    if ← p.reach.isReached x then
      return []
    else
      match ← p.graph.mate? s x with
      | none => return []
      | some a => p.outsiders s x a
  return removals.flatten

/-! ## Doing it -/

/-- A way to narrow the domain of a variable by a value. -/
abbrev Narrowing := Store → Var → Int → Except Fault (Verdict × Store)

/-- Carries several deductions out, until one fails.  The variables that share a primitive variable
with a narrowed one wait afterwards. -/
def carryOut (g : ValueGraph) (narrow : Narrowing) : List Deduction → Worklist → Store →
    Except Fault (Verdict × Worklist × Store)
  | [], work, s => .ok (.consistent, work, s)
  | (x, value) :: rest, work, s => do
    match ← narrow s (← g.var x) value with
    | (.failed why, s) => return (.failed why, work, s)
    | (.consistent, s) => carryOut g narrow rest (work.pushAll (← g.sharers x)) s

/-- Fixes and removes what follows. -/
def conclude (p : AllDifferent) (fixes removals : List Deduction) (s : Store) :
    Except Fault (Verdict × AllDifferent × Store) := do
  match ← carryOut p.graph Store.fix fixes p.work s with
  | (.failed why, work, s) => return (.failed why, { p with work }, s)
  | (.consistent, work, s) =>
    let (verdict, work, s) ← carryOut p.graph Store.remove removals work s
    return (verdict, { p with work }, s)

/-! ## Runs -/

/-- Brings the graph in line with the domains. -/
def synchronize (p : AllDifferent) (s : Store) :
    Except Fault (Verdict × Changes × AllDifferent × Store) := do
  let (verdict, y) ← forwardCheck ⟨p.graph, s, p.work, .nothing⟩
  return (verdict, y.changes, { p with graph := y.graph, work := y.work }, y.store)

/-- The steps after the graph is in line with the domains.  Tells whether anything followed. -/
def filter (p : AllDifferent) (changes : Changes) (s : Store) :
    Except Fault (Verdict × Bool × AllDifferent × Store) := do
  match ← p.repair changes s with
  | (.impossible, p, s) => return (.failed .noMaximumMatching, false, p, s)
  | (repair, p, s) =>
    p.checkMatching s
    let (p, s) ← p.retag repair changes.touched.toList s
    let (_, reach, s) ← p.reach.compute p.graph s
    let p := { p with reach }
    let fixes ← p.shortcuts s
    let removals ← p.prunable s
    if fixes.isEmpty && removals.isEmpty then
      return (.consistent, false, p, s)
    else
      let (verdict, p, s) ← p.conclude fixes removals s
      return (verdict, true, p, s)

/-- Repeats the steps, at most `fuel` times.  The first time they are all taken if `forced`; later
on only if the graph changed.  When they are `repeated`, the last deductions must have cost the
graph an edge. -/
def run : Nat → Bool → Bool → AllDifferent → Store →
    Except Fault (Verdict × AllDifferent × Store)
  | 0, _, _, _, _ => .error .outOfFuel
  | fuel + 1, forced, repeated, p, s => do
    let before ← p.graph.liveEdges s
    match ← p.synchronize s with
    | (.failed why, _, p, s) => return (.failed why, p, s)
    | (.consistent, changes, p, s) =>
      if !forced && changes.isEmpty then
        return (.consistent, p, s)
      else
        let after ← p.graph.liveEdges s
        if repeated && before ≤ after then
          throw .idleDeduction
        else
          match ← p.filter changes s with
          | (.failed why, _, p, s) => return (.failed why, p, s)
          | (.consistent, false, p, s) => return (.consistent, p, s)
          | (.consistent, true, p, s) => run fuel false true p s

/-- Narrows the domains to the values that some choice of pairwise distinct values uses.  Until a
first matching is found, all variables are looked at.  The number of live edges falls from each
repetition to the next one, and it is a count, which bounds the repetitions. -/
def propagate (p : AllDifferent) (s : Store) : Except Fault (Verdict × AllDifferent × Store) := do
  let forced := !p.ready
  let p := if forced then
      { p with work := p.work.pushAll (List.range p.graph.varTotal) }
    else
      p
  run (Word.countBound + 2) forced false p s

/-- Lets the variables wait whose primitive variable changed. -/
def notify (p : AllDifferent) (x : Var) : AllDifferent :=
  { p with work := p.work.pushAll (p.graph.route x) }

/-- Lets nobody wait: the domains are back to what they were when the graph was in line with
them. -/
def onRestore (p : AllDifferent) : AllDifferent :=
  { p with work := .empty }

/-- The first of several variables with the fewest values, among those with more than one.  Gives
its position and the number of its values. -/
def smallest? (g : ValueGraph) (s : Store) : List Nat → Option (Nat × Nat) →
    Except Fault (Option (Nat × Nat))
  | [], best => .ok best
  | x :: rest, best => do
    let size ← s.size (← g.var x)
    let better := match best with
      | none => true
      | some (_, least) => size < least
    smallest? g s rest (if 1 < size && better then some (x, size) else best)

/-- Suggests to give its mate to the active variable with the fewest values.  The score is higher
when more variables compete for that value. -/
def hint? (p : AllDifferent) (s : Store) : Except Fault (Option Hint) := do
  match ← smallest? p.graph s (← p.graph.activeVars s) none with
  | none => return none
  | some (x, size) =>
    match ← p.graph.mate? s x with
    | none => return none
    | some a =>
      let var ← p.graph.var x
      let value ← p.graph.value a
      let rivals ← Word.subCount (← p.graph.liveCount s a) 1
      let score ← Word.addCount rivals (← Word.subCount size 1)
      return some ⟨var, value, score⟩

instance : Propagator AllDifferent where
  propagate := propagate
  notify := notify
  onRestore := onRestore
  hint? := hint?

end AllDifferent

end FiniteDomain
