import FiniteDomain.AllDifferent.Marks
import FiniteDomain.AllDifferent.ValueGraph

/-!
# Repairing the matching

Extends the matching of a value graph until it covers the active variables, or finds that none
does.

The work proceeds in rounds.  In a round, an alternating path is looked for from every free value
to a variable without a mate: an edge leads from a value to a variable that may take it, and then
the matching leads from that variable to its mate.  No variable is entered twice in a round, so the
paths have no variable in common, and they are all flipped when the round is over: each variable on
a path is matched to the value that led to it.  A round without a path proves that no matching
covers the variables.

* `greedy` matches what can be matched without moving anything.
* `nextVar` and `PathSearch.step` look for one path, depth first.
* `searchAll` is a round, and `augment` repeats rounds.
-/

namespace FiniteDomain.AllDifferent

/-- What the rounds remember: which variables were entered and which values were expanded in the
present round, and, for each expanded value, the place of the next edge to try. -/
structure Matcher where
  seen : Marks
  expanded : Marks
  nextEdge : Array Nat
  deriving DecidableEq, Repr

namespace Matcher

/-- A matcher for a graph with `n` variables and `m` values. -/
def new (n m : Nat) : Matcher :=
  ⟨.blank n, .blank m, Array.replicate m 0⟩

/-- Begins a round. -/
def beginRound (k : Matcher) : Matcher :=
  { k with seen := k.seen.forget, expanded := k.expanded.forget }

/-! ## The first matching -/

/-- The first value of the given edges that is on a live edge and has no owner. -/
def firstFree (g : ValueGraph) (s : Store) : List Nat → Except Fault (Option Nat)
  | [] => .ok none
  | e :: rest => do
    if ← g.isLive s e then
      let v ← fetch g.edgeValue e
      match ← g.owner? s v with
      | none => return some v
      | some _ => firstFree g s rest
    else
      firstFree g s rest

/-- Matches each of several variables to the first free value it may take, if it has no mate. -/
def greedyAll (g : ValueGraph) : List Nat → Store → Except Fault Store
  | [], s => .ok s
  | x :: rest, s => do
    match ← g.mate? s x with
    | some _ => greedyAll g rest s
    | none =>
      match ← firstFree g s (← g.edgesOf x) with
      | none => greedyAll g rest s
      | some v => greedyAll g rest (← g.assignMate s x v)

/-- Matches each active variable without a mate to the first free value it may take. -/
def greedy (g : ValueGraph) (s : Store) : Except Fault Store := do
  greedyAll g (← g.activeVars s) s

/-! ## One path -/

/-- Puts a value on the path.  Its edges are tried from the first one on, unless the value was
expanded in this round before. -/
def expand (k : Matcher) (v : Nat) : Except Fault Matcher := do
  if ← k.expanded.isMarked v then
    return k
  else
    return { k with
      expanded := k.expanded.mark v
      nextEdge := k.nextEdge.setIfInBounds v 0 }

/-- The next variable to enter from the value `v`: the first one, among those at the end of the
`count` edges that were not tried yet, that is active and was not entered. -/
def nextVar (g : ValueGraph) (s : Store) (v : Nat) : Nat → Matcher →
    Except Fault (Option Nat × Matcher)
  | 0, k => .ok (none, k)
  | count + 1, k => do
    let place ← fetch k.nextEdge v
    let y ← g.liveVar v place
    let k := { k with nextEdge := k.nextEdge.setIfInBounds v (place + 1) }
    if ← k.seen.isMarked y then
      nextVar g s v count k
    else if ← g.isActive s y then
      return (some y, { k with seen := k.seen.mark y })
    else
      nextVar g s v count k

/-- A search for one path: the values on it and the variables that led from each value to the next
one, the last ones first. -/
structure PathSearch where
  matcher : Matcher
  values : List Nat
  vars : List Nat
  deriving DecidableEq, Repr

/-- What a step of the search comes to. -/
inductive StepResult where
  /-- The path ends in a variable without a mate.  These are its variables, each with the value
  that leads to it, from the root on. -/
  | found (flips : List (Nat × Nat)) (matcher : Matcher)
  /-- There is no path. -/
  | exhausted (matcher : Matcher)
  | goOn (search : PathSearch)
  deriving DecidableEq, Repr

/-- Prolongs the path by one variable and its mate, or takes its last value back. -/
def PathSearch.step (g : ValueGraph) (s : Store) (p : PathSearch) : Except Fault StepResult :=
  match p with
  | ⟨matcher, values, vars⟩ =>
    match values with
    | [] => .ok (.exhausted matcher)
    | v :: earlier => do
      let untried := (← g.liveCount s v) - (← fetch matcher.nextEdge v)
      match ← nextVar g s v untried matcher with
      | (none, matcher) => return .goOn ⟨matcher, earlier, vars.tail⟩
      | (some y, matcher) =>
        let vars := y :: vars
        match ← g.mate? s y with
        | none => return .found (vars.reverse.zip values.reverse) matcher
        | some w => return .goOn ⟨← matcher.expand w, w :: values, vars⟩

/-- Takes at most `fuel` steps.  Gives the flips of the path, if there is one. -/
def PathSearch.run (g : ValueGraph) (s : Store) :
    Nat → PathSearch → Except Fault (Option (List (Nat × Nat)) × Matcher)
  | 0, _ => .error .outOfFuel
  | fuel + 1, p => do
    match ← p.step g s with
    | .found flips matcher => return (some flips, matcher)
    | .exhausted matcher => return (none, matcher)
    | .goOn p => run g s fuel p

/-- Looks for an alternating path from the free value `root` to a variable without a mate.  Every
step enters a variable or takes a value back, so twice the number of variables is enough. -/
def findPath? (g : ValueGraph) (s : Store) (k : Matcher) (root : Nat) :
    Except Fault (Option (List (Nat × Nat)) × Matcher) := do
  let k ← k.expand root
  PathSearch.run g s (2 * g.varTotal + 3) ⟨k, [root], []⟩

/-! ## Rounds -/

/-- Looks for a path from each of several values that are free, until `wanted` of them have one.
Gives the number of paths and their flips. -/
def searchAll (g : ValueGraph) (s : Store) (wanted : Nat) :
    List Nat → Nat → List (Nat × Nat) → Matcher →
      Except Fault (Nat × List (Nat × Nat) × Matcher)
  | [], found, flips, k => .ok (found, flips, k)
  | v :: rest, found, flips, k => do
    if found = wanted then
      return (found, flips, k)
    else if ← g.isFree s v then
      match ← findPath? g s k v with
      | (some path, k) => searchAll g s wanted rest (found + 1) (flips ++ path) k
      | (none, k) => searchAll g s wanted rest found flips k
    else
      searchAll g s wanted rest found flips k

/-- Matches the variables and values of the flips, one pair after the other. -/
def applyFlips (g : ValueGraph) (s : Store) (flips : List (Nat × Nat)) : Except Fault Store :=
  flips.foldlM (fun s (x, v) => g.assignMate s x v) s

/-- The answer of a repair. -/
inductive Outcome where
  /-- Every active variable has a mate; so many paths were flipped. -/
  | covered (paths : Nat)
  /-- Some active variable cannot have a mate. -/
  | impossible
  deriving DecidableEq, Repr

/-- Runs rounds, at most `fuel`, until `unmatched` variables have found a mate, on top of the
`total` paths of the rounds before. -/
def rounds (g : ValueGraph) : Nat → Nat → Nat → Matcher → Store →
    Except Fault (Outcome × Matcher × Store)
  | _, 0, total, k, s => .ok (.covered total, k, s)
  | 0, _ + 1, _, _, _ => .error .outOfFuel
  | fuel + 1, unmatched + 1, total, k, s => do
    let (found, flips, k) ←
      searchAll g s (unmatched + 1) (List.range g.valueTotal) 0 [] k.beginRound
    if found = 0 then
      return (.impossible, k, s)
    else
      let s ← applyFlips g s flips
      rounds g fuel (unmatched + 1 - found) (total + found) k s

/-- The number of active variables without a mate. -/
def unmatchedCount (g : ValueGraph) (s : Store) : Except Fault Nat := do
  let unmatched ← (← g.activeVars s).filterM fun x => return (← g.mate? s x).isNone
  return unmatched.length

/-- Extends the matching until it covers the active variables.  Each round but the last matches one
more variable at least. -/
def augment (g : ValueGraph) (k : Matcher) (s : Store) :
    Except Fault (Outcome × Matcher × Store) := do
  let unmatched ← unmatchedCount g s
  rounds g unmatched unmatched 0 k s

end Matcher

end FiniteDomain.AllDifferent
