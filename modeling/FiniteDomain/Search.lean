import FiniteDomain.Model.Fixpoint

/-!
# Depth first search

The search enumerates the ways to fix several decision variables.  At each node it decides on a
variable `x` and a value `v`, and explores first what is left with `x = v` and then what is left
without it.  Each branch is a level of its own: it is saved before the decision and restored after
the branch was explored.

Decisions are made in one of two ways.  First fail takes the first of the variables with the fewest
values and its least value.  A hinted search takes the hint of the propagators as long as it makes
sense, and falls back on first fail.

Each solution is shown to an observer, and what it sees is kept in the order of the solutions.
-/

namespace FiniteDomain

/-- How decisions are made. -/
inductive Branching where
  /-- The variable with the fewest values gets its least value. -/
  | firstFail
  /-- The propagators suggest the decision. -/
  | hinted
  deriving DecidableEq, Repr

/-- The decision variables, how to decide on them, and how many solutions are enough. -/
structure Search where
  vars : List Var
  branching : Branching
  limit : Option Nat
  deriving DecidableEq, Repr

/-- What a search has found so far. -/
structure Tally (ρ : Type) where
  nodes : Nat
  failures : Nat
  solutions : Nat
  /-- What the observer saw at each solution. -/
  reports : Array ρ
  deriving DecidableEq, Repr

namespace Tally

variable {ρ : Type}

/-- Nothing yet. -/
def zero : Tally ρ := ⟨0, 0, 0, #[]⟩

/-- One more node. -/
def visited (t : Tally ρ) : Tally ρ := { t with nodes := t.nodes + 1 }

/-- One more branch without a solution. -/
def failed (t : Tally ρ) : Tally ρ := { t with failures := t.failures + 1 }

/-- One more solution. -/
def solved (t : Tally ρ) (report : ρ) : Tally ρ :=
  { t with solutions := t.solutions + 1, reports := t.reports.push report }

/-- The counts in words. -/
def text (t : Tally ρ) : String :=
  s!"nodes: {t.nodes} failures: {t.failures} solutions: {t.solutions}"

end Tally

namespace Search

variable {π ρ : Type} [Propagator π]

/-! ## Decisions -/

/-- The first of several variables with the fewest values, among those that are not fixed, and the
number of its values. -/
def smallest? (s : Store) : List Var → Option (Var × Nat) → Except Fault (Option (Var × Nat))
  | [], best => .ok best
  | x :: rest, best => do
    let size ← s.size x
    let better := match best with
      | none => true
      | some (_, least) => size < least
    smallest? s rest (if size ≠ 1 && better then some (x, size) else best)

/-- The least value of the smallest variable that is not fixed.  There is no decision when all
variables are fixed, nor when that variable has no value. -/
def firstFail? (q : Search) (m : Model π) : Except Fault (Option (Var × Int)) := do
  match ← smallest? m.store q.vars none with
  | none => return none
  | some (x, _) =>
    match ← m.store.min? x with
    | none => return none
    | some v => return some (x, v)

/-- The hint of the propagators, if its variable is not fixed and has its value. -/
def hinted? (m : Model π) : Except Fault (Option (Var × Int)) := do
  match ← m.hint? with
  | none => return none
  | some hint =>
    if ← m.store.isFixed hint.var then
      return none
    else if ← m.store.contains hint.var hint.value then
      return some (hint.var, hint.value)
    else
      return none

/-- The next decision. -/
def decide? (q : Search) (m : Model π) : Except Fault (Option (Var × Int)) := do
  match q.branching with
  | .firstFail => q.firstFail? m
  | .hinted =>
    match ← hinted? m with
    | some decision => return some decision
    | none => q.firstFail? m

/-! ## Exploring -/

/-- Whether enough solutions are found. -/
def isEnough (q : Search) (t : Tally ρ) : Bool :=
  match q.limit with
  | none => false
  | some limit => limit ≤ t.solutions

/-- Narrows a domain, and runs the propagators if that did not fail. -/
def attempt (narrow : Model π → Except Fault (Verdict × Model π)) (m : Model π) :
    Except Fault (Verdict × Model π) := do
  match ← narrow m with
  | (.failed why, m) => return (.failed why, m)
  | (.consistent, m) => m.fixpoint

/-- Explores what is left after a decision, on a level of its own. -/
def branch (explore : Model π → Tally ρ → Except Fault (Bool × Model π × Tally ρ))
    (narrow : Model π → Except Fault (Verdict × Model π)) (m : Model π) (t : Tally ρ) :
    Except Fault (Bool × Model π × Tally ρ) := do
  match ← attempt narrow m.save with
  | (.failed _, m) => return (false, ← m.restore, t.failed)
  | (.consistent, m) =>
    let (stop, m, t) ← explore m t
    return (stop, ← m.restore, t)

/-- Explores a node, at most `fuel` decisions deep.  Tells whether the search has to stop. -/
def explore (q : Search) (observe : Model π → Except Fault ρ) :
    Nat → Model π → Tally ρ → Except Fault (Bool × Model π × Tally ρ)
  | 0, _, _ => .error .outOfFuel
  | fuel + 1, m, t => do
    let t := t.visited
    match ← q.decide? m with
    | none =>
      let t := t.solved (← observe m)
      return (q.isEnough t, m, t)
    | some (x, v) =>
      match ← branch (explore q observe fuel) (·.fix x v) m t with
      | (true, m, t) => return (true, m, t)
      | (false, m, t) => branch (explore q observe fuel) (·.remove x v) m t

/-- Runs the propagators, and explores what is left.  As long as domains only lose values, every
decision costs one of them a value, which bounds the decisions on a branch; the rest of the bound is
for propagators that give values back (see `Model.fixpoint`).  The model comes back as it was after
the first run of the propagators. -/
def solve (q : Search) (observe : Model π → Except Fault ρ) (m : Model π) :
    Except Fault (Tally ρ × Model π) := do
  match ← m.fixpoint with
  | (.failed _, m) => return (Tally.zero.failed, m)
  | (.consistent, m) =>
    let (_, m, t) ← q.explore observe (m.capacity + Word.countBound) m.save .zero
    return (t, ← m.restore)

end Search

end FiniteDomain
