import FiniteDomain.AllDifferent.Propagation

/-!
# Propagators given by a list of actions

An action narrows a domain by itself, compares two variables, or decides whether the ones after it
are done at all.  A script runs its actions in order, until one fails or stops it.  It also keeps a
record of how often it ran, what it was told, and how often a level was restored.

`Rule` is the type of the propagators of a model that mixes scripts and all different constraints.
-/

namespace FiniteDomain

/-- What a script can do. -/
inductive Action where
  | fix (x : Var) (v : Int)
  | remove (x : Var) (v : Int)
  | removeBelow (x : Var) (v : Int)
  | removeAbove (x : Var) (v : Int)
  /-- Fails. -/
  | fail (why : Inconsistency)
  /-- Goes on only if the least value of `x` is at least `v`. -/
  | whenMin (x : Var) (v : Int)
  /-- Goes on only if `x` is fixed. -/
  | whenFixed (x : Var)
  /-- Keeps the values with which `x` can be less than `y`. -/
  | less (x y : Var)
  /-- Keeps the values with which `x` can differ from `y + k`, once one of the two is fixed. -/
  | differ (x y : Var) (k : Int)
  /-- Adds one to a cell. -/
  | count (c : Cell)
  deriving DecidableEq, Repr

namespace Action

/-- Whether the actions that follow are still to be done. -/
inductive Answer where
  | goOn
  | stop
  | failed (why : Inconsistency)
  deriving DecidableEq, Repr

/-- The answer of an action that narrows a domain. -/
def Answer.ofVerdict : Verdict → Answer
  | .consistent => goOn
  | .failed why => failed why

/-- Narrows a domain. -/
def narrow (attempt : Except Fault (Verdict × Store)) : Except Fault (Answer × Store) := do
  let (verdict, s) ← attempt
  return (.ofVerdict verdict, s)

/-- Keeps the values with which `x` can be less than `y`.  Both must have values. -/
def makeLess (x y : Var) (s : Store) : Except Fault (Verdict × Store) := do
  match ← s.max? y with
  | none => return (.failed .domainWipeout, s)
  | some top =>
    match ← s.removeAbove x (← Word.sub top 1) with
    | (.failed why, s) => return (.failed why, s)
    | (.consistent, s) =>
      match ← s.min? x with
      | none => return (.failed .domainWipeout, s)
      | some bottom => s.removeBelow y (← Word.add bottom 1)

/-- The value of a variable, if it is fixed. -/
def fixedValue? (s : Store) (x : Var) : Except Fault (Option Int) := do
  if ← s.isFixed x then s.min? x else return none

/-- Removes `y + k` from `x` if `y` is fixed, and then `x - k` from `y` if `x` is. -/
def makeDiffer (x y : Var) (k : Int) (s : Store) : Except Fault (Verdict × Store) := do
  let (verdict, s) ← match ← fixedValue? s y with
    | none => pure (Verdict.consistent, s)
    | some v => s.remove x (← Word.add v k)
  match verdict with
  | .failed why => return (.failed why, s)
  | .consistent =>
    match ← fixedValue? s x with
    | none => return (.consistent, s)
    | some v => s.remove y (← Word.sub v k)

/-- Does an action. -/
def perform (s : Store) : Action → Except Fault (Answer × Store)
  | fix x v => narrow (s.fix x v)
  | remove x v => narrow (s.remove x v)
  | removeBelow x v => narrow (s.removeBelow x v)
  | removeAbove x v => narrow (s.removeAbove x v)
  | fail why => .ok (.failed why, s)
  | whenMin x v => do
    match ← s.min? x with
    | none => return (.stop, s)
    | some least => return (if least < v then .stop else .goOn, s)
  | whenFixed x => do
    return (if ← s.isFixed x then .goOn else .stop, s)
  | less x y => narrow (makeLess x y s)
  | differ x y k => narrow (makeDiffer x y k s)
  | count c => do
    let (_, s) ← s.increment c
    return (.goOn, s)

/-- Does several actions in order, until one fails or stops. -/
def performAll : List Action → Store → Except Fault (Verdict × Store)
  | [], s => .ok (.consistent, s)
  | a :: rest, s => do
    match ← perform s a with
    | (.goOn, s) => performAll rest s
    | (.stop, s) => return (.consistent, s)
    | (.failed why, s) => return (.failed why, s)

end Action

/-- A list of actions, with a record of what happened to it. -/
structure Script where
  actions : List Action
  hint : Option Hint
  runs : Nat
  restored : Nat
  notified : Array Var
  deriving DecidableEq, Repr

namespace Script

/-- A script to which nothing happened yet. -/
def new (actions : List Action) (hint : Option Hint) : Script :=
  ⟨actions, hint, 0, 0, #[]⟩

instance : Propagator Script where
  propagate p s := do
    let (verdict, s) ← Action.performAll p.actions s
    return (verdict, { p with runs := p.runs + 1 }, s)
  notify p x := { p with notified := p.notified.push x }
  onRestore p := { p with restored := p.restored + 1 }
  hint? p _ := .ok p.hint

end Script

/-- The propagators of a mixed model. -/
inductive Rule where
  | allDifferent (p : AllDifferent)
  | script (p : Script)
  /-- Actions that run, and hear and remember nothing. -/
  | routine (actions : List Action)

namespace Rule

instance : Propagator Rule where
  propagate
    | allDifferent p, s => do
      let (verdict, p, s) ← Propagator.propagate p s
      return (verdict, allDifferent p, s)
    | script p, s => do
      let (verdict, p, s) ← Propagator.propagate p s
      return (verdict, script p, s)
    | routine actions, s => do
      let (verdict, s) ← Action.performAll actions s
      return (verdict, routine actions, s)
  notify
    | allDifferent p, x => allDifferent (Propagator.notify p x)
    | script p, x => script (Propagator.notify p x)
    | routine actions, _ => routine actions
  onRestore
    | allDifferent p => allDifferent (Propagator.onRestore p)
    | script p => script (Propagator.onRestore p)
    | routine actions => routine actions
  hint?
    | allDifferent p, s => Propagator.hint? p s
    | script p, s => Propagator.hint? p s
    | routine _, _ => .ok none

end Rule

end FiniteDomain
