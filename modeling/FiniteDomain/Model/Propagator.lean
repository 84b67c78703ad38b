import FiniteDomain.Store.Domain

/-!
# Propagators

A propagator watches over one constraint.  It narrows the domains of a store without losing a
solution, keeps what it likes between two runs, is told which variables changed and when a level
was restored, and may suggest the next decision of a search.

The class is all that a model knows of the propagators in it.
-/

namespace FiniteDomain

/-- A suggested decision: give `value` to the variable.  Of several hints the one with the highest
score counts. -/
structure Hint where
  var : Var
  value : Int
  score : Nat
  deriving DecidableEq, Repr

/-- What a model asks of its propagators. -/
class Propagator (π : Type) where
  /-- Narrows the domains. -/
  propagate : π → Store → Except Fault (Verdict × π × Store)
  /-- Hears that the domain of a primitive variable changed since the last run. -/
  notify : π → Var → π
  /-- Hears that a level was restored: what is remembered outside of the store may be out of
  date. -/
  onRestore : π → π
  /-- Suggests a decision. -/
  hint? : π → Store → Except Fault (Option Hint)

end FiniteDomain
