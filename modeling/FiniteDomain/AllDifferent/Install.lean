import FiniteDomain.AllDifferent.Propagation
import FiniteDomain.Model.Fixpoint

/-!
# Adding an all different constraint to a model

The propagator is made for the present domains, posted, attached to every change of its variables
and run right away, together with whatever else has to run.
-/

namespace FiniteDomain.Model

variable {π : Type} [Propagator π]

/-- Makes a constraint listen to every change of several variables. -/
def listenAll (c : Constraint) : List Var → Model π → Except Fault (Model π)
  | [], m => .ok m
  | x :: rest, m => do
    let m ← m.listen c .domainChanged x
    listenAll c rest m

/-- Adds the constraint that the variables take pairwise distinct values, and schedules it.  `wrap`
makes a propagator of the model from the one of the constraint. -/
def enlist (wrap : AllDifferent → π) (m : Model π) (vars : List Var)
    (options : AllDifferent.Options) : Except Fault (Model π) := do
  let (p, m) ← m.onStore fun s => AllDifferent.new s vars.toArray options
  let (c, m) ← m.post (wrap p)
  let m ← listenAll c vars m
  return m.schedule c

/-- Adds the constraint that the variables take pairwise distinct values, and runs the
propagators. -/
def install (wrap : AllDifferent → π) (m : Model π) (vars : List Var)
    (options : AllDifferent.Options) : Except Fault (Verdict × Model π) := do
  (← enlist wrap m vars options).fixpoint

end FiniteDomain.Model
