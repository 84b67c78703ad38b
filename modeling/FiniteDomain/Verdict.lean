/-!
# Verdicts

What an attempt to narrow the domains comes to: either the state is still consistent as far as
anybody can tell, or it is known to have no solution.  A failure is an answer: the changes made
before it stay, until a level is restored.
-/

namespace FiniteDomain

/-- Why a state has no solution. -/
inductive Inconsistency where
  /-- Some variable has no value left. -/
  | domainWipeout
  /-- No choice of pairwise distinct values covers the variables of a constraint. -/
  | noMaximumMatching
  deriving DecidableEq, Repr

/-- The text that reports a failure. -/
def Inconsistency.message : Inconsistency → String
  | domainWipeout => "the domain of a variable has been wiped out"
  | noMaximumMatching => "no matching covers all the variables of an all different constraint"

/-- The answer of an attempt to narrow the domains. -/
inductive Verdict where
  | consistent
  | failed (why : Inconsistency)
  deriving DecidableEq, Repr

end FiniteDomain
