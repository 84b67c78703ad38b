import FiniteDomain.Model.Basic

/-!
# Running the propagators

The propagators run in rounds.  A round begins with `wake`: every constraint that listens to
something that happened is told which primitive variables are concerned, once for each, and is
scheduled; the events are cleared.  Then `drain` runs the scheduled constraints, each once, in an
order that the model does not choose.  What they change is looked at in the next round.  The
fixpoint is reached when nothing is scheduled after the events were looked at.

A propagator that fails ends the run.  The constraints of the round that did not run are forgotten,
and the events stay.
-/

namespace FiniteDomain.Model

variable {π : Type}

/-! ## Waking constraints -/

/-- The conditions that an event meets. -/
def met (e : Event) : List Condition :=
  (if e.fixed then [⟨.fixed, e.var⟩] else []) ++
  (if e.minChanged then [⟨.minChanged, e.var⟩] else []) ++
  (if e.maxChanged then [⟨.maxChanged, e.var⟩] else []) ++
  (if e.domainChanged then [⟨.domainChanged, e.var⟩] else [])

/-- The constraints that an event concerns, each with the variable of the event. -/
def concerned (m : Model π) (e : Event) : List (Constraint × Var) :=
  (met e).flatMap fun condition => (m.listening condition).map fun c => (c, e.var)

/-- Whether one pair comes before another: by constraint, then by variable. -/
def comesBefore (a b : Constraint × Var) : Bool :=
  a.1.index < b.1.index || (a.1.index == b.1.index && a.2.index < b.2.index)

/-- Puts a pair into an ordered list, unless it is there already. -/
def insertPair (a : Constraint × Var) : List (Constraint × Var) → List (Constraint × Var)
  | [] => [a]
  | b :: rest =>
    if a = b then b :: rest
    else if comesBefore a b then a :: b :: rest
    else b :: insertPair a rest

/-- An ordered list holds what was put into it. -/
theorem mem_insertPair {a b : Constraint × Var} {pairs : List (Constraint × Var)} :
    b ∈ insertPair a pairs ↔ b = a ∨ b ∈ pairs := by
  induction pairs with
  | nil => simp [insertPair]
  | cons c rest ih =>
    rw [insertPair]
    by_cases h : a = c
    · subst h
      simp
    · rw [if_neg h]
      by_cases hlt : comesBefore a c
      · simp [hlt]
      · rw [if_neg hlt, List.mem_cons, List.mem_cons, ih]
        constructor
        · rintro (h | h | h)
          · exact Or.inr (Or.inl h)
          · exact Or.inl h
          · exact Or.inr (Or.inr h)
        · rintro (h | h | h)
          · exact Or.inr (Or.inl h)
          · exact Or.inl h
          · exact Or.inr (Or.inr h)

/-- The constraints that the events concern, each once for each variable, in order. -/
def fired (m : Model π) : List (Constraint × Var) :=
  (m.store.news.flatMap m.concerned).foldr insertPair []

/-- Tells one constraint that a variable changed, and schedules it. -/
def tell [Propagator π] (m : Model π) (pair : Constraint × Var) : Except Fault (Model π) :=
  if pair.1.index < m.propagators.size then
    let m := { m with
      propagators := m.propagators.modify pair.1.index (Propagator.notify · pair.2) }
    .ok (m.schedule pair.1)
  else
    .error .outOfBounds

/-- Tells and schedules the constraints that the events concern, and clears the events. -/
def wake [Propagator π] (m : Model π) : Except Fault (Model π) :=
  m.fired.foldlM tell { m with store := m.store.clearEvents }

/-! ## Running a round -/

/-- Runs the propagator of a constraint. -/
def runOne [Propagator π] (m : Model π) (c : Constraint) : Except Fault (Verdict × Model π) := do
  let p ← fetch m.propagators c.index
  let ((verdict, p), m) ← m.onStore fun s => do
    let (verdict, p, s) ← Propagator.propagate p s
    return ((verdict, p), s)
  return (verdict, { m with propagators := m.propagators.setIfInBounds c.index p })

/-- Runs several constraints, until one fails. -/
def runAll [Propagator π] : List Constraint → Model π → Except Fault (Verdict × Model π)
  | [], m => .ok (.consistent, m)
  | c :: rest, m => do
    match ← m.runOne c with
    | (.failed why, m) => return (.failed why, m)
    | (.consistent, m) => runAll rest m

/-- Runs the scheduled constraints.  None is scheduled afterwards. -/
def drain [Propagator π] (m : Model π) : Except Fault (Verdict × Model π) :=
  runAll (m.order.arrange m.rounds m.scheduled) { m with scheduled := [], rounds := m.rounds + 1 }

/-! ## Rounds -/

/-- Runs rounds until nothing is scheduled, at most `fuel` of them. -/
def runRounds [Propagator π] : Nat → Model π → Except Fault (Verdict × Model π)
  | 0, _ => .error .outOfFuel
  | fuel + 1, m => do
    let m ← m.wake
    if m.scheduled.isEmpty then
      return (.consistent, m)
    else
      match ← m.drain with
      | (.failed why, m) => return (.failed why, m)
      | (.consistent, m) => runRounds fuel m

/-- The number of values that all domains together can have. -/
def capacity (m : Model π) : Nat :=
  m.store.trail.sets.foldl (fun total set => total + set.capacity) 0

/-- Runs the propagators until nothing changes any more.  As long as domains only lose values, every
round after the first one follows such a loss, which bounds their number.  A propagator that counts
in a cell of a domain can give values back, but not more often than it can count. -/
def fixpoint [Propagator π] (m : Model π) : Except Fault (Verdict × Model π) :=
  m.runRounds (m.capacity + Word.countBound)

end FiniteDomain.Model
