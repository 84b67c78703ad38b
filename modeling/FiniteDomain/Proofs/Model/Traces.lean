import FiniteDomain.Search
import FiniteDomain.Proofs.Model.Restoration

/-!
# Traces of searches

What a search counts is written down as a list of moments: the nodes that it enters, the branches
that fail and the solutions that it shows to its observer.

* `Traced` is a computation that keeps a list of moments, also when it comes to a fault.
* `Search.trace` is a search that is traced, and `Search.solve_eq` says that it is the same search.
* `Tally.after` counts moments, which `Tally.nodes_after` compares with the nodes among them.

Where a search leaves the model and what a limit does to it are both read off the trace.
-/

namespace FiniteDomain

variable {π ρ α β : Type}

/-! ## Moments -/

/-- A node that was entered. -/
structure Search.Visit where
  /-- The decisions that led to it, the last one first. -/
  chain : List Attempt
  /-- The number of levels. -/
  depth : Nat
  deriving DecidableEq, Repr

/-- What a search counts. -/
inductive Moment (ρ : Type) where
  /-- A node is entered. -/
  | node (visit : Search.Visit)
  /-- A branch has failed. -/
  | failure
  /-- A solution is shown to the observer. -/
  | solution (report : ρ)
  deriving DecidableEq, Repr

namespace Moment

/-- Whether it is a solution. -/
def isSolution : Moment ρ → Bool
  | .solution _ => true
  | _ => false

/-- The node that is entered. -/
def visit? : Moment ρ → Option Search.Visit
  | .node visit => some visit
  | _ => none

@[simp]
theorem visit?_eq_some_iff {moment : Moment ρ} {visit : Search.Visit} :
    moment.visit? = some visit ↔ moment = .node visit := by
  cases moment <;> simp [visit?]

end Moment

namespace Tally

/-- Counts a moment. -/
def count (t : Tally ρ) : Moment ρ → Tally ρ
  | .node _ => t.visited
  | .failure => t.failed
  | .solution report => t.solved report

/-- Counts several moments. -/
def after (t : Tally ρ) (moments : List (Moment ρ)) : Tally ρ :=
  moments.foldl Tally.count t

theorem after_append (t : Tally ρ) (moments others : List (Moment ρ)) :
    t.after (moments ++ others) = (t.after moments).after others :=
  List.foldl_append

/-- As many nodes are counted as are entered. -/
theorem nodes_after (t : Tally ρ) (moments : List (Moment ρ)) :
    (t.after moments).nodes = t.nodes + (moments.filterMap Moment.visit?).length := by
  induction moments generalizing t with
  | nil => rfl
  | cons moment rest ih =>
    have hrest : (t.after (moment :: rest)).nodes = _ := ih (t.count moment)
    cases moment with
    | node visit =>
      have hcount : (t.count (.node visit)).nodes = t.nodes + 1 := rfl
      rw [hrest, hcount, List.filterMap_cons_some (f := Moment.visit?) rfl, List.length_cons]
      omega
    | failure => exact hrest
    | solution report => exact hrest

end Tally

/-! ## Traced computations -/

/-- A computation that comes to an answer or a fault, and the moments on the way. -/
structure Traced (ρ α : Type) where
  moments : List (Moment ρ)
  outcome : Except Fault α

namespace Traced

/-- Nothing is to be written down. -/
def of (x : Except Fault α) : Traced ρ α := ⟨[], x⟩

/-- A moment is written down. -/
def tell (moment : Moment ρ) : Traced ρ Unit := ⟨[moment], .ok ()⟩

/-- A computation goes on after an answer.  After a fault its moments are kept. -/
def bind (x : Traced ρ α) (f : α → Traced ρ β) : Traced ρ β :=
  match x.outcome with
  | .error fault => ⟨x.moments, .error fault⟩
  | .ok a => ⟨x.moments ++ (f a).moments, (f a).outcome⟩

instance : Monad (Traced ρ) where
  pure a := of (.ok a)
  bind := bind

variable {x : Traced ρ α} {f : α → Traced ρ β} {moments : List (Moment ρ)} {a : α} {b : β}

theorem eq_mk {outcome : Except Fault α} (h : x.outcome = outcome) :
    x = ⟨x.moments, outcome⟩ := by
  rw [← h]

theorem bind_of_ok (h : x.outcome = .ok a) (f : α → Traced ρ β) :
    x >>= f = ⟨x.moments ++ (f a).moments, (f a).outcome⟩ := by
  obtain ⟨moments, outcome⟩ := x
  cases h
  rfl

theorem bind_of_error {fault : Fault} (h : x.outcome = .error fault) (f : α → Traced ρ β) :
    x >>= f = ⟨x.moments, .error fault⟩ := by
  obtain ⟨moments, outcome⟩ := x
  cases h
  rfl

/-- The moments of the first part come first. -/
theorem moments_bind (x : Traced ρ α) (f : α → Traced ρ β) :
    ∃ more, (x >>= f).moments = x.moments ++ more := by
  cases h : x.outcome with
  | error fault => exact ⟨[], by rw [bind_of_error h, List.append_nil]⟩
  | ok a => exact ⟨(f a).moments, by rw [bind_of_ok h]⟩

theorem moments_bind_eq (x : Traced ρ α) {f : α → Traced ρ β} (h : ∀ a, (f a).moments = []) :
    (x >>= f).moments = x.moments := by
  cases hx : x.outcome with
  | error fault => rw [bind_of_error hx]
  | ok a => rw [bind_of_ok hx, h, List.append_nil]

@[simp]
theorem of_ok_bind (a : α) (f : α → Traced ρ β) : (of (.ok a) >>= f) = f a := by
  rw [bind_of_ok rfl, of, List.nil_append]

@[simp]
theorem of_error_bind (fault : Fault) (f : α → Traced ρ β) :
    (of (.error fault) >>= f) = of (.error fault) := by
  rw [bind_of_error rfl, of, of]

@[simp]
theorem tell_bind (moment : Moment ρ) (f : Unit → Traced ρ β) :
    (tell moment >>= f) = ⟨moment :: (f ()).moments, (f ()).outcome⟩ := by
  rw [bind_of_ok rfl, tell, List.singleton_append]

/-- The outcome does not depend on what is written down. -/
@[simp]
theorem outcome_bind (x : Traced ρ α) (f : α → Traced ρ β) :
    (x >>= f).outcome = x.outcome >>= fun a => (f a).outcome := by
  obtain ⟨moments, _ | a⟩ := x <;> rfl

theorem moments_of_bind_pure (y : Except Fault α) (f : α → β) :
    (of y >>= fun a => pure (f a) : Traced ρ β).moments = [] := by
  cases y <;> rfl

@[simp]
theorem outcome_map (f : α → β) (x : Traced ρ α) : (f <$> x).outcome = f <$> x.outcome := by
  obtain ⟨moments, _ | a⟩ := x <;> rfl

@[simp]
theorem moments_map (f : α → β) (x : Traced ρ α) : (f <$> x).moments = x.moments := by
  obtain ⟨moments, _ | a⟩ := x
  · rfl
  · exact List.append_nil _

/-- A computation in two parts comes to an answer exactly when both do. -/
theorem bind_eq_ok_iff : x >>= f = ⟨moments, .ok b⟩ ↔ ∃ first a rest,
    x = ⟨first, .ok a⟩ ∧ f a = ⟨rest, .ok b⟩ ∧ moments = first ++ rest := by
  obtain ⟨first, _ | a⟩ := x
  · rw [bind_of_error rfl]
    simp
  · rw [bind_of_ok rfl]
    constructor
    · intro h
      rw [mk.injEq] at h
      exact ⟨first, a, _, rfl, congrArg (Traced.mk _) h.2, h.1.symm⟩
    · rintro ⟨_, _, rest, ⟨⟩, h, rfl⟩
      rw [h]

theorem of_bind_eq_ok_iff {y : Except Fault α} :
    of y >>= f = ⟨moments, .ok b⟩ ↔ ∃ a, y = .ok a ∧ f a = ⟨moments, .ok b⟩ := by
  obtain fault | a := y
  · rw [of_error_bind]
    simp [of]
  · simp

theorem tell_bind_eq_ok_iff {moment : Moment ρ} {f : Unit → Traced ρ β} :
    tell moment >>= f = ⟨moments, .ok b⟩ ↔
      ∃ rest, f () = ⟨rest, .ok b⟩ ∧ moments = moment :: rest := by
  rw [bind_eq_ok_iff]
  constructor
  · rintro ⟨_, _, rest, ⟨⟩, h, rfl⟩
    exact ⟨rest, h, rfl⟩
  · rintro ⟨rest, h, rfl⟩
    exact ⟨[moment], (), rest, rfl, h, rfl⟩

end Traced

/-! ## The trace of a search -/

namespace Search

variable [Propagator π]

/-- Explores what is left after a decision, as `branch` does. -/
def traceBranch (go : Model π → Tally ρ → Traced ρ (Bool × Model π × Tally ρ)) (a : Attempt)
    (m : Model π) (t : Tally ρ) : Traced ρ (Bool × Model π × Tally ρ) := do
  match ← Traced.of (attempt (·.apply (.attempt a)) m.save) with
  | (.failed _, m) =>
    Traced.tell .failure
    return (false, ← Traced.of m.restore, t.failed)
  | (.consistent, m) =>
    let (stop, m, t) ← go m t
    return (stop, ← Traced.of m.restore, t)

/-- Explores a node to which the decisions `chain` led, as `explore` does. -/
def traceNode (q : Search) (observe : Model π → Except Fault ρ) :
    Nat → List Attempt → Model π → Tally ρ → Traced ρ (Bool × Model π × Tally ρ)
  | 0, _, _, _ => Traced.of (.error .outOfFuel)
  | fuel + 1, chain, m, t => do
    Traced.tell (.node ⟨chain, m.store.depth⟩)
    let t := t.visited
    match ← Traced.of (q.decide? m) with
    | none =>
      let report ← Traced.of (observe m)
      Traced.tell (.solution report)
      let t := t.solved report
      return (q.isEnough t, m, t)
    | some (x, v) =>
      match ← traceBranch (traceNode q observe fuel (.fix x v :: chain)) (.fix x v) m t with
      | (true, m, t) => return (true, m, t)
      | (false, m, t) =>
        traceBranch (traceNode q observe fuel (.remove x v :: chain)) (.remove x v) m t

/-- Explores the root, on a level of its own. -/
def traceRoot (q : Search) (observe : Model π → Except Fault ρ) (fuel : Nat) (m : Model π) :
    Traced ρ (Tally ρ × Model π) := do
  let r ← q.traceNode observe fuel [] m.save .zero
  return (r.2.2, ← Traced.of r.2.1.restore)

/-- A whole search, as `solve` does it. -/
def trace (q : Search) (observe : Model π → Except Fault ρ) (m : Model π) :
    Traced ρ (Tally ρ × Model π) := do
  match ← Traced.of m.fixpoint with
  | (.failed _, m) =>
    Traced.tell .failure
    return (Tally.zero.failed, m)
  | (.consistent, m) => q.traceRoot observe (m.capacity + Word.countBound) m

/-! ### It is the same search -/

theorem branch_eq {go : Model π → Tally ρ → Traced ρ (Bool × Model π × Tally ρ)}
    {explore : Model π → Tally ρ → Except Fault (Bool × Model π × Tally ρ)}
    (h : ∀ m t, explore m t = (go m t).outcome) (a : Attempt) (m : Model π) (t : Tally ρ) :
    branch explore (·.apply (.attempt a)) m t = (traceBranch go a m t).outcome := by
  unfold branch traceBranch
  obtain fault | ⟨_ | why, m₁⟩ := attempt (·.apply (.attempt a)) m.save
  · rfl
  · simp only [ok_bind, Traced.of_ok_bind, Traced.outcome_bind, h]
    rfl
  · simp only [ok_bind, Traced.of_ok_bind, Traced.tell_bind, Traced.outcome_bind]
    rfl

/-- What is written down changes nothing of what is explored.  The induction is on the turns. -/
theorem explore_eq (q : Search) (observe : Model π → Except Fault ρ) (fuel : Nat)
    (chain : List Attempt) (m : Model π) (t : Tally ρ) :
    q.explore observe fuel m t = (q.traceNode observe fuel chain m t).outcome := by
  induction fuel generalizing chain m t with
  | zero => rfl
  | succ fuel ih =>
    rw [explore, traceNode, Traced.tell_bind]
    obtain fault | _ | ⟨x, v⟩ := q.decide? m
    · rfl
    · dsimp only [ok_bind, Traced.of_ok_bind]
      cases observe m <;> rfl
    · have hleft : branch (q.explore observe fuel) (·.fix x v) m t.visited = _ :=
        branch_eq (ih (.fix x v :: chain)) (.fix x v) m t.visited
      have hright : ∀ m t, branch (q.explore observe fuel) (·.remove x v) m t = _ :=
        branch_eq (ih (.remove x v :: chain)) (.remove x v)
      simp only [ok_bind, Traced.of_ok_bind, Traced.outcome_bind, hleft, hright]
      obtain fault | ⟨_ | _, m₁, t₁⟩ := (traceBranch _ _ m t.visited).outcome <;> rfl

variable {q : Search} {observe : Model π → Except Fault ρ} {m m₁ : Model π}

theorem solve_of_fixpoint (h : m.fixpoint = .ok (.consistent, m₁)) :
    q.solve observe m = q.explore observe (m₁.capacity + Word.countBound) m₁.save .zero >>=
      fun r => r.2.1.restore >>= fun m => .ok (r.2.2, m) := by
  rw [solve, h, ok_bind]
  rfl

theorem solve_of_failed {why : Inconsistency} (h : m.fixpoint = .ok (.failed why, m₁)) :
    q.solve observe m = .ok (Tally.zero.failed, m₁) := by
  rw [solve, h, ok_bind]
  rfl

theorem trace_of_fixpoint (h : m.fixpoint = .ok (.consistent, m₁)) :
    q.trace observe m = q.traceRoot observe (m₁.capacity + Word.countBound) m₁ := by
  rw [trace, h, Traced.of_ok_bind]

theorem trace_of_failed {why : Inconsistency} (h : m.fixpoint = .ok (.failed why, m₁)) :
    q.trace observe m = ⟨[.failure], .ok (Tally.zero.failed, m₁)⟩ := by
  rw [trace, h, Traced.of_ok_bind]
  rfl

theorem trace_of_error {fault : Fault} (h : m.fixpoint = .error fault) :
    q.trace observe m = ⟨[], .error fault⟩ := by
  rw [trace, h, Traced.of_error_bind, Traced.of]

/-- What is written down changes nothing of the search. -/
theorem solve_eq (q : Search) (observe : Model π → Except Fault ρ) (m : Model π) :
    q.solve observe m = (q.trace observe m).outcome := by
  cases hfixpoint : m.fixpoint with
  | error fault => rw [solve, hfixpoint, trace_of_error hfixpoint, error_bind]
  | ok r =>
    obtain ⟨_ | why, m₁⟩ := r
    · rw [solve_of_fixpoint hfixpoint, trace_of_fixpoint hfixpoint, q.explore_eq observe _ [],
        traceRoot, Traced.outcome_bind]
      simp only [Traced.outcome_bind]
      rfl
    · rw [solve_of_failed hfixpoint, trace_of_failed hfixpoint]

end Search

end FiniteDomain
