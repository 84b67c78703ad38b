/-!
# Faults

A fault ends a computation for good: nothing of the state it happened in is used again.  It is not
the failure of a constraint, which is an ordinary answer and leaves a state that can be restored
(see `FiniteDomain.Verdict`).

Each cause has its own constructor, and `Fault.message` holds the wording.  `fetch` is the one way
in which arrays are read by an index that comes from outside: an index that is too large is a fault
and never a default value.
-/

namespace FiniteDomain

/-- The causes that end a computation. -/
inductive Fault where
  /-- An integer left the signed 64-bit range, or a count left the unsigned one. -/
  | overflow
  /-- Something was looked up under an identifier that does not exist. -/
  | outOfBounds
  /-- A state was restored that had not been saved. -/
  | rootLevel
  /-- A variable was scaled by zero. -/
  | zeroCoefficient
  /-- A fixed variable has a value that its constraint never saw. -/
  | unknownValue
  /-- A round of deductions left every edge of the value graph in place. -/
  | idleDeduction
  /-- More variables can be reached than at the round before. -/
  | grownReach
  /-- A repaired matching does not cover the variables along live edges. -/
  | brokenMatching
  /-- The components kept from the last round are not those of the graph. -/
  | staleComponents
  /-- A view is defined through itself. -/
  | circularView
  /-- A loop was given fewer turns than it needs. -/
  | outOfFuel
  deriving DecidableEq, Repr

/-- The text that reports a fault. -/
def Fault.message : Fault → String
  | overflow => "arithmetic overflow"
  | outOfBounds => "index out of bounds"
  | rootLevel => "cannot pop above the root level of the state manager"
  | zeroCoefficient => "a multiplication view needs a non zero coefficient"
  | unknownValue => "a domain grew a value it never had"
  | idleDeduction => "a deduction did not remove any edge"
  | grownReach => "the reached set grew"
  | brokenMatching => "assertion failed: self.graph.matching_is_consistent(store)"
  | staleComponents => "the incremental components differ from the full ones"
  | circularView => "a view is defined through itself"
  | outOfFuel => "a loop ran out of turns"

/-- The entry of `xs` at `i`, which must exist. -/
def fetch {α : Type} (xs : Array α) (i : Nat) : Except Fault α :=
  match xs[i]? with
  | some a => .ok a
  | none => .error .outOfBounds

/-- Reading succeeds exactly on the indices of the array. -/
theorem fetch_eq_ok_iff {α : Type} {xs : Array α} {i : Nat} {a : α} :
    fetch xs i = .ok a ↔ xs[i]? = some a := by
  unfold fetch
  split <;> simp_all

/-- A failed read has one cause. -/
theorem fetch_eq_error_iff {α : Type} {xs : Array α} {i : Nat} {f : Fault} :
    fetch xs i = .error f ↔ xs.size ≤ i ∧ f = .outOfBounds := by
  unfold fetch
  split
  · rename_i h
    have hi : i < xs.size := (Array.getElem?_eq_some_iff.1 h).1
    simp only [reduceCtorEq, false_iff]
    omega
  · rename_i h
    rw [Array.getElem?_eq_none_iff] at h
    constructor
    · intro he
      exact ⟨h, (Except.error.inj he).symm⟩
    · rintro ⟨_, rfl⟩
      rfl

/-- A computation goes on with the answer of its first part. -/
@[simp]
theorem ok_bind {α β : Type} (a : α) (f : α → Except Fault β) :
    ((Except.ok a : Except Fault α) >>= f) = f a := rfl

/-- A fault in the first part of a computation is its answer. -/
@[simp]
theorem error_bind {α β : Type} (e : Fault) (f : α → Except Fault β) :
    ((Except.error e : Except Fault α) >>= f) = .error e := rfl

/-- An answer is a computation that succeeds. -/
@[simp]
theorem pure_eq_ok {α : Type} (a : α) : (pure a : Except Fault α) = .ok a := rfl

/-- Two branches that go on in the same way. -/
theorem ite_bind {α β : Type} {c : Prop} [Decidable c] (x y : Except Fault α)
    (f : α → Except Fault β) :
    (if c then x >>= f else y >>= f) = (if c then x else y) >>= f := by
  split <;> rfl

/-- A computation in two parts succeeds exactly when both do. -/
theorem bind_eq_ok_iff {α β : Type} {x : Except Fault α} {f : α → Except Fault β} {b : β} :
    x >>= f = .ok b ↔ ∃ a, x = .ok a ∧ f a = .ok b := by
  cases x with
  | error e => simp [bind, Except.bind]
  | ok a => simp [bind, Except.bind]

end FiniteDomain
