/-!
# The variables to look at again, and what a look has changed

`Worklist` holds the variables whose domains may have changed, each at most once; the one that came
last leaves first.  `Changes` sums up what bringing the value graph in line with the domains did.
Both speak of the variables of one constraint, by their positions in it.
-/

namespace FiniteDomain.AllDifferent

/-- Variables that wait, the last one first. -/
structure Worklist where
  waiting : List Nat
  deriving DecidableEq, Repr

namespace Worklist

/-- Nothing waits. -/
def empty : Worklist := ⟨[]⟩

/-- Lets `x` wait, unless it does already. -/
def push (w : Worklist) (x : Nat) : Worklist :=
  if x ∈ w.waiting then w else ⟨x :: w.waiting⟩

/-- Lets several variables wait, one after the other. -/
def pushAll (w : Worklist) (xs : List Nat) : Worklist :=
  xs.foldl push w

/-- The variable that leaves next. -/
def pop? (w : Worklist) : Option (Nat × Worklist) :=
  match w.waiting with
  | [] => none
  | x :: waiting => some (x, ⟨waiting⟩)

/-- Who waits after a variable came. -/
theorem mem_push {w : Worklist} {x y : Nat} :
    y ∈ (w.push x).waiting ↔ y = x ∨ y ∈ w.waiting := by
  by_cases h : x ∈ w.waiting
  · rw [push, if_pos h]
    constructor
    · exact Or.inr
    · rintro (rfl | hy)
      · exact h
      · exact hy
  · rw [push, if_neg h, List.mem_cons]

/-- A variable waits at most once. -/
theorem nodup_push {w : Worklist} (h : w.waiting.Nodup) (x : Nat) :
    (w.push x).waiting.Nodup := by
  by_cases hx : x ∈ w.waiting
  · rw [push, if_pos hx]
    exact h
  · rw [push, if_neg hx, List.nodup_cons]
    exact ⟨hx, h⟩

/-- Who waits after several variables came. -/
theorem mem_pushAll {w : Worklist} {xs : List Nat} {y : Nat} :
    y ∈ (w.pushAll xs).waiting ↔ y ∈ xs ∨ y ∈ w.waiting := by
  induction xs generalizing w with
  | nil => simp [pushAll]
  | cons x xs ih =>
    rw [pushAll, List.foldl_cons, ← pushAll, ih, mem_push, List.mem_cons]
    constructor
    · rintro (h | h | h)
      · exact Or.inl (Or.inr h)
      · exact Or.inl (Or.inl h)
      · exact Or.inr h
    · rintro ((h | h) | h)
      · exact Or.inr (Or.inl h)
      · exact Or.inl h
      · exact Or.inr (Or.inr h)

end Worklist

/-- What became of a value graph. -/
structure Changes where
  /-- The variables that lost an edge or were grounded. -/
  touched : Array Nat
  /-- The variables whose matching edge was lost. -/
  freed : Array Nat
  /-- The number of variables that were grounded. -/
  grounded : Nat
  /-- A grounded variable was matched to its value. -/
  rematched : Bool
  /-- The number of edges that were removed. -/
  unlinked : Nat
  deriving DecidableEq, Repr

namespace Changes

/-- Nothing changed. -/
def nothing : Changes := ⟨#[], #[], 0, false, 0⟩

/-- Whether the graph and its matching are what they were. -/
def isEmpty (c : Changes) : Bool :=
  c.unlinked == 0 && c.grounded == 0 && c.freed.isEmpty && !c.rematched

/-- Whether some matching edge was lost or set. -/
def matchingChanged (c : Changes) : Bool :=
  c.rematched || !c.freed.isEmpty

end Changes

end FiniteDomain.AllDifferent
