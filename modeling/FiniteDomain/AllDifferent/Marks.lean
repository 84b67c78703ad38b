import FiniteDomain.Fault

/-!
# Marks that are forgotten all at once

A set of marks on the numbers below a bound.  Each mark is the value of a clock, and only the marks
that show the present value count: moving the clock on forgets all of them.
-/

namespace FiniteDomain

/-- Marks on the numbers below the size of `stamps`. -/
structure Marks where
  clock : Nat
  stamps : Array Nat
  deriving DecidableEq, Repr

namespace Marks

/-- No marks, on the numbers below `n`. -/
def blank (n : Nat) : Marks := ⟨1, Array.replicate n 0⟩

/-- Forgets all marks. -/
def forget (m : Marks) : Marks := { m with clock := m.clock + 1 }

/-- Whether `x` is marked. -/
def isMarked (m : Marks) (x : Nat) : Except Fault Bool := do
  return (← fetch m.stamps x) == m.clock

/-- Marks `x`. -/
def mark (m : Marks) (x : Nat) : Marks :=
  { m with stamps := m.stamps.setIfInBounds x m.clock }

/-- No mark is from a time to come. -/
def Sound (m : Marks) : Prop := ∀ stamp ∈ m.stamps, stamp ≤ m.clock

end Marks

end FiniteDomain
