import FiniteDomain.Fault

/-!
# Checked words

Values are integers of the signed 64-bit range, and every sum, difference, product and change of
sign is checked on the spot: a result outside of the range is a fault, even where a later step
would bring it back.  Counts and positions are natural numbers below `2 ^ 64`, with the same rule.

`unsigned` reads a value as a count.  It is the identity on the values that are used as counts; a
negative value stands for the count that is congruent to it, which is far beyond every array.
-/

namespace FiniteDomain.Word

/-- The least value. -/
def least : Int := -9223372036854775808

/-- The greatest value. -/
def greatest : Int := 9223372036854775807

/-- The values that fit. -/
def InRange (v : Int) : Prop := least ≤ v ∧ v ≤ greatest

instance (v : Int) : Decidable (InRange v) :=
  inferInstanceAs (Decidable (_ ∧ _))

/-- `v` itself when it fits. -/
def check (v : Int) : Except Fault Int :=
  if InRange v then .ok v else .error .overflow

/-- The sum of two values. -/
def add (a b : Int) : Except Fault Int := check (a + b)

/-- The difference of two values. -/
def sub (a b : Int) : Except Fault Int := check (a - b)

/-- The product of two values. -/
def mul (a b : Int) : Except Fault Int := check (a * b)

/-- The value with the opposite sign. -/
def neg (a : Int) : Except Fault Int := check (-a)

/-- A value that fits is kept. -/
theorem check_of_inRange {v : Int} (h : InRange v) : check v = .ok v :=
  if_pos h

/-- A check succeeds with the value itself, exactly when it fits. -/
theorem check_eq_ok_iff {v w : Int} : check v = .ok w ↔ InRange v ∧ w = v := by
  unfold check
  split <;> simp_all [eq_comm]

/-! ## Counts -/

/-- One more than the greatest count. -/
def countBound : Nat := 18446744073709551616

/-- The count that a value stands for. -/
def unsigned (v : Int) : Nat := (v % (countBound : Int)).toNat

/-- The sum of two counts. -/
def addCount (a b : Nat) : Except Fault Nat :=
  if a + b < countBound then .ok (a + b) else .error .overflow

/-- The difference of two counts, which must not be negative. -/
def subCount (a b : Nat) : Except Fault Nat :=
  if b ≤ a then .ok (a - b) else .error .overflow

/-- A count that fits into the signed range stands for itself. -/
theorem unsigned_natCast {n : Nat} (h : n < countBound) : unsigned (n : Int) = n := by
  unfold unsigned
  unfold countBound at *
  omega

theorem unsigned_of_lt_greatest {n : Nat} (h : (n : Int) < greatest) : unsigned (n : Int) = n := by
  refine unsigned_natCast ?_
  unfold greatest at h
  unfold countBound
  omega

/-- The count before the next one. -/
theorem sub_one_of_lt_greatest {n : Nat} (h : (n : Int) < greatest) :
    sub ((n : Int) + 1) 1 = .ok (n : Int) := by
  rw [sub, Int.add_sub_cancel]
  refine check_of_inRange ⟨?_, by omega⟩
  unfold least
  omega

end FiniteDomain.Word
