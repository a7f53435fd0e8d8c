import Mathlib.Algebra.Order.Ring.Int
import Mathlib.Data.Nat.Notation
import Mathlib.Tactic.Common

/-!
The integer operations of a 64-bit target that the counters and offsets use:
subtraction that wraps, addition that saturates, and signed reduction.
-/
namespace MachineInt

def usizeMax : ℕ := 2 ^ 64 - 1

def wrappingSub (a b : ℕ) : ℕ := if b ≤ a then a - b else a + 2 ^ 64 - b

def saturatingAdd (a b : ℕ) : ℕ := min (a + b) usizeMax

theorem wrappingSub_of_le {a b : ℕ} (h : b ≤ a) : wrappingSub a b = a - b :=
  if_pos h

def i64Min : ℤ := -2 ^ 63

def i64Max : ℤ := 2 ^ 63 - 1

/-- Two's complement reduction to 64 bits. -/
def wrapI64 (x : ℤ) : ℤ := (x + 2 ^ 63) % 2 ^ 64 - 2 ^ 63

/-- Reduction never moves a value that does not underflow upwards. -/
theorem wrapI64_le {x : ℤ} (h : i64Min ≤ x) : wrapI64 x ≤ x := by
  unfold wrapI64 i64Min at *
  omega

theorem wrapI64_of_mem {x : ℤ} (hmin : i64Min ≤ x) (hmax : x ≤ i64Max) : wrapI64 x = x := by
  unfold wrapI64 i64Min i64Max at *
  omega

end MachineInt
