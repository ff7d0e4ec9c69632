import Mathlib.Algebra.Ring.Int.Defs
import Mathlib.Algebra.Ring.Nat
import Mathlib.Logic.Function.Basic

/-!
# Fixed-width conversions

C converts between integer types of different widths without saying so in the
program text. The functions below name the conversions, so that every place
where a value can be cut off is visible, and the lemmas give the ranges in
which nothing is lost.
-/

namespace Libcr

/-- Conversion to a 32-bit signed `int`. -/
def toInt32 (x : Int) : Int := x.bmod (2 ^ 32)

/-- Conversion to a 64-bit signed `long long`. -/
def toInt64 (x : Int) : Int := x.bmod (2 ^ 64)

/-- Conversion to a 64-bit `unsigned long long`. -/
def toUInt64 (x : Int) : Nat := (x % 2 ^ 64).toNat

/-- Zeroed memory holds an `int` in range. -/
theorem zero_inInt32 : -2 ^ 31 ≤ (0 : Int) ∧ (0 : Int) < 2 ^ 31 := by decide

theorem toInt32_of_range {x : Int} (hlo : -2 ^ 31 ≤ x) (hhi : x < 2 ^ 31) :
    toInt32 x = x := by
  unfold toInt32
  exact Int.bmod_eq_of_le (by omega) (by omega)

theorem toInt64_of_range {x : Int} (hlo : -2 ^ 63 ≤ x) (hhi : x < 2 ^ 63) :
    toInt64 x = x := by
  unfold toInt64
  exact Int.bmod_eq_of_le (by omega) (by omega)

/-- A value just beyond the range comes out negative. -/
theorem toInt64_of_ge {x : Int} (hlo : 2 ^ 63 ≤ x) (hhi : x < 2 ^ 64) :
    toInt64 x = x - 2 ^ 64 := by
  have hmod : x % ((2 ^ 64 : Nat) : Int) = x := Int.emod_eq_of_lt (by omega) (by omega)
  rw [toInt64, Int.bmod_def, hmod, if_neg (by omega)]
  rfl

theorem toUInt64_of_range {x : Int} (hlo : 0 ≤ x) (hhi : x < 2 ^ 64) :
    (toUInt64 x : Int) = x := by
  unfold toUInt64
  rw [Int.emod_eq_of_lt hlo hhi, Int.toNat_of_nonneg hlo]

/-- A conversion to `int` always lands in the range of `int`. -/
theorem toInt32_lt (x : Int) : toInt32 x < 2 ^ 31 := by
  have h := Int.bmod_lt (x := x) (m := 2 ^ 32) (by decide)
  unfold toInt32
  omega

theorem toInt32_ge (x : Int) : -2 ^ 31 ≤ toInt32 x := by
  have h := Int.le_bmod (x := x) (m := 2 ^ 32) (by decide)
  unfold toInt32
  omega

/-- The conversion of a nonnegative value never exceeds it. -/
theorem toInt32_le {x : Int} (h : 0 ≤ x) : toInt32 x ≤ x := by
  by_cases hx : x < 2 ^ 31
  · exact Int.le_of_eq (toInt32_of_range (by omega) hx)
  · have := toInt32_lt x
    omega

/-- Only multiples of `2^32` are cut down to zero. -/
theorem toInt32_ne_zero {x : Int} (h : ¬ 2 ^ 32 ∣ x) : toInt32 x ≠ 0 := by
  intro hz
  exact h (Int.dvd_of_bmod_eq_zero hz)

end Libcr
