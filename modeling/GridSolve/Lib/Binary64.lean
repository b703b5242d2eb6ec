/-
Doubles as rational numbers: integers of 53 binary digits times a power of two. The result of an
operation on them is rounded to the nearest one, half way between two of them to the even integer.
What is a double already is not moved.
-/
import GridSolve.Lib.Rounding
import Mathlib.Data.Int.Log
import Mathlib.Data.Rat.Floor

namespace GridSolve.Binary64

open GridSolve.Rounding

/-- The value of a finite `double`. -/
def IsDouble (q : ℚ) : Prop := ∃ m k : ℤ, |m| < 2 ^ 53 ∧ -1074 ≤ k ∧ k ≤ 971 ∧ q = m * 2 ^ k

/-- The exponent of the last digit of the doubles next to `q`. -/
def lastExponent (q : ℚ) : ℤ := max (Int.log 2 |q| - 52) (-1074)

/-- The nearest double; numbers beyond the largest one are rounded as if there were larger ones. -/
def nearest (q : ℚ) : ℚ := roundEven (q / 2 ^ lastExponent q) * 2 ^ lastExponent q

/-- A double is a multiple of the last digit of the doubles next to it. -/
theorem lastExponent_le {m k : ℤ} (hm : |m| < 2 ^ 53) (hk : -1074 ≤ k) (hne : m ≠ 0) :
    lastExponent (m * 2 ^ k) ≤ k := by
  have hpos : (0 : ℚ) < |(m : ℚ) * 2 ^ k| := abs_pos.2 (mul_ne_zero (Int.cast_ne_zero.2 hne) (by positivity))
  have hlt : |(m : ℚ) * 2 ^ k| < ((2 : ℕ) : ℚ) ^ (53 + k) := by
    rw [abs_mul, abs_of_pos (show (0 : ℚ) < 2 ^ k by positivity), Nat.cast_ofNat, zpow_add₀ two_ne_zero]
    gcongr
    exact_mod_cast hm
  have hlog := (Int.lt_zpow_iff_log_lt (by norm_num) hpos).1 hlt
  unfold lastExponent
  omega

/-- What is a double is not moved. -/
theorem nearest_of_isDouble {q : ℚ} (h : IsDouble q) : nearest q = q := by
  obtain ⟨m, k, hm, hk, -, rfl⟩ := h
  rcases eq_or_ne m 0 with rfl | hne
  · simp [nearest, roundEven]
  obtain ⟨d, hd⟩ := Int.eq_ofNat_of_zero_le (sub_nonneg.2 (lastExponent_le hm hk hne))
  have hquot : (m * 2 ^ k : ℚ) / 2 ^ lastExponent (m * 2 ^ k) = ((m * 2 ^ d : ℤ) : ℚ) := by
    rw [mul_div_assoc, ← zpow_sub₀ two_ne_zero, hd]
    push_cast
    rw [zpow_natCast]
  rw [nearest, hquot, roundEven_intCast, ← hquot]
  exact div_mul_cancel₀ _ (by positivity)

/-- An integer of 54 digits. -/
example : nearest (94906267 ^ 2) = 9007199515875288 := by decide +kernel

end GridSolve.Binary64
