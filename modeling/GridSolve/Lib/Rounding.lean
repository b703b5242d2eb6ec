/-
Rounding to the nearest integer, a half to the even one, as decimal output does. It is
monotone, and its fixed points are the integers.
-/
import Mathlib.Algebra.Order.Floor.Ring
import Mathlib.Algebra.Order.Field.Basic
import Mathlib.Tactic

namespace GridSolve.Rounding

variable {K : Type*} [Field K] [LinearOrder K] [FloorRing K]

/-- The nearest integer, a half to the even one. -/
def roundEven (q : K) : ℤ :=
  let f := ⌊q⌋
  let r := q - f
  if r + r < 1 ∨ (r + r = 1 ∧ f % 2 = 0) then f else f + 1

theorem floor_le_roundEven (q : K) : ⌊q⌋ ≤ roundEven q := by
  unfold roundEven
  simp only
  split_ifs <;> omega

theorem roundEven_le_floor_add_one (q : K) : roundEven q ≤ ⌊q⌋ + 1 := by
  unfold roundEven
  simp only
  split_ifs <;> omega

variable [IsStrictOrderedRing K]

@[simp] theorem roundEven_intCast (z : ℤ) : roundEven (z : K) = z := by simp [roundEven]

theorem roundEven_mono : Monotone (roundEven : K → ℤ) := by
  intro p q hpq
  rcases (Int.floor_le_floor hpq).lt_or_eq with hlt | heq
  · exact (roundEven_le_floor_add_one p).trans (Int.add_one_le_of_lt hlt |>.trans (floor_le_roundEven q))
  · -- in one unit interval it depends on the fractional part alone
    have hfrac : p - ⌊p⌋ + (p - ⌊p⌋) ≤ q - ⌊q⌋ + (q - ⌊q⌋) := by
      rw [heq]
      exact add_le_add (sub_le_sub_right hpq _) (sub_le_sub_right hpq _)
    unfold roundEven
    simp only
    split_ifs with h1 h2 h2
    · exact heq.le
    · omega
    · exfalso
      rw [heq] at h1 hfrac
      rcases h2 with h2 | ⟨h2, heven⟩
      · exact h1 (.inl (hfrac.trans_lt h2))
      · rcases hfrac.lt_or_eq with h3 | h3
        · exact h1 (.inl (h3.trans_eq h2))
        · exact h1 (.inr ⟨h3.trans h2, heven⟩)
    · omega

/-- Rounding is symmetric. -/
theorem roundEven_neg (q : K) : roundEven (-q) = -roundEven q := by
  by_cases hint : q = ⌊q⌋
  · rw [hint, ← Int.cast_neg, roundEven_intCast, roundEven_intCast]
  · have hlt : (⌊q⌋ : K) < q := lt_of_le_of_ne (Int.floor_le q) (Ne.symm hint)
    have hfloor : ⌊-q⌋ = -⌊q⌋ - 1 := by
      rw [Int.floor_eq_iff]
      push_cast
      constructor
      · linarith [Int.lt_floor_add_one q]
      · linarith
    unfold roundEven
    simp only [hfloor]
    push_cast
    -- the fractional parts add up to 1, and only one of the two floors is even
    split_ifs with h1 h2 h2
    · exfalso
      rcases h1 with h1 | ⟨h1, h1'⟩ <;> rcases h2 with h2 | ⟨h2, h2'⟩
      · linarith
      · linarith
      · linarith
      · omega
    · omega
    · omega
    · exfalso
      have h3 := fun h => h1 (.inl h)
      have h4 := fun h => h2 (.inl h)
      have heq : q - ⌊q⌋ + (q - ⌊q⌋) = 1 := le_antisymm (by linarith [not_lt.1 h3]) (not_lt.1 h4)
      have hodd : ⌊q⌋ % 2 ≠ 0 := fun h => h2 (.inr ⟨heq, h⟩)
      exact h1 (.inr ⟨by linarith, by omega⟩)

/-- Only the integers are fixed. -/
theorem roundEven_eq_self_iff {q : K} : (roundEven q : K) = q ↔ ∃ z : ℤ, q = z :=
  ⟨fun h => ⟨_, h.symm⟩, by rintro ⟨z, rfl⟩; rw [roundEven_intCast]⟩

end GridSolve.Rounding
