/-
Square and multiply: the loop that raises to a power by reading the bits of the exponent from the
low end. Accumulator and base are of any type; a predicate that the operations keep and a map into a
commutative monoid say what they stand for.
-/
import Mathlib.Algebra.Group.Basic
import Mathlib.Tactic.Ring

namespace GridSolve.BinaryPower

variable {β M : Type*}

/-- The operations of the loop: `multiply` returns the new accumulator and the base as it is left
after the use, `square` the next base. -/
structure Ops (β : Type*) where
  multiply : β → β → β × β
  square : β → β

namespace Ops

/-- What a pass does with the lowest bit of the exponent. -/
def bit (o : Ops β) (n : ℕ) (ans base : β) : β × β := if n % 2 = 1 then o.multiply ans base else (ans, base)

/-- The loop; `fuel` bounds the number of bits, and the base is not squared after the last one. -/
def loop (o : Ops β) : ℕ → ℕ → β → β → β
  | 0, _, ans, _ => ans
  | fuel + 1, n, ans, base =>
    if n = 0 then ans
    else if n / 2 = 0 then (o.bit n ans base).1
    else o.loop fuel (n / 2) (o.bit n ans base).1 (o.square (o.bit n ans base).2)

/-- The operations keep `Good`, and `φ` reads them as those of a monoid. -/
structure Sound [CommMonoid M] (o : Ops β) (Good : β → Prop) (φ : β → M) : Prop where
  good_multiply : ∀ {ans base}, Good ans → Good base →
    Good (o.multiply ans base).1 ∧ Good (o.multiply ans base).2
  map_multiply : ∀ {ans base}, Good ans → Good base →
    φ (o.multiply ans base).1 = φ ans * φ base ∧ φ (o.multiply ans base).2 = φ base
  good_square : ∀ {base}, Good base → Good (o.square base)
  map_square : ∀ {base}, Good base → φ (o.square base) = φ base * φ base

variable [CommMonoid M] {o : Ops β} {Good : β → Prop} {φ : β → M}

theorem Sound.bit (h : o.Sound Good φ) {n : ℕ} {ans base : β} (ha : Good ans) (hb : Good base) :
    (Good (o.bit n ans base).1 ∧ Good (o.bit n ans base).2) ∧
      φ (o.bit n ans base).1 = φ ans * φ base ^ (n % 2) ∧ φ (o.bit n ans base).2 = φ base := by
  unfold Ops.bit
  rcases Nat.mod_two_eq_zero_or_one n with h2 | h2
  · rw [if_neg (by omega), h2, pow_zero, mul_one]
    exact ⟨⟨ha, hb⟩, rfl, rfl⟩
  · rw [if_pos h2, h2, pow_one]
    exact ⟨h.good_multiply ha hb, h.map_multiply ha hb⟩

/-- **Square and multiply**: what the accumulator stands for times the power of the base that is
still to be done does not change, so the loop ends with the power. -/
theorem Sound.loop (h : o.Sound Good φ) : ∀ {fuel n : ℕ} {ans base : β}, n < 2 ^ fuel → Good ans → Good base →
    Good (o.loop fuel n ans base) ∧ φ (o.loop fuel n ans base) = φ ans * φ base ^ n
  | 0, n, ans, base, hn, ha, _ => by
    have hn0 : n = 0 := by simpa using hn
    rw [hn0, pow_zero, mul_one]
    exact ⟨ha, rfl⟩
  | fuel + 1, n, ans, base, hn, ha, hb => by
    obtain ⟨⟨ga, gb⟩, ea, eb⟩ := h.bit (n := n) ha hb
    rw [Ops.loop]
    split_ifs with h0 h1
    · rw [h0, pow_zero, mul_one]
      exact ⟨ha, rfl⟩
    · -- the last bit, of the exponent 1
      have hn1 : n % 2 = n := by omega
      rw [ea, hn1]
      exact ⟨ga, rfl⟩
    · have hlt : n / 2 < 2 ^ fuel := by rw [pow_succ] at hn; omega
      obtain ⟨gl, el⟩ := Sound.loop h hlt ga (h.good_square gb)
      refine ⟨gl, ?_⟩
      calc φ (o.loop fuel (n / 2) (o.bit n ans base).1 (o.square (o.bit n ans base).2))
          = φ ans * φ base ^ (n % 2) * (φ base * φ base) ^ (n / 2) := by rw [el, ea, h.map_square gb, eb]
        _ = φ ans * φ base ^ (n % 2 + 2 * (n / 2)) := by rw [mul_assoc, ← pow_two, ← pow_mul, ← pow_add]
        _ = φ ans * φ base ^ n := by rw [Nat.mod_add_div]

end Ops

end GridSolve.BinaryPower
