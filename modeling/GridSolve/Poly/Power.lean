/-
`operator^`. The exponent 2 is a case of its own, which the square-and-multiply loop for the others
calls; like the product it narrows exponents to 16 bits, and it is exact as long as they fit. What a
program can build with the operators is well formed, and its exponents wrap exactly when the degree
in some symbol no longer fits.
-/
import Mathlib.Algebra.MvPolynomial.NoZeroDivisors
import GridSolve.Lib.BinaryPower
import GridSolve.Poly.Substitute

namespace GridSolve.Poly

open MvPolynomial GridSolve.Wrap GridSolve.BinaryPower

namespace Multinomial

/-- `operator^` at 2: the operand is copied by `*1` if it is saved, marked saved and multiplied with itself. -/
def square (p : Multinomial) : Multinomial :=
  let temp := (p.mulDouble 1).setSave true
  temp.mul temp

/-- The body of the loop: `temp` is saved while the accumulator is multiplied with it. -/
def powOps : Ops Multinomial where
  multiply ans temp := (ans.mul (temp.setSave true), (temp.setSave true).setSave false)
  square := square

/-- `operator^`; a `uint16_t` has 16 bits. -/
def pow (p : Multinomial) (n : UInt16) : Multinomial :=
  if n = 1 then p.mulDouble 1
  else if n = 2 then p.square
  else powOps.loop 16 n.toNat (.const false 1) (p.mulDouble 1)

variable {S : Symbol → Prop} {b : ℕ}

theorem toMv_setSave (a : Bool) (m : Multinomial) : (m.setSave a).toMv = m.toMv := toMv_congr (bare_setSave a m)

theorem WF.setSave {m : Multinomial} (h : WF S b m) (a : Bool) : WF S b (m.setSave a) := h.congr (bare_setSave a m).symm

theorem toMv_mulDouble_one {m : Multinomial} (h : WF S b m) : (m.mulDouble 1).toMv = m.toMv := by
  rw [(mulDouble_spec 1 h).1, C_1, mul_one]

theorem WF.square {p : Multinomial} (h : WF S b p) : WF S b p.square :=
  (((mulDouble_spec 1 h).2.setSave true).mul ((mulDouble_spec 1 h).2.setSave true))

theorem wrap16_square {p : Multinomial} (h : WF S b p) : wrap16 p.square.toMv = wrap16 p.toMv * wrap16 p.toMv := by
  have hcopy := (mulDouble_spec 1 h).2.setSave true
  rw [Multinomial.square, wrap16_mul hcopy hcopy, map_mul, toMv_setSave, toMv_mulDouble_one h]

/-- The loop works in the ring of narrowed exponents. -/
theorem powOps_sound : powOps.Sound (WF S b) fun m => wrap16 m.toMv where
  good_multiply ha ht := ⟨ha.mul (ht.setSave true), (ht.setSave true).setSave false⟩
  map_multiply ha ht := by
    constructor
    · rw [powOps, wrap16_mul ha (ht.setSave true), toMv_setSave, map_mul]
    · rw [powOps, toMv_setSave, toMv_setSave]
  good_square ht := ht.square
  map_square ht := wrap16_square ht

/-- The power of a tree, its exponents narrowed. -/
theorem pow_spec {p : Multinomial} (h : WF S b p) (n : UInt16) :
    WF S b (p.pow n) ∧ wrap16 (p.pow n).toMv = wrap16 (p.toMv ^ n.toNat) := by
  obtain ⟨-, hcopy⟩ := mulDouble_spec 1 h
  have hone := toMv_mulDouble_one h
  unfold pow
  split_ifs with h1 h2
  · subst h1
    refine ⟨hcopy, ?_⟩
    rw [hone]
    exact congrArg wrap16 (pow_one _).symm
  · subst h2
    refine ⟨h.square, ?_⟩
    rw [wrap16_square h, ← map_mul]
    exact congrArg wrap16 (pow_two _).symm
  · -- sixteen turns are enough for a `uint16_t`
    have hlt : n.toNat < 2 ^ 16 := n.toNat_lt
    obtain ⟨hwf, hval⟩ := powOps_sound.loop hlt (WF.const (S := S) (b := b)) hcopy
    refine ⟨hwf, hval.trans ?_⟩
    rw [toMv_const, C_1, map_one, one_mul, hone, map_pow]

theorem WF.pow {p : Multinomial} (h : WF S b p) (n : UInt16) : WF S b (p.pow n) := (pow_spec h n).1

/-- A power whose exponents fit is exact. -/
theorem toMv_pow {p : Multinomial} (h : WF S b p) {n : UInt16} (hfit : ∀ i, n.toNat * p.toMv.degreeOf i ≤ 65535) :
    (p.pow n).toMv = p.toMv ^ n.toNat := by
  refine wrap16_inj (h.pow n).small.1 (fun i => ?_) (pow_spec h n).2
  have := degreeOf_pow_le i p.toMv n.toNat
  have := hfit i
  omega

/-- **Exponentiation**: as long as the exponents fit, a power is well formed and its values are the
powers of the values. -/
theorem pow_substitute {p : Multinomial} (h : WF S b p) (n : UInt16)
    (hfit : ∀ i, ∀ e ∈ p.exponents i, n.toNat * e.toNat ≤ 65535) :
    WF S b (p.pow n) ∧ ∀ vals : List ℚ, (∀ k, S k → k.id < vals.length) →
      ∃ x, p.substitute vals = some x ∧ (p.pow n).substitute vals = some (x ^ n.toNat) := by
  refine ⟨h.pow n, fun vals hlen => ⟨_, substitute_eq hlen h, ?_⟩⟩
  have hdeg : ∀ i, n.toNat * p.toMv.degreeOf i ≤ 65535 := by
    intro i
    rcases Nat.eq_zero_or_pos n.toNat with h0 | h0
    · simp [h0]
    · have hle : ∀ e ∈ p.exponents i, e.toNat ≤ 65535 / n.toNat := fun e he => by
        rw [Nat.le_div_iff_mul_le h0, mul_comm]
        exact hfit i e he
      have := degreeOf_le_of_exponents h hle
      rw [Nat.le_div_iff_mul_le h0] at this
      rwa [mul_comm]
  rw [substitute_eq hlen (h.pow n), toMv_pow h hdeg, map_pow]

/-- The fifth power of a variable, at 2: the loop multiplies for the first and the third bit. -/
theorem pow_substitute_fifth :
    (var ⟨0, false⟩ false).substitute [2] = some 2 ∧ ((var ⟨0, false⟩ false).pow 5).substitute [2] = some 32 := by
  have hwf : WF (fun k => k.id < 1) 0 (var ⟨0, false⟩ false) := wf_var Nat.one_pos (Nat.zero_le _) false
  have hfit : ∀ i, ∀ e ∈ (var ⟨0, false⟩ false).exponents i, (5 : UInt16).toNat * e.toNat ≤ 65535 := by
    intro i e he
    simp only [var, exponents, exponentsMp] at he
    split_ifs at he
    · rcases List.mem_pair.1 he with rfl | rfl <;> decide
    · cases he
  obtain ⟨x, hx, hpow⟩ := (pow_substitute hwf 5 hfit).2 [2] fun k hk => hk
  have hx2 : x = 2 := Option.some.inj (hx.symm.trans (by decide +kernel))
  subst hx2
  rw [show (5 : UInt16).toNat = 5 from rfl] at hpow
  exact ⟨hx, hpow.trans (by norm_num)⟩

/-! ## Trees that are built -/

/-- The multinomials that the constructors and operators make, with any flags. -/
inductive Built : Multinomial → Prop
  | const (s : Bool) (c : ℚ) : Built (.const s c)
  | var (k : Symbol) (s : Bool) : Built (var k s)
  | add {p q : Multinomial} : Built p → Built q → Built (p.add q)
  | addDouble {p : Multinomial} (c : ℚ) : Built p → Built (p.addDouble c)
  | mul {p q : Multinomial} : Built p → Built q → Built (p.mul q)
  | mulDouble {p : Multinomial} (c : ℚ) : Built p → Built (p.mulDouble c)
  | pow {p : Multinomial} (n : UInt16) : Built p → Built (p.pow n)
  | setSave {p : Multinomial} (a : Bool) : Built p → Built (p.setSave a)

theorem Built.wf {p : Multinomial} (h : Built p) : WF (fun _ => True) 0 p := by
  induction h with
  | const s c => exact .const
  | var k s => exact wf_var trivial (Nat.zero_le _) s
  | add _ _ hp hq => exact hp.add hq
  | addDouble c _ hp => exact (addDouble_spec c hp).2
  | mul _ _ hp hq => exact hp.mul hq
  | mulDouble c _ hp => exact (mulDouble_spec c hp).2
  | pow n _ hp => exact hp.pow n
  | setSave a _ hp => exact hp.setSave a

/-- **Exponents wrap exactly when a degree no longer fits**: the degrees of a product are the sums
of the degrees, and those of a power the multiples, if and only if all of these are below `2^16`. -/
theorem degreeOf_mul_pow_iff {p q : Multinomial} (hp : Built p) (hq : Built q) (hp0 : p.toMv ≠ 0) (hq0 : q.toMv ≠ 0)
    (n : UInt16) :
    ((∀ i, (p.mul q).toMv.degreeOf i = p.toMv.degreeOf i + q.toMv.degreeOf i) ↔
      ∀ i, p.toMv.degreeOf i + q.toMv.degreeOf i ≤ 65535) ∧
    ((∀ i, (p.pow n).toMv.degreeOf i = n.toNat * p.toMv.degreeOf i) ↔ ∀ i, n.toNat * p.toMv.degreeOf i ≤ 65535) := by
  refine ⟨⟨fun h i => ?_, fun h i => ?_⟩, ⟨fun h i => ?_, fun h i => ?_⟩⟩
  · have := (hp.wf.mul hq.wf).small.1 i
    rw [h i] at this
    omega
  · rw [toMv_mul_of_degreeOf hp.wf hq.wf h, degreeOf_mul_eq hp0 hq0]
  · have := (hp.wf.pow n).small.1 i
    rw [h i] at this
    omega
  · rw [toMv_pow hp.wf h, degreeOf_pow_eq i _ _ hp0]

/-- A variable squared and cubed. -/
theorem degreeOf_mul_pow_iff_var :
    (∀ i, ((var ⟨0, false⟩ false).mul (var ⟨0, false⟩ false)).toMv.degreeOf i =
      (var ⟨0, false⟩ false).toMv.degreeOf i + (var ⟨0, false⟩ false).toMv.degreeOf i) ∧
    ∀ i, ((var ⟨0, false⟩ false).pow 3).toMv.degreeOf i = 3 * (var ⟨0, false⟩ false).toMv.degreeOf i := by
  have hdeg : ∀ i, (var ⟨0, false⟩ false).toMv.degreeOf i ≤ 1 := fun i => by
    rw [toMv_var, degreeOf_X]
    split_ifs
    · exact le_rfl
    · exact Nat.zero_le 1
  have h0 : (var ⟨0, false⟩ false).toMv ≠ 0 := by
    rw [toMv_var]
    exact X_ne_zero 0
  obtain ⟨hmul, hpow⟩ := degreeOf_mul_pow_iff (.var ⟨0, false⟩ false) (.var ⟨0, false⟩ false) h0 h0 3
  refine ⟨hmul.2 fun i => ?_, hpow.2 fun i => ?_⟩
  · have := hdeg i
    omega
  · have := hdeg i
    rw [show (3 : UInt16).toNat = 3 from rfl]
    omega

/-- `x^40000`. -/
def bigPower : Multinomial := (var ⟨0, false⟩ true).pow 40000

theorem built_bigPower : Built bigPower := .pow _ (.var _ _)

theorem toMv_bigPower : bigPower.toMv = X 0 ^ 40000 := by
  have hfit : ∀ i, (40000 : UInt16).toNat * (var ⟨0, false⟩ true).toMv.degreeOf i ≤ 65535 := by
    intro i
    rw [toMv_var, degreeOf_X]
    split_ifs <;> decide
  rw [bigPower, toMv_pow (Built.var _ _).wf hfit, toMv_var]
  rfl

/-- The square of `x^40000` is `x^14464`. -/
theorem bigPower_wraps : Built bigPower ∧ bigPower.toMv.degreeOf 0 = 40000 ∧
    (bigPower.mul bigPower).toMv = X 0 ^ 14464 ∧ (bigPower.pow 2).toMv = X 0 ^ 14464 := by
  have hsmall : Small 65536 (X 0 ^ 14464 : MvPolynomial ℕ ℚ) := fun i =>
    (degreeOf_pow_le i _ _).trans_lt (by rw [degreeOf_X]; split_ifs <;> decide)
  have hwrap : wrap16 (X 0 ^ 14464) = wrap16 (bigPower.toMv * bigPower.toMv) := by
    rw [toMv_bigPower, ← pow_add]
    exact wrap_X_pow_congr narrow 0 (by decide)
  have hwf := built_bigPower.wf
  refine ⟨built_bigPower, ?_, ?_, ?_⟩
  · rw [toMv_bigPower, degreeOf_X_self_pow]
  · exact wrap16_inj (hwf.mul hwf).small.1 hsmall ((wrap16_mul hwf hwf).trans hwrap.symm)
  · refine wrap16_inj (hwf.pow 2).small.1 hsmall ((pow_spec hwf 2).2.trans (Eq.trans ?_ hwrap.symm))
    exact congrArg wrap16 (pow_two _)

end Multinomial

end GridSolve.Poly
