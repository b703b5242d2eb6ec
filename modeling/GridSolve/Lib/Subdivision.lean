/-
Polynomials on small boxes. A box is given by its lower corner `a` and its widths `w`. Written in the
differences to the corner, a polynomial whose value there outweighs its other terms, each taken at the
widths, is a combination of products of the sides of the box. On boxes that are small enough the other
terms have next to no weight, and how small is enough depends on the polynomial and on a bound for the
corners only. A polynomial of degree one that is not negative on a box always is a combination.
-/
import GridSolve.Lib.Expansion
import Mathlib.Algebra.Order.BigOperators.Group.Finset
import Mathlib.Algebra.Order.BigOperators.Ring.Multiset

namespace GridSolve.Subdivision

open MvPolynomial GridSolve.Cone GridSolve.Expansion

variable {σ K ι : Type*} [DecidableEq σ] [Field K] [LinearOrder K] [IsStrictOrderedRing K]

/-! ## The terms at the widths -/

/-- The terms of `p` around `a` other than the value, each at the widths `w`. -/
noncomputable def weight (p : MvPolynomial σ K) (a w : σ → K) : K :=
  ∑ d ∈ (shift a p).support.erase 0, |coeff d (shift a p)| * (d.toMultiset.map w).prod

omit [LinearOrder K] [IsStrictOrderedRing K] in
/-- A polynomial by its terms around `a`. -/
theorem eq_add_terms (p : MvPolynomial σ K) (a : σ → K) : p = C (eval a p) +
    ∑ d ∈ (shift a p).support.erase 0, coeff d (shift a p) • (d.toMultiset.map fun i => X i - C (a i)).prod := by
  conv_lhs => rw [terms_shift a p]
  have hvalue : C (eval a p) = coeff 0 (shift a p) • ((0 : σ →₀ ℕ).toMultiset.map fun i => X i - C (a i)).prod := by
    rw [coeff_zero_shift, Finsupp.toMultiset_zero, Multiset.map_zero, Multiset.prod_zero, smul_eq_C_mul, mul_one]
  rw [hvalue]
  by_cases h0 : (0 : σ →₀ ℕ) ∈ (shift a p).support
  · exact (Finset.add_sum_erase _ _ h0).symm
  · rw [Finset.erase_eq_of_notMem h0, notMem_support_iff.1 h0, zero_smul, zero_add]

omit [LinearOrder K] [IsStrictOrderedRing K] in
/-- The variables of a term are those of the polynomial. -/
theorem mem_vars_of_term {p : MvPolynomial σ K} {a : σ → K} {d : σ →₀ ℕ} (hd : d ∈ (shift a p).support.erase 0) {i : σ}
    (hi : i ∈ d.toMultiset) : i ∈ p.vars :=
  vars_shift a p ((mem_vars_iff_mem_support i).2 ⟨d, Finset.mem_of_mem_erase hd, (Finsupp.mem_toMultiset d i).1 hi⟩)

omit [LinearOrder K] [IsStrictOrderedRing K] in
theorem card_term_le {p : MvPolynomial σ K} {a : σ → K} {d : σ →₀ ℕ} (hd : d ∈ (shift a p).support.erase 0) :
    d.toMultiset.card ≤ p.totalDegree := by
  rw [Finsupp.card_toMultiset]
  exact (le_totalDegree (Finset.mem_of_mem_erase hd)).trans (totalDegree_shift_le a p)

theorem toMultiset_ne_zero {d : σ →₀ ℕ} (hd : d ≠ 0) : d.toMultiset ≠ 0 := fun h => hd <| by
  rw [← Finsupp.toMultiset_toFinsupp d, h, Multiset.toFinsupp_zero]

/-- On the box the polynomial is near its value at the corner. -/
theorem abs_eval_sub_le {p : MvPolynomial σ K} {a w x : σ → K} (hx : ∀ i ∈ p.vars, a i ≤ x i ∧ x i ≤ a i + w i) :
    |eval x p - eval a p| ≤ weight p a w := by
  have heval : eval x p - eval a p = ∑ d ∈ (shift a p).support.erase 0,
      coeff d (shift a p) * (d.toMultiset.map fun i => x i - a i).prod := by
    have hterms := congrArg (eval x) (eq_add_terms p a)
    simp only [map_add, eval_C, map_sum, smul_eval, map_multiset_prod, Multiset.map_map, Function.comp_def, map_sub,
      eval_X] at hterms
    exact sub_eq_of_eq_add' hterms
  rw [heval, weight]
  refine (Finset.abs_sum_le_sum_abs _ _).trans (Finset.sum_le_sum fun d hd => ?_)
  have hvar : ∀ i ∈ d.toMultiset, 0 ≤ x i - a i ∧ x i - a i ≤ w i := fun i hi =>
    ⟨sub_nonneg.2 (hx i (mem_vars_of_term hd hi)).1, sub_le_iff_le_add'.2 (hx i (mem_vars_of_term hd hi)).2⟩
  have hprod : 0 ≤ (d.toMultiset.map fun i => x i - a i).prod := Multiset.prod_nonneg fun y hy => by
    obtain ⟨i, hi, rfl⟩ := Multiset.mem_map.1 hy
    exact (hvar i hi).1
  rw [abs_mul, abs_of_nonneg hprod]
  exact mul_le_mul_of_nonneg_left
    (Multiset.prod_map_le_prod_map₀ _ _ (fun i hi => (hvar i hi).1) fun i hi => (hvar i hi).2) (abs_nonneg _)

/-! ## In the cone of the sides -/

section

variable {g : ι → MvPolynomial σ K} {a w : σ → K} {lower upper : σ → ι} {V : Set σ} {A : Multiset ι → Prop} {n : ℕ}
  (hlo : ∀ i ∈ V, g (lower i) = X i - C (a i)) (hhi : ∀ i ∈ V, g (upper i) = C (a i + w i) - X i)
  (hw : ∀ i ∈ V, 0 ≤ w i)
  (hA : ∀ α : Multiset ι, (∀ j ∈ α, ∃ i ∈ V, j = lower i ∨ j = upper i) → α.card ≤ n → A α)

include hA in
omit [DecidableEq σ] [IsStrictOrderedRing K] in
theorem inCone_const {c : K} (hc : 0 ≤ c) : InCone K A g (C c : MvPolynomial σ K) := by
  simpa [smul_eq_C_mul] using inCone_smul_prod (g := g) (hA 0 (by simp) (Nat.zero_le n)) hc

include hlo hA in
omit [DecidableEq σ] [IsStrictOrderedRing K] in
/-- A product of lower sides. -/
theorem inCone_lower {s : Multiset σ} (hs : ∀ i ∈ s, i ∈ V) (hcard : s.card ≤ n) {c : K} (hc : 0 ≤ c) :
    InCone K A g (c • (s.map fun i => X i - C (a i)).prod) := by
  rw [← prod_map_lower hlo hs]
  refine inCone_smul_prod (hA _ (fun j hj => ?_) (by rwa [Multiset.card_map])) hc
  obtain ⟨i, hi, rfl⟩ := Multiset.mem_map.1 hj
  exact ⟨i, hs i hi, .inl rfl⟩

include hlo hhi hw hA in
omit [DecidableEq σ] in
/-- What a product of lower sides falls short of the product of the widths. -/
theorem inCone_widths_sub : ∀ {s : Multiset σ}, (∀ i ∈ s, i ∈ V) → s.card ≤ n →
    InCone K A g (C (s.map w).prod - (s.map fun i => X i - C (a i)).prod) := by
  intro s
  induction s using Multiset.induction_on with
  | empty => exact fun _ _ => by simpa using inCone_zero
  | cons i s ih =>
    intro hs hcard
    have hi := hs i (Multiset.mem_cons_self i s)
    have hrest : ∀ k ∈ s, k ∈ V := fun k hk => hs k (Multiset.mem_cons_of_mem hk)
    rw [Multiset.card_cons] at hcard
    -- the widths with one factor left out, and the upper side of that factor
    have hsplit : C ((i ::ₘ s).map w).prod - ((i ::ₘ s).map fun i => X i - C (a i)).prod =
        w i • (C (s.map w).prod - (s.map fun i => X i - C (a i)).prod) +
          ((upper i ::ₘ s.map lower).map g).prod := by
      simp only [Multiset.map_cons, Multiset.prod_cons, prod_map_lower hlo hrest, hhi i hi, smul_eq_C_mul, C_mul, C_add]
      ring
    rw [hsplit]
    refine ((ih hrest (by omega)).smul (hw i hi)).add ?_
    rw [← one_smul K ((upper i ::ₘ s.map lower).map g).prod]
    refine inCone_smul_prod (hA _ (fun j hj => ?_) (by simpa using hcard)) zero_le_one
    rcases Multiset.mem_cons.1 hj with rfl | hj
    · exact ⟨i, hi, .inr rfl⟩
    · obtain ⟨k, hk, rfl⟩ := Multiset.mem_map.1 hj
      exact ⟨k, hrest k hk, .inl rfl⟩

include hlo hhi hw hA in
omit [DecidableEq σ] in
/-- A term and its weight. -/
theorem inCone_term_add_width {s : Multiset σ} (hs : ∀ i ∈ s, i ∈ V) (hcard : s.card ≤ n) (c : K) :
    InCone K A g (c • (s.map fun i => X i - C (a i)).prod + C (|c| * (s.map w).prod)) := by
  rcases le_total 0 c with h0 | h0
  · have hprod : 0 ≤ (s.map w).prod := Multiset.prod_nonneg fun y hy => by
      obtain ⟨i, hi, rfl⟩ := Multiset.mem_map.1 hy
      exact hw i (hs i hi)
    exact (inCone_lower hlo hA hs hcard h0).add (inCone_const hA (mul_nonneg (abs_nonneg c) hprod))
  · have hneg : c • (s.map fun i => X i - C (a i)).prod + C (|c| * (s.map w).prod) =
        (-c) • (C (s.map w).prod - (s.map fun i => X i - C (a i)).prod) := by
      rw [abs_of_nonpos h0, C_mul, smul_sub, smul_eq_C_mul, smul_eq_C_mul, smul_eq_C_mul, C_neg]
      ring
    rw [hneg]
    exact (inCone_widths_sub hlo hhi hw hA hs hcard).smul (neg_nonneg.2 h0)

end

/-- **A value that outweighs the terms**: the polynomial is a combination of products of the sides, with
at most as many factors as its degree. -/
theorem inCone_of_weight_le {p : MvPolynomial σ K} {g : ι → MvPolynomial σ K} {a w : σ → K} {lower upper : σ → ι}
    {A : Multiset ι → Prop} (hlo : ∀ i ∈ p.vars, g (lower i) = X i - C (a i))
    (hhi : ∀ i ∈ p.vars, g (upper i) = C (a i + w i) - X i) (hw : ∀ i ∈ p.vars, 0 ≤ w i)
    (hA : ∀ α : Multiset ι, (∀ j ∈ α, ∃ i ∈ p.vars, j = lower i ∨ j = upper i) → α.card ≤ p.totalDegree → A α)
    (h : weight p a w ≤ eval a p) : InCone K A g p := by
  have hsum : p = C (eval a p - weight p a w) + ∑ d ∈ (shift a p).support.erase 0,
      (coeff d (shift a p) • (d.toMultiset.map fun i => X i - C (a i)).prod +
        C (|coeff d (shift a p)| * (d.toMultiset.map w).prod)) := by
    rw [Finset.sum_add_distrib, ← map_sum, show ∑ d ∈ (shift a p).support.erase 0,
      |coeff d (shift a p)| * (d.toMultiset.map w).prod = weight p a w from rfl, C_sub]
    conv_lhs => rw [eq_add_terms p a]
    ring
  rw [hsum]
  refine (inCone_const hA (sub_nonneg.2 h)).add (InCone.sum fun d hd => ?_)
  exact inCone_term_add_width (V := {i | i ∈ p.vars}) hlo hhi hw hA (fun i hi => mem_vars_of_term hd hi)
    (card_term_le hd) _

/-! ## How small is small enough -/

/-- The coefficients of `q` bound those of `p`. -/
def Dominates (q p : MvPolynomial σ K) : Prop := ∀ d, |coeff d p| ≤ coeff d q

section

variable {p p' q q' : MvPolynomial σ K}

omit [DecidableEq σ] in
theorem Dominates.add (h : Dominates q p) (h' : Dominates q' p') : Dominates (q + q') (p + p') := fun d => by
  rw [coeff_add, coeff_add]
  exact (abs_add_le _ _).trans (add_le_add (h d) (h' d))

theorem Dominates.mul (h : Dominates q p) (h' : Dominates q' p') : Dominates (q * q') (p * p') := fun d => by
  rw [coeff_mul, coeff_mul]
  refine (Finset.abs_sum_le_sum_abs _ _).trans (Finset.sum_le_sum fun x _ => ?_)
  rw [abs_mul]
  exact mul_le_mul (h x.1) (h' x.2) (abs_nonneg _) ((abs_nonneg _).trans (h x.1))

theorem dominates_C {c e : K} (h : |c| ≤ e) : Dominates (C e : MvPolynomial σ K) (C c) := fun d => by
  rw [coeff_C, coeff_C]
  split_ifs
  · exact h
  · rw [abs_zero]

theorem dominates_X (i : σ) : Dominates (X i : MvPolynomial σ K) (X i) := fun d => by
  rw [coeff_X]
  split_ifs <;> simp

/-- The terms around all corners within a bound have common bounds. -/
theorem exists_dominates_shift (p : MvPolynomial σ K) (b : σ → K) :
    ∃ q, ∀ a : σ → K, (∀ i, |a i| ≤ b i) → Dominates q (shift a p) := by
  induction p using MvPolynomial.induction_on with
  | C c =>
    refine ⟨C |c|, fun a _ => ?_⟩
    rw [shift, bind₁_C_right]
    exact dominates_C le_rfl
  | add p p' hp hp' =>
    obtain ⟨q, hq⟩ := hp
    obtain ⟨q', hq'⟩ := hp'
    refine ⟨q + q', fun a ha => ?_⟩
    rw [map_add]
    exact (hq a ha).add (hq' a ha)
  | mul_X p i hp =>
    obtain ⟨q, hq⟩ := hp
    refine ⟨q * (X i + C (b i)), fun a ha => ?_⟩
    rw [map_mul, show shift a (X i) = X i + C (a i) from bind₁_X_right _ i]
    exact (hq a ha).mul ((dominates_X i).add (dominates_C (ha i)))

end

/-- A term that is not constant is at most the width, if that is at most 1. -/
theorem prod_widths_le {d : σ →₀ ℕ} (hd : d ≠ 0) {w : σ → K} {δ : K} (hδ : δ ≤ 1)
    (hw : ∀ i ∈ d.toMultiset, 0 ≤ w i ∧ w i ≤ δ) : (d.toMultiset.map w).prod ≤ δ := by
  obtain ⟨i, hi⟩ := Multiset.exists_mem_of_ne_zero (toMultiset_ne_zero hd)
  obtain ⟨s, hs⟩ := Multiset.exists_cons_of_mem hi
  rw [hs] at hw ⊢
  have hone : (s.map w).prod ≤ (s.map fun _ => (1 : K)).prod := Multiset.prod_map_le_prod_map₀ _ _
    (fun k hk => (hw k (Multiset.mem_cons_of_mem hk)).1) fun k hk => ((hw k (Multiset.mem_cons_of_mem hk)).2).trans hδ
  rw [Multiset.map_const', Multiset.prod_replicate, one_pow] at hone
  rw [Multiset.map_cons, Multiset.prod_cons]
  obtain ⟨h0, hle⟩ := hw i (Multiset.mem_cons_self i s)
  exact (mul_le_of_le_one_right h0 hone).trans hle

theorem weight_le {p q : MvPolynomial σ K} {a w : σ → K} (hq : Dominates q (shift a p)) {δ : K} (h0 : 0 ≤ δ)
    (hδ : δ ≤ 1) (hw : ∀ i ∈ p.vars, 0 ≤ w i ∧ w i ≤ δ) : weight p a w ≤ δ * ∑ d ∈ q.support, coeff d q := by
  have hterm : ∀ d ∈ (shift a p).support.erase 0, |coeff d (shift a p)| * (d.toMultiset.map w).prod ≤ δ *
      coeff d q := by
    intro d hd
    have hprod := prod_widths_le (Finset.ne_of_mem_erase hd) hδ fun i hi => hw i (mem_vars_of_term hd hi)
    rw [mul_comm δ]
    exact (mul_le_mul_of_nonneg_left hprod (abs_nonneg _)).trans (mul_le_mul_of_nonneg_right (hq d) h0)
  rw [Finset.mul_sum]
  refine (Finset.sum_le_sum hterm).trans (Finset.sum_le_sum_of_subset_of_nonneg (fun d hd => ?_) fun d _ _ => ?_)
  · have hpos := abs_pos.2 (mem_support_iff.1 (Finset.mem_of_mem_erase hd))
    exact mem_support_iff.2 (hpos.trans_le (hq d)).ne'
  · exact mul_nonneg h0 ((abs_nonneg _).trans (hq d))

/-- Small boxes have small weights, wherever they are within a bound. -/
theorem exists_width (p : MvPolynomial σ K) (b : σ → K) {ε : K} (hε : 0 < ε) :
    ∃ δ : K, 0 < δ ∧ ∀ a w : σ → K, (∀ i, |a i| ≤ b i) → (∀ i ∈ p.vars, 0 ≤ w i ∧ w i ≤ δ) → weight p a w ≤ ε := by
  obtain ⟨q, hq⟩ := exists_dominates_shift p b
  obtain ⟨S, hS, hle⟩ : ∃ S : K, 0 < S ∧ ∑ d ∈ q.support, coeff d q ≤ S :=
    ⟨max 1 (∑ d ∈ q.support, coeff d q), lt_max_of_lt_left zero_lt_one, le_max_right _ _⟩
  have hmin : 0 < min 1 (ε / S) := lt_min zero_lt_one (div_pos hε hS)
  refine ⟨min 1 (ε / S), hmin, fun a w ha hw => ?_⟩
  calc weight p a w ≤ min 1 (ε / S) * ∑ d ∈ q.support, coeff d q := weight_le (hq a ha) hmin.le (min_le_left _ _) hw
    _ ≤ min 1 (ε / S) * S := mul_le_mul_of_nonneg_left hle hmin.le
    _ ≤ ε / S * S := mul_le_mul_of_nonneg_right (min_le_right _ _) hS.le
    _ = ε := div_mul_cancel₀ ε hS.ne'

/-- **On small boxes the sign is in the cone**: there is a width such that, on every box of that width
with its corner within the bound, a value of at least `ε` anywhere outweighs the terms. -/
theorem exists_width_weight_le (p : MvPolynomial σ K) (b : σ → K) {ε : K} (hε : 0 < ε) :
    ∃ δ : K, 0 < δ ∧ ∀ a w x : σ → K, (∀ i, |a i| ≤ b i) → (∀ i ∈ p.vars, 0 ≤ w i ∧ w i ≤ δ) →
      (∀ i ∈ p.vars, a i ≤ x i ∧ x i ≤ a i + w i) → ε ≤ eval x p → weight p a w ≤ eval a p := by
  obtain ⟨δ, hδ, hsmall⟩ := exists_width p b (half_pos hε)
  refine ⟨δ, hδ, fun a w x ha hw hx hval => ?_⟩
  have hweight := hsmall a w ha hw
  have hnear := (le_abs_self _).trans (abs_eval_sub_le hx)
  linarith

/-! ## Degree one -/

omit [LinearOrder K] [IsStrictOrderedRing K] in
theorem term_eq_singleton {p : MvPolynomial σ K} (hp : p.totalDegree ≤ 1) {a : σ → K} {d : σ →₀ ℕ}
    (hd : d ∈ (shift a p).support.erase 0) : ∃ i, d.toMultiset = {i} := by
  rw [← Multiset.card_eq_one]
  have hpos := Multiset.card_pos.2 (toMultiset_ne_zero (Finset.ne_of_mem_erase hd))
  have hle := (card_term_le hd).trans hp
  omega

omit [LinearOrder K] [IsStrictOrderedRing K] in
/-- A polynomial of degree one and its value anywhere. -/
theorem eq_add_linear {p : MvPolynomial σ K} (hp : p.totalDegree ≤ 1) (x : σ → K) :
    p = C (eval x p) + ∑ d ∈ (shift 0 p).support.erase 0,
      coeff d (shift 0 p) • (d.toMultiset.map fun i => X i - C (x i)).prod := by
  have hzero := eq_add_terms p 0
  have hval := congrArg (eval x) hzero
  simp only [map_add, eval_C, map_sum, smul_eval, map_multiset_prod, Multiset.map_map, Function.comp_def,
    map_sub, eval_X, Pi.zero_apply, sub_zero] at hval
  have hdiff : ∑ d ∈ (shift 0 p).support.erase 0, coeff d (shift 0 p) • (d.toMultiset.map fun i => X i - C (x i)).prod =
      ∑ d ∈ (shift 0 p).support.erase 0,
          coeff d (shift 0 p) • (d.toMultiset.map fun i => (X i : MvPolynomial σ K) - C ((0 : σ → K) i)).prod -
        C (∑ d ∈ (shift 0 p).support.erase 0, coeff d (shift 0 p) * (d.toMultiset.map x).prod) := by
    rw [map_sum, ← Finset.sum_sub_distrib]
    refine Finset.sum_congr rfl fun d hd => ?_
    obtain ⟨i, hi⟩ := term_eq_singleton hp hd
    simp [hi, smul_eq_C_mul]
    ring
  rw [hdiff, hval, C_add]
  conv_lhs => rw [hzero]
  ring

/-- **A polynomial of degree one that is not negative on a box** is a combination of its sides. -/
theorem inCone_of_linear {p : MvPolynomial σ K} (hp : p.totalDegree ≤ 1) {g : ι → MvPolynomial σ K} {a w : σ → K}
    {lower upper : σ → ι} {A : Multiset ι → Prop} (hlo : ∀ i ∈ p.vars, g (lower i) = X i - C (a i))
    (hhi : ∀ i ∈ p.vars, g (upper i) = C (a i + w i) - X i) (hw : ∀ i ∈ p.vars, 0 ≤ w i)
    (hA : ∀ α : Multiset ι, (∀ j ∈ α, ∃ i ∈ p.vars, j = lower i ∨ j = upper i) → α.card ≤ p.totalDegree → A α)
    (h : ∀ x, (∀ i ∈ p.vars, a i ≤ x i ∧ x i ≤ a i + w i) → 0 ≤ eval x p) : InCone K A g p := by
  -- the corner where the polynomial is smallest
  obtain ⟨x, hx⟩ : ∃ x : σ → K, ∀ i,
      x i = if 0 ≤ coeff (Finsupp.single i 1) (shift 0 p) then a i else a i + w i := ⟨_, fun _ => rfl⟩
  have hval : 0 ≤ eval x p := h x fun i hi => by
    have := hw i hi
    rw [hx]
    split_ifs <;> constructor <;> linarith
  rw [eq_add_linear hp x]
  refine (inCone_const hA hval).add (InCone.sum fun d hd => ?_)
  obtain ⟨i, hi⟩ := term_eq_singleton hp hd
  have hvar : i ∈ p.vars := mem_vars_of_term hd (hi ▸ Multiset.mem_singleton_self i)
  have hd1 : d = Finsupp.single i 1 := by
    rw [← Finsupp.toMultiset_toFinsupp d, hi, Multiset.toFinsupp_singleton]
  have hside : ∀ {j : ι}, (j = lower i ∨ j = upper i) → A {j} := fun hj =>
    hA _ (fun k hk => ⟨i, hvar, by rwa [Multiset.mem_singleton.1 hk]⟩) (by simpa [hi] using card_term_le hd)
  rw [hi, Multiset.map_singleton, Multiset.prod_singleton, hx, ← hd1]
  split_ifs with hc
  · rw [← hlo i hvar]
    simpa using inCone_smul_prod (g := g) (hside (.inl rfl)) hc
  · have hneg : coeff d (shift 0 p) • (X i - C (a i + w i)) = (-coeff d (shift 0 p)) • g (upper i) := by
      rw [hhi i hvar, neg_smul, ← smul_neg, neg_sub]
    rw [hneg]
    simpa using inCone_smul_prod (g := g) (hside (.inr rfl)) (neg_nonneg.2 (not_le.1 hc).le)

end GridSolve.Subdivision
