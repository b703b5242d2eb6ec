/-
A polynomial around a point. Written in the differences `x_i - a_i` it has the degree and the
variables of the polynomial, and its constant term is the value at the point. With the differences
of both signs at hand every term but the constant one can be written with a non-negative constant,
so a polynomial that is not negative at the point lies in the cone of their products.
-/
import GridSolve.Lib.Cone
import Mathlib.Algebra.MvPolynomial.Monad
import Mathlib.Algebra.MvPolynomial.CommRing

namespace GridSolve.Expansion

open MvPolynomial GridSolve.Cone

variable {σ K : Type*} [Field K]

/-- The polynomial in the differences to `a`. -/
noncomputable def shift (a : σ → K) : MvPolynomial σ K →ₐ[K] MvPolynomial σ K := bind₁ fun i => X i + C (a i)

theorem bind₁_shift (a : σ → K) (p : MvPolynomial σ K) : bind₁ (fun i => X i - C (a i)) (shift a p) = p := by
  have hid : ∀ i, bind₁ (fun i => X i - C (a i)) (X i + C (a i)) = X i := fun i => by simp
  rw [shift, bind₁_bind₁]
  simp only [hid]
  exact aeval_X_left_apply p

theorem vars_shift (a : σ → K) (p : MvPolynomial σ K) : (shift a p).vars ⊆ p.vars := by
  classical
  intro i hi
  obtain ⟨j, hj, hij⟩ := mem_vars_bind₁ _ _ hi
  have := vars_add_subset (X j) (C (a j)) hij
  simp only [vars_X, vars_C, Finset.union_empty, Finset.mem_singleton] at this
  exact this ▸ hj

theorem totalDegree_shift_le (a : σ → K) (p : MvPolynomial σ K) : (shift a p).totalDegree ≤ p.totalDegree := by
  rw [shift, bind₁, aeval_def, eval₂_eq]
  refine totalDegree_finsetSum_le fun d hd => ?_
  refine (totalDegree_mul _ _).trans ?_
  rw [algebraMap_eq, totalDegree_C, zero_add]
  refine (totalDegree_finsetProd _ _).trans ((Finset.sum_le_sum fun i _ => ?_).trans (le_totalDegree hd))
  refine (totalDegree_pow _ _).trans ?_
  have hone : (X i + C (a i)).totalDegree ≤ 1 := (totalDegree_add _ _).trans (by simp [totalDegree_X])
  exact (Nat.mul_le_mul_left _ hone).trans_eq (Nat.mul_one _)

theorem coeff_zero_shift (a : σ → K) (p : MvPolynomial σ K) : coeff 0 (shift a p) = eval a p := by
  have h : (constantCoeff.comp (shift a : MvPolynomial σ K →+* MvPolynomial σ K)) = eval a :=
    ringHom_ext (fun c => by simp [shift]) fun i => by simp [shift]
  rw [← h]
  rfl

/-- The terms of a polynomial around `a`. -/
theorem terms_shift (a : σ → K) (p : MvPolynomial σ K) :
    p = ∑ d ∈ (shift a p).support, coeff d (shift a p) • (d.toMultiset.map fun i => X i - C (a i)).prod := by
  classical
  conv_lhs => rw [← bind₁_shift a p]
  rw [bind₁, aeval_def, eval₂_eq]
  refine Finset.sum_congr rfl fun d _ => ?_
  rw [algebraMap_eq, smul_eq_C_mul, Finset.prod_multiset_map_count, Finsupp.toFinset_toMultiset]
  simp only [Finsupp.count_toMultiset]

/-! ## In the cone of the differences -/

variable {ι : Type*} {g : ι → MvPolynomial σ K} {a : σ → K} {lower upper : σ → ι} {V : Set σ}

theorem prod_map_lower (hlo : ∀ i ∈ V, g (lower i) = X i - C (a i)) {s : Multiset σ} (hs : ∀ i ∈ s, i ∈ V) :
    ((s.map lower).map g).prod = (s.map fun i => X i - C (a i)).prod := by
  rw [Multiset.map_map]
  exact congrArg _ (Multiset.map_congr rfl fun i hi => hlo i (hs i hi))

/-- A term that is not constant, with any coefficient: one difference takes the sign. -/
theorem inCone_term [LinearOrder K] [IsStrictOrderedRing K] {A : Multiset ι → Prop} {n : ℕ}
    (hlo : ∀ i ∈ V, g (lower i) = X i - C (a i)) (hhi : ∀ i ∈ V, g (upper i) = C (a i) - X i)
    (hA : ∀ α : Multiset ι, (∀ j ∈ α, ∃ i ∈ V, j = lower i ∨ j = upper i) → α.card ≤ n → A α)
    {s : Multiset σ} (hs : ∀ i ∈ s, i ∈ V) (hcard : s.card ≤ n) {c : K} (hc : s = 0 → 0 ≤ c) :
    InCone K A g (c • (s.map fun i => X i - C (a i)).prod) := by
  have hlower : ∀ t : Multiset σ, (∀ i ∈ t, i ∈ V) → ∀ j ∈ t.map lower, ∃ i ∈ V, j = lower i ∨ j = upper i := by
    intro t ht j hj
    obtain ⟨i, hi, rfl⟩ := Multiset.mem_map.1 hj
    exact ⟨i, ht i hi, .inl rfl⟩
  rcases le_or_gt 0 c with h0 | hneg
  · rw [← prod_map_lower hlo hs]
    exact inCone_smul_prod (hA _ (hlower s hs) (by rwa [Multiset.card_map])) h0
  · obtain ⟨i, hi⟩ := Multiset.exists_mem_of_ne_zero fun h => absurd (hc h) (not_le.2 hneg)
    obtain ⟨t, rfl⟩ := Multiset.exists_cons_of_mem hi
    have ht : ∀ j ∈ t, j ∈ V := fun j hj => hs j (Multiset.mem_cons_of_mem hj)
    have hprod : c • ((i ::ₘ t).map fun i => X i - C (a i)).prod = (-c) • ((upper i ::ₘ t.map lower).map g).prod := by
      rw [Multiset.map_cons, Multiset.prod_cons, Multiset.map_cons, Multiset.prod_cons, prod_map_lower hlo ht,
        hhi i (hs i hi), neg_smul, ← smul_neg, ← neg_mul, neg_sub]
    rw [hprod]
    refine inCone_smul_prod (hA _ (fun j hj => ?_) ?_) (neg_nonneg.2 hneg.le)
    · rcases Multiset.mem_cons.1 hj with rfl | hj
      · exact ⟨i, hs i hi, .inr rfl⟩
      · exact hlower t ht j hj
    · rwa [Multiset.card_cons, Multiset.card_map, ← Multiset.card_cons i]

/-- **A polynomial that is not negative at a point** is a sum of non-negative constants times
products of differences, with at most as many factors as its degree. -/
theorem inCone_of_eval_nonneg [LinearOrder K] [IsStrictOrderedRing K] {A : Multiset ι → Prop} {p : MvPolynomial σ K}
    (a : σ → K) (lower upper : σ → ι)
    (hlo : ∀ i ∈ p.vars, g (lower i) = X i - C (a i)) (hhi : ∀ i ∈ p.vars, g (upper i) = C (a i) - X i)
    (hA : ∀ α : Multiset ι, (∀ j ∈ α, ∃ i ∈ p.vars, j = lower i ∨ j = upper i) → α.card ≤ p.totalDegree → A α)
    (h0 : 0 ≤ eval a p) : InCone K A g p := by
  classical
  rw [terms_shift a p]
  refine InCone.sum fun d hd => inCone_term (V := p.vars) hlo hhi hA (fun i hi => ?_) ?_ fun hd0 => ?_
  · refine vars_shift a p ((mem_vars_iff_mem_support i).2 ⟨d, hd, ?_⟩)
    exact (Finsupp.mem_toMultiset d i).1 hi
  · rw [Finsupp.card_toMultiset]
    exact (le_totalDegree hd).trans (totalDegree_shift_le a p)
  · rw [Finsupp.toMultiset_eq_iff.1 hd0, Multiset.toFinsupp_zero, coeff_zero_shift]
    exact h0

end GridSolve.Expansion
