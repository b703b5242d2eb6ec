/-
Partial evaluation of polynomials. `specialize T v` puts the values `v` for the variables in `T`
and keeps the others. A polynomial written by powers of one variable vanishes exactly when each of
its coefficients does, so a partially evaluated polynomial can be tested for zero one variable at a
time. `AtMost T n` bounds the degree in the variables of `T` alone.
-/
import Mathlib.Algebra.MvPolynomial.Monad
import Mathlib.Algebra.MvPolynomial.Degrees
import Mathlib.Algebra.MvPolynomial.Division
import Mathlib.Algebra.MvPolynomial.Funext
import Mathlib.Data.Finsupp.Weight
import Mathlib.Tactic

namespace GridSolve.Specialize

open MvPolynomial

variable {ι F K : Type*} [CommRing F] [CommRing K] [Algebra F K]

/-! ## Values for some of the variables -/

/-- The polynomial with the values `v` for the variables in `T`, over the ring of the values. -/
noncomputable def specialize (T : ι → Prop) [DecidablePred T] (v : ι → K) :
    MvPolynomial ι F →+* MvPolynomial ι K :=
  eval₂Hom (C.comp (algebraMap F K)) fun i => if T i then C (v i) else X i

section

variable (T : ι → Prop) [DecidablePred T] (v : ι → K)

@[simp] theorem specialize_C (c : F) : specialize T v (C c) = C (algebraMap F K c) := by simp [specialize]

theorem specialize_X_pos {i : ι} (h : T i) : specialize T v (X i : MvPolynomial ι F) = C (v i) := by
  simp [specialize, h]

theorem specialize_X_neg {i : ι} (h : ¬ T i) : specialize T v (X i : MvPolynomial ι F) = X i := by
  simp [specialize, h]

/-- Evaluating what is left evaluates the whole polynomial. -/
theorem aeval_specialize (x : ι → K) (p : MvPolynomial ι F) :
    aeval x (specialize T v p) = aeval (fun i => if T i then v i else x i) p := by
  have h : ((aeval x : MvPolynomial ι K →ₐ[K] K) : MvPolynomial ι K →+* K).comp (specialize T v) =
      ((aeval fun i => if T i then v i else x i : MvPolynomial ι F →ₐ[F] K) : MvPolynomial ι F →+* K) := by
    refine ringHom_ext (fun c => by simp) fun i => ?_
    by_cases hi : T i
    · simp [specialize_X_pos T v hi, hi]
    · simp [specialize_X_neg T v hi, hi]
  exact DFunLike.congr_fun h p

/-- A polynomial in the variables of `T` only is left with its value. -/
theorem specialize_of_vars {p : MvPolynomial ι F} (h : ∀ i ∈ p.vars, T i) :
    specialize T v p = C (aeval v p) := by
  have h' : specialize T v p = eval₂Hom (C.comp (algebraMap F K)) (fun i => C (v i)) p :=
    eval₂Hom_congr' rfl (fun i hi _ => by simp [h i hi]) rfl
  rw [h']
  have : eval₂Hom (C.comp (algebraMap F K)) (fun i => C (v i)) =
      (C : K →+* MvPolynomial ι K).comp ((aeval v : MvPolynomial ι F →ₐ[F] K) : MvPolynomial ι F →+* K) :=
    ringHom_ext (fun c => by simp) fun i => by simp
  rw [this]; rfl

/-- The values of the variables that do not occur do not matter. -/
theorem specialize_congr {v' : ι → K} {p : MvPolynomial ι F} (h : ∀ i ∈ p.vars, T i → v i = v' i) :
    specialize T v p = specialize T v' p :=
  eval₂Hom_congr' rfl (fun i hi _ => by
    by_cases ht : T i
    · simp [ht, h i hi ht]
    · simp [ht]) rfl

/-- The variables that are left. -/
theorem vars_specialize {i : ι} {p : MvPolynomial ι F} (h : i ∈ (specialize T v p).vars) : i ∈ p.vars ∧ ¬ T i := by
  classical
  have hs : specialize T v p = bind₁ (fun j => if T j then C (v j) else X j) (map (algebraMap F K) p) := by
    rw [specialize, coe_eval₂Hom, bind₁, aeval_map_algebraMap]
    rfl
  obtain ⟨j, hj, hij⟩ := Finset.mem_biUnion.1 (vars_bind₁ _ _ (hs ▸ h))
  by_cases ht : T j
  · simp [ht] at hij
  · rw [if_neg ht] at hij
    rcases subsingleton_or_nontrivial K with _ | _
    · rw [Subsingleton.elim (X j : MvPolynomial ι K) 0] at hij; simp at hij
    · rw [vars_X, Finset.mem_singleton] at hij
      exact hij ▸ ⟨vars_map (f := algebraMap F K) (p := p) hj, ht⟩

/-- Partial evaluation brings in no variable. -/
theorem degreeOf_specialize {i : ι} {p : MvPolynomial ι F} (h : p.degreeOf i = 0) :
    (specialize T v p).degreeOf i = 0 := by
  by_contra hne
  exact mem_vars_iff_degreeOf_ne_zero.1 (vars_specialize T v (mem_vars_iff_degreeOf_ne_zero.2 hne)).1 h

end

/-- Two choices of values for the variables outside of `T` give the same exactly when there are none. -/
theorem eval_ite_eq_iff [IsDomain K] [Infinite K] {T : ι → Prop} [DecidablePred T] {p : MvPolynomial ι K} :
    (∀ v w : ι → K, eval (fun i => if T i then w i else v i) p = eval w p) ↔ ∀ i ∈ p.vars, T i := by
  constructor
  · intro h i hi
    -- with zero for the variables outside of `T` the polynomial is the same
    have hself : specialize (fun i => ¬ T i) (0 : ι → K) p = p := funext fun w => by
      have heval := aeval_specialize (fun i => ¬ T i) (0 : ι → K) w p
      simp only [ite_not] at heval
      exact heval.trans (h 0 w)
    rw [← hself] at hi
    exact not_not.1 (vars_specialize _ _ hi).2
  · intro h v w
    exact eval₂Hom_congr' rfl (fun i hi _ => if_pos (h i hi)) rfl

/-! ## Powers of one variable -/

variable {i : ι} {l : List (ℕ × MvPolynomial ι K)}

/-- The polynomial with the coefficients `l` by powers of `i`. -/
noncomputable def byPowers (i : ι) (l : List (ℕ × MvPolynomial ι K)) : MvPolynomial ι K :=
  (l.map fun x => X i ^ x.1 * x.2).sum

theorem coeff_of_degreeOf_eq_zero {p : MvPolynomial ι K} (h : p.degreeOf i = 0) {d : ι →₀ ℕ} (hd : d i ≠ 0) :
    coeff d p = 0 := by
  by_contra hc
  exact hd (Nat.le_zero.1 (h ▸ monomial_le_degreeOf i (mem_support_iff.2 hc)))

/-- A term has the monomials of its coefficient, with its own power of `i`. -/
theorem coeff_X_pow_mul_of_degreeOf {q : MvPolynomial ι K} (hq : q.degreeOf i = 0) (e : ℕ) (d : ι →₀ ℕ) :
    coeff d (X i ^ e * q) = if d i = e then coeff (d.erase i) q else 0 := by
  classical
  rw [X_pow_eq_monomial, coeff_monomial_mul', one_mul]
  by_cases he : d i = e
  · have herase : d - Finsupp.single i e = d.erase i := by
      conv_lhs => rw [← Finsupp.erase_add_single i d, he]
      exact add_tsub_cancel_right _ _
    rw [if_pos he, herase, if_pos (Finsupp.single_le_iff.2 he.ge)]
  · rw [if_neg he]
    split_ifs with hle
    · -- a larger power of `i` is left over for the coefficient
      have hlt : e < d i := lt_of_le_of_ne (Finsupp.single_le_iff.1 hle) (Ne.symm he)
      refine coeff_of_degreeOf_eq_zero hq ?_
      rw [Finsupp.tsub_apply, Finsupp.single_eq_same]
      exact Nat.sub_ne_zero_of_lt hlt
    · rfl

theorem coeff_byPowers_eq_sum (hf : ∀ x ∈ l, x.2.degreeOf i = 0) (d : ι →₀ ℕ) :
    coeff d (byPowers i l) = (l.map fun x => if d i = x.1 then coeff (d.erase i) x.2 else 0).sum := by
  change coeffAddMonoidHom d (byPowers i l) = _
  rw [byPowers, map_list_sum, List.map_map]
  exact congrArg List.sum (List.map_congr_left fun x hx => coeff_X_pow_mul_of_degreeOf (hf x hx) x.1 d)

/-- In a sum over different keys at most one term belongs to a key. -/
theorem sum_ite_fst_eq {α : Type*} {f : α → K} {e : ℕ} {a : α} : ∀ {l : List (ℕ × α)}, (l.map Prod.fst).Nodup →
    (e, a) ∈ l → (l.map fun x => if e = x.1 then f x.2 else 0).sum = f a
  | y :: l, hn, hx => by
    obtain ⟨hy, hn⟩ := List.nodup_cons.1 hn
    rw [List.map_cons, List.sum_cons]
    rcases List.mem_cons.1 hx with rfl | hx
    · have hrest : (l.map fun x => if e = x.1 then f x.2 else 0).sum = 0 := by
        refine List.sum_eq_zero fun c hc => ?_
        obtain ⟨x, hxl, rfl⟩ := List.mem_map.1 hc
        refine if_neg ?_
        rintro rfl
        exact hy (List.mem_map.2 ⟨x, hxl, rfl⟩)
      rw [if_pos rfl, hrest, add_zero]
    · have hne : e ≠ y.1 := by
        rintro rfl
        exact hy (List.mem_map.2 ⟨_, hx, rfl⟩)
      rw [if_neg hne, zero_add, sum_ite_fst_eq hn hx]

/-- The coefficients can be read off when none of them contains `i`. -/
theorem coeff_byPowers (hn : (l.map Prod.fst).Nodup) (hf : ∀ x ∈ l, x.2.degreeOf i = 0)
    {e : ℕ} {p : MvPolynomial ι K} (hx : (e, p) ∈ l) {d : ι →₀ ℕ} (hd : d i = 0) :
    coeff (d + Finsupp.single i e) (byPowers i l) = coeff d p := by
  classical
  have hi : (d + Finsupp.single i e) i = e := by rw [Finsupp.add_apply, hd, Finsupp.single_eq_same, zero_add]
  have herase : (d + Finsupp.single i e).erase i = d := by
    rw [Finsupp.erase_add, Finsupp.erase_single, add_zero,
      Finsupp.erase_of_notMem_support (Finsupp.notMem_support_iff.2 hd)]
  rw [coeff_byPowers_eq_sum hf, hi, herase]
  exact sum_ite_fst_eq hn hx

/-- The monomials are those of the coefficients, each with the power it stands at. -/
theorem coeff_byPowers_ne_zero_iff (hn : (l.map Prod.fst).Nodup) (hf : ∀ x ∈ l, x.2.degreeOf i = 0) {d : ι →₀ ℕ} :
    coeff d (byPowers i l) ≠ 0 ↔ ∃ x ∈ l, d i = x.1 ∧ coeff (d.erase i) x.2 ≠ 0 := by
  rw [coeff_byPowers_eq_sum hf]
  constructor
  · intro h
    by_contra hall
    push Not at hall
    -- no term of the sum has the monomial
    refine h (List.sum_eq_zero fun c hc => ?_)
    obtain ⟨x, hx, rfl⟩ := List.mem_map.1 hc
    by_cases he : d i = x.1
    · rw [if_pos he, hall x hx he]
    · rw [if_neg he]
  · rintro ⟨⟨e, p⟩, hx, hdi, hc⟩
    rwa [hdi, sum_ite_fst_eq hn hx]

theorem byPowers_eq_zero_iff (hn : (l.map Prod.fst).Nodup) (hf : ∀ x ∈ l, x.2.degreeOf i = 0) :
    byPowers i l = 0 ↔ ∀ x ∈ l, x.2 = 0 := by
  constructor
  · intro h x hx
    ext d
    rw [coeff_zero]
    by_cases hd : d i = 0
    · rw [← coeff_byPowers hn hf hx hd, h, coeff_zero]
    · exact coeff_of_degreeOf_eq_zero (hf x hx) hd
  · intro h
    refine List.sum_eq_zero fun p hp => ?_
    obtain ⟨x, hx, rfl⟩ := List.mem_map.1 hp
    rw [h x hx, mul_zero]

/-! ## The degree in some of the variables -/

section

variable (T : ι → Prop) [DecidablePred T]

/-- The degree of a monomial in the variables of `T`. -/
noncomputable def degIn : (ι →₀ ℕ) →+ ℕ := Finsupp.weight fun i => if T i then 1 else 0

theorem degIn_single (i : ι) (n : ℕ) : degIn T (Finsupp.single i n) = if T i then n else 0 := by
  unfold degIn
  rw [Finsupp.weight_single]
  split_ifs <;> simp

theorem degIn_mono {d e : ι →₀ ℕ} (h : d ≤ e) : degIn T d ≤ degIn T e := by
  obtain ⟨f, rfl⟩ := exists_add_of_le h
  rw [map_add]
  exact Nat.le_add_right _ _

/-- Every monomial of `p` has degree at most `n` in the variables of `T`. -/
def AtMost (n : ℕ) (p : MvPolynomial ι K) : Prop := ∀ d, coeff d p ≠ 0 → degIn T d ≤ n

variable {T} {m n : ℕ} {p q : MvPolynomial ι K}

theorem AtMost.mono (h : AtMost T m p) (hmn : m ≤ n) : AtMost T n p := fun d hd => (h d hd).trans hmn

theorem atMost_zero : AtMost T n (0 : MvPolynomial ι K) := fun d hd => absurd (coeff_zero d) hd

theorem atMost_C (c : K) : AtMost T n (C c) := by
  classical
  intro d hd
  rw [coeff_C] at hd
  split_ifs at hd with h
  · rw [← h, map_zero]; exact Nat.zero_le _
  · exact absurd rfl hd

theorem atMost_X_pos (i : ι) : AtMost T 1 (X i : MvPolynomial ι K) := by
  classical
  intro d hd
  rw [coeff_X] at hd
  split_ifs at hd with h
  · rw [← h, degIn_single]; split_ifs <;> omega
  · exact absurd rfl hd

theorem AtMost.add (hp : AtMost T n p) (hq : AtMost T n q) : AtMost T n (p + q) := by
  intro d hd
  by_contra hlt
  have h1 : coeff d p = 0 := by by_contra h; exact hlt (hp d h)
  have h2 : coeff d q = 0 := by by_contra h; exact hlt (hq d h)
  exact hd (by rw [coeff_add, h1, h2, add_zero])

theorem AtMost.neg (hp : AtMost T n p) : AtMost T n (-p) := fun d hd =>
  hp d fun h => hd (by rw [coeff_neg, h, neg_zero])

/-- A polynomial with none of the variables of `T`. -/
theorem atMost_of_vars (h : ∀ i ∈ p.vars, ¬ T i) : AtMost T 0 p := by
  intro d hd
  rw [degIn, Finsupp.weight_apply, Finsupp.sum, Finset.sum_eq_zero]
  intro i hi
  rw [if_neg (h i ((mem_vars_iff_mem_support i).2 ⟨d, mem_support_iff.2 hd, hi⟩)), smul_zero]

theorem AtMost.mul (hp : AtMost T m p) (hq : AtMost T n q) : AtMost T (m + n) (p * q) := by
  classical
  intro d hd
  rw [coeff_mul] at hd
  obtain ⟨x, hx, hne⟩ := Finset.exists_ne_zero_of_sum_ne_zero hd
  rw [← Finset.HasAntidiagonal.mem_antidiagonal.1 hx, map_add]
  exact Nat.add_le_add (hp _ (left_ne_zero_of_mul hne)) (hq _ (right_ne_zero_of_mul hne))

theorem AtMost.listSum {l : List (MvPolynomial ι K)} (h : ∀ p ∈ l, AtMost T n p) : AtMost T n l.sum := by
  induction l with
  | nil => exact atMost_zero
  | cons p l ih =>
    rw [List.sum_cons]
    exact (h p (List.mem_cons_self ..)).add (ih fun q hq => h q (List.mem_cons_of_mem _ hq))

theorem AtMost.multisetProd {s : Multiset (MvPolynomial ι K)} (h : ∀ p ∈ s, AtMost T 0 p) :
    AtMost T 0 s.prod := by
  induction s using Multiset.induction_on with
  | empty => exact atMost_C (T := T) (n := 0) (1 : K)
  | cons p s ih =>
    rw [Multiset.prod_cons]
    exact (h p (Multiset.mem_cons_self ..)).mul (ih fun q hq => h q (Multiset.mem_cons_of_mem hq))

/-- The coefficients by powers of `i` lose the degree that `i` has. -/
theorem AtMost.of_byPowers (hn : (l.map Prod.fst).Nodup) (hf : ∀ x ∈ l, x.2.degreeOf i = 0)
    (h : AtMost T n (byPowers i l)) {e : ℕ} {p : MvPolynomial ι K} (hx : (e, p) ∈ l) {d : ι →₀ ℕ}
    (hd : coeff d p ≠ 0) : degIn T d + (if T i then e else 0) ≤ n := by
  have hdi : d i = 0 := by
    by_contra hne
    exact hd (coeff_of_degreeOf_eq_zero (hf _ hx) hne)
  have := h (d + Finsupp.single i e) (by rw [coeff_byPowers hn hf hx hdi]; exact hd)
  rwa [map_add, degIn_single] at this

end

end GridSolve.Specialize
