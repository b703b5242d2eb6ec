/-
Polynomials whose exponents live in a machine word. `wrap w` pushes the exponents of a polynomial
through an additive map `w : ℕ →+ E` (for a word, reduction modulo its size) and lands in the
monoid algebra over `E`-valued exponents. It is a ring homomorphism, so an implementation that
multiplies with wrapping exponents is exact there, and two polynomials that are small enough for
`w` to be injective are equal as soon as their images are.
-/
import Mathlib.Algebra.MvPolynomial.Degrees
import Mathlib.Algebra.MvPolynomial.Division
import Mathlib.Algebra.MonoidAlgebra.MapDomain
import Mathlib.Tactic

namespace GridSolve.Wrap

open MvPolynomial

section

variable {σ K E : Type*} [CommSemiring K] [AddCommMonoid E] (w : ℕ →+ E)

/-- Polynomials with exponents in `E`. -/
abbrev WPoly (σ K E : Type*) [CommSemiring K] [AddCommMonoid E] := AddMonoidAlgebra K (σ →₀ E)

/-- The exponents of a polynomial pushed through `w`. -/
noncomputable def wrap : MvPolynomial σ K →+* WPoly σ K E :=
  AddMonoidAlgebra.mapDomainRingHom K (Finsupp.mapRange.addMonoidHom w)

theorem wrap_monomial (d : σ →₀ ℕ) (c : K) :
    wrap w (monomial d c) = AddMonoidAlgebra.single (Finsupp.mapRange.addMonoidHom w d) c := by
  unfold wrap
  rw [AddMonoidAlgebra.mapDomainRingHom_apply]
  exact AddMonoidAlgebra.mapDomain_single

/-- Powers of one variable agree once their exponents do. -/
theorem wrap_X_pow_congr (i : σ) {a b : ℕ} (h : w a = w b) :
    wrap w (X i ^ a : MvPolynomial σ K) = wrap w (X i ^ b) := by
  rw [X_pow_eq_monomial, X_pow_eq_monomial, wrap_monomial, wrap_monomial]
  congr 1
  simp only [Finsupp.mapRange.addMonoidHom_apply, Finsupp.mapRange_single, h]

/-- Every exponent of `p` is below `B`. -/
def Small (B : ℕ) (p : MvPolynomial σ K) : Prop := ∀ i, p.degreeOf i < B

theorem Small.add {B : ℕ} {p q : MvPolynomial σ K} (hp : Small B p) (hq : Small B q) : Small B (p + q) :=
  fun i => lt_of_le_of_lt (degreeOf_add_le i p q) (max_lt (hp i) (hq i))

theorem Small.listSum {B : ℕ} (hB : 0 < B) {l : List (MvPolynomial σ K)} (h : ∀ p ∈ l, Small B p) :
    Small B l.sum := by
  induction l with
  | nil => intro i; simpa using hB
  | cons p l ih =>
    rw [List.sum_cons]
    exact (h p (List.mem_cons_self ..)).add (ih fun q hq => h q (List.mem_cons_of_mem _ hq))

/-- The degree of a product of polynomials in one variable is at most the sum of the degrees. -/
theorem degreeOf_multiset_prod_le (i : σ) (s : Multiset (MvPolynomial σ K)) :
    s.prod.degreeOf i ≤ (s.map (degreeOf i)).sum := by
  induction s using Multiset.induction_on with
  | empty => simp
  | cons p s ih =>
    rw [Multiset.prod_cons, Multiset.map_cons, Multiset.sum_cons]
    exact (degreeOf_mul_le i p s.prod).trans (Nat.add_le_add_left ih _)

theorem injOn_mapRange {B : ℕ} (hw : Set.InjOn w {n | n < B}) :
    Set.InjOn (Finsupp.mapRange.addMonoidHom w : (σ →₀ ℕ) →+ (σ →₀ E)) {d : σ →₀ ℕ | ∀ i, d i < B} := by
  intro d hd e he hde
  ext i
  have := DFunLike.congr_fun hde i
  simp only [Finsupp.mapRange.addMonoidHom_apply, Finsupp.mapRange_apply] at this
  exact hw (hd i) (he i) this

theorem Small.support {B : ℕ} {p : MvPolynomial σ K} (hp : Small B p) :
    ((AddMonoidAlgebra.coeff p).support : Set (σ →₀ ℕ)) ⊆ {d | ∀ i, d i < B} :=
  fun _ hd i => lt_of_le_of_lt (monomial_le_degreeOf i hd) (hp i)

theorem coeff_wrap (p : MvPolynomial σ K) : AddMonoidAlgebra.coeff (wrap w p) =
    (AddMonoidAlgebra.coeff p).mapDomain (Finsupp.mapRange.addMonoidHom w) := by
  simp [wrap, AddMonoidAlgebra.mapDomainRingHom_apply]

/-- Where `w` is injective below `B`, wrapping loses nothing on small polynomials. -/
theorem wrap_injOn {B : ℕ} (hw : Set.InjOn w {n | n < B}) {p q : MvPolynomial σ K}
    (hp : Small B p) (hq : Small B q) (h : wrap w p = wrap w q) : p = q := by
  have hcoeff := Finsupp.mapDomain_injOn _ (injOn_mapRange w hw) hp.support hq.support
    (by rw [← coeff_wrap, ← coeff_wrap, h])
  exact AddMonoidAlgebra.coeff_injective hcoeff

/-- Where `w` is a reduction below `B`, a monomial of a small polynomial comes from a larger one of
every polynomial with the same image. -/
theorem exists_le_of_wrap_eq {B : ℕ} (hw : ∀ a < B, ∀ b, w a = w b → a ≤ b) {p q : MvPolynomial σ K}
    (hp : Small B p) (h : wrap w p = wrap w q) {d : σ →₀ ℕ} (hd : coeff d p ≠ 0) :
    ∃ d', coeff d' q ≠ 0 ∧ d ≤ d' := by
  classical
  have hinj : Set.InjOn w {n | n < B} := fun a ha b hb hab => le_antisymm (hw a ha b hab) (hw b hb a hab.symm)
  have hdB := hp.support (mem_support_iff.2 hd)
  have hne : (AddMonoidAlgebra.coeff q).mapDomain (Finsupp.mapRange.addMonoidHom w)
      (Finsupp.mapRange.addMonoidHom w d) ≠ 0 := by
    rw [← coeff_wrap, ← h, coeff_wrap, Finsupp.mapDomain_apply' _ _ hp.support (injOn_mapRange w hinj) hdB]
    exact hd
  obtain ⟨d', hd', he⟩ := Finset.mem_image.1 (Finsupp.mapDomain_support (Finsupp.mem_support_iff.2 hne))
  refine ⟨d', Finsupp.mem_support_iff.1 hd', fun i => hw _ (hdB i) _ ?_⟩
  simpa using DFunLike.congr_fun he.symm i

end

end GridSolve.Wrap
