/-
`solver::smt_query` and `solver::print_sym` (`solver.hpp`): the query to z3 whether a box contains a
point at which all polynomials are non-negative. Bounds and coefficients go through
`std::to_string`, which keeps six decimals; where that loses nothing the terms have the values of
the polynomials. An answer `unknown` is read as `unsat`.
-/
import GridSolve.Grid.Box
import GridSolve.Poly.Denote

namespace GridSolve.Core

open MvPolynomial GridSolve.Poly GridSolve.Grid

/-! ## Terms -/

/-- A number as `std::to_string` prints it: six decimals, halves to the even digit. -/
def toStringVal (d : ℚ) : ℚ :=
  let f := ⌊d * 1000000⌋
  let r := d * 1000000 - f
  ((if r < 1 / 2 ∨ (r = 1 / 2 ∧ f % 2 = 0) then f else f + 1 : ℤ) : ℚ) / 1000000

theorem toStringVal_intCast (z : ℤ) : toStringVal z = z := by
  have hfloor : ⌊(z : ℚ) * 1000000⌋ = z * 1000000 := by
    rw [show (z : ℚ) * 1000000 = ((z * 1000000 : ℤ) : ℚ) by push_cast; ring, Int.floor_intCast]
  simp [toStringVal, hfloor]

/-- A real term, `z3::expr`. -/
inductive Term
  | val (c : ℚ)
  | const (i : ℕ)
  | add (s t : Term)
  | sub (s t : Term)
  | mul (s t : Term)
  | pw (t : Term) (k : ℕ)
  deriving DecidableEq, Repr

/-- The value of a term, `x i` the value of the constant `e[i]`. -/
noncomputable def Term.eval (x : ℕ → ℝ) : Term → ℝ
  | .val c => c
  | .const i => x i
  | .add s t => s.eval x + t.eval x
  | .sub s t => s.eval x - t.eval x
  | .mul s t => s.eval x * t.eval x
  | .pw t k => t.eval x ^ k

/-- `real_val(std::to_string(d))`. -/
def realVal (d : ℚ) : Term := .val (toStringVal d)

mutual

/-- `print_sym`. -/
def printSym : Multinomial → Term
  | .const _ c => realVal c
  | .node _ k mp => printSymMp k (.val 0) mp

/-- The loop over the entries, `ans` the sum so far. -/
def printSymMp (k : Symbol) (ans : Term) : Entries → Term
  | [] => ans
  | (e, a) :: mp =>
    printSymMp k (.add ans (if e = 0 then printSym a else .mul (.pw (.const k.id) e.toNat) (printSym a))) mp

end

/-! ## Queries -/

/-- `z3::check_result`. -/
inductive CheckResult
  | sat
  | unsat
  | unknown
  deriving DecidableEq, Repr

/-- The bounds of coordinate `i`, as terms to be non-negative. -/
def boundTerms (i : ℕ) (c : ℚ × ℚ) : List Term :=
  [.sub (.const i) (realVal c.1), .add (.mul (.val (-1)) (.const i)) (realVal c.2)]

/-- What `smt_query` asserts to be non-negative. -/
def queryTerms (eCheck : List Multinomial) (coords : Coords) : List Term :=
  (coords.mapIdx boundTerms).flatten ++ eCheck.map printSym

/-- `smt_query`, `check k` what z3 answers to the `k`-th call. -/
def smtQuery (check : ℕ → List Term → CheckResult) (eCheck : List Multinomial) (k : ℕ) (coords : Coords) : Bool :=
  match check k (queryTerms eCheck coords) with
  | .sat => true
  | .unsat => false
  | .unknown => false

/-- There is a point at which all terms are non-negative. -/
def Satisfiable (ts : List Term) : Prop := ∃ x, ∀ t ∈ ts, 0 ≤ t.eval x

/-- The answers `sat` and `unsat` are right. -/
structure CheckSound (check : ℕ → List Term → CheckResult) : Prop where
  sat : ∀ k ts, check k ts = .sat → Satisfiable ts
  unsat : ∀ k ts, check k ts = .unsat → ¬ Satisfiable ts

/-! ## Exact printing -/

mutual

/-- Six decimals are enough for every coefficient. -/
def printsExactly : Multinomial → Bool
  | .const _ c => toStringVal c = c
  | .node _ _ mp => printsExactlyMp mp

def printsExactlyMp : Entries → Bool
  | [] => true
  | (_, a) :: mp => printsExactly a && printsExactlyMp mp

end

theorem printsExactly_of_mem : ∀ {mp : Entries}, printsExactlyMp mp = true → ∀ y ∈ mp, printsExactly y.2 = true
  | [], _ => by simp
  | y :: mp, h => by
    rw [printsExactlyMp, Bool.and_eq_true] at h
    rw [List.forall_mem_cons]
    exact ⟨h.1, printsExactly_of_mem h.2⟩

theorem eval_printSymMp (x : ℕ → ℝ) (k : Symbol) : ∀ {mp : Entries} (ans : Term),
    (∀ y ∈ mp, (printSym y.2).eval x = aeval x y.2.toMv) →
    (printSymMp k ans mp).eval x = ans.eval x + aeval x (Multinomial.toMvMp k.id mp)
  | [], ans, _ => by simp [printSymMp, Multinomial.toMvMp]
  | (e, a) :: mp, ans, h => by
    rw [List.forall_mem_cons] at h
    rw [printSymMp, eval_printSymMp x k _ h.2, Multinomial.toMvMp]
    by_cases he : e = 0
    · subst he
      simp [Term.eval, h.1, add_assoc]
    · simp [Term.eval, if_neg he, h.1, add_assoc]

/-- A polynomial printed exactly is the polynomial. -/
theorem eval_printSym (x : ℕ → ℝ) {m : Multinomial} (h : printsExactly m = true) :
    (printSym m).eval x = aeval x m.toMv := by
  induction m with
  | const s c =>
    have hc : toStringVal c = c := of_decide_eq_true h
    simp [printSym, realVal, Term.eval, hc]
  | node s k mp ih =>
    rw [printSym, eval_printSymMp x k _ fun y hy => ih y hy (printsExactly_of_mem h y hy), Multinomial.toMv_node]
    simp [Term.eval]

/-- The corners of the box are printed exactly. -/
def BoundsExact (coords : Coords) : Prop := ∀ c ∈ coords, toStringVal c.1 = c.1 ∧ toStringVal c.2 = c.2

/-- The box as `smt_query` writes it. -/
def printedBox (coords : Coords) : Coords := coords.map fun c => (toStringVal c.1, toStringVal c.2)

theorem getElem?_printedBox (coords : Coords) (i : ℕ) :
    (printedBox coords)[i]? = coords[i]?.map fun c => (toStringVal c.1, toStringVal c.2) := List.getElem?_map

theorem getElem?_printedBox_of {coords : Coords} {i : ℕ} {c : ℚ × ℚ} (h : coords[i]? = some c) :
    (printedBox coords)[i]? = some (toStringVal c.1, toStringVal c.2) := by
  rw [getElem?_printedBox, h, Option.map_some]

theorem forall_mapIdx_boundTerms {coords : Coords} {x : ℕ → ℝ} :
    (∀ t ∈ (coords.mapIdx boundTerms).flatten, 0 ≤ t.eval x) ↔ InBox (printedBox coords) x := by
  have hside : ∀ (i : ℕ) (c : ℚ × ℚ), (∀ t ∈ boundTerms i c, 0 ≤ t.eval x) ↔
      (toStringVal c.1 : ℝ) ≤ x i ∧ x i ≤ toStringVal c.2 := by
    intro i c
    simp only [boundTerms, List.forall_mem_cons, realVal, Term.eval, List.not_mem_nil, false_imp_iff, implies_true,
      and_true, sub_nonneg, Rat.cast_neg, Rat.cast_one, neg_one_mul, neg_add_eq_sub]
  simp only [List.mem_flatten, List.mem_mapIdx, forall_exists_index, and_imp]
  constructor
  · intro h i c' hc
    rw [getElem?_printedBox, Option.map_eq_some_iff] at hc
    obtain ⟨c, hc, rfl⟩ := hc
    obtain ⟨hi, rfl⟩ := List.getElem?_eq_some_iff.1 hc
    exact (hside i _).1 fun t ht => h t _ i hi rfl ht
  · rintro h t _ i hi rfl ht
    exact (hside i _).2 (h i _ (getElem?_printedBox_of (List.getElem?_eq_getElem hi))) t ht

theorem printedBox_of_exact {coords : Coords} (h : BoundsExact coords) : printedBox coords = coords := by
  have hid : coords.map (fun c => (toStringVal c.1, toStringVal c.2)) = coords.map id :=
    List.map_congr_left fun c hc => Prod.ext (h c hc).1 (h c hc).2
  rw [printedBox, hid, List.map_id]

/-- What an exact query asks. -/
theorem forall_queryTerms {eCheck : List Multinomial} {coords : Coords} (hbounds : BoundsExact coords)
    (hpoly : ∀ p ∈ eCheck, printsExactly p = true) (x : ℕ → ℝ) :
    (∀ t ∈ queryTerms eCheck coords, 0 ≤ t.eval x) ↔ InBox coords x ∧ ∀ p ∈ eCheck, 0 ≤ aeval x p.toMv := by
  have hprint : (∀ t ∈ eCheck.map printSym, 0 ≤ t.eval x) ↔ ∀ p ∈ eCheck, 0 ≤ aeval x p.toMv := by
    rw [List.forall_mem_map]
    exact forall₂_congr fun p hp => by rw [eval_printSym x (hpoly p hp)]
  rw [queryTerms, List.forall_mem_append, forall_mapIdx_boundTerms, printedBox_of_exact hbounds, hprint]

section

variable {check : ℕ → List Term → CheckResult} {eCheck : List Multinomial} {coords : Coords} {k : ℕ}

/-- A box that passes the query contains a solution. -/
theorem solution_of_smtQuery (hcheck : CheckSound check) (hbounds : BoundsExact coords)
    (hpoly : ∀ p ∈ eCheck, printsExactly p = true) (h : smtQuery check eCheck k coords = true) :
    ∃ x, InBox coords x ∧ ∀ p ∈ eCheck, 0 ≤ aeval x p.toMv := by
  unfold smtQuery at h
  cases hres : check k (queryTerms eCheck coords) with
  | sat =>
    obtain ⟨x, hx⟩ := hcheck.sat k _ hres
    exact ⟨x, (forall_queryTerms hbounds hpoly x).1 hx⟩
  | unsat => rw [hres] at h; cases h
  | unknown => rw [hres] at h; cases h

/-- A box that contains a solution passes the query unless z3 gives up. -/
theorem smtQuery_of_solution (hcheck : CheckSound check) (hbounds : BoundsExact coords)
    (hpoly : ∀ p ∈ eCheck, printsExactly p = true) (hknown : check k (queryTerms eCheck coords) ≠ .unknown)
    {x : ℕ → ℝ} (hx : InBox coords x) (hsol : ∀ p ∈ eCheck, 0 ≤ aeval x p.toMv) :
    smtQuery check eCheck k coords = true := by
  have hsat : Satisfiable (queryTerms eCheck coords) := ⟨x, (forall_queryTerms hbounds hpoly x).2 ⟨hx, hsol⟩⟩
  unfold smtQuery
  cases hres : check k (queryTerms eCheck coords) with
  | sat => rfl
  | unsat => exact absurd hsat (hcheck.unsat k _ hres)
  | unknown => exact absurd hres hknown

end

end GridSolve.Core
