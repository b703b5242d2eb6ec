/-
The translation for z3 (`print_sym` with a `sub_map`, the box of `smt_query`). The constants of a
polynomial, the powers of the substituted values and the corners of a box pass through
`std::to_string`, and the powers are those of `pow` on doubles, so the translation is exact where six
decimals are enough for all of them and the powers are doubles. Without a map it is exact only then;
with one, errors of several terms can cancel.
-/
import GridSolve.Core.Gurobi
import GridSolve.Core.Smt
import GridSolve.Lib.Binary64
import GridSolve.Poly.Coeffs
import GridSolve.Poly.Substitute
import Mathlib.Algebra.MvPolynomial.Funext

namespace GridSolve.Core

open MvPolynomial GridSolve.Poly GridSolve.Grid GridSolve.Rounding GridSolve.Specialize GridSolve.Binary64
open GridSolve.Poly.Multinomial (WF wf_node_iff coeffs exponents mapCoeffs)

/-! ## Six decimals -/

/-- The number is a multiple of `10^-6`. -/
def sixDecimals (d : ℚ) : Bool := (d * 1000000).den = 1

theorem toStringVal_eq (d : ℚ) : toStringVal d = (roundEven (d * 1000000) : ℚ) / 1000000 := by
  have hlt (r : ℚ) : r < 1 / 2 ↔ r + r < 1 := by constructor <;> intro h <;> linarith
  have heq (r : ℚ) : r = 1 / 2 ↔ r + r = 1 := by constructor <;> intro h <;> linarith
  unfold toStringVal roundEven
  simp only [hlt, heq]

/-- `std::to_string` keeps a number exactly when it has six decimals. -/
theorem toStringVal_eq_self_iff {d : ℚ} : toStringVal d = d ↔ sixDecimals d = true := by
  rw [toStringVal_eq, div_eq_iff (by norm_num), roundEven_eq_self_iff, sixDecimals, decide_eq_true_iff]
  constructor
  · rintro ⟨z, hz⟩
    rw [hz, Rat.den_intCast]
  · intro h
    exact ⟨_, ((Rat.den_eq_one_iff _).1 h).symm⟩

theorem toStringVal_neg (c : ℚ) : toStringVal (-c) = -toStringVal c := by
  rw [toStringVal_eq, toStringVal_eq, neg_mul, roundEven_neg, Int.cast_neg, neg_div]

theorem toStringVal_mono : Monotone toStringVal := by
  intro c d hcd
  rw [toStringVal_eq, toStringVal_eq]
  have := roundEven_mono (mul_le_mul_of_nonneg_right hcd (by norm_num : (0 : ℚ) ≤ 1000000))
  gcongr

/-! ## `print_sym` with values -/

/-- The value a symbol has in `sub_map`; without a map it has none. -/
def boundTo (sub : Option SubMap) (i : ℕ) : Option ℚ := sub.bind (·.lookup i)

/-- `pow` on a `double` and a natural number. The first power is the value itself; the others are rounded to
a double. -/
def pow (v : ℚ) (e : ℕ) : ℚ := if e = 1 then v else nearest (v ^ e)

/-- What one entry of a node adds to `print_sym`, `temp` the term of its coefficient. -/
def symEntry (sub : Option SubMap) (k : Symbol) (e : UInt16) (temp : Term) : Term :=
  if e = 0 then temp
  else match boundTo sub k.id with
    | none => .mul (.pw (.const k.id) e.toNat) temp
    | some v => .mul temp (realVal (pow v e.toNat))

mutual

/-- `print_sym(m, sub_map)`. -/
def printSymWith (sub : Option SubMap) : Multinomial → Term
  | .const _ c => realVal c
  | .node _ k mp => printSymWithMp sub k (.val 0) mp

/-- The loop over the entries, `ans` the sum so far. -/
def printSymWithMp (sub : Option SubMap) (k : Symbol) (ans : Term) : Entries → Term
  | [] => ans
  | (e, a) :: mp => printSymWithMp sub k (.add ans (symEntry sub k e (printSymWith sub a))) mp

end

theorem printSymWithMp_none (k : Symbol) : ∀ {mp : Entries} (ans : Term),
    (∀ x ∈ mp, printSymWith none x.2 = printSym x.2) → printSymWithMp none k ans mp = printSymMp k ans mp
  | [], _, _ => rfl
  | (e, a) :: mp, ans, h => by
    rw [List.forall_mem_cons] at h
    rw [printSymWithMp, printSymMp, printSymWithMp_none k _ h.2, h.1]
    rfl

/-- Without a map it is the `print_sym` of `smt_query`. -/
theorem printSymWith_none (m : Multinomial) : printSymWith none m = printSym m := by
  induction m with
  | const s c => rfl
  | node s k mp ih => rw [printSymWith, printSym, printSymWithMp_none k _ ih]

/-- The values of all symbols: the bound ones from the map, the others from the assignment. -/
noncomputable def valueIn (sub : Option SubMap) (x : ℕ → ℝ) (i : ℕ) : ℝ :=
  match boundTo sub i with
  | none => x i
  | some v => v

/-- The constants of the polynomial and the powers of bound values it uses have six decimals, and the
powers from the second on are doubles. -/
structure PrintsExactly (sub : Option SubMap) (m : Multinomial) : Prop where
  coeffs : ∀ c ∈ m.coeffs, sixDecimals c = true
  powers : ∀ i v, boundTo sub i = some v → ∀ e ∈ m.exponents i, sixDecimals (v ^ e.toNat) = true
  doubles : ∀ i v, boundTo sub i = some v → ∀ e ∈ m.exponents i, 1 < e.toNat → IsDouble (v ^ e.toNat)

theorem PrintsExactly.kid {sub : Option SubMap} {s : Bool} {k : Symbol} {mp : Entries}
    (h : PrintsExactly sub (.node s k mp)) {x : UInt16 × Multinomial} (hx : x ∈ mp) : PrintsExactly sub x.2 where
  coeffs c hc := h.coeffs c (by
    rw [Multinomial.coeffs, Multinomial.coeffsMp_eq]
    exact List.mem_flatMap.2 ⟨x, hx, hc⟩)
  powers i v hv e he := h.powers i v hv e ((Multinomial.exponents_of_mem (k := k) hx).2 e he)
  doubles i v hv e he := h.doubles i v hv e ((Multinomial.exponents_of_mem (k := k) hx).2 e he)

/-- A power that is a double is computed exactly. -/
theorem pow_eq {v : ℚ} {e : ℕ} (he : e ≠ 0) (h : 1 < e → IsDouble (v ^ e)) : pow v e = v ^ e := by
  unfold pow
  split_ifs with h1
  · rw [h1, pow_one]
  · exact nearest_of_isDouble (h (by omega))

theorem eval_printSymWithMp (sub : Option SubMap) (x : ℕ → ℝ) (k : Symbol) : ∀ {mp : Entries} (ans : Term),
    (∀ y ∈ mp, (symEntry sub k y.1 (printSymWith sub y.2)).eval x
      = valueIn sub x k.id ^ y.1.toNat * aeval (valueIn sub x) y.2.toMv) →
    (printSymWithMp sub k ans mp).eval x = ans.eval x + aeval (valueIn sub x) (Multinomial.toMvMp k.id mp)
  | [], ans, _ => by simp [printSymWithMp, Multinomial.toMvMp]
  | (e, a) :: mp, ans, h => by
    rw [List.forall_mem_cons] at h
    rw [printSymWithMp, eval_printSymWithMp sub x k _ h.2, Term.eval, h.1, Multinomial.toMvMp]
    simp [add_assoc]

/-- A polynomial printed exactly, with its values, is the polynomial. -/
theorem eval_printSymWith (sub : Option SubMap) (x : ℕ → ℝ) {m : Multinomial} (h : PrintsExactly sub m) :
    (printSymWith sub m).eval x = aeval (valueIn sub x) m.toMv := by
  induction m with
  | const s c =>
    have hc := toStringVal_eq_self_iff.2 (h.coeffs c List.mem_cons_self)
    simp [printSymWith, realVal, Term.eval, hc]
  | node s k mp ih =>
    rw [printSymWith, eval_printSymWithMp, Multinomial.toMv_node, Term.eval, Rat.cast_zero, zero_add]
    intro y hy
    have hkid := ih y hy (h.kid hy)
    unfold symEntry
    split_ifs with he
    · simp [he, hkid]
    · cases hb : boundTo sub k.id with
      | none => simp only [Term.eval, hkid, valueIn, hb]
      | some v =>
        have hmem := (Multinomial.exponents_of_mem (k := k) hy).1 rfl
        have hpow := pow_eq (fun h0 => he (UInt16.toNat_inj.1 h0)) (h.doubles k.id v hb y.1 hmem)
        have hval := toStringVal_eq_self_iff.2 (h.powers k.id v hb y.1 hmem)
        simp only [Term.eval, realVal, hkid, valueIn, hb, hpow, hval, Rat.cast_pow]
        ring

/-! ## When a translation is exact -/

theorem eval_printSymMp_rounded (x : ℕ → ℝ) (k : Symbol) : ∀ {mp : Entries} (ans : Term),
    (∀ y ∈ mp, (printSym y.2).eval x = aeval x (y.2.mapCoeffs toStringVal).toMv) →
    (printSymMp k ans mp).eval x = ans.eval x +
    aeval x (Multinomial.toMvMp k.id (Multinomial.mapCoeffsMp toStringVal mp))
  | [], ans, _ => by simp [printSymMp, Multinomial.mapCoeffsMp, Multinomial.toMvMp]
  | (e, a) :: mp, ans, h => by
    rw [List.forall_mem_cons] at h
    rw [printSymMp, eval_printSymMp_rounded x k _ h.2, Multinomial.mapCoeffsMp, Multinomial.toMvMp]
    by_cases he : e = 0
    · subst he
      simp [Term.eval, h.1, add_assoc]
    · simp [Term.eval, if_neg he, h.1, add_assoc]

/-- The term is always that of the polynomial with its constants rounded. -/
theorem eval_printSym_rounded (x : ℕ → ℝ) (m : Multinomial) :
    (printSym m).eval x = aeval x (m.mapCoeffs toStringVal).toMv := by
  induction m with
  | const s c => simp [printSym, realVal, Term.eval, mapCoeffs]
  | node s k mp ih =>
    rw [printSym, eval_printSymMp_rounded x k _ ih, mapCoeffs, Multinomial.toMv_node, Term.eval,
      Rat.cast_zero, zero_add]

/-- Polynomials with the same values at all real points are equal. -/
theorem toMv_eq_of_eval {p q : MvPolynomial ℕ ℚ} (h : ∀ x : ℕ → ℝ, aeval x p = aeval x q) : p = q := by
  refine map_injective (algebraMap ℚ ℝ) (algebraMap ℚ ℝ).injective (funext fun x => ?_)
  rw [eval_map, eval_map]
  exact h x

theorem printsExactly_none_iff {m : Multinomial} : PrintsExactly none m ↔ ∀ c ∈ m.coeffs, sixDecimals c = true :=
  ⟨fun h => h.coeffs, fun h => ⟨h, fun _ _ => nofun, fun _ _ => nofun⟩⟩

/-- The corners of the box have six decimals. -/
def CornersExact (coords : Coords) : Prop := ∀ c ∈ coords, sixDecimals c.1 = true ∧ sixDecimals c.2 = true

/-- The box keeps its points exactly when its corners are kept, or when it is empty and stays so. -/
theorem printedBox_eq_iff {coords : Coords} :
    (∀ x, InBox (printedBox coords) x ↔ InBox coords x) ↔
      CornersExact coords ∨ ∃ c ∈ coords, toStringVal c.2 < toStringVal c.1 := by
  constructor
  · intro h
    rw [or_iff_not_imp_right]
    intro hcross
    have hle : ∀ c ∈ coords, toStringVal c.1 ≤ toStringVal c.2 := fun c hc => not_lt.1 fun hlt => hcross ⟨c, hc, hlt⟩
    have hin : ∀ (i : ℕ) (c : ℚ × ℚ), coords[i]? = some c →
        c.1 ≤ toStringVal c.1 ∧ toStringVal c.2 ≤ c.2 := fun i c hc =>
      corners_of_subset (List.forall_mem_map.2 hle) (fun x => (h x).1) (getElem?_printedBox_of hc) hc
    have hv : ∀ c ∈ coords, c.1 ≤ c.2 := by
      intro c hc
      obtain ⟨i, hi⟩ := List.mem_iff_getElem?.1 hc
      exact (hin i c hi).1.trans ((hle c hc).trans (hin i c hi).2)
    intro c hc
    obtain ⟨i, hi⟩ := List.mem_iff_getElem?.1 hc
    have hout := corners_of_subset hv (fun x => (h x).2) hi (getElem?_printedBox_of hi)
    exact ⟨toStringVal_eq_self_iff.1 (le_antisymm hout.1 (hin i c hi).1),
      toStringVal_eq_self_iff.1 (le_antisymm (hin i c hi).2 hout.2)⟩
  · rintro (h | ⟨c, hc, hlt⟩) x
    · have heq : printedBox coords = coords := by
        rw [printedBox, List.map_congr_left fun c hc => by
          rw [toStringVal_eq_self_iff.2 (h c hc).1, toStringVal_eq_self_iff.2 (h c hc).2], List.map_id']
      rw [heq]
    · obtain ⟨j, hj⟩ := List.mem_iff_getElem?.1 hc
      have hp := getElem?_printedBox_of hj
      refine iff_of_false (fun hx => ?_) fun hx => ?_
      · have := (hx j _ hp).1.trans (hx j _ hp).2
        exact absurd (Rat.cast_le.1 this) (not_le.2 hlt)
      · have := (hx j c hj).1.trans (hx j c hj).2
        exact absurd (toStringVal_mono (Rat.cast_le.1 this)) (not_le.2 hlt)

/-- **The translation for z3 is exact** where six decimals are enough: for the constants of a
polynomial, for the powers of the substituted values it uses, which have to be doubles, and for the
corners of a box. Without a map this is also necessary for a well-formed polynomial, and for a box unless its printed
corners cross. -/
theorem z3_translation_exact (sub : Option SubMap) (m : Multinomial) (coords : Coords) :
    (PrintsExactly sub m → ∀ x, (printSymWith sub m).eval x = aeval (valueIn sub x) m.toMv) ∧
    (∀ (S : Symbol → Prop) (b : ℕ), WF S b m →
      ((∀ x, (printSymWith none m).eval x = aeval x m.toMv) ↔ PrintsExactly none m)) ∧
    ((∀ x, (∀ t ∈ (coords.mapIdx boundTerms).flatten, 0 ≤ t.eval x) ↔ InBox coords x) ↔
      CornersExact coords ∨ ∃ c ∈ coords, toStringVal c.2 < toStringVal c.1) := by
  refine ⟨fun h x => eval_printSymWith sub x h, fun S b hm => ⟨fun h => ?_, fun h x => ?_⟩, ?_⟩
  · rw [printsExactly_none_iff]
    simp only [printSymWith_none, eval_printSym_rounded] at h
    exact fun c hc => toStringVal_eq_self_iff.1 (Multinomial.coeffs_fixed hm (toMv_eq_of_eval h) c hc)
  · exact eval_printSymWith none x h
  · simp only [forall_mapIdx_boundTerms]
    exact printedBox_eq_iff

/-- `x^2`. -/
def square : Multinomial := .node true ⟨0, false⟩ [(0, .const true 0), (2, .const true 1)]

theorem square_exponents {i : ℕ} {v : ℚ} (hv : boundTo (some [(0, 1 / 2)]) i = some v) {e : UInt16}
    (he : e ∈ square.exponents i) : v = 1 / 2 ∧ (e = 0 ∨ e = 2) := by
  simp only [square, exponents, Multinomial.exponentsMp] at he
  split_ifs at he with hi
  · subst hi
    exact ⟨by simpa [boundTo] using hv.symm, by simpa using he⟩
  · simp at he

theorem square_printsExactly : PrintsExactly (some [(0, 1 / 2)]) square where
  coeffs := by decide +kernel
  powers i v hv e he := by
    obtain ⟨rfl, rfl | rfl⟩ := square_exponents hv he <;> decide +kernel
  doubles i v hv e he := by
    obtain ⟨rfl, rfl | rfl⟩ := square_exponents hv he
    · exact fun h => absurd h (by decide)
    · exact fun _ => ⟨1, -2, by norm_num, by norm_num, by norm_num, by norm_num [show UInt16.toNat 2 = 2 from rfl]⟩

theorem z3_translation_exact_square :
    (printSymWith (some [(0, 1 / 2)]) square).eval (fun _ => 0) = 1 / 4 := by
  rw [(z3_translation_exact (some [(0, 1 / 2)]) square []).1 square_printsExactly]
  norm_num [square, Multinomial.toMv_node, Multinomial.toMvMp, valueIn, boundTo, show UInt16.toNat 2 = 2 from rfl]

/-- `2^-24` is printed as `0.000000`: as a polynomial and as the corner of a box. -/
theorem z3_translation_rounds :
    (printSymWith none (.const true (1 / 16777216))).eval (fun _ => 0) ≠
      aeval (fun _ => (0 : ℝ)) (Multinomial.const true (1 / 16777216)).toMv ∧
    (∀ t ∈ (([(1 / 16777216, 1)] : Coords).mapIdx boundTerms).flatten, 0 ≤ t.eval fun _ => 0) ∧
    ¬ InBox [(1 / 16777216, 1)] fun _ => 0 := by
  have hval : toStringVal (1 / 16777216) = 0 := by decide +kernel
  have hone : toStringVal 1 = 1 := by decide +kernel
  refine ⟨?_, ?_, ?_⟩
  · norm_num [printSymWith, realVal, Term.eval, hval]
  · rw [forall_mapIdx_boundTerms, printedBox, List.map_singleton, hval, hone, inBox_singleton]
    norm_num
  · rw [inBox_singleton]
    norm_num

end GridSolve.Core
