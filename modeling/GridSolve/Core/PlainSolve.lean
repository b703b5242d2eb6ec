/-
The plain path to z3. `plain_solve` (`handelman_core.cpp`) builds no certificate: for every right-hand
side it keeps the formula that says the left-hand sides imply it, for all program variables. With the
templates of the bounds pinned to the corners of a box, the formulas decide the box.
-/
import GridSolve.Core.Backends
import GridSolve.Core.Variables
import GridSolve.Core.Verdict

namespace GridSolve.Core

open MvPolynomial Handelman GridSolve.Poly GridSolve.Grid GridSolve.Specialize
open GridSolve.Poly.Multinomial (WF mapCoeffs toMv_congr)
open GridSolve.Trace (bind_ok)

/-! ## Formulas with quantifiers -/

/-- A formula of z3. -/
inductive Quantified
  | eq (t : Term)
  | ge (t : Term)
  | and (f g : Quantified)
  | implies (f g : Quantified)
  | all (i : ℕ) (f : Quantified)
  deriving DecidableEq, Repr

/-- `Z3_substitute` of the constants in the map by the numbers printed for them. -/
def Term.subst (m : SubMap) : Term → Term
  | .val c => .val c
  | .const i => ((m.lookup i).map realVal).getD (.const i)
  | .add s t => .add (s.subst m) (t.subst m)
  | .sub s t => .sub (s.subst m) (t.subst m)
  | .mul s t => .mul (s.subst m) (t.subst m)
  | .pw t k => .pw (t.subst m) k

namespace Quantified

/-- The truth of a formula, `x i` the value of the constant `e[i]`. -/
def Holds (x : ℕ → ℝ) : Quantified → Prop
  | .eq t => t.eval x = 0
  | .ge t => 0 ≤ t.eval x
  | .and f g => f.Holds x ∧ g.Holds x
  | .implies f g => f.Holds x → g.Holds x
  | .all i f => ∀ r, f.Holds (Function.update x i r)

/-- `Z3_substitute`; what `z3::forall` has bound is no constant any more. -/
def subst (m : SubMap) : Quantified → Quantified
  | .eq t => .eq (t.subst m)
  | .ge t => .ge (t.subst m)
  | .and f g => .and (f.subst m) (g.subst m)
  | .implies f g => .implies (f.subst m) (g.subst m)
  | .all i f => .all i (f.subst (m.filter fun e => e.1 ≠ i))

end Quantified

/-- The values after a substitution. -/
noncomputable def substitutedValue (m : SubMap) (x : ℕ → ℝ) (i : ℕ) : ℝ :=
  match m.lookup i with
  | none => x i
  | some c => toStringVal c

theorem Term.eval_subst (m : SubMap) (x : ℕ → ℝ) : ∀ t : Term, (t.subst m).eval x = t.eval (substitutedValue m x)
  | .val _ => rfl
  | .const i => by
    unfold Term.subst
    cases h : m.lookup i <;> simp [Term.eval, substitutedValue, h, realVal]
  | .add s t => congrArg₂ (· + ·) (eval_subst m x s) (eval_subst m x t)
  | .sub s t => congrArg₂ (· - ·) (eval_subst m x s) (eval_subst m x t)
  | .mul s t => congrArg₂ (· * ·) (eval_subst m x s) (eval_subst m x t)
  | .pw t k => congrArg (· ^ k) (eval_subst m x t)

theorem lookup_filter_self (m : SubMap) (i : ℕ) : (m.filter fun e => e.1 ≠ i).lookup i = none := by
  rw [List.lookup_eq_none_iff]
  intro e he
  have hne : e.1 ≠ i := by simpa using (List.mem_filter.1 he).2
  simpa using hne.symm

/-- A bound variable keeps its value. -/
theorem substitutedValue_update (m : SubMap) (x : ℕ → ℝ) (i : ℕ) (r : ℝ) :
    substitutedValue (m.filter fun e => e.1 ≠ i) (Function.update x i r) =
      Function.update (substitutedValue m x) i r := by
  funext j
  unfold substitutedValue
  by_cases hj : j = i
  · subst hj
    rw [lookup_filter_self, Function.update_self, Function.update_self]
  · rw [lookup_filter_ne hj, Function.update_of_ne hj, Function.update_of_ne hj]

theorem Quantified.holds_subst : ∀ (f : Quantified) (m : SubMap) (x : ℕ → ℝ),
    (f.subst m).Holds x ↔ f.Holds (substitutedValue m x)
  | .eq t, m, x => by rw [Quantified.subst, Holds, Holds, t.eval_subst]
  | .ge t, m, x => by rw [Quantified.subst, Holds, Holds, t.eval_subst]
  | .and f g, m, x => and_congr (holds_subst f m x) (holds_subst g m x)
  | .implies f g, m, x => imp_congr (holds_subst f m x) (holds_subst g m x)
  | .all i f, m, x => forall_congr' fun r => by rw [holds_subst f, substitutedValue_update]

/-! ## The formulas of `plain_solve` -/

/-- `lhs_term_impli`. Without a left-hand side it is a real number, and z3 throws when it is used. -/
def premise : List Multinomial → Option Quantified
  | [] => none
  | p :: ps => some (ps.foldl (fun f q => .and f (.ge (printSym q))) (.ge (printSym p)))

/-- The loop that binds every variable that is no template, `nExpr` the number of constants. -/
def quantify (v : Vars) (nExpr : ℕ) (f : Quantified) : Quantified :=
  (List.range nExpr).foldl (fun f i => if v.isTempl i then f else .all i f) f

/-- `plain_solve`: the new `mod_constraints`. -/
def Handelman.plainSolve (v : Vars) (nExpr : ℕ) (h : Handelman) : Option (List Quantified) :=
  h.rhsArr.mapM fun rhs => (premise h.lhs).map fun f => quantify v nExpr (.implies f (.ge (printSym rhs)))

theorem holds_foldl_and (x : ℕ → ℝ) : ∀ (ps : List Multinomial) (f : Quantified),
    (ps.foldl (fun f q => Quantified.and f (.ge (printSym q))) f).Holds x ↔
      f.Holds x ∧ ∀ q ∈ ps, 0 ≤ (printSym q).eval x
  | [], f => by simp
  | p :: ps, f => by
    rw [List.foldl_cons, holds_foldl_and x ps, Quantified.Holds, List.forall_mem_cons, and_assoc]
    rfl

theorem holds_premise {lhs : List Multinomial} {f : Quantified} (h : premise lhs = some f) (x : ℕ → ℝ) :
    f.Holds x ↔ ∀ q ∈ lhs, 0 ≤ (printSym q).eval x := by
  cases lhs with
  | nil => cases h
  | cons p ps =>
    cases h
    rw [holds_foldl_and, List.forall_mem_cons]
    rfl

/-- Binding the variables of a list one after the other. -/
theorem holds_foldl_all (v : Vars) (x : ℕ → ℝ) : ∀ (l : List ℕ) (f : Quantified),
    (l.foldl (fun f i => if v.isTempl i then f else .all i f) f).Holds x ↔
      ∀ y, (∀ i, ¬ (i ∈ l ∧ v.isTempl i = false) → y i = x i) → f.Holds y
  | [], f => by
    constructor
    · intro h y hy
      rwa [show y = x from funext fun i => hy i (by simp)]
    · exact fun h => h x fun _ _ => rfl
  | i :: l, f => by
    rw [List.foldl_cons, holds_foldl_all v x l]
    constructor
    · intro h y hy
      by_cases ht : v.isTempl i = true
      · have hf := h y fun j hj => hy j fun hm => by
          rcases List.mem_cons.1 hm.1 with rfl | hm'
          · rw [ht] at hm
            exact absurd hm.2 nofun
          · exact hj ⟨hm', hm.2⟩
        rwa [if_pos ht] at hf
      · -- the value of the bound variable is put back
        have hf := h (Function.update y i (x i)) fun j hj => by
          by_cases hji : j = i
          · subst hji
            simp
          · rw [Function.update_of_ne hji]
            exact hy j fun hm => hj ⟨(List.mem_cons.1 hm.1).resolve_left hji, hm.2⟩
        rw [if_neg ht] at hf
        simpa using hf (y i)
    · intro h y hy
      split_ifs with ht
      · exact h y fun j hj => hy j fun hm => hj ⟨List.mem_cons_of_mem i hm.1, hm.2⟩
      · intro r
        refine h _ fun j hj => ?_
        by_cases hji : j = i
        · exact absurd ⟨hji ▸ List.mem_cons_self, by rw [hji]; simpa using ht⟩ hj
        · rw [Function.update_of_ne hji]
          exact hy j fun hm => hj ⟨List.mem_cons_of_mem i hm.1, hm.2⟩

theorem holds_quantify (v : Vars) (nExpr : ℕ) (f : Quantified) (x : ℕ → ℝ) :
    (quantify v nExpr f).Holds x ↔
      ∀ y, (∀ i, ¬ (i < nExpr ∧ v.isTempl i = false) → y i = x i) → f.Holds y := by
  rw [quantify, holds_foldl_all]
  simp only [List.mem_range]

/-! ## The verdict on a box -/

/-- The entries of `var_arr` that a box uses: the program variables and the templates of the bounds. -/
structure BoxVars (v : Vars) (n : ℕ) (lo hi : ℕ → ℕ) : Prop where
  prog : ∀ i < n, v.varArr[i]? = some (.var ⟨i, false⟩ true)
  lower : ∀ i < n, v.varArr[lo i]? = some (.var ⟨lo i, true⟩ true)
  upper : ∀ i < n, v.varArr[hi i]? = some (.var ⟨hi i, true⟩ true)

section

variable {w : World} {n nExpr : ℕ} {lo hi : ℕ → ℕ} {idMap : ℕ → ℕ → ℕ} {coords : Coords} {h : Handelman}

theorem BoxVars.bound {v : Vars} (hv : BoxVars v n lo hi) {j : ℕ} (hj : j < 2 * n) :
    v.varArr[boundId lo hi j]? = some (.var ⟨boundId lo hi j, true⟩ true) := by
  unfold boundId
  split_ifs
  · exact hv.lower _ (by omega)
  · exact hv.upper _ (by omega)

theorem BoxVars.isTempl_bound {v : Vars} (hv : BoxVars v n lo hi) {j : ℕ} (hj : j < 2 * n) :
    v.isTempl (boundId lo hi j) = true := by
  rw [Vars.isTempl, hv.bound hj]
  rfl

theorem BoxVars.isTempl_prog {v : Vars} (hv : BoxVars v n lo hi) {i : ℕ} (hi : i < n) : v.isTempl i = false := by
  rw [Vars.isTempl, hv.prog i hi]
  rfl

theorem eval_printSym_boxTerm (x : ℕ → ℝ) (i t j : ℕ) :
    (printSym (boxTerm i t (boundSign j) (-boundSign j))).eval x = boundSign j * (x i - x t) := by
  have hexact : printsExactly (boxTerm i t (boundSign j) (-boundSign j)) = true := by
    have hval : toStringVal 0 = 0 ∧ toStringVal 1 = 1 ∧ toStringVal (-1) = -1 := by decide +kernel
    unfold boundSign
    split_ifs <;> simp [boxTerm, printsExactly, printsExactlyMp, hval]
  rw [eval_printSym x hexact, toMv_boxTerm]
  simp only [map_add, map_mul, map_neg, aeval_C, aeval_X, eq_ratCast]
  ring

/-- A point is in the box when no side is negative there. -/
theorem inBox_iff_sides {x : ℕ → ℝ} (hlen : coords.length = n) :
    InBox coords x ↔ ∀ j < 2 * n, 0 ≤ (boundSign j : ℝ) * (x (j / 2) - bound coords j) := by
  have hside : ∀ i c, coords[i]? = some c → bound coords (2 * i) = c.1 ∧ bound coords (2 * i + 1) = c.2 := by
    intro i c hc
    unfold bound
    rw [show 2 * i / 2 = i by omega, show (2 * i + 1) / 2 = i by omega, hc]
    simp
  constructor
  · intro hx j hj
    have hc : coords[j / 2]? = some (coords.get ⟨j / 2, by omega⟩) := List.getElem?_eq_getElem (by omega)
    obtain ⟨h1, h2⟩ := hx _ _ hc
    obtain ⟨b1, b2⟩ := hside _ _ hc
    rcases Nat.mod_two_eq_zero_or_one j with hpar | hpar
    · rw [show 2 * (j / 2) = j by omega] at b1
      rw [boundSign, if_pos hpar, b1, Rat.cast_one, one_mul]
      exact sub_nonneg.2 h1
    · rw [show 2 * (j / 2) + 1 = j by omega] at b2
      rw [boundSign, if_neg (by omega), b2, Rat.cast_neg, Rat.cast_one, neg_one_mul, neg_sub]
      exact sub_nonneg.2 h2
  · intro hall i c hc
    have hi : i < n := hlen ▸ (List.getElem?_eq_some_iff.1 hc).1
    obtain ⟨b1, b2⟩ := hside i c hc
    have h1 := hall (2 * i) (by omega)
    have h2 := hall (2 * i + 1) (by omega)
    rw [boundSign, if_pos (by omega), show 2 * i / 2 = i by omega, b1, Rat.cast_one, one_mul] at h1
    rw [boundSign, if_neg (by omega), show (2 * i + 1) / 2 = i by omega, b2, Rat.cast_neg, Rat.cast_one, neg_one_mul,
      neg_sub] at h2
    exact ⟨sub_nonneg.1 h1, sub_nonneg.1 h2⟩

theorem bound_printedBox (coords : Coords) {j : ℕ} (hj : j / 2 < coords.length) :
    bound (printedBox coords) j = toStringVal (bound coords j) := by
  unfold bound
  rw [getElem?_printedBox, List.getElem?_eq_getElem hj]
  simp only [Option.map_some, Option.getD_some]
  split_ifs <;> rfl

/-- What the template of a bound gets. -/
theorem Handelman.BoxSetup.substitutedValue_bound (hs : BoxSetup w n lo hi) (hid : NamesBounds idMap n lo hi)
    (hlen : coords.length = n) (x : ℕ → ℝ) {j : ℕ} (hj : j < 2 * n) :
    substitutedValue (subMapFrom idMap 0 coords []) x (boundId lo hi j) = bound (printedBox coords) j := by
  have hlt : j / 2 < coords.length := by omega
  rw [substitutedValue, hs.lookup_bound hid hlen hj (List.getElem?_eq_getElem hlt), bound_printedBox coords hlt, bound,
    List.getElem?_eq_getElem hlt]
  rfl

/-- A formula of `plain_solve` with the corners of the box put in. -/
theorem Handelman.BoxSetup.holds_plain (hs : BoxSetup w n lo hi) (hv : BoxVars w.v n lo hi) (hexpr : n ≤ nExpr)
    (hid : NamesBounds idMap n lo hi) (hlen : coords.length = n) (hl : h.lhs = (new.addBox n lo hi).lhs)
    {f : Quantified} (hf : premise h.lhs = some f) {rhs : Multinomial} (hrhs : WF (InProg n) 0 rhs) (x : ℕ → ℝ) :
    ((quantify w.v nExpr (.implies f (.ge (printSym rhs)))).subst (subMapFrom idMap 0 coords [])).Holds x ↔
      ∀ y, InBox (printedBox coords) y → 0 ≤ aeval y (rhs.mapCoeffs toStringVal).toMv := by
  have hprem : ∀ y, f.Holds y ↔ ∀ j < 2 * n, 0 ≤ (boundSign j : ℝ) * (y (j / 2) - y (boundId lo hi j)) := by
    intro y
    rw [holds_premise hf, hs.lhs_eq hl, List.forall_mem_map]
    simp only [List.mem_range, eval_printSym_boxTerm]
  have hplen : (printedBox coords).length = n := by rw [printedBox, List.length_map, hlen]
  rw [Quantified.holds_subst, holds_quantify]
  constructor
  · intro hall z hz
    -- the point of the box, with the corners for the templates
    obtain ⟨y, hy⟩ : ∃ y : ℕ → ℝ, ∀ i, y i = if i < n then z i else substitutedValue
        (subMapFrom idMap 0 coords []) x i :=
      ⟨_, fun _ => rfl⟩
    have hval := hall y (fun i hi => by
      rw [hy, if_neg]
      exact fun hin => hi ⟨hin.trans_le hexpr, hv.isTempl_prog hin⟩) ((hprem y).2 fun j hj => by
        rw [hy, hy, if_pos (by omega), if_neg (not_lt.2 (hs.bound_range hj).1), hs.substitutedValue_bound hid hlen x hj]
        exact (inBox_iff_sides hplen).1 hz j hj)
    rw [Quantified.Holds, eval_printSym_rounded] at hval
    have hcongr : aeval y (rhs.mapCoeffs toStringVal).toMv = aeval z (rhs.mapCoeffs toStringVal).toMv := by
      refine eval₂Hom_congr' rfl (fun i hi _ => ?_) rfl
      obtain ⟨k, hk, rfl⟩ := hrhs.mapCoeffs.vars i hi
      rw [hy, if_pos hk.2]
    rwa [hcongr] at hval
  · intro hall y hy hpy
    rw [Quantified.Holds, eval_printSym_rounded]
    refine hall y ((inBox_iff_sides hplen).2 fun j hj => ?_)
    have hside := (hprem y).1 hpy j hj
    rwa [hy (boundId lo hi j) fun hq => by simp [hv.isTempl_bound hj] at hq,
      hs.substitutedValue_bound hid hlen x hj] at hside

end

end GridSolve.Core
