/-
What `solve` adds to the solver. It equates the coefficients of the sum `gen_pol` returns with
those of the right-hand side, so as long as no exponent of a product is narrowed its constraints
say that the right-hand side lies in the cone of the admissible products: they are solvable in the
new templates exactly when it does. An exponent that reaches `2^16` breaks this.
-/
import GridSolve.Core.GenPol
import GridSolve.Lib.Cone
import Mathlib.Data.Real.Basic

namespace GridSolve.Core

open MvPolynomial GridSolve.Poly GridSolve.Wrap GridSolve.Specialize GridSolve.Cone
open GridSolve.Poly.Multinomial (WF toMv_var toMv_congr bare_copy bare_setSave toMv_add mulDouble_spec Ordered progPoly
  progPoly_eq_zero_iff)
open GridSolve.Trace (bind_ok)

/-- `u` satisfies the constraints. -/
def Solver.Sat (s : Solver) (u : ℕ → ℝ) : Prop :=
  (∀ a ∈ s.eq, aeval u a.toMv = 0) ∧ ∀ a ∈ s.ineq, 0 ≤ aeval u a.toMv

theorem toMv_stored (m : Multinomial) : ((m.setSave true).copy).toMv = m.toMv :=
  toMv_congr ((bare_copy _).trans (bare_setSave true m))

namespace Handelman

variable {h : Handelman} {idArr : List ℕ} {S : Symbol → Prop}

/-! ## One pass of `solve` -/

/-- The symbols `S` and the next `n` templates. -/
def grown (S : Symbol → Prop) (w : World) (n : ℕ) (k : Symbol) : Prop :=
  S k ∨ (k.isTempl = true ∧ w.numSymbols ≤ k.id ∧ k.id < w.numSymbols + n)

theorem fresh_grown (S : Symbol → Prop) (w : World) (n : ℕ) : Fresh (grown S w n) w n :=
  fun _ h₁ h₂ => .inr ⟨rfl, h₁, h₂⟩

theorem ordered_grown {N n : ℕ} {w : World} (hS : Ordered S N) (hN : N ≤ w.numSymbols) : Ordered (grown S w n) N := by
  rintro k (hk | ⟨ht, hlo, -⟩)
  · exact hS k hk
  · exact ⟨fun _ => hN.trans hlo, fun _ => ht⟩

/-- The constraints of one pass: the coefficients of `toSolve`, and the `n` templates from `lo` on. -/
def added (toSolve : Multinomial) (lo n : ℕ) : Solver where
  eq := toSolve.reduce.map fun a => (a.setSave true).copy
  ineq := (List.range' lo n).map fun i => ((templ i).setSave true).copy

theorem sat_added {toSolve : Multinomial} {lo n : ℕ} {u : ℕ → ℝ} : (added toSolve lo n).Sat u ↔
    (∀ a ∈ toSolve.reduce, aeval u a.toMv = 0) ∧ ∀ t, lo ≤ t → t < lo + n → 0 ≤ u t := by
  simp only [Solver.Sat, added, List.forall_mem_map, toMv_stored, templ, toMv_var, aeval_X, List.mem_range'_1,
    and_imp]

theorem foldl_add_eq : ∀ (l : List Multinomial) (s : Solver),
    l.foldl (fun s a => s.add a false) s = { s with eq := s.eq ++ l.map fun a => (a.setSave true).copy }
  | [], s => by simp
  | a :: l, s => by
    rw [List.foldl_cons, foldl_add_eq l]
    simp [Solver.add]

/-- The result of a pass over one right-hand side, the products `ps` formed. -/
structure Pass (h : Handelman) (S : Symbol → Prop) (ps : List (Multiset ℕ)) (w : World) (rhs : Multinomial)
    (toSolve : Multinomial) (w' : World) : Prop where
  size : w'.numSymbols = w.numSymbols + ps.length
  synced : w'.Synced
  room : w'.numSymbols ≤ 2147483648
  eq : w'.s.eq = w.s.eq ++ (added toSolve w.numSymbols ps.length).eq
  ineq : w'.s.ineq = w.s.ineq ++ (added toSolve w.numSymbols ps.length).ineq
  wf : WF (grown S w ps.length) 0 toSolve
  value : wrap16 toSolve.toMv = wrap16 (h.templSum (ps.zipIdx w.numSymbols) - rhs.toMv)

theorem products_ne_nil {fuel c first : ℕ} : h.products idArr (fuel + 1) c first ≠ [] := by simp [products]

theorem WF.grow {w : World} {n : ℕ} {m : Multinomial} (hm : WF S 0 m) : WF (grown S w n) 0 m := hm.mono fun _ => .inl

/-- What a pass makes of the sum that `gen_pol` returns. -/
theorem pass_of_genPol {fuel : ℕ} {w : World} {r : Multinomial × World} {rhs : Multinomial} (hw : w.Synced)
    (hlhs : ∀ j, WF S 0 (h.lhsAt j)) (hrhs : WF S 0 rhs) (hr : h.genPol idArr fuel 0 0 w = .ok r) :
    h.Pass S (h.products idArr fuel 0 0) w rhs (r.1.add (rhs.mulDouble (-1)))
      { r.2 with s := (r.1.add (rhs.mulDouble (-1))).reduce.foldl (fun s a => s.add a false) r.2.s } := by
  cases fuel with
  | zero => cases hr
  | succ fuel =>
    have f := genPol_formed (fun j => WF.grow (hlhs j)) hw (fresh_grown S w _) hr
    obtain ⟨h1, h2⟩ := mulDouble_spec (-1) (WF.grow (w := w) (n := (h.products idArr (fuel + 1) 0 0).length) hrhs)
    refine ⟨f.ext.size, f.ext.synced, f.room products_ne_nil, ?_, ?_, f.wf.add h2, ?_⟩
    · simp only [foldl_add_eq, f.ext.eq]; rfl
    · simp only [foldl_add_eq, f.ext.ineq]; rfl
    · rw [toMv_add f.wf h2, h1, map_add, f.value, ← map_add]
      congr 1
      simp only [Multinomial.toMv_const, C_0, zero_add, C_neg, C_1]
      ring

theorem solveRhs_pass {fuel : ℕ} {w w' : World} {rhs : Multinomial} (hw : w.Synced)
    (hlhs : ∀ j, WF S 0 (h.lhsAt j)) (hrhs : WF S 0 rhs) (hok : h.solveRhs fuel w rhs = .ok w') :
    ∃ toSolve, h.Pass S (h.products rhs.retIdArr fuel 0 0) w rhs toSolve w' := by
  obtain ⟨r, hr, hok⟩ := bind_ok hok
  cases hok
  exact ⟨_, pass_of_genPol hw hlhs hrhs hr⟩

/-! ## Exactness -/

theorem degreeOf_eq_zero {b i : ℕ} {m : Multinomial} (hm : WF S b m) (hi : ∀ k, S k → k.id ≠ i) :
    m.toMv.degreeOf i = 0 := by
  by_contra hne
  obtain ⟨k, hk, rfl⟩ := hm.vars i (mem_vars_iff_degreeOf_ne_zero.2 hne)
  exact hi k hk rfl

/-- No exponent of a product reaches `2^16`: the exponents of every symbol in its factors add up
to one that fits. -/
def FitsExp (h : Handelman) (α : Multiset ℕ) : Prop :=
  ∀ i, (α.map fun j => (h.lhsAt j).toMv.degreeOf i).sum ≤ 65535

theorem small_templSum {n : ℕ} {ps : List (Multiset ℕ)} (hlhs : ∀ j, WF S 0 (h.lhsAt j))
    (hid : ∀ k, S k → k.id < n) (hexp : ∀ α ∈ ps, h.FitsExp α) : Small 65536 (h.templSum (ps.zipIdx n)) := by
  refine Small.listSum (by norm_num) fun p hp i => ?_
  obtain ⟨x, hx, rfl⟩ := List.mem_map.1 hp
  obtain ⟨hα, ht⟩ : x.1 ∈ ps ∧ n ≤ x.2 := by
    have := List.mem_zipIdx hx
    exact ⟨this.2.2 ▸ List.getElem_mem .., this.1⟩
  have hprod : (h.productOf x.1).degreeOf i ≤ (x.1.map fun j => (h.lhsAt j).toMv.degreeOf i).sum := by
    simpa [productOf, Multiset.map_map] using
      degreeOf_multiset_prod_le i (x.1.map fun j => (h.lhsAt j).toMv)
  refine (degreeOf_mul_le i _ _).trans_lt ?_
  by_cases hi : i = x.2
  · -- a new template does not occur in the left-hand sides
    subst hi
    have h0 : (x.1.map fun j => (h.lhsAt j).toMv.degreeOf x.2).sum = 0 := by
      refine Multiset.sum_eq_zero fun a ha => ?_
      obtain ⟨j, -, rfl⟩ := Multiset.mem_map.1 ha
      exact degreeOf_eq_zero (hlhs j) fun k hk => (lt_of_lt_of_le (hid k hk) ht).ne
    rw [degreeOf_X_self]; omega
  · have := hexp _ hα i
    rw [degreeOf_X_of_ne hi]; omega

theorem Pass.exact {ps : List (Multiset ℕ)} {w w' : World} {rhs toSolve : Multinomial}
    (hp : h.Pass S ps w rhs toSolve w') (hlhs : ∀ j, WF S 0 (h.lhsAt j)) (hrhs : WF S 0 rhs)
    (hid : ∀ k, S k → k.id < w.numSymbols) (hexp : ∀ α ∈ ps, h.FitsExp α) :
    toSolve.toMv = h.templSum (ps.zipIdx w.numSymbols) - rhs.toMv := by
  obtain ⟨h1, h2⟩ := mulDouble_spec (-1) hrhs
  have hsub : h.templSum (ps.zipIdx w.numSymbols) - rhs.toMv
      = h.templSum (ps.zipIdx w.numSymbols) + (rhs.mulDouble (-1)).toMv := by
    rw [h1, C_neg, C_1]; ring
  refine wrap16_inj hp.wf.small.1 ?_ hp.value
  rw [hsub]
  exact (small_templSum hlhs hid hexp).add h2.small.1

/-- The sum is linear in the new templates. -/
theorem atMost_templSum {N : ℕ} (hlhs : ∀ j, WF S 0 (h.lhsAt j))
    (hid : ∀ k, S k → k.id < N) (l : List (Multiset ℕ × ℕ)) : AtMost (N ≤ ·) 1 (h.templSum l) := by
  refine AtMost.listSum fun q hq => ?_
  obtain ⟨x, -, rfl⟩ := List.mem_map.1 hq
  refine (atMost_X_pos x.2).mul (n := 0) (AtMost.multisetProd fun r hr => ?_)
  obtain ⟨j, -, rfl⟩ := Multiset.mem_map.1 hr
  exact atMost_of_vars fun i hi => by
    obtain ⟨k, hk, rfl⟩ := (hlhs j).vars i hi
    exact not_le.2 (hid k hk)

theorem specialize_templSum {n N : ℕ} (hN : N ≤ n) (u : ℕ → ℝ) (ps : List (Multiset ℕ)) :
    specialize (N ≤ ·) u (h.templSum (ps.zipIdx n)) = listed (fun j => progPoly N u (h.lhsAt j)) ps n u := by
  rw [templSum, map_list_sum, List.map_map, listed]
  congr 1
  refine List.map_congr_left fun x hx => ?_
  have ht : N ≤ x.2 := hN.trans (List.mem_zipIdx hx).1
  simp only [Function.comp_apply, map_mul, specialize_X_pos (N ≤ ·) u ht, productOf, map_multiset_prod,
    Multiset.map_map, smul_eq_C_mul]
  rfl

/-- Values `u` satisfy the constraints of a pass exactly when the new templates are non-negative
and the right-hand side is the sum of template times product. -/
theorem Pass.sat_iff {ps : List (Multiset ℕ)} {w w' : World} {rhs toSolve : Multinomial} {N : ℕ}
    (hp : h.Pass S ps w rhs toSolve w') (hS : Ordered S N) (hN : N ≤ w.numSymbols)
    (hval : toSolve.toMv = h.templSum (ps.zipIdx w.numSymbols) - rhs.toMv) (u : ℕ → ℝ) :
    (added toSolve w.numSymbols ps.length).Sat u ↔
      (∀ t, w.numSymbols ≤ t → t < w.numSymbols + ps.length → 0 ≤ u t) ∧
      progPoly N u rhs = listed (fun j => progPoly N u (h.lhsAt j)) ps w.numSymbols u := by
  rw [sat_added, and_comm, ← progPoly_eq_zero_iff (ordered_grown hS hN) hp.wf u, progPoly, hval, map_sub,
    specialize_templSum hN, sub_eq_zero, eq_comm]
  rfl

/-- Only the values of the symbols that occur matter. -/
theorem progPoly_congr {n N : ℕ} {u v : ℕ → ℝ} {m : Multinomial} (hm : WF S 0 m) (hid : ∀ k, S k → k.id < n)
    (huv : ∀ i < n, u i = v i) : progPoly N u m = progPoly N v m :=
  specialize_congr _ u fun i hi _ => by
    obtain ⟨k, hk, rfl⟩ := hm.vars i hi
    exact huv _ (hid k hk)

/-- For given values of the older templates, the constraints of a pass are solvable in the new
ones exactly when the right-hand side is in the cone of the products. -/
theorem Pass.solvable_iff {ps : List (Multiset ℕ)} {w w' : World} {rhs toSolve : Multinomial} {N : ℕ}
    {A : Multiset ℕ → Prop} (hp : h.Pass S ps w rhs toSolve w') (hlhs : ∀ j, WF S 0 (h.lhsAt j)) (hrhs : WF S 0 rhs)
    (hS : Ordered S N) (hN : N ≤ w.numSymbols) (hid : ∀ k, S k → k.id < w.numSymbols)
    (hval : toSolve.toMv = h.templSum (ps.zipIdx w.numSymbols) - rhs.toMv) (hn : ps.Nodup) (hA : ∀ α, α ∈ ps ↔ A α)
    (v : ℕ → ℝ) :
    (∃ u, (∀ i < w.numSymbols, u i = v i) ∧ (added toSolve w.numSymbols ps.length).Sat u) ↔
      InCone ℝ A (fun j => progPoly N v (h.lhsAt j)) (progPoly N v rhs) := by
  rw [inCone_iff_listed hn hA w.numSymbols]
  constructor
  · rintro ⟨u, huv, hu⟩
    obtain ⟨h0, he⟩ := (hp.sat_iff hS hN hval u).1 hu
    refine ⟨u, h0, ?_⟩
    rw [← progPoly_congr hrhs hid huv, he]
    simp only [progPoly_congr (hlhs _) hid huv]
  · rintro ⟨c, h0, he⟩
    -- the old values below the new templates, the constants of the cone from them on
    obtain ⟨u, huv, huc⟩ : ∃ u : ℕ → ℝ, (∀ i < w.numSymbols, u i = v i) ∧ ∀ i, w.numSymbols ≤ i → u i = c i :=
      ⟨fun i => if i < w.numSymbols then v i else c i, fun i hi => if_pos hi, fun i hi => if_neg (by omega)⟩
    refine ⟨u, huv, (hp.sat_iff hS hN hval u).2 ⟨fun t h₁ h₂ => by rw [huc t h₁]; exact h0 t h₁ h₂, ?_⟩⟩
    simp only [progPoly_congr hrhs hid huv, progPoly_congr (hlhs _) hid huv, he, listed]
    congr 1
    exact List.map_congr_left fun x hx => by rw [huc _ (List.mem_zipIdx hx).1]

/-! ## The encoding -/

theorem wf_lhsAt (hl : ∀ p ∈ h.lhs, WF S 0 p) (j : ℕ) : WF S 0 (h.lhsAt j) := by
  unfold lhsAt
  rw [List.getD_eq_getElem?_getD]
  cases hj : h.lhs[j]? with
  | none => exact .const
  | some p => exact hl p (List.mem_of_getElem? hj)

theorem lhsAt_mem {j : ℕ} (hj : j < h.lhs.length) : h.lhsAt j ∈ h.lhs := by
  unfold lhsAt
  rw [List.getD_eq_getElem _ _ hj]
  exact List.getElem_mem hj

theorem degAt_makeDegArr (h : Handelman) (j : ℕ) : h.makeDegArr.degAt j = (h.lhsAt j).getDegree false := by
  unfold degAt makeDegArr lhsAt
  rw [List.getD_eq_getElem?_getD, List.getElem?_map, List.getD_eq_getElem?_getD]
  cases h.lhs[j]? <;> rfl

theorem solve_singleton {fuel : ℕ} {w : World} {rhs : Multinomial} (hrhs : h.rhsArr = [rhs]) :
    h.solve fuel w = h.makeDegArr.solveRhs fuel w rhs := by
  rw [solve, hrhs, List.foldlM_cons]
  cases h.makeDegArr.solveRhs fuel w rhs <;> rfl

/-- The products that may be used for a right-hand side: their left-hand sides pass `cmp_poly`
and their degrees add up to at most `max_deg`. -/
def Usable (h : Handelman) (rhs : Multinomial) : Multiset ℕ → Prop := h.makeDegArr.Admissible rhs.retIdArr 0 0

/-- Fuel above `max_deg` is enough to list the usable products. -/
theorem mem_products_iff_usable {rhs : Multinomial} {fuel : ℕ} (hpos : ∀ p ∈ h.lhs, 0 < p.getDegree false)
    (hfuel : h.maxDeg < fuel) (hfuel0 : 0 < fuel) (α : Multiset ℕ) :
    α ∈ h.makeDegArr.products rhs.retIdArr fuel 0 0 ↔ h.Usable rhs α := by
  refine ⟨admissible_of_mem, mem_of_admissible (fun j hj _ => ?_) (by simpa [makeDegArr] using hfuel) hfuel0⟩
  rw [degAt_makeDegArr]
  exact hpos _ (lhsAt_mem hj)

/-- `solve` returns when every usable product has an index for its template and no degree leaves
the range of `int`. -/
theorem solve_returns {w : World} {rhs : Multinomial} {fuel : ℕ} (hrhs : h.rhsArr = [rhs]) (hw : w.Synced)
    (hl : ∀ p ∈ h.lhs, WF S 0 p) (hpos : ∀ p ∈ h.lhs, 0 < p.getDegree false) (hfuel : h.maxDeg < fuel)
    (hfuel0 : 0 < fuel) (hint : ∀ p ∈ h.lhs, max h.maxDeg 0 + p.getDegree false < 2147483648)
    (hroom : ∀ ps : List (Multiset ℕ), ps.Nodup → (∀ α ∈ ps, h.Usable rhs α) →
      w.numSymbols + ps.length ≤ 2147483648) : ∃ w', h.solve fuel w = .ok w' := by
  have hlhs : ∀ j, WF S 0 (h.makeDegArr.lhsAt j) := wf_lhsAt (h := h.makeDegArr) hl
  obtain ⟨r, hok⟩ : ∃ r, h.makeDegArr.genPol rhs.retIdArr fuel 0 0 w = .ok r :=
    genPol_ok (fun j => WF.grow (hlhs j)) (fun j hj _ => by rw [degAt_makeDegArr]; exact hpos _ (lhsAt_mem hj))
      (fun j hj => by rw [degAt_makeDegArr]; exact hint _ (lhsAt_mem hj)) (by simpa [makeDegArr] using hfuel) hfuel0
      (by simp) hw (fresh_grown S w _)
      (hroom _ (nodup_products fuel 0 0) fun α hα => (mem_products_iff_usable hpos hfuel hfuel0 α).1 hα)
  rw [solve_singleton hrhs, solveRhs, hok]
  exact ⟨_, rfl⟩

/-- **`solve` encodes membership in the cone** of the usable products when none of their exponents
is narrowed. A run that returns gives every usable product a template of its own; its constraints
say that the templates are non-negative and the right-hand side is the sum of template times
product; and for all values of the older templates they are solvable in the new ones exactly when
the right-hand side is in the cone. The run returns within the range of `int`. -/
theorem solve_encodes_cone {w : World} {rhs : Multinomial} {N fuel : ℕ} (hrhs : h.rhsArr = [rhs]) (hw : w.Synced)
    (hS : Ordered S N) (hN : N ≤ w.numSymbols) (hid : ∀ k, S k → k.id < w.numSymbols)
    (hl : ∀ p ∈ h.lhs, WF S 0 p) (hr : WF S 0 rhs) (hpos : ∀ p ∈ h.lhs, 0 < p.getDegree false)
    (hfuel : h.maxDeg < fuel) (hfuel0 : 0 < fuel) (hexp : ∀ α, h.Usable rhs α → h.FitsExp α) :
    (∀ w', h.solve fuel w = .ok w' → ∃ ps toSolve, ps.Nodup ∧ (∀ α, α ∈ ps ↔ h.Usable rhs α) ∧
      w'.s.eq = w.s.eq ++ (added toSolve w.numSymbols ps.length).eq ∧
      w'.s.ineq = w.s.ineq ++ (added toSolve w.numSymbols ps.length).ineq ∧
      (∀ u, (added toSolve w.numSymbols ps.length).Sat u ↔
        (∀ t, w.numSymbols ≤ t → t < w.numSymbols + ps.length → 0 ≤ u t) ∧
        progPoly N u rhs = listed (fun j => progPoly N u (h.lhsAt j)) ps w.numSymbols u) ∧
      ∀ v : ℕ → ℝ, (∃ u, (∀ i < w.numSymbols, u i = v i) ∧ (added toSolve w.numSymbols ps.length).Sat u) ↔
        InCone ℝ (h.Usable rhs) (fun j => progPoly N v (h.lhsAt j)) (progPoly N v rhs)) ∧
    ((∀ p ∈ h.lhs, max h.maxDeg 0 + p.getDegree false < 2147483648) →
      (∀ ps : List (Multiset ℕ), ps.Nodup → (∀ α ∈ ps, h.Usable rhs α) → w.numSymbols + ps.length ≤ 2147483648) →
      ∃ w', h.solve fuel w = .ok w') := by
  refine ⟨fun w' hok => ?_, solve_returns hrhs hw hl hpos hfuel hfuel0⟩
  have hlhs : ∀ j, WF S 0 (h.makeDegArr.lhsAt j) := wf_lhsAt (h := h.makeDegArr) hl
  have hmem : ∀ α, α ∈ h.makeDegArr.products rhs.retIdArr fuel 0 0 ↔ h.Usable rhs α :=
    mem_products_iff_usable hpos hfuel hfuel0
  have hn : (h.makeDegArr.products rhs.retIdArr fuel 0 0).Nodup := nodup_products fuel 0 0
  obtain ⟨toSolve, hp⟩ := solveRhs_pass hw hlhs hr ((solve_singleton hrhs).symm.trans hok)
  have hval := hp.exact hlhs hr hid fun α hα => hexp α ((hmem α).1 hα)
  exact ⟨_, toSolve, hn, hmem, hp.eq, hp.ineq, hp.sat_iff hS hN hval,
    hp.solvable_iff hlhs hr hS hN hid hval hn hmem⟩

/-- The table with one program variable. -/
def oneVar : World where
  numSymbols := 1
  v := { varArr := [.var ⟨0, false⟩ true], mp := [("var_0", 0)] }
  s := { eq := [], ineq := [] }

/-- The power `e` of that variable. -/
def power (e : UInt16) : Multinomial := .node true ⟨0, false⟩ [(0, .const true 0), (e, .const true 1)]

theorem wf_power {e : UInt16} (he : e ≠ 0) : WF (· = ⟨0, false⟩) 0 (power e) := by
  refine .node le_rfl rfl (by simpa using he.symm) rfl fun x hx => ?_
  simp only [List.mem_cons, List.not_mem_nil, or_false] at hx
  rcases hx with rfl | rfl <;> exact .const

theorem toMv_power (e : UInt16) : (power e).toMv = X 0 ^ e.toNat := by
  simp [power, Multinomial.toMv_node, Multinomial.toMvMp]

theorem progPoly_power (e : UInt16) (v : ℕ → ℝ) : progPoly 1 v (power e) = X 0 ^ e.toNat := by
  rw [progPoly, toMv_power, map_pow, specialize_X_neg (1 ≤ ·) v (by decide)]

/-- `x ≥ 0` and the right-hand side `x`, products of degree one. -/
def linearCore : Handelman := ((new.addLhs (power 1)).addRhs (power 1)).setMaxDegree 1

theorem usable_linearCore {α : Multiset ℕ} (h : linearCore.Usable (power 1) α) : α = 0 ∨ α = {0} := by
  have hj : ∀ j ∈ α, j = 0 := fun j hj => Nat.lt_one_iff.1 (h.mem j hj).2.1
  rw [Multiset.eq_replicate_card.2 hj] at h ⊢
  rcases h.deg with h0 | hd
  · exact .inl h0
  · rw [Multiset.map_replicate, Multiset.sum_replicate, degAt_makeDegArr,
      show (linearCore.lhsAt 0).getDegree false = 1 from rfl, show linearCore.makeDegArr.maxDeg = 1 from rfl] at hd
    have hc : α.card = 0 ∨ α.card = 1 := by simp at hd; omega
    rcases hc with hc | hc <;> simp [hc]

theorem solve_encodes_cone_linear : ∃ w', linearCore.solve 2 oneVar = .ok w' ∧
    ∃ u, (∀ i < 1, u i = 0) ∧ w'.s.Sat u := by
  obtain ⟨hencodes, hreturns⟩ := solve_encodes_cone (h := linearCore) (w := oneVar)
    (S := (· = ⟨0, false⟩)) (N := 1) (show linearCore.rhsArr = [power 1] from rfl) rfl
    (by rintro k rfl; decide) le_rfl (by rintro k rfl; decide)
    (fun p hp => by rw [List.mem_singleton.1 hp]; exact wf_power (by decide)) (wf_power (by decide))
    (fun p hp => by rw [List.mem_singleton.1 hp]; decide)
    (show linearCore.maxDeg < (2 : ℕ) by decide) (by decide)
    fun α hα i => by
      rcases usable_linearCore hα with rfl | rfl
      · simp
      · have : (linearCore.lhsAt 0).toMv = X 0 := (toMv_power 1).trans (pow_one _)
        simp only [Multiset.map_singleton, Multiset.sum_singleton, this, degreeOf_X]
        split_ifs <;> norm_num
  obtain ⟨w', hok⟩ := hreturns (fun p hp => by rw [List.mem_singleton.1 hp]; decide) fun ps hn hps => by
    have : ps.length ≤ [(0 : Multiset ℕ), {0}].length :=
      (hn.subperm fun α hα => by simpa using usable_linearCore (hps α hα)).length_le
    simp only [oneVar, List.length_cons, List.length_nil] at this ⊢; omega
  obtain ⟨ps, toSolve, -, -, heq, hineq, -, hcone⟩ := hencodes w' hok
  have hin : InCone ℝ (linearCore.Usable (power 1)) (fun j => progPoly 1 (0 : ℕ → ℝ) (linearCore.lhsAt j))
      (progPoly 1 0 (power 1)) := by
    refine ⟨Finsupp.single {0} 1, fun α hα => ?_, fun α => ?_, ?_⟩
    · rw [Finset.mem_singleton.1 (Finsupp.support_single_subset hα)]
      exact ⟨fun j hj => by rw [Multiset.mem_singleton.1 hj]; decide, .inr (by decide)⟩
    · rw [Finsupp.single_apply]; split_ifs <;> norm_num
    · rw [Finsupp.sum_single_index, one_smul, Multiset.map_singleton, Multiset.prod_singleton]
      · rfl
      · exact zero_smul ℝ _
  obtain ⟨u, hu, hsat⟩ := (hcone 0).2 hin
  exact ⟨w', hok, u, hu, by rw [heq]; exact hsat.1, by rw [hineq]; exact hsat.2⟩

/-- The power `x^40000` as left-hand side and the right-hand side `x^14464`, products of degree up
to 80000. -/
def powerCore : Handelman := ((new.addLhs (power 40000)).addRhs (power 14464)).setMaxDegree 80000

/-- The constraints `solve` adds for `powerCore`. -/
def powerConstraints : Solver where
  eq := [.node false ⟨3, true⟩ [(0, .const false 0), (1, .const false 1)],
    .node false ⟨1, true⟩ [(0, .const false (-1)), (1, .const false 1)],
    .node false ⟨2, true⟩ [(0, .const false 0), (1, .const false 1)]]
  ineq := [.var ⟨1, true⟩ false, .var ⟨2, true⟩ false, .var ⟨3, true⟩ false]

/-- **A narrowed exponent breaks the encoding**: `x^80000` is stored as `x^14464`, so the
constraints for the right-hand side `x^14464` are solvable although it is no combination of
`1`, `x^40000` and `x^80000`. -/
theorem solve_accepts_narrowed_power : (∀ p ∈ powerCore.lhs, 0 < p.getDegree false) ∧
    (∃ w', powerCore.solve 4 oneVar = .ok w' ∧ w'.s = powerConstraints) ∧ (∃ u, powerConstraints.Sat u) ∧
    ∀ v : ℕ → ℝ, ¬ InCone ℝ (powerCore.Usable (power 14464)) (fun j => progPoly 1 v (powerCore.lhsAt j))
      (progPoly 1 v (power 14464)) := by
  refine ⟨by decide, ?_, ⟨fun i => if i = 1 then 1 else 0, ?_, ?_⟩, ?_⟩
  · have hs : (powerCore.solve 4 oneVar).map (·.s) = .ok powerConstraints := by decide +kernel
    cases hr : powerCore.solve 4 oneVar with
    | error e => rw [hr] at hs; cases hs
    | ok w' => rw [hr] at hs; exact ⟨w', rfl, by injection hs⟩
  · intro a ha
    simp only [powerConstraints, List.mem_cons, List.not_mem_nil, or_false] at ha
    rcases ha with rfl | rfl | rfl <;> simp [Multinomial.toMv_node, Multinomial.toMvMp]
  · intro a ha
    simp only [powerConstraints, List.mem_cons, List.not_mem_nil, or_false] at ha
    rcases ha with rfl | rfl | rfl <;> simp [toMv_var]
  · rintro v ⟨c, hc, -, he⟩
    have hcoef := congrArg (coeff (Finsupp.single 0 14464)) he
    rw [progPoly_power, Finsupp.sum, coeff_sum, Finset.sum_eq_zero] at hcoef
    · simp [coeff_X_pow] at hcoef
    · intro α hα
      have hg : ∀ j ∈ α, progPoly 1 v (powerCore.lhsAt j) = X 0 ^ 40000 := fun j hj => by
        rw [Nat.lt_one_iff.1 ((hc α hα).mem j hj).2.1]; exact progPoly_power 40000 v
      rw [Multiset.map_congr rfl hg, Multiset.map_const', Multiset.prod_replicate, ← pow_mul, coeff_smul, coeff_X_pow,
        if_neg, smul_zero]
      intro h
      have := DFunLike.congr_fun h 0
      simp only [Finsupp.single_eq_same] at this
      omega

end Handelman

end GridSolve.Core
