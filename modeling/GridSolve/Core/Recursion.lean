/-
The recursion of `gen_pol`. A call with index `j` calls itself with `j` again and the degree grown by
`lhs_degree[j]`; what makes it end is that this degree is positive. The calls form a relation on the
arguments, with the degrees as the `int`s that `make_deg_arr` stores and their sums as `int`s too. While
the bound leaves room for the sums, the recursion started by `solve` is finite exactly when every
left-hand side it can use has a positive degree.
-/
import GridSolve.Core.Encoding

namespace GridSolve.Core

open GridSolve.Poly
open GridSolve.Trace (bind_ok bind_error exists_of_foldlM_error forall_of_foldlM_ok)

/-! ## Runs that end in an error -/

theorem addTemplate_ne_outOfFuel (w : World) : Handelman.addTemplate w ≠ .error .outOfFuel := by
  intro h
  unfold Handelman.addTemplate at h
  rcases bind_error h with h | ⟨a, -, h⟩
  · unfold World.addVar at h
    rcases bind_error h with h | ⟨k, -, h⟩
    · unfold World.symbol at h
      split_ifs at h
      cases h
    · cases h
  · rcases bind_error h with h | ⟨t, -, h⟩
    · unfold Vars.byName Vars.byIndex at h
      split_ifs at h
      · cases h
      · split at h <;> cases h
    · cases h

namespace Handelman

/-! ## The calls -/

/-- `lhs_degree[j]`: the `uint32_t` that `get_degree` returns, as an `int`. -/
def intDegree (h : Handelman) (j : ℕ) : ℤ := ((h.lhsAt j).getDegree false : ℤ).bmod 4294967296

/-- The values of an `int`. -/
def IsInt (z : ℤ) : Prop := -2147483648 ≤ z ∧ z ≤ 2147483647

/-- The arguments of a call that change. -/
structure Call where
  currDeg : ℤ
  firstIndex : ℕ

/-- The call `y` makes the call `x`. Past a sum that overflows the program has no meaning, so no call is
made there. -/
inductive Calls (h : Handelman) (idArr : List ℕ) : Call → Call → Prop
  | mk {c : ℤ} {first j : ℕ} (from_first : first ≤ j) (in_range : j < h.lhs.length)
      (is_int : IsInt (c + h.intDegree j)) (degree : c + h.intDegree j ≤ h.maxDeg)
      (shares : (h.lhsAt j).cmpPoly idArr = true) : Calls h idArr ⟨c + h.intDegree j, j⟩ ⟨c, first⟩

/-- `gen_pol(0, 0, id_arr)` has a finite tree of calls. -/
def RecursionFinite (h : Handelman) (idArr : List ℕ) : Prop := Acc (Calls h idArr) ⟨0, 0⟩

/-- The calls of the tree. -/
def Made (h : Handelman) (idArr : List ℕ) : Call → Prop :=
  Relation.ReflTransGen (fun y x => Calls h idArr x y) ⟨0, 0⟩

variable {h : Handelman} {idArr : List ℕ}

/-- A left-hand side that does not raise the degree is taken again and again. -/
theorem not_acc_calls {j : ℕ} (hj : j < h.lhs.length) (hcmp : (h.lhsAt j).cmpPoly idArr = true)
    (hmax : h.intDegree j ≤ h.maxDeg) (hdeg : h.intDegree j ≤ 0)
    (hfit : ∀ x, h.Made idArr x → x.currDeg ≤ 0 → x.firstIndex ≤ j → IsInt (x.currDeg + h.intDegree j)) {x : Call}
    (hmade : h.Made idArr x) (hx : x.currDeg ≤ 0) (hfirst : x.firstIndex ≤ j) : ¬ Acc (Calls h idArr) x := by
  intro hacc
  induction hacc with
  | intro x _ ih =>
    obtain ⟨c, first⟩ := x
    have hcall : Calls h idArr ⟨c + h.intDegree j, j⟩ ⟨c, first⟩ :=
      .mk hfirst hj (hfit _ hmade hx hfirst) ((add_le_of_nonpos_left hx).trans hmax) hcmp
    exact ih _ hcall (hmade.tail hcall) (add_nonpos hx hdeg) le_rfl

/-- The degree of every call is an `int`. -/
theorem Made.isInt {x : Call} (hx : h.Made idArr x) : IsInt x.currDeg := by
  induction hx with
  | refl => exact ⟨by norm_num, by norm_num⟩
  | tail _ hcall _ =>
    obtain ⟨-, -, hint, -, -⟩ := hcall
    exact hint

/-- With a left-hand side of degree 0 nothing overflows, and the calls go on. -/
theorem not_recursionFinite {j : ℕ} (hj : j < h.lhs.length) (hcmp : (h.lhsAt j).cmpPoly idArr = true)
    (hmax : 0 ≤ h.maxDeg) (hdeg : h.intDegree j = 0) : ¬ h.RecursionFinite idArr := by
  refine not_acc_calls hj hcmp (hdeg.trans_le hmax) hdeg.le (fun x hx _ _ => ?_) .refl le_rfl (Nat.zero_le j)
  rw [hdeg, add_zero]
  exact hx.isInt

/-- With positive degrees every call has less degree left than its caller. -/
theorem acc_calls (hpos : ∀ j < h.lhs.length, (h.lhsAt j).cmpPoly idArr = true → h.intDegree j ≤ h.maxDeg →
    0 < h.intDegree j) : ∀ (n : ℕ) {x : Call}, 0 ≤ x.currDeg → (h.maxDeg - x.currDeg).toNat ≤ n →
    Acc (Calls h idArr) x
  | n, x, hx, hn => by
    refine ⟨x, fun y hy => ?_⟩
    obtain ⟨hfirst, hj, -, hdeg, hcmp⟩ := hy
    simp only at hx hn
    have hd := hpos _ hj hcmp (by omega)
    cases n with
    | zero => omega
    | succ n => exact acc_calls hpos n (by simp only; omega) (by simp only; omega)

/-- With positive degrees the degree stays between 0 and the bound. -/
theorem Made.bounds (hpos : ∀ j < h.lhs.length, (h.lhsAt j).cmpPoly idArr = true → h.intDegree j ≤ h.maxDeg →
    0 < h.intDegree j) {x : Call} (hx : h.Made idArr x) :
    0 ≤ x.currDeg ∧ (x.currDeg = 0 ∨ x.currDeg ≤ h.maxDeg) := by
  induction hx with
  | refl => exact ⟨le_rfl, .inl rfl⟩
  | tail _ hcall ih =>
    obtain ⟨-, hj, -, hdeg, hcmp⟩ := hcall
    simp only at ih
    have hd := hpos _ hj hcmp (by omega)
    exact ⟨by simp only; omega, .inr hdeg⟩

/-- The stored degrees, as far as they are below `2^31`. -/
theorem intDegree_eq {j : ℕ} (hlt : (h.lhsAt j).getDegree false < 2147483648) :
    h.intDegree j = h.makeDegArr.degAt j := by
  rw [degAt_makeDegArr]
  exact toInt_of_lt hlt

/-- A turn of the loop runs out of fuel only in the call it makes. -/
theorem genStep_outOfFuel {c j : ℕ} {rec : ℕ → ℕ → World → Except Err (Multinomial × World)}
    {acc : Multinomial × World} (hr : h.genStep idArr c rec acc j = .error .outOfFuel) :
    (((c + h.degAt j : ℕ) : ℤ) ≤ h.maxDeg ∧ (h.lhsAt j).cmpPoly idArr = true) ∧
      rec (c + h.degAt j) j acc.2 = .error .outOfFuel := by
  unfold genStep at hr
  split_ifs at hr with hint htest
  · cases hr
  · rcases bind_error hr with hr | ⟨p, -, hr⟩
    · exact ⟨htest, hr⟩
    · cases hr

/-- Fuel for the degree that is left is enough. -/
theorem genPol_ne_outOfFuel (hpos : ∀ j < h.lhs.length, (h.lhsAt j).cmpPoly idArr = true → (h.degAt j : ℤ) ≤ h.maxDeg →
    0 < h.degAt j) : ∀ {fuel c first : ℕ} (w : World), (h.maxDeg - c).toNat < fuel →
    h.genPol idArr fuel c first w ≠ .error .outOfFuel
  | fuel + 1, c, first, w, hfuel => by
    intro hr
    rw [genPol] at hr
    rcases bind_error hr with hr | ⟨r, -, hr⟩
    · obtain ⟨j, hj, acc, hstep⟩ := exists_of_foldlM_error hr
      obtain ⟨⟨hdeg, hcmp⟩, hrec⟩ := genStep_outOfFuel hstep
      have hlt : j < h.lhs.length := by
        have := List.mem_range'_1.1 hj
        omega
      have := hpos j hlt hcmp (by omega)
      exact genPol_ne_outOfFuel hpos acc.2 (by omega) hrec
    · rcases bind_error hr with hr | ⟨t, -, hr⟩
      · exact addTemplate_ne_outOfFuel _ hr
      · cases hr

/-- A call that reaches a left-hand side of degree 0 does not return, whatever its fuel. -/
theorem genPol_ne_ok {j : ℕ} (hj : j < h.lhs.length) (hcmp : (h.lhsAt j).cmpPoly idArr = true) (hdeg : h.degAt j = 0) :
    ∀ {fuel c first : ℕ} (w : World) (r : Multinomial × World), (c : ℤ) ≤ h.maxDeg → first ≤ j →
      h.genPol idArr fuel c first w ≠ .ok r
  | 0, c, first, w, r, _, _ => by
    intro hr
    cases hr
  | fuel + 1, c, first, w, r, hc, hfirst => by
    intro hr
    rw [genPol] at hr
    obtain ⟨r', hloop, -⟩ := bind_ok hr
    -- the loop has come past the turn of `j`
    have hmem : j ∈ List.range' first (h.lhs.length - first) := List.mem_range'_1.2 ⟨hfirst, by omega⟩
    obtain ⟨acc, r'', hstep⟩ := forall_of_foldlM_ok hloop j hmem
    unfold genStep at hstep
    rw [hdeg, Nat.add_zero] at hstep
    split_ifs at hstep with hint htest
    · obtain ⟨q, hrec, -⟩ := bind_ok hstep
      exact genPol_ne_ok hj hcmp hdeg acc.2 q hc le_rfl hrec
    · exact htest ⟨hc, hcmp⟩

/-- **The calls are those of `gen_pol`**: with degrees below `2^31` a finite recursion comes to an
end with fuel enough, and an infinite one never returns. -/
theorem genPol_of_recursion (hdeg : ∀ j < h.lhs.length, (h.lhsAt j).getDegree false < 2147483648) (rhs : Multinomial) :
    (h.RecursionFinite rhs.retIdArr → ∃ fuel₀, ∀ fuel ≥ fuel₀, ∀ w,
      h.makeDegArr.genPol rhs.retIdArr fuel 0 0 w ≠ .error .outOfFuel) ∧
    (¬ h.RecursionFinite rhs.retIdArr → ∀ fuel w r, h.makeDegArr.genPol rhs.retIdArr fuel 0 0 w ≠ .ok r) := by
  constructor
  · intro hacc
    refine ⟨h.maxDeg.toNat + 1, fun fuel hfuel w => genPol_ne_outOfFuel (fun j hj hcmp hmax => ?_) w ?_⟩
    · have hmax' : (0 : ℤ) ≤ h.maxDeg := (Nat.cast_nonneg _).trans hmax
      by_contra hzero
      refine not_recursionFinite (h := h) hj hcmp hmax' ?_ hacc
      rw [intDegree_eq (hdeg j hj)]
      exact_mod_cast Nat.eq_zero_of_not_pos hzero
    · have hmax : h.makeDegArr.maxDeg = h.maxDeg := rfl
      omega
  · intro hneg fuel w r
    have hneg : ¬ ∀ j < h.lhs.length, (h.lhsAt j).cmpPoly rhs.retIdArr = true → h.intDegree j ≤ h.maxDeg →
        0 < h.intDegree j := fun hpos => hneg (acc_calls hpos _ le_rfl le_rfl)
    push Not at hneg
    obtain ⟨j, hj, hcmp, hmax, hd⟩ := hneg
    rw [intDegree_eq (hdeg j hj)] at hmax hd
    have hd0 : h.makeDegArr.degAt j = 0 := by omega
    exact genPol_ne_ok (h := h.makeDegArr) hj hcmp hd0 w r (by rw [hd0] at hmax; exact hmax) (Nat.zero_le j)

end Handelman

end GridSolve.Core
