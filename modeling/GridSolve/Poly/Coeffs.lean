/-
The constants of a multinomial. A well-formed tree has one constant for each of its monomials, so
changing the constants changes the polynomial unless every constant stays as it is.
-/
import GridSolve.Poly.Reduce

namespace GridSolve.Poly

open MvPolynomial GridSolve.Specialize

namespace Multinomial

mutual

/-- The constants of the tree. -/
def coeffs : Multinomial → List ℚ
  | .const _ c => [c]
  | .node _ _ mp => coeffsMp mp

def coeffsMp : Entries → List ℚ
  | [] => []
  | (_, m) :: mp => coeffs m ++ coeffsMp mp

end

mutual

/-- The tree with `f` applied to its constants. -/
def mapCoeffs (f : ℚ → ℚ) : Multinomial → Multinomial
  | .const s c => .const s (f c)
  | .node s k mp => .node s k (mapCoeffsMp f mp)

def mapCoeffsMp (f : ℚ → ℚ) : Entries → Entries
  | [] => []
  | (e, m) :: mp => (e, mapCoeffs f m) :: mapCoeffsMp f mp

end

theorem coeffsMp_eq (mp : Entries) : coeffsMp mp = mp.flatMap fun x => x.2.coeffs := by
  induction mp with
  | nil => rfl
  | cons x mp ih => simp [coeffsMp, ih]

theorem mapCoeffsMp_eq (f : ℚ → ℚ) (mp : Entries) : mapCoeffsMp f mp = mp.mapVals fun _ m => m.mapCoeffs f := by
  induction mp with
  | nil => rfl
  | cons x mp ih => simp [mapCoeffsMp, ih, Entries.mapVals]

variable {S : Symbol → Prop} {f : ℚ → ℚ}

theorem WF.mapCoeffs {b : ℕ} {m : Multinomial} (hm : WF S b m) : WF S b (m.mapCoeffs f) := by
  induction m generalizing b with
  | const s c => exact .const
  | node s k mp ih =>
    obtain ⟨-, -, -, -, hkids⟩ := wf_node_iff.1 hm
    rw [Multinomial.mapCoeffs, mapCoeffsMp_eq]
    exact hm.mapVals fun x hx => ih x hx (hkids x hx)

/-- Fixed constants leave the tree as it is. -/
theorem mapCoeffs_eq_self {m : Multinomial} (h : ∀ c ∈ m.coeffs, f c = c) : m.mapCoeffs f = m := by
  induction m with
  | const s c => rw [mapCoeffs, h c List.mem_cons_self]
  | node s k mp ih =>
    rw [coeffs, coeffsMp_eq, List.forall_mem_flatMap] at h
    have hkids : ∀ x ∈ mp, (x.1, x.2.mapCoeffs f) = x := fun x hx => Prod.ext rfl (ih x hx (h x hx))
    rw [mapCoeffs, mapCoeffsMp_eq, Entries.mapVals, List.map_congr_left hkids, List.map_id']

/-- Only fixed constants leave the polynomial as it is. -/
theorem coeffs_fixed {b : ℕ} {m : Multinomial} (hm : WF S b m) (h : (m.mapCoeffs f).toMv = m.toMv) :
    ∀ c ∈ m.coeffs, f c = c := by
  induction m generalizing b with
  | const s c =>
    rw [mapCoeffs, toMv_const, toMv_const] at h
    simpa [coeffs] using C_injective _ _ h
  | node s k mp ih =>
    obtain ⟨-, -, hnodup, -, hkids⟩ := wf_node_iff.1 hm
    -- the changes of the coefficients, by powers of the symbol
    let diff := fun m : Multinomial => (m.mapCoeffs f).toMv - m.toMv
    have hsum : byPowers k.id (mp.map fun x => (x.1.toNat, diff x.2)) + (node s k mp).toMv
        = ((node s k mp).mapCoeffs f).toMv := by
      rw [mapCoeffs, mapCoeffsMp_eq, toMv_node, toMvMp_eq_sum, toMv_node, toMvMp_eq_sum, Entries.mapVals, List.map_map,
        byPowers, List.map_map, ← List.sum_map_add]
      congr 1
      exact List.map_congr_left fun x _ => by simp only [Function.comp_apply, diff]; ring
    have hfree : ∀ y ∈ mp.map fun x => (x.1.toNat, diff x.2), y.2.degreeOf k.id = 0 := by
      intro y hy
      obtain ⟨x, hx, rfl⟩ := List.mem_map.1 hy
      have h1 := (hkids x hx).small.2 k.id (Nat.lt_succ_self _)
      have h2 := ((hkids x hx).mapCoeffs (f := f)).small.2 k.id (Nat.lt_succ_self _)
      exact Nat.le_zero.1 ((degreeOf_sub_le _ _ _).trans (by rw [h1, h2, max_self]))
    have hall := (byPowers_eq_zero_iff (toNat_nodup diff hnodup) hfree).1 (add_eq_right.1 (hsum.trans h))
    rw [coeffs, coeffsMp_eq, List.forall_mem_flatMap]
    exact fun x hx => ih x hx (hkids x hx) (sub_eq_zero.1 (hall _ (List.mem_map.2 ⟨x, hx, rfl⟩)))

end Multinomial

end GridSolve.Poly
