/-
The cone of a family in an algebra over an ordered field: sums of non-negative constants times
products of members of the family, the products restricted to a set of multisets of indices. An
enumeration of the multisets turns membership into a finite system with one unknown for each
product, and a point where the family is non-negative makes the whole cone non-negative.
-/
import Mathlib.Algebra.Order.Field.Basic
import Mathlib.Algebra.Algebra.Basic
import Mathlib.Data.List.GetD
import Mathlib.Data.Finsupp.Basic
import Mathlib.Algebra.BigOperators.Finsupp.Basic
import Mathlib.Algebra.Order.BigOperators.Ring.Multiset
import Mathlib.Tactic

namespace GridSolve.Cone

variable {ι R K : Type*} [CommRing R] [Field K] [Algebra K R]

/-- `r` is a sum of non-negative constants times products `α.map g`, `α` in `A`. -/
def InCone (K : Type*) [Field K] [LinearOrder K] [Algebra K R] (A : Multiset ι → Prop) (g : ι → R) (r : R) : Prop :=
  ∃ c : Multiset ι →₀ K, (∀ α ∈ c.support, A α) ∧ (∀ α, 0 ≤ c α) ∧ r = c.sum fun α a => a • (α.map g).prod

/-- The values `u` from `n` on as the constants of the products `ps`. -/
def listed (g : ι → R) (ps : List (Multiset ι)) (n : ℕ) (u : ℕ → K) : R :=
  ((ps.zipIdx n).map fun x => u x.2 • (x.1.map g).prod).sum

theorem listed_eq_sum [DecidableEq ι] {g : ι → R} {ps : List (Multiset ι)} (hn : ps.Nodup) (n : ℕ) (u : ℕ → K) :
    listed g ps n u = ∑ α ∈ ps.toFinset, u (n + ps.idxOf α) • (α.map g).prod := by
  rw [List.sum_toFinset _ hn, listed]
  congr 1
  refine List.ext_getElem? fun i => ?_
  rw [List.getElem?_map, List.getElem?_map, List.getElem?_zipIdx]
  cases hi : ps[i]? with
  | none => rfl
  | some α =>
    obtain ⟨hlt, rfl⟩ := List.getElem?_eq_some_iff.1 hi
    simp [hn.idxOf_getElem]

variable [LinearOrder K]

/-- **Membership as a finite system**: with the products listed once each, one non-negative unknown
for every product. -/
theorem inCone_iff_listed {A : Multiset ι → Prop} {g : ι → R} {r : R} {ps : List (Multiset ι)} (hn : ps.Nodup)
    (hA : ∀ α, α ∈ ps ↔ A α) (n : ℕ) :
    InCone K A g r ↔ ∃ u : ℕ → K, (∀ t, n ≤ t → t < n + ps.length → 0 ≤ u t) ∧ r = listed g ps n u := by
  classical
  constructor
  · rintro ⟨c, hc, h0, rfl⟩
    refine ⟨fun t => c (ps.getD (t - n) 0), fun t _ _ => h0 _, ?_⟩
    rw [listed_eq_sum hn, Finsupp.sum_of_support_subset c (s := ps.toFinset)]
    · refine Finset.sum_congr rfl fun α hα => ?_
      have hlt := List.idxOf_lt_length_of_mem (List.mem_toFinset.1 hα)
      rw [Nat.add_sub_cancel_left, List.getD_eq_getElem _ _ hlt, List.getElem_idxOf]
    · intro α hα
      exact List.mem_toFinset.2 ((hA α).2 (hc α hα))
    · intro α _
      exact zero_smul K _
  · rintro ⟨u, hu, rfl⟩
    have hpos : ∀ α ∈ ps, 0 ≤ u (n + ps.idxOf α) := fun α hα =>
      hu _ (Nat.le_add_right ..) (Nat.add_lt_add_left (List.idxOf_lt_length_of_mem hα) n)
    refine ⟨Finsupp.onFinset ps.toFinset (fun α => if α ∈ ps then u (n + ps.idxOf α) else 0) ?_, ?_, ?_, ?_⟩
    · intro α hα
      by_contra hne
      exact hα (if_neg fun h => hne (List.mem_toFinset.2 h))
    · intro α hα
      have := Finsupp.support_onFinset_subset hα
      exact (hA α).1 (List.mem_toFinset.1 this)
    · intro α
      simp only [Finsupp.onFinset_apply]
      split_ifs with h
      · exact hpos α h
      · exact le_rfl
    · rw [listed_eq_sum hn]
      have hz : ∀ α : Multiset ι, (0 : K) • (α.map g).prod = 0 := fun α => zero_smul K _
      refine Eq.trans ?_ (Finsupp.onFinset_sum _ hz).symm
      exact Finset.sum_congr rfl fun α hα => by rw [if_pos (List.mem_toFinset.1 hα)]

/-! ## Closure -/

section

variable {A : Multiset ι → Prop} {g : ι → R}

theorem inCone_zero : InCone K A g (0 : R) := ⟨0, by simp, fun _ => le_rfl, by simp⟩

/-- A non-negative constant times one product. -/
theorem inCone_smul_prod {α : Multiset ι} (hα : A α) {a : K} (ha : 0 ≤ a) : InCone K A g (a • (α.map g).prod) := by
  classical
  refine ⟨Finsupp.single α a, fun β hβ => ?_, fun β => ?_, ?_⟩
  · rw [Finset.mem_singleton.1 (Finsupp.support_single_subset hβ)]
    exact hα
  · rw [Finsupp.single_apply]
    split_ifs
    · exact ha
    · exact le_rfl
  · rw [Finsupp.sum_single_index]
    exact zero_smul K (α.map g).prod

variable [IsStrictOrderedRing K]

theorem InCone.add {r s : R} (hr : InCone K A g r) (hs : InCone K A g s) : InCone K A g (r + s) := by
  classical
  obtain ⟨c, hc, hc0, rfl⟩ := hr
  obtain ⟨d, hd, hd0, rfl⟩ := hs
  refine ⟨c + d, fun α hα => ?_, fun α => add_nonneg (hc0 α) (hd0 α), ?_⟩
  · rcases Finset.mem_union.1 (Finsupp.support_add hα) with h | h
    · exact hc α h
    · exact hd α h
  · have hzero : ∀ α : Multiset ι, (0 : K) • (α.map g).prod = 0 := fun α => zero_smul K _
    have hadd : ∀ (α : Multiset ι) (a b : K), (a + b) • (α.map g).prod = a • (α.map g).prod + b • (α.map g).prod :=
      fun α a b => add_smul a b _
    exact (Finsupp.sum_add_index' hzero hadd).symm

theorem InCone.sum {κ : Type*} {t : Finset κ} {f : κ → R} (h : ∀ k ∈ t, InCone K A g (f k)) :
    InCone K A g (∑ k ∈ t, f k) := by
  classical
  induction t using Finset.induction_on with
  | empty => exact inCone_zero
  | insert k t hk ih =>
    rw [Finset.sum_insert hk]
    exact (h k (Finset.mem_insert_self k t)).add (ih fun l hl => h l (Finset.mem_insert_of_mem hl))

end

theorem InCone.mono {A B : Multiset ι → Prop} {g : ι → R} {r : R} (h : InCone K A g r) (hAB : ∀ α, A α → B α) :
    InCone K B g r := by
  obtain ⟨c, hc, h0, hr⟩ := h
  exact ⟨c, fun α hα => hAB α (hc α hα), h0, hr⟩

section

variable [IsStrictOrderedRing K] {A : Multiset ι → Prop} {g : ι → R} (φ : R →ₐ[K] R) {rel : ι → Prop}
    [DecidablePred rel]

/-- A map that turns some members of the family into non-negative constants turns a product into a
constant times the product of the others. -/
theorem map_prod_filter {α : Multiset ι} (hrel : ∀ j ∈ α, rel j → φ (g j) = g j)
    (hconst : ∀ j ∈ α, ¬ rel j → ∃ c : K, 0 ≤ c ∧ φ (g j) = algebraMap K R c) :
    ∃ c : K, 0 ≤ c ∧ φ (α.map g).prod = c • ((α.filter rel).map g).prod := by
  induction α using Multiset.induction_on with
  | empty => exact ⟨1, zero_le_one, by simp⟩
  | cons j α ih =>
    obtain ⟨c, hc, hprod⟩ := ih (fun i hi => hrel i (Multiset.mem_cons_of_mem hi))
      fun i hi => hconst i (Multiset.mem_cons_of_mem hi)
    by_cases hj : rel j
    · refine ⟨c, hc, ?_⟩
      rw [Multiset.map_cons, Multiset.prod_cons, map_mul, hprod, hrel j (Multiset.mem_cons_self j α) hj,
        Multiset.filter_cons_of_pos _ hj, Multiset.map_cons, Multiset.prod_cons, mul_smul_comm]
    · obtain ⟨d, hd, hg⟩ := hconst j (Multiset.mem_cons_self j α) hj
      refine ⟨d * c, mul_nonneg hd hc, ?_⟩
      rw [Multiset.map_cons, Multiset.prod_cons, map_mul, hprod, hg, Multiset.filter_cons_of_neg _ hj, mul_smul,
        Algebra.smul_def d]

/-- **Some members of the family can be left out**: if a map fixes `r` and the other members, and
makes these non-negative constants, a combination becomes one without them. -/
theorem InCone.filter {B : Multiset ι → Prop} {r : R} (h : InCone K A g r) (hr : φ r = r)
    (hrel : ∀ α, A α → ∀ j ∈ α, rel j → φ (g j) = g j)
    (hconst : ∀ α, A α → ∀ j ∈ α, ¬ rel j → ∃ c : K, 0 ≤ c ∧ φ (g j) = algebraMap K R c)
    (hB : ∀ α, A α → B (α.filter rel)) : InCone K B g r := by
  obtain ⟨c, hc, h0, he⟩ := h
  have hsum : r = ∑ α ∈ c.support, c α • φ (α.map g).prod := by
    rw [← hr, he, Finsupp.sum, map_sum]
    simp only [map_smul]
  rw [hsum]
  refine InCone.sum fun α hα => ?_
  obtain ⟨d, hd, hprod⟩ := map_prod_filter φ (hrel α (hc α hα)) (hconst α (hc α hα))
  rw [hprod, smul_smul]
  exact inCone_smul_prod (hB α (hc α hα)) (mul_nonneg (h0 α) hd)

end

theorem InCone.congr {A : Multiset ι → Prop} {g g' : ι → R} {r : R} (h : InCone K A g r)
    (hg : ∀ α, A α → ∀ j ∈ α, g j = g' j) : InCone K A g' r := by
  obtain ⟨c, hc, h0, rfl⟩ := h
  refine ⟨c, hc, h0, Finset.sum_congr rfl fun α hα => ?_⟩
  simp only [Multiset.map_congr rfl (hg α (hc α hα))]

section

variable [IsStrictOrderedRing K] {A B : Multiset ι → Prop} {g g' : ι → R}

theorem InCone.smul {r : R} (h : InCone K A g r) {a : K} (ha : 0 ≤ a) : InCone K A g (a • r) := by
  obtain ⟨c, hc, h0, rfl⟩ := h
  rw [Finsupp.sum, Finset.smul_sum]
  refine InCone.sum fun α hα => ?_
  rw [smul_smul]
  exact inCone_smul_prod (hc α hα) (mul_nonneg ha (h0 α))

/-- A product of members that are larger than those of another family by non-negative constants. -/
theorem inCone_prod_of_add {c : ι → K} {α : Multiset ι} (hg : ∀ j ∈ α, g j = g' j + algebraMap K R (c j))
    (hc : ∀ j ∈ α, 0 ≤ c j) (hB : ∀ β ≤ α, B β) : InCone K B g' (α.map g).prod := by
  induction α using Multiset.induction_on generalizing B with
  | empty => simpa using inCone_smul_prod (g := g') (hB 0 le_rfl) (zero_le_one (α := K))
  | cons j α ih =>
    have hrest := ih (B := fun β => B β ∧ B (j ::ₘ β)) (fun i hi => hg i (Multiset.mem_cons_of_mem hi))
      (fun i hi => hc i (Multiset.mem_cons_of_mem hi))
      fun β hβ => ⟨hB β (hβ.trans (Multiset.le_cons_self α j)), hB _ (Multiset.cons_le_cons j hβ)⟩
    obtain ⟨d, hd, h0, hprod⟩ := hrest
    -- the new member as a further factor, and the constant it is larger by
    have hfactor : InCone K B g' (g' j * (α.map g).prod) := by
      rw [hprod, Finsupp.sum, Finset.mul_sum]
      refine InCone.sum fun β hβ => ?_
      rw [mul_smul_comm, ← Multiset.prod_cons, ← Multiset.map_cons]
      exact inCone_smul_prod (hd β hβ).2 (h0 β)
    have hconst : InCone K B g' (c j • (α.map g).prod) :=
      InCone.smul ⟨d, fun β hβ => (hd β hβ).1, h0, hprod⟩ (hc j (Multiset.mem_cons_self j α))
    rw [Multiset.map_cons, Multiset.prod_cons, hg j (Multiset.mem_cons_self j α), add_mul, ← Algebra.smul_def]
    exact hfactor.add hconst

/-- **Smaller members are enough**: if the members that occur are larger than those of another family
by non-negative constants, a combination becomes one of products of the other family. -/
theorem InCone.of_add {r : R} (h : InCone K A g r) {c : ι → K}
    (hg : ∀ α, A α → ∀ j ∈ α, g j = g' j + algebraMap K R (c j) ∧ 0 ≤ c j)
    (hB : ∀ α, A α → ∀ β ≤ α, B β) : InCone K B g' r := by
  obtain ⟨d, hd, h0, rfl⟩ := h
  refine InCone.sum fun α hα => InCone.smul ?_ (h0 α)
  exact inCone_prod_of_add (fun j hj => (hg α (hd α hα) j hj).1) (fun j hj => (hg α (hd α hα) j hj).2) (hB α (hd α hα))

end

/-- Where every member of the family that occurs is non-negative, so is the cone. -/
theorem InCone.nonneg [IsStrictOrderedRing K] {A : Multiset ι → Prop} {g : ι → R} {r : R} (h : InCone K A g r)
    (φ : R →ₐ[K] K) (hg : ∀ α, A α → ∀ j ∈ α, 0 ≤ φ (g j)) : 0 ≤ φ r := by
  obtain ⟨c, hc, h0, rfl⟩ := h
  rw [map_finsuppSum]
  refine Finset.sum_nonneg fun α hα => ?_
  simp only [map_smul, smul_eq_mul, map_multiset_prod, Multiset.map_map]
  refine mul_nonneg (h0 α) (Multiset.prod_nonneg fun a ha => ?_)
  obtain ⟨j, hj, rfl⟩ := Multiset.mem_map.1 ha
  exact hg α (hc α hα) j hj

end GridSolve.Cone
