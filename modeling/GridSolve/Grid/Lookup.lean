/-
`trie_node::find` (`approximation.hpp`) on arbitrary tries of dimension-sorted paths: a path is found
exactly when some path to a leaf is compatible with it, which is to say that their cells have an
inner point in common.
-/
import GridSolve.Grid.Filter
import GridSolve.Grid.Leaves

namespace GridSolve.Grid

open GridSolve.Bisection

/-- All entries of dimension 1, then of dimension 2, and so on. -/
def DimSorted (p : List ℤ) : Prop := p.Pairwise fun d e => d.natAbs ≤ e.natAbs

instance decidableDimSorted (p : List ℤ) : Decidable (DimSorted p) := by unfold DimSorted; infer_instance

/-- The decisions of a path in dimension `i`, `true` for the upper half. -/
def decisions (p : List ℤ) : Address := fun i => (p.filter fun d => d.natAbs = i + 1).map fun d => decide (0 < d)

/-- The decisions of two paths are comparable in every dimension. -/
def Compatible (r q : List ℤ) : Prop := ∀ i, decisions r i <+: decisions q i ∨ decisions q i <+: decisions r i

/-! ## A sorted path from its decisions -/

theorem label_decide {i : ℕ} {d : ℤ} (h : d.natAbs = i + 1) : label i (decide (0 < d)) = d := by
  by_cases hd : 0 < d
  · rw [decide_eq_true hd, label, if_pos rfl]
    omega
  · rw [decide_eq_false hd, label, if_neg Bool.false_ne_true]
    omega

theorem map_label_decisions (p : List ℤ) (i : ℕ) :
    (decisions p i).map (label i) = p.filter fun d => d.natAbs = i + 1 := by
  rw [decisions, List.map_map]
  refine (List.map_congr_left fun d hd => ?_).trans (List.map_id _)
  exact label_decide (of_decide_eq_true (List.mem_filter.1 hd).2)

/-- In a sorted path the entries up to dimension `n` come before those of the next one. -/
theorem DimSorted.filter_succ (n : ℕ) : ∀ {p : List ℤ}, DimSorted p →
    (p.filter fun d => d ≠ 0 ∧ d.natAbs ≤ n) ++ (p.filter fun d => d.natAbs = n + 1) =
      p.filter fun d => d ≠ 0 ∧ d.natAbs ≤ n + 1
  | [], _ => rfl
  | d :: p, h => by
    have ih := DimSorted.filter_succ n (List.pairwise_cons.1 h).2
    by_cases hd : d.natAbs ≤ n
    · have hne : ¬ d.natAbs = n + 1 := by omega
      by_cases h0 : d = 0
      · simpa [h0] using ih
      · simpa [h0, hd, hne, hd.trans (Nat.le_succ n)] using ih
    · -- from here on nothing is of a dimension up to `n`
      have hrest : p.filter (fun d => d ≠ 0 ∧ d.natAbs ≤ n) = [] := by
        rw [List.filter_eq_nil_iff]
        intro e he
        have hde := (List.pairwise_cons.1 h).1 e he
        simp only [ne_eq, decide_eq_true_eq, not_and]
        omega
      have hd0 : d ≠ 0 := by omega
      rw [hrest, List.nil_append] at ih
      rw [List.filter_cons_of_neg (by simp [hd]), hrest, List.nil_append]
      by_cases hn : d.natAbs = n + 1
      · rw [List.filter_cons_of_pos (by simp [hn]), List.filter_cons_of_pos (by simp [hn, hd0]), ih]
      · have hgt : ¬ d.natAbs ≤ n + 1 := by omega
        rw [List.filter_cons_of_neg (by simp [hn]), List.filter_cons_of_neg (by simp [hgt]), ih]

/-- A sorted path is the path of its decisions. -/
theorem DimSorted.pathOf_decisions {n : ℕ} {p : List ℤ} (h : DimSorted p) (hp : IsPath n p) :
    pathOf n (decisions p) = p := by
  have hloop : ∀ k, (List.range k).flatMap (fun i => (decisions p i).map (label i)) =
      p.filter fun d => d ≠ 0 ∧ d.natAbs ≤ k := by
    intro k
    induction k with
    | zero =>
      symm
      rw [List.range_zero, List.flatMap_nil, List.filter_eq_nil_iff]
      intro d _
      simp only [ne_eq, decide_eq_true_eq, not_and]
      omega
    | succ k ih =>
      rw [List.range_succ, List.flatMap_append, ih, List.flatMap_singleton, map_label_decisions, h.filter_succ]
  rw [pathOf, hloop, List.filter_eq_self]
  exact fun d hd => decide_eq_true (hp d hd)

/-- A dimension in which the path has no entry. -/
theorem decisions_eq_nil {n : ℕ} {p : List ℤ} (hp : IsPath n p) {i : ℕ} (hi : n ≤ i) : decisions p i = [] := by
  rw [decisions, List.map_eq_nil_iff, List.filter_eq_nil_iff]
  intro d hd
  have := (hp d hd).2
  simp only [decide_eq_true_eq]
  omega

/-- Every path without an entry 0 is a path of enough dimensions. -/
theorem exists_isPath (n : ℕ) {q : List ℤ} (h0 : 0 ∉ q) : ∃ m, n ≤ m ∧ IsPath m q := by
  refine ⟨n + (q.map Int.natAbs).sum, Nat.le_add_right _ _, fun d hd => ⟨fun he => h0 (he ▸ hd), ?_⟩⟩
  have := List.le_sum_of_mem (List.mem_map_of_mem (f := Int.natAbs) hd)
  omega

/-! ## Cells -/

theorem getElem?_cell : ∀ {p : List ℤ}, 0 ∉ p → ∀ (bounds : Coords) (i : ℕ),
    (cell bounds p)[i]? = bounds[i]?.map fun e => sub e (decisions p i)
  | [], _, bounds, i => by simp [cell, decisions]
  | d :: p, h0, bounds, i => by
    rw [List.mem_cons, not_or] at h0
    have hcell : cell bounds (d :: p) = cell (halve d bounds) p := rfl
    have hidx : d.natAbs - 1 = i ↔ d.natAbs = i + 1 := by have := h0.1; omega
    rw [hcell, getElem?_cell h0.2, halve, List.getElem?_modify]
    by_cases hd : d.natAbs = i + 1
    · simp [hd, decisions, Function.comp_def]
    · simp [hidx, hd, decisions]

/-- An inner point of a cell, and the cells of two words of which one begins the other. -/
theorem exists_between_of_isPrefix {e : ℚ × ℚ} (he : e.1 < e.2) {s t : List Bool} (h : s <+: t) :
    ∃ x : ℝ, (((sub e s).1 : ℝ) < x ∧ x < ((sub e s).2 : ℝ)) ∧ ((sub e t).1 : ℝ) < x ∧ x < ((sub e t).2 : ℝ) := by
  have hlt : ((sub e t).1 : ℝ) < ((sub e t).2 : ℝ) := by exact_mod_cast sub_lt t he
  obtain ⟨h1, h2⟩ := sub_within_of_isPrefix h he
  have h1' : ((sub e s).1 : ℝ) ≤ ((sub e t).1 : ℝ) := by exact_mod_cast h1
  have h2' : ((sub e t).2 : ℝ) ≤ ((sub e s).2 : ℝ) := by exact_mod_cast h2
  obtain ⟨x, hx1, hx2⟩ := exists_between hlt
  exact ⟨x, ⟨h1'.trans_lt hx1, hx2.trans_le h2'⟩, hx1, hx2⟩

/-- Cells have an inner point in common exactly when their words are comparable. -/
theorem exists_between_iff {e : ℚ × ℚ} (he : e.1 < e.2) (s t : List Bool) :
    (∃ x : ℝ, (((sub e s).1 : ℝ) < x ∧ x < ((sub e s).2 : ℝ)) ∧ ((sub e t).1 : ℝ) < x ∧ x < ((sub e t).2 : ℝ)) ↔
      s <+: t ∨ t <+: s := by
  constructor
  · rintro ⟨x, ⟨hs1, hs2⟩, ht1, ht2⟩
    exact comparable_of_overlap he (by exact_mod_cast hs1.trans ht2) (by exact_mod_cast ht1.trans hs2)
  · rintro (h | h)
    · exact exists_between_of_isPrefix he h
    · obtain ⟨x, ht, hs⟩ := exists_between_of_isPrefix he h
      exact ⟨x, hs, ht⟩

/-- The cells of two paths, one of `n` dimensions, have an inner point in common exactly when the paths
are compatible. -/
theorem compatible_iff {n : ℕ} {r q : List ℤ} (hr : IsPath n r) (h0 : 0 ∉ q) {bounds : Coords} (hn : n ≤ bounds.length)
    (hb : ∀ e ∈ bounds, e.1 < e.2) :
    Compatible r q ↔ ∃ x, Inside (cell bounds r) x ∧ Inside (cell bounds q) x := by
  have hr0 : 0 ∉ r := fun h => (hr 0 h).1 rfl
  constructor
  · intro h
    have hx : ∀ i : ℕ, ∃ x : ℝ, ∀ e, bounds[i]? = some e →
        (((sub e (decisions r i)).1 : ℝ) < x ∧ x < ((sub e (decisions r i)).2 : ℝ)) ∧
          ((sub e (decisions q i)).1 : ℝ) < x ∧ x < ((sub e (decisions q i)).2 : ℝ) := by
      intro i
      cases he : bounds[i]? with
      | none => exact ⟨0, nofun⟩
      | some e =>
        obtain ⟨x, hx⟩ := (exists_between_iff (hb e (List.mem_of_getElem? he)) _ _).2 (h i)
        refine ⟨x, fun e' he' => ?_⟩
        cases he'
        exact hx
    choose x hx using hx
    refine ⟨x, fun i c hc => ?_, fun i c hc => ?_⟩
    · rw [getElem?_cell hr0, Option.map_eq_some_iff] at hc
      obtain ⟨e, he, rfl⟩ := hc
      exact (hx i e he).1
    · rw [getElem?_cell h0, Option.map_eq_some_iff] at hc
      obtain ⟨e, he, rfl⟩ := hc
      exact (hx i e he).2
  · rintro ⟨x, hxr, hxq⟩ i
    by_cases hi : i < bounds.length
    · have he := List.getElem?_eq_getElem hi
      apply (exists_between_iff (hb _ (List.mem_of_getElem? he)) _ _).1
      exact ⟨x i, hxr i _ (by rw [getElem?_cell hr0, he]; rfl), hxq i _ (by rw [getElem?_cell h0, he]; rfl)⟩
    · rw [decisions_eq_nil hr (hn.trans (not_lt.1 hi))]
      exact .inl List.nil_prefix

/-! ## The search -/

/-- **`find` decides compatibility**: on the trie of any sorted paths a sorted path is found exactly
when some path to a leaf is compatible with it. Compatible paths are those whose cells overlap. -/
theorem find_decides {n : ℕ} {ws : List (List ℤ)} (hws : ∀ w ∈ ws, IsPath n w) (hsorted : ∀ w ∈ ws, DimSorted w)
    {q : List ℤ} (h0 : 0 ∉ q) (hq : DimSorted q) :
    (find n (addChildren ws) q = true ↔ ∃ r, Trie.LeafAt r (addChildren ws) ∧ Compatible r q) ∧
      ∀ r, Trie.LeafAt r (addChildren ws) → ∀ bounds : Coords, n ≤ bounds.length → (∀ e ∈ bounds, e.1 < e.2) →
        (Compatible r q ↔ ∃ x, Inside (cell bounds r) x ∧ Inside (cell bounds q) x) := by
  refine ⟨?_, fun r hr bounds hn hb => compatible_iff (isPath_of_leafAt hws hr) h0 hn hb⟩
  obtain ⟨m, hnm, hqm⟩ := exists_isPath n h0
  -- what is left of the path can be carried along `r` exactly when `r` is compatible
  have hsome : ∀ r, Trie.LeafAt r (addChildren ws) →
      ((r.foldlM (fun c d => advance d c) q).isSome ↔ Compatible r q) := by
    intro r hr
    have hrn := isPath_of_leafAt hws hr
    have hrm : IsPath m r := fun d hd => ⟨(hrn d hd).1, (hrn d hd).2.trans hnm⟩
    have hrs : DimSorted r := by
      rcases (leafAt_addChildren.1 hr).1 with h | ⟨-, rfl⟩
      · exact hsorted r h
      · exact List.Pairwise.nil
    have h := isSome_advance_iff m (decisions r) (decisions q)
    rw [hrs.pathOf_decisions hrm, hq.pathOf_decisions hqm] at h
    refine h.trans ⟨fun hagree i => ?_, fun hcomp i _ => hcomp i⟩
    by_cases hi : i < m
    · exact hagree i hi
    · rw [decisions_eq_nil hrm (not_lt.1 hi)]
      exact .inl List.nil_prefix
  rw [find, Trie.search_iff advance_isEmpty (live_addChildren hws)]
  constructor
  · rintro ⟨r, -, hr, h⟩
    exact ⟨r, hr, (hsome r hr).1 h⟩
  · rintro ⟨r, hr, h⟩
    exact ⟨r, isPath_iff.1 (isPath_of_leafAt hws hr), hr, (hsome r hr).2 h⟩

/-- The path `[1, 2]` refines dimension 2, which the leaf `[1, 1]` skips, and stops earlier in
dimension 1. -/
theorem find_decides_skips : find 2 (addChildren [[1, 1], [-1, 2]]) [1, 2] = true := by
  refine (find_decides (by decide) (by decide) (by decide) (by decide)).1.2 ⟨[1, 1], ?_, fun i => ?_⟩
  · exact leafAt_addChildren.2 ⟨.inl (by decide), by decide⟩
  · match i with
    | 0 => exact .inr ⟨[true], by decide⟩
    | i + 1 => exact .inl ⟨decisions [1, 2] (i + 1), by simp [decisions]⟩

example : find 2 (addChildren [[1, 1], [-1, 2]]) [-1, -2] = false := by decide +kernel

end GridSolve.Grid
