/-
What `add_child` and `get_ll` (`approximation.hpp`) do for arbitrary paths: the boxes listed are the
cells of the paths that no other one continues, each once, and only the set of paths inserted
matters.
-/
import GridSolve.Grid.Trie

namespace GridSolve.Grid

open GridSolve.Bisection

/-- A path of a trie with `n` dimensions: the entry `i + 1` is the upper half in dimension `i`, and
`-(i + 1)` the lower half. -/
def IsPath (n : ℕ) (p : List ℤ) : Prop := ∀ d ∈ p, d ≠ 0 ∧ d.natAbs ≤ n

instance decidableIsPath (n : ℕ) (p : List ℤ) : Decidable (IsPath n p) := by unfold IsPath; infer_instance

/-- The trie that `add_child` builds from the paths, inserted in this order into `trie_node(n)`. -/
def addChildren (ws : List (List ℤ)) : Trie ℤ := ws.foldl (fun t w => addChild w t) Trie.new

/-- The cell of a path: the bounds, halved step by step along it. -/
def cell (bounds : Coords) (p : List ℤ) : Coords := p.foldl (fun c d => halve d c) bounds

theorem addChildren_eq (ws : List (List ℤ)) : addChildren ws = Trie.ofWords ws := rfl

theorem mem_labels_iff {n : ℕ} {d : ℤ} : d ∈ labels n ↔ d ≠ 0 ∧ d.natAbs ≤ n := by
  simp only [labels, List.mem_flatMap, List.mem_range, List.mem_cons, List.not_mem_nil, or_false, label,
    Bool.false_eq_true, if_false, if_true]
  constructor
  · rintro ⟨i, hi, rfl | rfl⟩ <;> omega
  · rintro ⟨h0, hn⟩
    refine ⟨d.natAbs - 1, by omega, ?_⟩
    omega

theorem isPath_iff {n : ℕ} {p : List ℤ} : IsPath n p ↔ ∀ d ∈ p, d ∈ labels n := by
  simp only [IsPath, mem_labels_iff]

theorem nodup_labels (n : ℕ) : (labels n).Nodup := by
  rw [labels, List.nodup_flatMap]
  constructor
  · intro i _
    simp only [label, Bool.false_eq_true, if_false, if_true, List.nodup_cons, List.mem_singleton,
      List.not_mem_nil, not_false_eq_true, List.nodup_nil, and_true]
    omega
  · refine List.nodup_range.imp fun {i j} hne d hd hd' => ?_
    simp only [label, Bool.false_eq_true, if_false, if_true, List.mem_cons, List.not_mem_nil, or_false] at hd hd'
    omega

/-- The paths that lead to the leaves are those inserted that none continues. With nothing inserted the
root is the only leaf. -/
theorem leafAt_addChildren {ws : List (List ℤ)} {p : List ℤ} :
    Trie.LeafAt p (addChildren ws) ↔ (p ∈ ws ∨ ws = [] ∧ p = []) ∧ ∀ w ∈ ws, p <+: w → w = p := by
  rw [addChildren_eq, Trie.leafAt_ofWords]
  refine and_congr_left fun hlast => ?_
  constructor
  · rintro (rfl | hp)
    · cases ws with
      | nil => exact .inr ⟨rfl, rfl⟩
      | cons w ws => exact .inl (hlast w List.mem_cons_self List.nil_prefix ▸ List.mem_cons_self)
    · exact .inl hp
  · rintro (hp | ⟨-, rfl⟩)
    · exact .inr hp
    · exact .inl rfl

theorem isPath_of_leafAt {n : ℕ} {ws : List (List ℤ)} (hws : ∀ w ∈ ws, IsPath n w) {p : List ℤ}
    (h : Trie.LeafAt p (addChildren ws)) : IsPath n p := by
  rcases (leafAt_addChildren.1 h).1 with hp | ⟨-, rfl⟩
  · exact hws p hp
  · exact nofun

theorem live_addChildren {n : ℕ} {ws : List (List ℤ)} (hws : ∀ w ∈ ws, IsPath n w) :
    (addChildren ws).Live (labels n) := Trie.live_ofWords fun w hw => isPath_iff.1 (hws w hw)

/-- **The boxes that `get_ll` lists** after a list of paths: one for every path that no other one
continues, namely its cell. Neither the order of the insertions nor repetitions matter. -/
theorem getLl_lists {n : ℕ} {ws : List (List ℤ)} (hne : ws ≠ []) (hws : ∀ w ∈ ws, IsPath n w) (bounds : Coords)
    {l : Ll} (hl : l.Reached) :
    (∃ ps : List (List ℤ), ps.Nodup ∧ (∀ p, p ∈ ps ↔ p ∈ ws ∧ ∀ w ∈ ws, p <+: w → w = p) ∧
      (getLl n (addChildren ws) bounds l).boxes = l.boxes ++ ps.map fun p => .new (cell bounds p)) ∧
    ∀ us : List (List ℤ), (∀ w, w ∈ us ↔ w ∈ ws) →
      getLl n (addChildren us) bounds l = getLl n (addChildren ws) bounds l := by
  constructor
  · refine ⟨Trie.leafWords (labels n) (addChildren ws), Trie.nodup_leafWords (nodup_labels n) _, fun p => ?_, ?_⟩
    · rw [Trie.mem_leafWords, ← isPath_iff]
      have hleaf : Trie.LeafAt p (addChildren ws) ↔ p ∈ ws ∧ ∀ w ∈ ws, p <+: w → w = p := by
        rw [leafAt_addChildren]
        simp only [hne, false_and, or_false]
      exact ⟨fun h => hleaf.1 h.2, fun h => ⟨hws p h.1, hleaf.2 h⟩⟩
    · rw [(boxes_getLl n _ bounds hl.holds).2, Trie.leaves_eq, List.map_map]
      rfl
  · intro us hmem
    rw [addChildren_eq, addChildren_eq, (Trie.holds_ofWords us).unique (Trie.holds_ofWords ws) hmem]

/-- The path `[1]` is continued by `[1, -2]`, so two cells are listed. -/
theorem getLl_lists_three : ∃ ps : List (List ℤ), ps.Nodup ∧
    (∀ p, p ∈ ps ↔ p ∈ [[1], [-1], [1, -2]] ∧ ∀ w ∈ ([[1], [-1], [1, -2]] : List (List ℤ)), p <+: w → w = p) ∧
    (getLl 2 (addChildren [[1], [-1], [1, -2]]) [(0, 2), (0, 2)] .empty).boxes =
      Ll.empty.boxes ++ ps.map fun p => .new (cell [(0, 2), (0, 2)] p) :=
  (getLl_lists (by decide) (by decide) [(0, 2), (0, 2)] .empty).1

example : (getLl 2 (addChildren [[1], [-1], [1, -2]]) [(0, 2), (0, 2)] .empty).boxes =
    [.new [(0, 1), (0, 2)], .new [(1, 2), (0, 1)]] := by decide +kernel

end GridSolve.Grid
