/-
`class trie_node` (`approximation.hpp`): the bisection trie of a list of boxes. `get_path` names a
box by the halvings that lead from the bounds to the cell at which it stops, `make_trie` stores the
paths and `get_ll` lists the cells at the leaves, which are those of the paths that no other path
continues.
-/
import GridSolve.Grid.Ll
import GridSolve.Lib.Bisection
import GridSolve.Lib.Loops
import GridSolve.Lib.Trie

namespace GridSolve.Grid

open GridSolve.Bisection GridSolve.Loops

/-! ## The code -/

/-- The condition of the loop of `get_path`, `e` the current interval and `c` the side of the box.
`abs` is the one of `double`. -/
def bisects (c e : ℚ × ℚ) : Bool :=
  e.2 - e.1 > 2 * (c.2 - c.1) && (|e.1 - c.1| ≥ 1 / 10000 || |e.2 - c.2| ≥ 1 / 10000)

/-- The label of a halving of dimension `i`. -/
def label (i : ℕ) (upper : Bool) : ℤ := if upper then i + 1 else -(i + 1)

/-- The loop of `get_path` in dimension `i`. It does not stop on every box, hence the fuel. -/
def pathFrom (i : ℕ) (c : ℚ × ℚ) : ℕ → ℚ × ℚ → Option (List ℤ)
  | 0, _ => none
  | fuel + 1, e =>
    if bisects c e then
      if (e.1 + e.2) / 2 ≤ c.1 then (pathFrom i c fuel ((e.1 + e.2) / 2, e.2)).map (label i true :: ·)
      else (pathFrom i c fuel (e.1, (e.1 + e.2) / 2)).map (label i false :: ·)
    else some []

/-- `get_path`. -/
def getPath (fuel : ℕ) (coords bounds : Coords) (nD : ℕ) : Option (List ℤ) := do
  let pieces ← (List.range nD).mapM fun i => do
    let c ← coords[i]?
    let e ← bounds[i]?
    pathFrom i c fuel e
  return pieces.flatten

/-- `add_child`. The branch of a node at `label i true` is `next_right[i]`, the one at `label i false`
is `next_left[i]`. -/
def addChild (path : List ℤ) (t : Trie ℤ) : Trie ℤ := t.insert path

/-- `make_trie`. -/
def makeTrie (fuel : ℕ) (l : Ll) (n : ℕ) (bounds : Coords) : Option (Trie ℤ) :=
  l.boxes.foldlM (fun head b => (getPath fuel b.coords bounds n).map fun pth => addChild pth head) Trie.new

/-- The upper end of coordinate `i` moved to the middle. -/
def lowerHalf (i : ℕ) (coords : Coords) : Coords := coords.modify i fun c => (c.1, (c.1 + c.2) * (1 / 2))

/-- The upper end moved back. -/
def undoLower (i : ℕ) (coords : Coords) : Coords := coords.modify i fun c => (c.1, 2 * c.2 - c.1)

/-- The lower end of coordinate `i` moved to the middle. -/
def upperHalf (i : ℕ) (coords : Coords) : Coords := coords.modify i fun c => ((c.1 + c.2) * (1 / 2), c.2)

/-- The lower end moved back. -/
def undoUpper (i : ℕ) (coords : Coords) : Coords := coords.modify i fun c => (2 * c.1 - c.2, c.2)

/-- One branch of a node: halve, list what is below with `rest`, move the end back. -/
def branch (half undo : Coords → Coords) (child : Trie ℤ) (rest : Coords → Ll → Ll) (s : Coords × Ll) : Coords × Ll :=
  if child.isNull then s else (undo (half s.1), rest (half s.1) s.2)

/-- `get_ll` on a node with `n_dir = n`. -/
def getLl (n : ℕ) : Trie ℤ → Coords → Ll → Ll
  | .null, _, l => l
  | .node isLeaf next, coords, l =>
    if isLeaf then l.addNode (.new coords)
    else
      ((List.range n).foldl (fun s i =>
        branch (upperHalf i) (undoUpper i) (next (label i true)) (getLl n (next (label i true)))
          (branch (lowerHalf i) (undoLower i) (next (label i false)) (getLl n (next (label i false))) s)) (coords, l)).2

/-! ## Addresses -/

/-- For every dimension the halves taken, in order. -/
abbrev Address := ℕ → List Bool

/-- The box at an address. -/
def cellAt (bounds : Coords) (a : Address) : Coords := bounds.mapIdx fun i e => sub e (a i)

theorem getElem?_cellAt (bounds : Coords) (a : Address) (i : ℕ) :
    (cellAt bounds a)[i]? = bounds[i]?.map fun e => sub e (a i) := by
  simp [cellAt]

theorem cellAt_congr {bounds : Coords} {a a' : Address} (h : ∀ i < bounds.length, a i = a' i) :
    cellAt bounds a = cellAt bounds a' := by
  apply List.ext_getElem?
  intro i
  rw [getElem?_cellAt, getElem?_cellAt]
  cases he : bounds[i]? with
  | none => rfl
  | some e => rw [h i (List.getElem?_eq_some_iff.1 he).1]

/-- The path with the halvings `a i` in dimension `i`. -/
def pathOf (n : ℕ) (a : Address) : List ℤ := (List.range n).flatMap fun i => (a i).map (label i)

/-- As far as both go, two addresses take the same halves in every dimension. -/
def Agree (n : ℕ) (a q : Address) : Prop := ∀ i < n, a i <+: q i ∨ q i <+: a i

theorem pathOf_congr {n : ℕ} {a a' : Address} (h : ∀ i < n, a i = a' i) : pathOf n a = pathOf n a' :=
  List.flatMap_congr fun i hi => by rw [h i (List.mem_range.1 hi)]

theorem natAbs_label (i : ℕ) (d : Bool) : (label i d).natAbs = i + 1 := by
  cases d <;> simp only [label, Bool.false_eq_true, if_true, if_false] <;> omega

theorem label_injective (i : ℕ) : Function.Injective (label i) := by
  intro d d' h
  cases d <;> cases d' <;> simp only [label, Bool.false_eq_true, if_true, if_false] at h <;> first | rfl | omega

/-- The labels of a path that belong to one dimension. -/
theorem filter_pathOf (a : Address) (i : ℕ) : ∀ n, (pathOf n a).filter (fun d => d.natAbs = i + 1) =
    if i < n then (a i).map (label i) else []
  | 0 => rfl
  | n + 1 => by
    have hlast : ((a n).map (label n)).filter (fun d => d.natAbs = i + 1) =
        if i = n then (a i).map (label i) else [] := by
      split_ifs with hi
      · rw [hi, List.filter_eq_self]
        exact List.forall_mem_map.2 fun d _ => by simp [natAbs_label]
      · rw [List.filter_eq_nil_iff]
        exact List.forall_mem_map.2 fun d _ => by simp [natAbs_label, Ne.symm hi]
    have ih := filter_pathOf a i n
    rw [pathOf] at ih ⊢
    rw [List.range_succ, List.flatMap_append, List.flatMap_singleton, List.filter_append, ih, hlast]
    rcases lt_trichotomy i n with h | rfl | h
    · simp [h, h.ne, Nat.lt_succ_of_lt h]
    · simp
    · simp [h.not_gt, h.ne', Nat.not_lt.2 (Nat.succ_le_of_lt h)]

/-- A path that begins another one begins it in every dimension. -/
theorem isPrefix_of_pathOf {n : ℕ} {a b : Address} (h : pathOf n a <+: pathOf n b) {i : ℕ} (hi : i < n) :
    a i <+: b i := by
  have hdim := h.filter fun d => decide (d.natAbs = i + 1)
  rw [filter_pathOf, filter_pathOf, if_pos hi, if_pos hi] at hdim
  exact (List.prefix_map_iff_of_injective (label_injective i)).1 hdim

/-! ## The path of a box -/

/-- Both ends agree up to the tolerance of the loop. -/
def CloseEnds (e c : ℚ × ℚ) : Prop := |e.1 - c.1| < 1 / 10000 ∧ |e.2 - c.2| < 1 / 10000

theorem bisects_eq_false {e c : ℚ × ℚ} (h : CloseEnds e c) : bisects c e = false := by
  simp only [bisects, decide_eq_false (not_le.2 h.1), decide_eq_false (not_le.2 h.2), Bool.or_self, Bool.and_false]

theorem bisects_eq_true {e c : ℚ × ℚ} (hw : 2 * (c.2 - c.1) < e.2 - e.1) (h : ¬ CloseEnds e c) :
    bisects c e = true := by
  simp only [bisects, Bool.and_eq_true, Bool.or_eq_true, decide_eq_true_eq, gt_iff_lt, ge_iff_le]
  refine ⟨hw, ?_⟩
  by_contra hno
  simp only [not_or, not_le] at hno
  exact h hno

theorem not_bisects_self (e : ℚ × ℚ) : bisects e e = false := bisects_eq_false (by simp [CloseEnds])

/-- The halvings that the loop of `get_path` takes from the interval `e` for the side `c`. -/
inductive Halvings (c : ℚ × ℚ) : ℚ × ℚ → List Bool → Prop
  | stop {e : ℚ × ℚ} : bisects c e = false → Halvings c e []
  | upper {e : ℚ × ℚ} {s : List Bool} : bisects c e = true → (e.1 + e.2) / 2 ≤ c.1 →
    Halvings c (half true e) s → Halvings c e (true :: s)
  | lower {e : ℚ × ℚ} {s : List Bool} : bisects c e = true → ¬ (e.1 + e.2) / 2 ≤ c.1 →
    Halvings c (half false e) s → Halvings c e (false :: s)

theorem Halvings.nil {c e : ℚ × ℚ} (h : Halvings c e []) : bisects c e = false := by
  cases h
  assumption

theorem Halvings.cons {c e : ℚ × ℚ} {d : Bool} {s : List Bool} (h : Halvings c e (d :: s)) :
    bisects c e = true ∧ ((e.1 + e.2) / 2 ≤ c.1 ↔ d = true) ∧ Halvings c (half d e) s := by
  cases h with
  | upper hgo hm hs => exact ⟨hgo, iff_of_true hm rfl, hs⟩
  | lower hgo hm hs => exact ⟨hgo, iff_of_false hm Bool.false_ne_true, hs⟩

theorem Halvings.pathFrom {c e : ℚ × ℚ} {s : List Bool} (h : Halvings c e s) (i : ℕ) {fuel : ℕ} (hf : s.length < fuel) :
    pathFrom i c fuel e = some (s.map (label i)) := by
  induction h generalizing fuel with
  | stop hb =>
    obtain ⟨fuel, rfl⟩ := Nat.exists_eq_succ_of_ne_zero hf.ne_bot
    rw [Grid.pathFrom, hb, if_neg Bool.false_ne_true, List.map_nil]
  | upper hb hm _ ih =>
    obtain ⟨fuel, rfl⟩ := Nat.exists_eq_succ_of_ne_zero hf.ne_bot
    rw [Grid.pathFrom, if_pos hb, if_pos hm]
    exact congrArg _ (ih (Nat.lt_of_succ_lt_succ hf))
  | lower hb hm _ ih =>
    obtain ⟨fuel, rfl⟩ := Nat.exists_eq_succ_of_ne_zero hf.ne_bot
    rw [Grid.pathFrom, if_pos hb, if_neg hm]
    exact congrArg _ (ih (Nat.lt_of_succ_lt_succ hf))

/-- The address of the cell at which `get_path` stops for the box. -/
def StopsAt (bounds coords : Coords) (a : Address) : Prop :=
  ∀ i e c, bounds[i]? = some e → coords[i]? = some c → Halvings c e (a i)

theorem StopsAt.getPath {bounds coords : Coords} {a : Address} (h : StopsAt bounds coords a)
    (hlen : coords.length = bounds.length) {fuel : ℕ} (hf : ∀ i < bounds.length, (a i).length < fuel) :
    getPath fuel coords bounds bounds.length = some (pathOf bounds.length a) := by
  have hpiece : ∀ i ∈ List.range bounds.length,
      (coords[i]?.bind fun c => bounds[i]?.bind fun e => pathFrom i c fuel e) = some ((a i).map (label i)) := by
    intro i hi
    have hlt := List.mem_range.1 hi
    have he := List.getElem?_eq_getElem hlt
    have hc := List.getElem?_eq_getElem (hlt.trans_eq hlen.symm)
    rw [hc, Option.bind_some, he, Option.bind_some]
    exact (h i _ _ he hc).pathFrom i (hf i hlt)
  have hmapM := mapM_eq_some hpiece
  simp only [Grid.getPath, Option.bind_eq_bind, Option.pure_def] at hmapM ⊢
  rw [hmapM, Option.bind_some, ← List.flatMap_def]
  rfl

theorem Halvings.unique {c e : ℚ × ℚ} {s s' : List Bool} (h : Halvings c e s) (h' : Halvings c e s') : s = s' := by
  induction h generalizing s' with
  | stop hb =>
    cases h' with
    | stop => rfl
    | upper hb' => rw [hb] at hb'; cases hb'
    | lower hb' => rw [hb] at hb'; cases hb'
  | upper hb hm _ ih =>
    cases h' with
    | stop hb' => rw [hb] at hb'; cases hb'
    | upper _ _ h' => rw [ih h']
    | lower _ hm' => exact absurd hm hm'
  | lower hb hm _ ih =>
    cases h' with
    | stop hb' => rw [hb] at hb'; cases hb'
    | upper _ hm' => exact absurd hm' hm
    | lower _ _ h' => rw [ih h']

/-- `get_path` stops on a box when it stops on every side. -/
theorem exists_stopsAt {bounds coords : Coords}
    (h : ∀ (i : ℕ) e c, bounds[i]? = some e → coords[i]? = some c → ∃ s, Halvings c e s) :
    ∃ a, StopsAt bounds coords a := by
  classical
  have hsome : ∀ i : ℕ, ∃ s, ∀ e c, bounds[i]? = some e → coords[i]? = some c → Halvings c e s := by
    intro i
    cases he : bounds[i]? with
    | none => exact ⟨[], fun _ _ h => by cases h⟩
    | some e =>
      cases hc : coords[i]? with
      | none => exact ⟨[], fun _ _ _ h => by cases h⟩
      | some c =>
        obtain ⟨s, hs⟩ := h i e c he hc
        refine ⟨s, fun e' c' h1 h2 => ?_⟩
        cases h1
        cases h2
        exact hs
  choose a ha using hsome
  exact ⟨a, fun i e c he hc => ha i e c he hc⟩

/-! ## Cells -/

/-- The coordinates after the halving that a label names. -/
def halve (d : ℤ) (coords : Coords) : Coords := coords.modify (d.natAbs - 1) (half (decide (0 < d)))

/-- The branches of a node in the order of `get_ll`. -/
def labels (n : ℕ) : List ℤ := (List.range n).flatMap fun i => [label i false, label i true]

theorem label_mem_labels {n i : ℕ} (h : i < n) (b : Bool) : label i b ∈ labels n := by
  refine List.mem_flatMap.2 ⟨i, List.mem_range.2 h, ?_⟩
  cases b <;> simp

theorem mem_labels {n : ℕ} {d : ℤ} (h : d ∈ labels n) : ∃ i b, i < n ∧ d = label i b := by
  obtain ⟨i, hi, hd⟩ := List.mem_flatMap.1 h
  rcases List.mem_cons.1 hd with rfl | hd
  · exact ⟨i, false, List.mem_range.1 hi, rfl⟩
  · exact ⟨i, true, List.mem_range.1 hi, List.mem_singleton.1 hd⟩

theorem halve_label (i : ℕ) (d : Bool) (coords : Coords) : halve (label i d) coords = coords.modify i (half d) := by
  cases d with
  | true =>
    have hpos : (0 : ℤ) < i + 1 := by omega
    have hidx : ((i : ℤ) + 1).natAbs - 1 = i := by omega
    simp [halve, label, hpos, hidx]
  | false =>
    have hneg : ¬ (0 : ℤ) < -(i + 1) := by omega
    have hidx : (-((i : ℤ) + 1)).natAbs - 1 = i := by omega
    simp only [halve, label, Bool.false_eq_true, if_false, hneg, decide_false, hidx]

theorem lowerHalf_eq_halve (i : ℕ) (coords : Coords) : lowerHalf i coords = halve (label i false) coords := by
  rw [halve_label, lowerHalf]
  congr 1
  funext c
  simp [half, div_eq_mul_inv]

theorem upperHalf_eq_halve (i : ℕ) (coords : Coords) : upperHalf i coords = halve (label i true) coords := by
  rw [halve_label, upperHalf]
  congr 1
  funext c
  simp [half, div_eq_mul_inv]

theorem undoLower_lowerHalf (i : ℕ) (coords : Coords) : undoLower i (lowerHalf i coords) = coords := by
  have hid : ((fun c : ℚ × ℚ => (c.1, 2 * c.2 - c.1)) ∘ fun c => (c.1, (c.1 + c.2) * (1 / 2))) = id := by
    funext c
    simp only [Function.comp_apply, id]
    exact Prod.ext rfl (by ring)
  rw [undoLower, lowerHalf, List.modify_modify_eq, hid, List.modify_id]

theorem undoUpper_upperHalf (i : ℕ) (coords : Coords) : undoUpper i (upperHalf i coords) = coords := by
  have hid : ((fun c : ℚ × ℚ => (2 * c.1 - c.2, c.2)) ∘ fun c => ((c.1 + c.2) * (1 / 2), c.2)) = id := by
    funext c
    simp only [Function.comp_apply, id]
    exact Prod.ext (by ring) rfl
  rw [undoUpper, upperHalf, List.modify_modify_eq, hid, List.modify_id]

/-- A branch that is there lists its cells, and the coordinates come back. -/
theorem branch_eq (n : ℕ) {half undo : Coords → Coords} (h : ∀ c, undo (half c) = c) (child : Trie ℤ)
    (s : Coords × Ll) : branch half undo child (getLl n child) s = (s.1, getLl n child (half s.1) s.2) := by
  cases child with
  | null => rfl
  | node _ _ => rw [branch, h]; rfl

/-- A node that is no leaf lists the cells of its branches, each below its own half. -/
theorem getLl_inner (n : ℕ) (next : ℤ → Trie ℤ) (coords : Coords) (l : Ll) :
    getLl n (.node false next) coords l = (labels n).foldl (fun l d => getLl n (next d) (halve d coords) l) l := by
  have hloop : ∀ (is : List ℕ) (l : Ll), is.foldl (fun s i =>
      branch (upperHalf i) (undoUpper i) (next (label i true)) (getLl n (next (label i true)))
        (branch (lowerHalf i) (undoLower i) (next (label i false)) (getLl n (next (label i false))) s)) (coords, l) =
      (coords, (is.flatMap fun i => [label i false, label i true]).foldl
          (fun l d => getLl n (next d) (halve d coords) l) l) := by
    intro is
    induction is with
    | nil => exact fun l => rfl
    | cons i is ih =>
      intro l
      rw [List.foldl_cons, branch_eq n (undoLower_lowerHalf i), branch_eq n (undoUpper_upperHalf i), ih,
        lowerHalf_eq_halve, upperHalf_eq_halve]
      rfl
  rw [getLl, if_neg Bool.false_ne_true, hloop]
  rfl

/-- `get_ll` adds a box for every leaf. -/
theorem boxes_getLl (n : ℕ) : ∀ (t : Trie ℤ) (coords : Coords) {l : Ll}, l.Holds l.nodes →
    (getLl n t coords l).Holds (getLl n t coords l).nodes ∧
      (getLl n t coords l).boxes = l.boxes ++ (Trie.leaves (labels n) halve t coords).map .new
  | .null, coords, l, h => ⟨h, by simp [getLl, Trie.leaves]⟩
  | .node true next, coords, l, h => by
    simp only [getLl, Trie.leaves, if_true, List.map_cons, List.map_nil]
    exact ⟨(h.addNode _).self, h.boxes_addNode _⟩
  | .node false next, coords, l, h => by
    have hloop : ∀ (ds : List ℤ) {l : Ll}, l.Holds l.nodes →
        (ds.foldl (fun l d => getLl n (next d) (halve d coords) l) l).Holds
          (ds.foldl (fun l d => getLl n (next d) (halve d coords) l) l).nodes ∧
        (ds.foldl (fun l d => getLl n (next d) (halve d coords) l) l).boxes =
          l.boxes ++ (ds.flatMap fun d => Trie.leaves (labels n) halve (next d) (halve d coords)).map .new := by
      intro ds
      induction ds with
      | nil => exact fun h => ⟨h, by simp⟩
      | cons d ds ih =>
        intro l h
        obtain ⟨h1, h2⟩ := boxes_getLl n (next d) (halve d coords) h
        obtain ⟨h3, h4⟩ := ih h1
        exact ⟨h3, h4.trans (by simp [h2])⟩
    rw [getLl_inner, Trie.leaves, if_neg Bool.false_ne_true]
    exact hloop (labels n) h

/-- `make_trie` builds the trie of the paths. -/
theorem makeTrie_of_paths {fuel n : ℕ} {bounds : Coords} {l : Ll} {ws : List (List ℤ)}
    (h : List.Forall₂ (fun (b : BoundingBox) w => getPath fuel b.coords bounds n = some w) l.boxes ws) :
    makeTrie fuel l n bounds = some (Trie.ofWords ws) := by
  have hloop : ∀ {bs : List BoundingBox} {ws : List (List ℤ)} (head : Trie ℤ),
      List.Forall₂ (fun (b : BoundingBox) w => getPath fuel b.coords bounds n = some w) bs ws →
      bs.foldlM (fun head b => (getPath fuel b.coords bounds n).map fun pth => addChild pth head) head =
        some (ws.foldl (fun t w => Trie.insert w t) head) := by
    intro bs ws head h
    induction h generalizing head with
    | nil => rfl
    | cons hb _ ih =>
      rw [List.foldlM_cons, hb]
      exact ih _
  exact hloop _ h

theorem exists_fuel (n : ℕ) (as : List Address) : ∃ fuel₀, ∀ a ∈ as, ∀ i < n, (a i).length < fuel₀ := by
  refine ⟨((as.flatMap fun a => (List.range n).map fun i => (a i).length).sum) + 1, fun a ha i hi => ?_⟩
  rw [Nat.lt_succ_iff]
  apply List.le_sum_of_mem
  exact List.mem_flatMap.2 ⟨a, ha, List.mem_map.2 ⟨i, List.mem_range.2 hi, rfl⟩⟩

/-- No path of the list continues the path at the address `a`. -/
def Last (n : ℕ) (as : List Address) (a : Address) : Prop :=
  ∀ b ∈ as, pathOf n a <+: pathOf n b → pathOf n b = pathOf n a

end GridSolve.Grid
