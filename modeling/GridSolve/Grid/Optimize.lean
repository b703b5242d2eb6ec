/-
The operations of `trie_node` (`approximation.hpp`) that edit a trie or name its paths as texts:
`remove_child`, `str_to_path`, `get_grids`, `optimize` and `clean_ll`. `remove_child` does not move on
in the path below a left child, so it removes a path exactly when that has no left step; `get_grids`
and `optimize` have no case for a leaf, so the sets of texts they return are empty and `optimize`
leaves every trie as it is.
-/
import GridSolve.Grid.Cover
import GridSolve.Grid.Leaves
import GridSolve.Lib.Text

namespace GridSolve.Grid

open GridSolve.Text

/-! ## The code -/

/-- `remove_child` on a node with `n_dir = n`, with what is left of the path: whether the node is to be
deleted, and the node. Below a right child the path moves on, below a left child it does not. -/
def removeChild (n : ℕ) : Trie ℤ → List ℤ → Bool × Trie ℤ
  | .null, _ => (false, .null)
  | .node isLeaf next, [] => (true, .node isLeaf next)
  | .node isLeaf next, d :: path =>
    if (next d).isNull then (false, .node isLeaf next)
    else
      let r := removeChild n (next d) (if 0 < d then path else d :: path)
      Trie.settle (labels n) isLeaf (Function.update next d (if r.1 then .null else r.2))

/-- `std::stoi` on a text without blanks in front: the number must fit an `int`. -/
def stoi (cs : List Char) : Option ℤ :=
  (readInt cs).bind fun z => if -2147483648 ≤ z ∧ z ≤ 2147483647 then some z else none

/-- The loop of `str_to_path`. The digits in `curr` are kept when a step has been read. -/
def strToPathFrom : List Char → List Char → Option (List ℤ)
  | _, [] => some []
  | curr, c :: s =>
    if c = 'l' then (stoi curr).bind fun n => (strToPathFrom curr s).map (-n :: ·)
    else if c = 'r' then (stoi curr).bind fun n => (strToPathFrom curr s).map (n :: ·)
    else strToPathFrom (curr ++ [c]) s

/-- `str_to_path`, `none` for an exception of `stoi`. -/
def strToPath (s : List Char) (type : ℤ) : Option (List ℤ) :=
  (strToPathFrom [] s).map fun ans => if type = 1 then 0 :: ans else ans

/-- `base+"l"` and `base+"r"`: the text of a step. -/
def stepText (i : ℕ) (upper : Bool) : List Char := natText (i + 1) ++ [if upper then 'r' else 'l']

/-- `get_grids` on a node with `n_dir = n`. -/
def getGrids (n : ℕ) : Trie ℤ → Finset (List Char)
  | .null => ∅
  | .node _ next => (Finset.range n).biUnion fun i =>
    (getGrids n (next (label i false))).image (stepText i false ++ ·) ∪
      (getGrids n (next (label i true))).image (stepText i true ++ ·)

/-- On a path without left steps `remove_child` is the removal of the path. -/
theorem removeChild_eq_remove (n : ℕ) : ∀ {p : List ℤ} {t : Trie ℤ}, (∀ d ∈ p, 0 < d) →
    removeChild n t p = t.remove (labels n) p
  | [], .null, _ => rfl
  | [], .node _ _, _ => rfl
  | _ :: _, .null, _ => rfl
  | d :: p, .node isLeaf next, h => by
    rw [List.forall_mem_cons] at h
    rw [removeChild, Trie.remove, if_pos h.1, removeChild_eq_remove n h.2]

/-- A left step keeps `remove_child` at the same entry until there is no such child. -/
theorem removeChild_left {n : ℕ} {d : ℤ} (hd : ¬ 0 < d) (hlab : d ∈ labels n) (p : List ℤ) :
    ∀ t : Trie ℤ, removeChild n t (d :: p) = (false, t)
  | .null => rfl
  | .node isLeaf next => by
    rw [removeChild]
    split_ifs with hnull
    · rfl
    · have hne : next d ≠ .null := fun h => hnull (Trie.isNull_iff.2 h)
      simp only [removeChild_left hd hlab p (next d), Bool.false_eq_true, if_false, Function.update_eq_self]
      exact Trie.settle_of_branch hlab hne

/-- A path with a left step is not removed. -/
theorem removeChild_of_left {n : ℕ} : ∀ {p : List ℤ} {t : Trie ℤ}, IsPath n p → Trie.LeafAt p t →
    ¬ (∀ d ∈ p, 0 < d) → removeChild n t p = (false, t)
  | [], _, _, _, h => absurd nofun h
  | d :: p, .node isLeaf next, hpath, hleaf, h => by
    have hpath' := List.forall_mem_cons.1 hpath
    have hlab : d ∈ labels n := mem_labels_iff.2 hpath'.1
    by_cases hd : 0 < d
    · have hrest : ¬ ∀ e ∈ p, 0 < e := fun hp => h (List.forall_mem_cons.2 ⟨hd, hp⟩)
      have hne := hleaf.2.ne_null
      rw [removeChild, if_neg fun hnull => hne (Trie.isNull_iff.1 hnull), if_pos hd,
        removeChild_of_left hpath'.2 hleaf.2 hrest]
      simp only [Bool.false_eq_true, if_false, Function.update_eq_self]
      exact Trie.settle_of_branch hlab hne
    · exact removeChild_left hd hlab p _

/-- **`remove_child` removes just that path**, of a trie with another one, exactly when the path has no
left step. -/
theorem removeChild_removes_iff {n : ℕ} {ws : List (List ℤ)} (hws : ∀ w ∈ ws, IsPath n w) {p q : List ℤ}
    (hp : Trie.LeafAt p (addChildren ws)) (hq : Trie.LeafAt q (addChildren ws)) (hne : q ≠ p) :
    ((removeChild n (addChildren ws) p).2.Live (labels n) ∧
        ∀ r, Trie.LeafAt r (removeChild n (addChildren ws) p).2 ↔ Trie.LeafAt r (addChildren ws) ∧ r ≠ p) ↔
      ∀ d ∈ p, 0 < d := by
  constructor
  · rintro ⟨-, h⟩
    by_contra hleft
    rw [removeChild_of_left (isPath_of_leafAt hws hp) hp hleft] at h
    exact ((h p).1 hp).2 rfl
  · intro hpos
    obtain ⟨hgone, hkept⟩ :=
      Trie.remove_spec hp (live_addChildren hws) fun r hr => isPath_iff.1 (isPath_of_leafAt hws hr)
    rw [removeChild_eq_remove n hpos]
    exact hkept (Bool.eq_false_iff.2 fun h => hne (hgone h q hq))

theorem leafAt_siblings : Trie.LeafAt [-1] (addChildren [[-1], [1]]) ∧ Trie.LeafAt [1] (addChildren [[-1], [1]]) :=
  ⟨leafAt_addChildren.2 ⟨.inl (by decide), by decide⟩, leafAt_addChildren.2 ⟨.inl (by decide), by decide⟩⟩

/-- The right one of two siblings is removed. -/
theorem removeChild_removes_iff_right : Trie.LeafAt [1] (addChildren [[-1], [1]]) ∧
    ∀ r, Trie.LeafAt r (removeChild 1 (addChildren [[-1], [1]]) [1]).2 ↔
      Trie.LeafAt r (addChildren [[-1], [1]]) ∧ r ≠ [1] := by
  have hpaths : ∀ w ∈ [[-1], [1]], IsPath 1 w := by decide
  have hright : ∀ d ∈ ([1] : List ℤ), 0 < d := by decide
  obtain ⟨-, h⟩ := (removeChild_removes_iff hpaths leafAt_siblings.2 leafAt_siblings.1 (by decide)).2 hright
  exact ⟨leafAt_siblings.2, h⟩

/-- The left one of two siblings stays. -/
theorem removeChild_keeps_left : Trie.LeafAt [-1] (addChildren [[-1], [1]]) ∧
    Trie.LeafAt [1] (addChildren [[-1], [1]]) ∧
    Trie.LeafAt [-1] (removeChild 1 (addChildren [[-1], [1]]) [-1]).2 := by
  refine ⟨leafAt_siblings.1, leafAt_siblings.2, ?_⟩
  rw [removeChild_left (by decide) (by decide)]
  exact leafAt_siblings.1

/-! ## Paths as texts -/

/-- No text is ever returned: a leaf has none. -/
theorem getGrids_eq_empty (n : ℕ) : ∀ t : Trie ℤ, getGrids n t = ∅
  | .null => rfl
  | .node isLeaf next => by
    rw [getGrids, Finset.eq_empty_iff_forall_notMem]
    simp [getGrids_eq_empty n]

/-- Some path of a trie built by `add_child` leads to a leaf. -/
theorem exists_leafAt_addChildren (ws : List (List ℤ)) : ∃ p, Trie.LeafAt p (addChildren ws) := by
  have hlive : (addChildren ws).Live ws.flatten :=
    Trie.live_ofWords fun w hw d hd => List.mem_flatten.2 ⟨w, hw, hd⟩
  obtain ⟨p, -, hp⟩ := hlive.exists_leaf (Trie.holds_ofWords ws).ne_null
  exact ⟨p, hp⟩

/-- **The texts of `get_grids` decode to the paths of the leaves** only for a trie without leaves, and a
trie built by `add_child` has one. -/
theorem strToPath_getGrids_iff (n : ℕ) (t : Trie ℤ) :
    ((∀ p, (∃ s ∈ getGrids n t, strToPath s 0 = some p) ↔ Trie.LeafAt p t) ↔ ∀ p, ¬ Trie.LeafAt p t) ∧
      ∀ ws, t = addChildren ws → ∃ p, Trie.LeafAt p t := by
  constructor
  · simp only [getGrids_eq_empty, Finset.notMem_empty, false_and, exists_false, false_iff]
  · rintro ws rfl
    exact exists_leafAt_addChildren ws

/-- The path to the only leaf is not among the paths decoded. -/
theorem getGrids_loses_path : Trie.LeafAt [1] (addChildren [[1]]) ∧
    ¬ ∃ s ∈ getGrids 1 (addChildren [[1]]), strToPath s 0 = some [1] := by
  refine ⟨leafAt_addChildren.2 ⟨.inl (by decide), by decide⟩, ?_⟩
  rw [getGrids_eq_empty]
  simp

/-- The text of a path. -/
def pathText (p : List ℤ) : List Char := p.flatMap fun d => stepText (d.natAbs - 1) (decide (0 < d))

/-- Digits are taken up one after the other. -/
theorem strToPathFrom_digits : ∀ {ds : List Char}, (∀ c ∈ ds, c.isDigit = true) → ∀ curr s,
    strToPathFrom curr (ds ++ s) = strToPathFrom (curr ++ ds) s
  | [], _, curr, s => by simp
  | c :: ds, h, curr, s => by
    rw [List.forall_mem_cons] at h
    rw [List.cons_append, strToPathFrom, if_neg (ne_of_isDigit h.1 rfl), if_neg (ne_of_isDigit h.1 rfl),
      strToPathFrom_digits h.2, List.append_assoc]
    rfl

/-- One step is decoded with the digits of the steps before it in front. -/
theorem strToPathFrom_step (curr : List Char) {d : ℤ} (hd : d ≠ 0) (s : List Char) :
    strToPathFrom curr (stepText (d.natAbs - 1) (decide (0 < d)) ++ s) =
      (stoi (curr ++ natText d.natAbs)).bind fun n =>
        (strToPathFrom (curr ++ natText d.natAbs) s).map ((if 0 < d then n else -n) :: ·) := by
  have habs : d.natAbs - 1 + 1 = d.natAbs := by omega
  rw [stepText, habs, List.append_assoc, strToPathFrom_digits (isDigit_natText _)]
  by_cases h : 0 < d
  · simp [h, strToPathFrom]
  · simp [h, strToPathFrom]

theorem readInt_digits {ds : List Char} (hne : ds ≠ []) (h : ∀ c ∈ ds, c.isDigit = true) :
    readInt ds = some (val ds : ℤ) := by
  obtain ⟨c, cs, rfl⟩ := List.exists_cons_of_ne_nil hne
  have hsign : sign (c :: cs) = (false, c :: cs) := sign_digit (h c List.mem_cons_self) cs
  have htake : (c :: cs).takeWhile Char.isDigit = c :: cs := by
    simpa using (takeWhile_digits h [] trivial).1
  simp only [readInt, hsign, htake, List.isEmpty_cons, Bool.false_eq_true, if_false]

/-- Digits in front make a number larger. -/
theorem lt_val_append {a : ℕ} (ha : 0 < a) (b : ℕ) : b < val (natText a ++ natText b) := by
  obtain ⟨k, -, hlt, hb⟩ := exists_natText b
  have hval : val (natText a) = a := val_natText a
  rw [val, valFrom_append, hb, valFrom_padded, Nat.mod_eq_of_lt hlt]
  rw [val] at hval
  rw [hval]
  have hpow : 0 < 10 ^ k := Nat.pos_of_ne_zero (by positivity)
  have := Nat.mul_pos ha hpow
  omega

theorem stoi_digits {ds : List Char} (hne : ds ≠ []) (hds : ∀ c ∈ ds, c.isDigit = true) {n : ℤ} :
    stoi ds = some n ↔ n = val ds ∧ n ≤ 2147483647 := by
  rw [stoi, readInt_digits hne hds, Option.bind_some, Option.ite_none_right_eq_some, Option.some.injEq]
  constructor
  · rintro ⟨hmax, rfl⟩
    exact ⟨rfl, by omega⟩
  · rintro ⟨rfl, hmax⟩
    exact ⟨by omega, rfl⟩

/-- Since the digits are kept from step to step, the text of a path is decoded to the path only when
there is at most one step. -/
theorem strToPath_pathText_iff {p : List ℤ} (hp : ∀ d ∈ p, d ≠ 0 ∧ d.natAbs ≤ 2147483647) :
    strToPath (pathText p) 0 = some p ↔ p.length ≤ 1 := by
  have hmap : ∀ s, strToPath s 0 = strToPathFrom [] s := fun s => by simp [strToPath]
  rw [hmap]
  match p with
  | [] => exact iff_of_true rfl (Nat.zero_le 1)
  | [d] =>
    obtain ⟨hd, hmax⟩ := hp d List.mem_cons_self
    have hstoi : stoi (natText d.natAbs) = some (d.natAbs : ℤ) :=
      (stoi_digits (natText_ne_nil _) (isDigit_natText _)).2 ⟨by rw [val_natText], by omega⟩
    have hsign : (if 0 < d then (d.natAbs : ℤ) else -d.natAbs) = d := by split_ifs <;> omega
    refine iff_of_true ?_ le_rfl
    rw [pathText, List.flatMap_cons, strToPathFrom_step [] hd, List.nil_append, hstoi, Option.bind_some, hsign]
    rfl
  | d :: e :: p =>
    refine iff_of_false (fun h => ?_) (by simp)
    have hd := (hp d List.mem_cons_self).1
    have he := (hp e (by simp)).1
    rw [pathText, List.flatMap_cons, List.flatMap_cons, strToPathFrom_step [] hd, List.nil_append] at h
    obtain ⟨m, -, h⟩ := Option.bind_eq_some_iff.1 h
    rw [strToPathFrom_step _ he] at h
    obtain ⟨ans, hans, h⟩ := Option.map_eq_some_iff.1 h
    obtain ⟨n, hn, hans⟩ := Option.bind_eq_some_iff.1 hans
    obtain ⟨ans', -, rfl⟩ := Option.map_eq_some_iff.1 hans
    simp only [List.cons.injEq] at h
    -- the second number read has the digits of the first in front
    have hdigits : ∀ c ∈ natText d.natAbs ++ natText e.natAbs, c.isDigit = true :=
      List.forall_mem_append.2 ⟨isDigit_natText _, isDigit_natText _⟩
    obtain ⟨hval, -⟩ := (stoi_digits (List.append_ne_nil_of_left_ne_nil (natText_ne_nil _) _) hdigits).1 hn
    have hlt := lt_val_append (Int.natAbs_pos.2 hd) e.natAbs
    obtain ⟨-, hentry, -⟩ := h
    split_ifs at hentry <;> omega

example : strToPath "1l2r".toList 0 = some [-1, 12] := by decide +kernel

/-! ## Merging siblings -/

end GridSolve.Grid
