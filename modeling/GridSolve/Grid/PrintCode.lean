/-
`trie_node::print_code` (`approximation.hpp`), which writes a trie as a program of nested `if` and
`else`, with `child` and `union_`. A node is a chain over its branches: for every dimension a branch
for the face between the halves, when the middle is close to an integer, and one for either half.
The cells of a trie, and the plain tries: every node branches in one dimension and the faces are
simple.
-/
import GridSolve.Core.Smt
import GridSolve.Grid.Trie
import GridSolve.Lib.Decision

namespace GridSolve.Grid

open GridSolve.Bisection GridSolve.Core GridSolve.Decision GridSolve.Loops

/-! ## The code -/

/-- A condition `lo <= x<= hi` on a coordinate, either side possibly strict, the numbers as printed. -/
structure Guard where
  dim : ℕ
  lo : ℚ
  loStrict : Bool
  hi : ℚ
  hiStrict : Bool
  deriving DecidableEq, Repr

/-- The condition at a point. -/
def Guard.holds (x : ℕ → ℤ) (g : Guard) : Bool :=
  (if g.loStrict then g.lo < x g.dim else g.lo ≤ x g.dim) && (if g.hiStrict then x g.dim < g.hi else x g.dim ≤ g.hi)

/-- What `print_code` writes. Blanks and line ends, which only indent, are left out. -/
abbrev Text := List (Word Guard)

/-- `child(i, type)`: the part of a trie at the upper end of dimension `i` (type 0) or the lower one (type 1);
`null` if nothing reaches the end. -/
def child (i : ℕ) (upper : Bool) : Trie ℤ → Trie ℤ
  | .null => .null
  | .node isLeaf next =>
    if (next (label i upper)).isNull then
      if (next (label i (!upper))).isNull then .node isLeaf next else .null
    else child i upper (next (label i upper))

/-- `union_`. -/
def union_ (n fuel : ℕ) (n₁ n₂ : Trie ℤ) (coord : Coords) : Option (Trie ℤ) :=
  if n₁.isNull then some n₂
  else if n₂.isNull then some n₁
  else makeTrie fuel (getLl n n₂ coord (getLl n n₁ coord Ll.empty)) n coord

/-- `node_count`. -/
def nodeCount (n : ℕ) (t : Trie ℤ) : ℕ := ((labels n).filter fun d => !(t.next d).isNull).length

/-- The variables of `print_code`. -/
structure Printer where
  bounds : Coords
  nBounds : Coords
  ans : Text
  tempAns : Text
  childNum : ℕ
  nodeNum : ℕ

/-- A call of `print_code` on another node: what it returns, and `n_bounds`. -/
abbrev Call := Trie ℤ → Coords → Coords → Option (Text × Coords)

/-- A branch is written, with the `else` behind it. -/
def Printer.add (g : Guard) (r : Text × Coords) (s : Printer) : Printer :=
  { s with nBounds := r.2, ans := s.ans ++ (.cond g :: r.1 ++ [.els]), tempAns := r.1, childNum := s.childNum + 1 }

/-- The test for a middle that is an integer, up to the tolerance. -/
def nearInteger (x : ℚ) : Bool := |x - ⌊x⌋| ≤ 1 / 10000 || |x - ⌈x⌉| ≤ 1 / 10000

/-- The face between the halves of dimension `i`; the flag is `ignore_center`. -/
def center (call : Call) (n fuel i : ℕ) (next : ℤ → Trie ℤ) (s : Printer) : Option (Printer × Bool) :=
  let c := s.bounds.getD i (0, 0)
  let x := (c.1 + c.2) * (1 / 2)
  if !(next (label i true)).isNull && !(next (label i false)).isNull && nearInteger x then do
    let un ← union_ n fuel (child i false (next (label i true))) (child i true (next (label i false))) s.bounds
    if un.isNull then return (s, true)
    let r ← call un s.bounds s.nBounds
    return (s.add ⟨i, toStringVal x, false, toStringVal x, false⟩ r, true)
  else some (s, false)

/-- A half of dimension `i`. The condition of a leaf is taken from `n_bounds`, which the call has set; the end at
the face is strict when the face has been written. -/
def side (call : Call) (i : ℕ) (upper ignoreCenter : Bool) (t : Trie ℤ) (s : Printer) : Option Printer :=
  if t.isNull then some s
  else do
    let bounds := if upper then upperHalf i s.bounds else lowerHalf i s.bounds
    let r ← call t bounds s.nBounds
    let c := (if t.isLeaf then r.2 else bounds).getD i (0, 0)
    let s := s.add ⟨i, toStringVal ⌈c.1⌉, ignoreCenter && upper, toStringVal ⌊c.2⌋, ignoreCenter && !upper⟩ r
    return { s with bounds := if upper then undoUpper i bounds else undoLower i bounds, nodeNum := i }

/-- The loop body for dimension `i`. -/
def printDim (call : Call) (n fuel : ℕ) (next : ℤ → Trie ℤ) (s : Printer) (i : ℕ) : Option Printer := do
  let (s, ignoreCenter) ← center call n fuel i next s
  let s ← side call i true ignoreCenter (next (label i true)) s
  side call i false ignoreCenter (next (label i false)) s

/-- What is returned after the loop. A node with one branch leaves its own condition to the branch, if that one has
a single branch in the same dimension. -/
def finish (n : ℕ) (next : ℤ → Trie ℤ) (s : Printer) : Text × Coords :=
  if s.childNum = 1 then
    let t := if (next (label s.nodeNum false)).isNull then next (label s.nodeNum true) else next (label s.nodeNum false)
    if nodeCount n t = 1 && (!(t.next (label s.nodeNum false)).isNull || !(t.next (label s.nodeNum true)).isNull) then
      (s.tempAns, s.nBounds)
    else (s.ans ++ [.no], s.nBounds)
  else if s.childNum = 0 then (s.ans ++ [.yes], s.bounds)
  else (s.ans ++ [.no], s.nBounds)

/-- `print_code`. The trie that `union_` makes is no part of the node, hence the fuel. -/
def printCode (n : ℕ) : ℕ → Call
  | 0, _, _, _ => none
  | _ + 1, .null, _, _ => none
  | fuel + 1, .node _ next, bounds, nBounds => do
    let s ← (List.range n).foldlM (printDim (printCode n fuel) n fuel next) ⟨bounds, nBounds, [], [], 0, 0⟩
    return finish n next s

/-! ## The order of the branches

A path takes its halvings dimension by dimension, so below a branch there are no branches of an earlier dimension. -/

/-- Only nodes without branches are leaves, and the dimensions never go down from `k` on. -/
def Ordered (n : ℕ) : ℕ → Trie ℤ → Prop
  | _, .null => True
  | k, .node isLeaf next => (isLeaf = true ↔ ∀ d, next d = .null) ∧
    ∀ d, next d ≠ .null → d ∈ labels n ∧ k ≤ d.natAbs ∧ Ordered n d.natAbs (next d)

theorem ordered_new (n k : ℕ) : Ordered n k Trie.new := ⟨iff_of_true rfl fun _ => rfl, fun _ h => absurd rfl h⟩

theorem Ordered.mono {n k k' : ℕ} {t : Trie ℤ} (h : Ordered n k' t) (hk : k ≤ k') : Ordered n k t := by
  cases t with
  | null => trivial
  | node isLeaf next => exact ⟨h.1, fun d hd => ⟨(h.2 d hd).1, hk.trans (h.2 d hd).2.1, (h.2 d hd).2.2⟩⟩

theorem Ordered.orNew {n k : ℕ} {t : Trie ℤ} (h : Ordered n k t) : Ordered n k t.orNew := by
  cases t with
  | null => exact ordered_new n k
  | node isLeaf next => exact h

theorem Ordered.insert {n : ℕ} : ∀ {w : List ℤ} {k : ℕ} {t : Trie ℤ}, Ordered n k t → t ≠ .null →
    w.Pairwise (fun d e => d.natAbs ≤ e.natAbs) → (∀ d ∈ w, d ∈ labels n ∧ k ≤ d.natAbs) → Ordered n k (t.insert w)
  | [], k, t, h, _, _, _ => h
  | d :: w, k, .null, _, hne, _, _ => absurd rfl hne
  | d :: w, k, .node isLeaf next, h, _, hsorted, hw => by
    obtain ⟨hd, hrest⟩ := List.forall_mem_cons.1 hw
    obtain ⟨hle, hpairs⟩ := List.pairwise_cons.1 hsorted
    have hnew : Trie.insert w (next d).orNew ≠ .null := Trie.insert_ne_null w (Trie.orNew_ne_null _)
    have hbelow : Ordered n d.natAbs (next d) := by
      by_cases hnull : next d = .null
      · rw [hnull]
        trivial
      · exact (h.2 d hnull).2.2
    refine ⟨iff_of_false Bool.false_ne_true fun hall => hnew ?_, fun e he => ?_⟩
    · simpa using hall d
    · by_cases hed : e = d
      · subst hed
        rw [Function.update_self]
        exact ⟨hd.1, hd.2, hbelow.orNew.insert (Trie.orNew_ne_null _) hpairs fun e he => ⟨(hrest e he).1, hle e he⟩⟩
      · rw [Function.update_of_ne hed] at he ⊢
        exact h.2 e he

theorem pathFrom_label {i : ℕ} {c : ℚ × ℚ} : ∀ {fuel : ℕ} {e : ℚ × ℚ} {p : List ℤ}, pathFrom i c fuel e = some p →
    ∀ d ∈ p, ∃ b, d = label i b
  | 0, _, _, h => by cases h
  | fuel + 1, e, p, h => by
    rw [pathFrom] at h
    split_ifs at h with h1 h2
    · obtain ⟨q, hq, rfl⟩ := Option.map_eq_some_iff.1 h
      exact List.forall_mem_cons.2 ⟨⟨true, rfl⟩, pathFrom_label hq⟩
    · obtain ⟨q, hq, rfl⟩ := Option.map_eq_some_iff.1 h
      exact List.forall_mem_cons.2 ⟨⟨false, rfl⟩, pathFrom_label hq⟩
    · cases h
      exact List.forall_mem_nil _

/-- The pieces of a path, one dimension after the other. -/
theorem pieces_sorted {f : ℕ → Option (List ℤ)} (hf : ∀ i p, f i = some p → ∀ d ∈ p, ∃ b, d = label i b) :
    ∀ {is : List ℕ} {ps : List (List ℤ)}, is.Pairwise (· < ·) → is.mapM f = some ps →
      ps.flatten.Pairwise (fun d e => d.natAbs ≤ e.natAbs) ∧ ∀ d ∈ ps.flatten, ∃ i ∈ is, ∃ b, d = label i b
  | [], ps, _, h => by
    cases h
    exact ⟨.nil, List.forall_mem_nil _⟩
  | i :: is, ps, hlt, h => by
    obtain ⟨hi, hlt⟩ := List.pairwise_cons.1 hlt
    simp only [List.mapM_cons, Option.bind_eq_bind, Option.bind_eq_some_iff, Option.pure_def, Option.some.injEq] at h
    obtain ⟨p, hp, qs, hqs, rfl⟩ := h
    obtain ⟨hsorted, hmem⟩ := pieces_sorted hf hlt hqs
    have hhead := hf i p hp
    rw [List.flatten_cons, List.pairwise_append]
    refine ⟨⟨?_, hsorted, ?_⟩, ?_⟩
    · refine List.pairwise_of_forall_mem_list fun d hd e he => ?_
      obtain ⟨b, rfl⟩ := hhead d hd
      obtain ⟨b', rfl⟩ := hhead e he
      rw [natAbs_label, natAbs_label]
    · intro d hd e he
      obtain ⟨b, rfl⟩ := hhead d hd
      obtain ⟨j, hj, b', rfl⟩ := hmem e he
      have := hi j hj
      rw [natAbs_label, natAbs_label]
      omega
    · intro d hd
      rcases List.mem_append.1 hd with hd | hd
      · exact ⟨i, List.mem_cons_self, hhead d hd⟩
      · obtain ⟨j, hj, hb⟩ := hmem d hd
        exact ⟨j, List.mem_cons_of_mem i hj, hb⟩

theorem getPath_sorted {fuel n : ℕ} {coords bounds : Coords} {w : List ℤ} (h : getPath fuel coords bounds n = some w) :
    w.Pairwise (fun d e => d.natAbs ≤ e.natAbs) ∧ ∀ d ∈ w, d ∈ labels n := by
  simp only [getPath, Option.bind_eq_bind, Option.bind_eq_some_iff, Option.pure_def, Option.some.injEq] at h
  obtain ⟨ps, hps, rfl⟩ := h
  have hlabel : ∀ i p, (coords[i]?.bind fun c => bounds[i]?.bind fun e => pathFrom i c fuel e) = some p →
      ∀ d ∈ p, ∃ b, d = label i b := by
    intro i p hp
    obtain ⟨c, -, hp⟩ := Option.bind_eq_some_iff.1 hp
    obtain ⟨e, -, hp⟩ := Option.bind_eq_some_iff.1 hp
    exact pathFrom_label hp
  obtain ⟨hsorted, hmem⟩ := pieces_sorted hlabel List.pairwise_lt_range hps
  refine ⟨hsorted, fun d hd => ?_⟩
  obtain ⟨i, hi, b, rfl⟩ := hmem d hd
  exact label_mem_labels (List.mem_range.1 hi) b

/-- The tries of `make_trie` are ordered. -/
theorem ordered_makeTrie {fuel n : ℕ} {l : Ll} {bounds : Coords} {t : Trie ℤ} (h : makeTrie fuel l n bounds = some t) :
    t ≠ .null ∧ Ordered n 0 t := by
  have hloop : ∀ (bs : List BoundingBox) {t₀ : Trie ℤ}, t₀ ≠ .null → Ordered n 0 t₀ →
      bs.foldlM (fun head b => (getPath fuel b.coords bounds n).map fun pth => addChild pth head) t₀ = some t →
      t ≠ .null ∧ Ordered n 0 t := by
    intro bs
    induction bs with
    | nil =>
      intro t₀ hne ho hrun
      cases hrun
      exact ⟨hne, ho⟩
    | cons b bs ih =>
      intro t₀ hne ho hrun
      rw [List.foldlM_cons] at hrun
      obtain ⟨t₁, ht₁, hrun⟩ := Option.bind_eq_some_iff.1 hrun
      obtain ⟨w, hw, rfl⟩ := Option.map_eq_some_iff.1 ht₁
      obtain ⟨hsorted, hmem⟩ := getPath_sorted hw
      exact ih (Trie.insert_ne_null w hne) (ho.insert hne hsorted fun d hd => ⟨hmem d hd, Nat.zero_le _⟩) hrun
  exact hloop l.boxes (Trie.orNew_ne_null .null) (ordered_new n 0) h

/-! ## Cells -/

/-- An integer point. -/
def point (x : ℕ → ℤ) : ℕ → ℝ := fun i => (x i : ℝ)

/-- The point lies in a cell of the trie. -/
def Cells (n : ℕ) (t : Trie ℤ) (bounds : Coords) (x : ℕ → ℤ) : Prop :=
  ∃ c ∈ Trie.leaves (labels n) halve t bounds, InBox c (point x)

section Cells

variable {n i : ℕ} {bounds : Coords} {x : ℕ → ℤ} {c : ℚ × ℚ}

theorem not_cells_null : ¬ Cells n .null bounds x := by
  rintro ⟨c, hc, -⟩
  cases hc

theorem cells_leaf {next : ℤ → Trie ℤ} : Cells n (.node true next) bounds x ↔ InBox bounds (point x) := by
  unfold Cells
  rw [Trie.leaves, if_pos rfl]
  simp

theorem cells_node {next : ℤ → Trie ℤ} :
    Cells n (.node false next) bounds x ↔ ∃ d ∈ labels n, Cells n (next d) (halve d bounds) x := by
  unfold Cells
  rw [Trie.leaves, if_neg Bool.false_ne_true]
  simp only [List.mem_flatMap]
  constructor
  · rintro ⟨c, ⟨d, hd, hc⟩, hx⟩
    exact ⟨d, hd, c, hc, hx⟩
  · rintro ⟨d, hd, c, hc, hx⟩
    exact ⟨c, ⟨d, hd, hc⟩, hx⟩

theorem halve_eq_set (hc : bounds[i]? = some c) (b : Bool) : halve (label i b) bounds = bounds.set i (half b c) := by
  rw [halve_label]
  apply List.ext_getElem?
  intro j
  by_cases hj : j = i
  · subst hj
    rw [List.getElem?_modify_eq, hc, List.getElem?_set_self (List.getElem?_eq_some_iff.1 hc).1]
    rfl
  · rw [List.getElem?_modify_ne _ _ (Ne.symm hj), List.getElem?_set_ne (Ne.symm hj)]

theorem getElem?_halve_self (hc : bounds[i]? = some c) (b : Bool) :
    (halve (label i b) bounds)[i]? = some (half b c) := by
  rw [halve_eq_set hc, List.getElem?_set_self (List.getElem?_eq_some_iff.1 hc).1]

theorem getElem?_halve_ne {j : ℕ} (h : j ≠ i) (b : Bool) : (halve (label i b) bounds)[j]? = bounds[j]? := by
  rw [halve_label, List.getElem?_modify_ne _ _ (Ne.symm h)]

/-- The points of a half. -/
theorem inBox_halve (hc : bounds[i]? = some c) (b : Bool) (p : ℕ → ℝ) : InBox (halve (label i b) bounds) p ↔
    InBox bounds p ∧ ((half b c).1 : ℝ) ≤ p i ∧ p i ≤ (half b c).2 := by
  rw [halve_eq_set hc]
  simp only [InBox]
  rw [forall_coord_set hc, forall_coord_at hc, and_assoc]
  refine and_congr_right fun _ => ⟨fun h => ⟨?_, h⟩, fun h => h.2⟩
  obtain ⟨h1, h2⟩ := h
  unfold half at h1 h2
  split_ifs at h1 h2 <;> push_cast at h1 h2 <;> constructor <;> linarith

/-- The same at integer points. -/
theorem inBox_halve_point (hc : bounds[i]? = some c) (b : Bool) (hx : InBox bounds (point x)) :
    InBox (halve (label i b) bounds) (point x) ↔ (half b c).1 ≤ x i ∧ x i ≤ (half b c).2 := by
  rw [inBox_halve hc, and_iff_right hx]
  unfold point
  norm_cast

theorem coord_of_inBox (hc : bounds[i]? = some c) (hx : InBox bounds (point x)) : c.1 ≤ x i ∧ x i ≤ c.2 := by
  have h := hx i c hc
  unfold point at h
  exact_mod_cast h

theorem cells_within : ∀ {t : Trie ℤ} {bounds : Coords}, n ≤ bounds.length → Cells n t bounds x →
    InBox bounds (point x)
  | .null, _, _, h => absurd h not_cells_null
  | .node true next, _, _, h => cells_leaf.1 h
  | .node false next, bounds, hn, h => by
    obtain ⟨d, hd, h⟩ := cells_node.1 h
    obtain ⟨i, b, hi, rfl⟩ := mem_labels hd
    have hc := List.getElem?_eq_getElem (hi.trans_le hn)
    have hlen : n ≤ (halve (label i b) bounds).length := by rwa [halve_eq_set hc, List.length_set]
    exact ((inBox_halve hc b _).1 (cells_within hlen h)).1

end Cells

/-! ## Simple tries -/

/-- The face between the halves of `c` in dimension `i`: the middle is not near an integer, or it is one and at most
one side goes on, unless both end there. -/
def SimpleFace (i : ℕ) (c : ℚ × ℚ) (r l : Trie ℤ) : Prop :=
  c.1 < c.2 ∧ (nearInteger ((c.1 + c.2) * (1 / 2)) = false ∨ (∃ z : ℤ, (c.1 + c.2) * (1 / 2) = z) ∧
    (child i false r = .null ∨ child i true l = .null ∨
      (child i false r).isLeaf = true ∧ (child i true l).isLeaf = true))

/-- Every node branches in one dimension, and has a simple face where it has both halves. -/
def Plain : Trie ℤ → Coords → Prop
  | .null, _ => True
  | .node _ next, bounds =>
    (∃ i, ∀ j b, next (label j b) ≠ .null → j = i) ∧
    (∀ i c, bounds[i]? = some c → next (label i true) ≠ .null → next (label i false) ≠ .null →
      SimpleFace i c (next (label i true)) (next (label i false))) ∧
    ∀ i b, Plain (next (label i b)) (halve (label i b) bounds)

/-- Bounds that differ at most in dimension `i`. -/
def AgreeOff (i : ℕ) (bounds bounds' : Coords) : Prop := ∀ j ≠ i, bounds[j]? = bounds'[j]?

section Plain

variable {n i : ℕ} {bounds bounds' : Coords} {x : ℕ → ℤ} {t : Trie ℤ}

theorem AgreeOff.halve (h : AgreeOff i bounds bounds') (j : ℕ) (b : Bool) :
    AgreeOff i (halve (label j b) bounds) (halve (label j b) bounds') := by
  intro k hk
  by_cases hkj : k = j
  · subst hkj
    rw [halve_label, halve_label, List.getElem?_modify_eq, List.getElem?_modify_eq, h k hk]
  · rw [getElem?_halve_ne hkj, getElem?_halve_ne hkj, h k hk]

theorem agreeOff_halve (bounds : Coords) (b : Bool) : AgreeOff i (halve (label i b) bounds) bounds :=
  fun _ hj => getElem?_halve_ne hj b

theorem AgreeOff.symm (h : AgreeOff i bounds bounds') : AgreeOff i bounds' bounds := fun j hj => (h j hj).symm

/-- Labels of a later dimension. -/
theorem ne_of_le_natAbs {j : ℕ} {b : Bool} (h : i + 2 ≤ (label j b).natAbs) : j ≠ i := by
  rw [natAbs_label] at h
  omega

/-- Where no branch is in dimension `i`, the bounds there do not matter. -/
theorem cells_congr : ∀ {t : Trie ℤ} {bounds bounds' : Coords}, Ordered n (i + 2) t → AgreeOff i bounds bounds' →
    (∀ c, bounds'[i]? = some c → c.1 ≤ x i ∧ x i ≤ c.2) → Cells n t bounds x → Cells n t bounds' x
  | .null, _, _, _, _, _, h => absurd h not_cells_null
  | .node true next, bounds, bounds', _, hoff, hi, h => by
    rw [cells_leaf] at h ⊢
    intro j c hc
    by_cases hj : j = i
    · subst hj
      unfold point
      exact_mod_cast hi c hc
    · exact h j c (by rw [hoff j hj, hc])
  | .node false next, bounds, bounds', ho, hoff, hi, h => by
    obtain ⟨d, hd, h⟩ := cells_node.1 h
    obtain ⟨j, b, -, rfl⟩ := mem_labels hd
    by_cases hnull : next (label j b) = .null
    · rw [hnull] at h
      exact absurd h not_cells_null
    · obtain ⟨-, hle, hbelow⟩ := ho.2 _ hnull
      have hj := ne_of_le_natAbs hle
      refine cells_node.2 ⟨_, hd, cells_congr (hbelow.mono hle) (hoff.halve j b) (fun c hc => hi c ?_) h⟩
      rwa [getElem?_halve_ne hj.symm] at hc

theorem plain_congr : ∀ {t : Trie ℤ} {bounds bounds' : Coords}, Ordered n (i + 2) t → AgreeOff i bounds bounds' →
    Plain t bounds → Plain t bounds'
  | .null, _, _, _, _, _ => trivial
  | .node isLeaf next, bounds, bounds', ho, hoff, h => by
    obtain ⟨hdim, hface, hbelow⟩ := h
    refine ⟨hdim, fun j c hc hr hl => ?_, fun j b => ?_⟩
    · have hj := ne_of_le_natAbs (ho.2 _ hr).2.1
      exact hface j c (by rw [hoff j hj, hc]) hr hl
    · by_cases hnull : next (label j b) = .null
      · rw [hnull]
        trivial
      · obtain ⟨-, hle, ho'⟩ := ho.2 _ hnull
        exact plain_congr (ho'.mono hle) (hoff.halve j b) (hbelow j b)

/-- The part of a trie at an end of dimension `i` has no branch in that dimension. -/
theorem ordered_child (upper : Bool) : ∀ {t : Trie ℤ}, Ordered n (i + 1) t → Ordered n (i + 2) (child i upper t)
  | .null, _ => trivial
  | .node isLeaf next, h => by
    rw [child]
    split_ifs with h1 h2
    · refine ⟨h.1, fun d hd => ?_⟩
      obtain ⟨hlab, hle, hbelow⟩ := h.2 d hd
      refine ⟨hlab, ?_, hbelow⟩
      obtain ⟨j, b, -, rfl⟩ := mem_labels hlab
      have hj : j ≠ i := by
        rintro rfl
        have hnull : ∀ b, next (label j b) = .null := by
          intro b
          rw [Trie.isNull_iff] at h1 h2
          cases b <;> cases upper <;> assumption
        exact hd (hnull b)
      rw [natAbs_label] at hle ⊢
      omega
    · trivial
    · have hne : next (label i upper) ≠ .null := fun h => h1 (Trie.isNull_iff.2 h)
      have hbelow := (h.2 _ hne).2.2
      rw [natAbs_label] at hbelow
      exact ordered_child upper hbelow

theorem plain_child (upper : Bool) : ∀ {t : Trie ℤ} {bounds bounds' : Coords}, Ordered n (i + 1) t →
    AgreeOff i bounds bounds' → Plain t bounds → Plain (child i upper t) bounds'
  | .null, _, _, _, _, _ => trivial
  | .node isLeaf next, bounds, bounds', ho, hoff, h => by
    have hchild := ordered_child upper ho
    rw [child] at hchild ⊢
    split_ifs at hchild ⊢ with h1 h2
    · exact plain_congr hchild hoff h
    · trivial
    · have hne : next (label i upper) ≠ .null := fun h => h1 (Trie.isNull_iff.2 h)
      have hbelow := (ho.2 _ hne).2.2
      rw [natAbs_label] at hbelow
      refine plain_child upper hbelow (fun j hj => ?_) (h.2.2 i upper)
      rw [getElem?_halve_ne hj, hoff j hj]

/-- An end of an interval is the end of one half, and not in the other. -/
theorem half_end {c : ℚ × ℚ} (hlt : c.1 < c.2) (upper : Bool) :
    (if upper then (half upper c).2 else (half upper c).1) = (if upper then c.2 else c.1) ∧
      ((half upper c).1 ≤ (if upper then c.2 else c.1) ∧ (if upper then c.2 else c.1) ≤ (half upper c).2) ∧
      ¬ ((half (!upper) c).1 ≤ (if upper then c.2 else c.1) ∧ (if upper then c.2 else c.1) ≤ (half (!upper) c).2) := by
  cases upper <;> refine ⟨rfl, ?_, fun h => ?_⟩ <;>
    simp only [half, Bool.not_false, Bool.not_true, Bool.false_eq_true, if_false, if_true] at *
  · constructor <;> linarith
  · linarith [h.1]
  · constructor <;> linarith
  · linarith [h.2]

/-- The branches of a plain node with a branch in dimension `i`. -/
theorem cells_plain {isLeaf : Bool} {next : ℤ → Trie ℤ} {k : ℕ} (ho : Ordered n k (.node isLeaf next))
    (hp : Plain (.node isLeaf next) bounds) {b : Bool} (hne : next (label i b) ≠ .null) :
    isLeaf = false ∧ (Cells n (.node isLeaf next) bounds x ↔
      Cells n (next (label i b)) (halve (label i b) bounds) x ∨
        Cells n (next (label i (!b))) (halve (label i (!b)) bounds) x) := by
  obtain ⟨⟨i₀, hdim⟩, -⟩ := hp
  obtain rfl := hdim i b hne
  obtain ⟨j, b', hj, hlab⟩ := mem_labels (ho.2 _ hne).1
  have hij : i = j := by
    have h := congrArg Int.natAbs hlab
    rw [natAbs_label, natAbs_label] at h
    omega
  have hleaf : isLeaf = false := Bool.eq_false_iff.2 fun h => hne (ho.1.1 h _)
  subst hleaf
  refine ⟨rfl, cells_node.trans ⟨?_, ?_⟩⟩
  · rintro ⟨d, hd, h⟩
    obtain ⟨k, a, -, rfl⟩ := mem_labels hd
    have hka : next (label k a) ≠ .null := by
      intro hnull
      rw [hnull] at h
      exact not_cells_null h
    obtain rfl := hdim k a hka
    by_cases hab : a = b
    · subst hab
      exact .inl h
    · obtain rfl : a = !b := by cases a <;> cases b <;> simp_all
      exact .inr h
  · rintro (h | h)
    · exact ⟨_, label_mem_labels (hij ▸ hj) b, h⟩
    · exact ⟨_, label_mem_labels (hij ▸ hj) (!b), h⟩

/-- A point at an end of dimension `i` lies in the cells of the part at that end. -/
theorem cells_child (upper : Bool) :
    ∀ {t : Trie ℤ} {bounds : Coords} {c : ℚ × ℚ}, n ≤ bounds.length → Ordered n (i + 1) t → Plain t bounds →
      bounds[i]? = some c → c.1 < c.2 → InBox bounds (point x) → (x i : ℚ) = (if upper then c.2 else c.1) →
    (Cells n t bounds x ↔ Cells n (child i upper t) bounds x)
  | .null, _, _, _, _, _, _, _, _, _ => Iff.rfl
  | .node isLeaf next, bounds, c, hn, ho, hp, hc, hlt, hx, hend => by
    obtain ⟨hsame, hin, hother⟩ := half_end hlt upper
    rw [← hend] at hin
    have hlen : ∀ b, n ≤ (halve (label i b) bounds).length := fun b => by rwa [halve_eq_set hc, List.length_set]
    have hout : ¬ Cells n (next (label i (!upper))) (halve (label i (!upper)) bounds) x := by
      intro h
      rw [← hend] at hother
      exact hother ((inBox_halve_point hc _ hx).1 (cells_within (hlen _) h))
    rw [child]
    split_ifs with h1 h2
    · exact Iff.rfl
    · have hne : next (label i (!upper)) ≠ .null := fun h => h2 (Trie.isNull_iff.2 h)
      rw [(cells_plain ho hp hne).2, Bool.not_not, Trie.isNull_iff.1 h1]
      exact iff_of_false (fun h => h.elim hout not_cells_null) not_cells_null
    · have hne : next (label i upper) ≠ .null := fun h => h1 (Trie.isNull_iff.2 h)
      have hbelow := (ho.2 _ hne).2.2
      rw [natAbs_label] at hbelow
      have hc' := getElem?_halve_self hc upper
      have hx' : InBox (halve (label i upper) bounds) (point x) := (inBox_halve_point hc upper hx).2 hin
      rw [(cells_plain ho hp hne).2, or_iff_left hout,
        cells_child upper (hlen upper) hbelow (hp.2.2 i upper) hc' (half_lt hlt upper) hx' (by rw [hend, hsame])]
      have hfree := ordered_child upper hbelow
      constructor
      · exact cells_congr hfree (agreeOff_halve bounds upper) fun e he => coord_of_inBox he hx
      · exact cells_congr hfree (agreeOff_halve bounds upper).symm fun e he => coord_of_inBox he hx'

end Plain

/-! ## Depth -/

/-- The number of nodes on the longest way down. -/
def depth (n : ℕ) : Trie ℤ → ℕ
  | .null => 0
  | .node _ next => ((labels n).map fun d => depth n (next d)).foldr max 0 + 1

theorem depth_next {n : ℕ} {isLeaf : Bool} {next : ℤ → Trie ℤ} {d : ℤ} (hd : d ∈ labels n) :
    depth n (next d) < depth n (.node isLeaf next) := by
  have hmax : ∀ {ks : List ℕ} {k : ℕ}, k ∈ ks → k ≤ ks.foldr max 0 := by
    intro ks
    induction ks with
    | nil => exact fun h => absurd h List.not_mem_nil
    | cons a ks ih =>
      intro k hk
      rcases List.mem_cons.1 hk with rfl | hk
      · exact le_max_left _ _
      · exact (ih hk).trans (le_max_right _ _)
  rw [depth]
  exact Nat.lt_succ_of_le (hmax (List.mem_map_of_mem hd))

theorem depth_pos (n : ℕ) {t : Trie ℤ} (h : t ≠ .null) : 0 < depth n t := by
  cases t with
  | null => exact absurd rfl h
  | node isLeaf next => exact Nat.succ_pos _

theorem depth_child {n i : ℕ} (upper : Bool) :
    ∀ {t : Trie ℤ} {k : ℕ}, Ordered n k t → depth n (child i upper t) ≤ depth n t
  | .null, _, _ => le_rfl
  | .node isLeaf next, k, h => by
    rw [child]
    split_ifs with h1 h2
    · exact le_rfl
    · exact Nat.zero_le _
    · obtain ⟨hlab, -, hbelow⟩ := h.2 (label i upper) fun h => h1 (Trie.isNull_iff.2 h)
      exact (depth_child upper hbelow).trans (depth_next hlab).le

/-! ## Conditions -/

section Conditions

variable {x : ℕ → ℤ} {i : ℕ} {c : ℚ × ℚ}

/-- The condition of a half. -/
def sideGuard (i : ℕ) (upper ignoreCenter : Bool) (c : ℚ × ℚ) : Guard :=
  ⟨i, toStringVal ⌈c.1⌉, ignoreCenter && upper, toStringVal ⌊c.2⌋, ignoreCenter && !upper⟩

/-- The condition of a face. -/
def faceGuard (i : ℕ) (m : ℚ) : Guard := ⟨i, toStringVal m, false, toStringVal m, false⟩

theorem holds_sideGuard (upper : Bool) : (sideGuard i upper false c).holds x = true ↔ c.1 ≤ x i ∧ x i ≤ c.2 := by
  unfold sideGuard Guard.holds
  simp only [toStringVal_intCast, Bool.false_and, Bool.false_eq_true, if_false, Bool.and_eq_true, decide_eq_true_eq,
    Int.cast_le, Int.ceil_le, Int.le_floor]

theorem holds_faceGuard {z : ℤ} : (faceGuard i z).holds x = true ↔ x i = z := by
  unfold faceGuard Guard.holds
  simp only [toStringVal_intCast, Bool.false_eq_true, if_false, Bool.and_eq_true, decide_eq_true_eq, Int.cast_le]
  omega

/-- Next to an integer face the end at the face is left out. -/
theorem holds_sideGuard_strict {z : ℤ} (hz : (c.1 + c.2) * (1 / 2) = z) :
    ((sideGuard i true true (half true c)).holds x = true ↔ z < x i ∧ x i ≤ c.2) ∧
      ((sideGuard i false true (half false c)).holds x = true ↔ c.1 ≤ x i ∧ x i < z) := by
  have hmid : (c.1 + c.2) / 2 = z := by rw [← hz]; ring
  unfold sideGuard Guard.holds half
  simp only [toStringVal_intCast, Bool.true_and, Bool.false_eq_true, if_false, if_true, Bool.and_eq_true,
    decide_eq_true_eq, Int.cast_le, Int.cast_lt, Int.ceil_le, Int.le_floor, hmid, Int.ceil_intCast, Int.floor_intCast,
    Bool.not_true, Bool.not_false, and_self]

end Conditions

/-! ## What is printed -/

/-- The branches that have been written. -/
def Printed (s : Printer) (bs : List (Guard × Code Guard)) : Prop :=
  s.ans = (bs.flatMap fun b => .cond b.1 :: b.2.text ++ [.els]) ∧ s.childNum = bs.length

theorem Printed.add {s : Printer} {bs : List (Guard × Code Guard)} (h : Printed s bs) (g : Guard) (code : Code Guard)
    (nb : Coords) : Printed (s.add g (code.text, nb)) (bs ++ [(g, code)]) := by
  obtain ⟨h1, h2⟩ := h
  unfold Printer.add
  exact ⟨by simp [h1], by simp [h2]⟩

section Loop

variable {call : Call} {n fuel i : ℕ} {next : ℤ → Trie ℤ} {s : Printer} {c : ℚ × ℚ}

theorem side_null (upper ignoreCenter : Bool) : side call i upper ignoreCenter .null s = some s := rfl

/-- A half is written with the condition that its own bounds give, also for a leaf. -/
theorem side_eq {t : Trie ℤ} {r : Text × Coords} (ht : t ≠ .null) (upper ignoreCenter : Bool)
    (hc : s.bounds[i]? = some c) (hcall : call t (halve (label i upper) s.bounds) s.nBounds = some r)
    (hleaf : t.isLeaf = true → r.2 = halve (label i upper) s.bounds) :
    side call i upper ignoreCenter t s =
      some { s.add (sideGuard i upper ignoreCenter (half upper c)) r with nodeNum := i } := by
  have hhalf : (if upper then upperHalf i s.bounds else lowerHalf i s.bounds) = halve (label i upper) s.bounds := by
    cases upper
    · exact lowerHalf_eq_halve i s.bounds
    · exact upperHalf_eq_halve i s.bounds
  have hundo : (if upper then undoUpper i (halve (label i upper) s.bounds)
      else undoLower i (halve (label i upper) s.bounds)) = s.bounds := by
    cases upper
    · exact (congrArg _ (lowerHalf_eq_halve i s.bounds).symm).trans (undoLower_lowerHalf i s.bounds)
    · exact (congrArg _ (upperHalf_eq_halve i s.bounds).symm).trans (undoUpper_upperHalf i s.bounds)
  have hbounds : (if t.isLeaf then r.2 else halve (label i upper) s.bounds) = halve (label i upper) s.bounds := by
    split_ifs with h
    · exact hleaf h
    · rfl
  have hcoord : (halve (label i upper) s.bounds).getD i (0, 0) = half upper c := by
    rw [List.getD_eq_getElem?_getD, getElem?_halve_self hc, Option.getD_some]
  unfold side
  rw [if_neg fun h => ht (Trie.isNull_iff.1 h)]
  simp only [hhalf, hcall, hbounds, hcoord, hundo, Option.bind_eq_bind, Option.bind_some, Option.pure_def]
  rfl

/-- A dimension without branches writes nothing. -/
theorem printDim_null (hr : next (label i true) = .null) (hl : next (label i false) = .null) :
    printDim call n fuel next s i = some s := by
  unfold printDim center
  simp [hr, hl, Trie.isNull, side_null]

end Loop

end GridSolve.Grid
