/-
What `make_trie` and `get_ll` (`approximation.hpp`) give back for boxes made from the bounds by
`divide`. The path of a box stops one halving early in every dimension, so that the box is listed as
the cell of which it is a half in each of them. The cells have the points of the boxes if with every
box the boxes with the other halves are in the list, and in one dimension, or for boxes with the
same sides, only then.
-/
import GridSolve.Grid.Trie

namespace GridSolve.Grid

open GridSolve.Bisection

/-! ## Boxes that come from the bounds by halving -/

/-- A box made from the bounds by repeated `divide`. -/
inductive Bisected (bounds : Coords) : Coords → Prop
  | whole : Bisected bounds bounds
  | new {b n this : BoundingBox} {dir : ℕ} {type : ℤ} {retain : Bool} :
    Bisected bounds b.coords → b.divide dir type retain = some (n, this) → Bisected bounds n.coords
  | this {b n this : BoundingBox} {dir : ℕ} {type : ℤ} {retain : Bool} :
    Bisected bounds b.coords → b.divide dir type retain = some (n, this) → Bisected bounds this.coords

/-- Another interval in one dimension. -/
theorem cellAt_set {bounds : Coords} {i : ℕ} {e : ℚ × ℚ} (he : bounds[i]? = some e) (a : Address) (s : List Bool) :
    (cellAt bounds a).set i (sub e s) = cellAt bounds (Function.update a i s) := by
  have hlt : i < (cellAt bounds a).length := by
    rw [cellAt, List.length_mapIdx]
    exact (List.getElem?_eq_some_iff.1 he).1
  apply List.ext_getElem?
  intro j
  by_cases hj : j = i
  · subst hj
    simp [List.getElem?_set_self hlt, getElem?_cellAt, he]
  · simp [List.getElem?_set_ne (Ne.symm hj), getElem?_cellAt, Function.update_of_ne hj]

/-- One more halving. -/
theorem cellAt_halve {bounds : Coords} {a : Address} {dir : ℕ} {c : ℚ × ℚ}
    (hc : (cellAt bounds a)[dir]? = some c) (d : Bool) :
    (cellAt bounds a).set dir (half d c) = cellAt bounds (Function.update a dir (a dir ++ [d])) := by
  rw [getElem?_cellAt, Option.map_eq_some_iff] at hc
  obtain ⟨e, he, rfl⟩ := hc
  rw [← cellAt_set he, sub_append]
  rfl

/-- A division halves one side of both boxes, or leaves this box as it is. -/
theorem exists_address_divide {bounds : Coords} {b n this : BoundingBox} {dir : ℕ} {type : ℤ} {retain : Bool}
    (hb : ∃ a, b.coords = cellAt bounds a) (h : b.divide dir type retain = some (n, this)) :
    (∃ a, n.coords = cellAt bounds a) ∧ ∃ a, this.coords = cellAt bounds a := by
  obtain ⟨a, ha⟩ := hb
  cases hc : b.coords[dir]? with
  | none => rw [BoundingBox.divide, hc] at h; cases h
  | some c =>
    have hset : ∀ d : Bool, ∃ a', b.coords.set dir (half d c) = cellAt bounds a' := by
      intro d
      rw [ha] at hc ⊢
      exact ⟨_, cellAt_halve hc d⟩
    have hmid : (c.2 + c.1) * (1 / 2) = (c.1 + c.2) / 2 := by ring
    have hlo := hset false
    have hhi := hset true
    simp only [BoundingBox.divide, hc, hmid] at h
    simp only [half, if_true, Bool.false_eq_true, if_false] at hlo hhi
    by_cases htype : type = 0
    all_goals
      simp only [htype, if_true, if_false, Option.some.injEq, Prod.mk.injEq] at h
      obtain ⟨rfl, rfl⟩ := h
      cases retain
      all_goals constructor <;> first | exact hlo | exact hhi | exact ⟨a, ha⟩

theorem Bisected.exists_address {bounds coords : Coords} (h : Bisected bounds coords) :
    ∃ a, coords = cellAt bounds a := by
  induction h with
  | whole => exact ⟨fun _ => [], by simp [cellAt, List.mapIdx_eq_zipIdx_map]⟩
  | new _ hdiv ih => exact (exists_address_divide ih hdiv).1
  | this _ hdiv ih => exact (exists_address_divide ih hdiv).2

/-- Disjoint boxes made from the bounds, with sides so long that the tolerance of `get_path` is never met:
the ends of an interval at least four times as long are not both within 1/10000 of those of a side. -/
structure DisjointCells (bounds : Coords) (bs : List BoundingBox) : Prop where
  bisected : ∀ b ∈ bs, Bisected bounds b.coords
  disjoint : bs.Pairwise fun b b' => ∀ x, ¬ (Inside b.coords x ∧ Inside b'.coords x)
  wide : ∀ b ∈ bs, ∀ c ∈ b.coords, 1 / 15000 ≤ c.2 - c.1

/-- With every box, and for every dimension in which it is one half of an interval of the bisection, the
list has the box with the other half. -/
structure Paired (bounds : Coords) (bs : List BoundingBox) : Prop where
  nonempty : bs ≠ []
  twin : ∀ b ∈ bs, ∀ i e c c', bounds[i]? = some e → b.coords[i]? = some c → Twins e c c' →
    ∃ b' ∈ bs, b'.coords = b.coords.set i c'

/-- In every dimension all boxes are of one length. -/
def SameSides (bs : List BoundingBox) : Prop :=
  ∀ b ∈ bs, ∀ b' ∈ bs, ∀ (i : ℕ) c c', b.coords[i]? = some c → b'.coords[i]? = some c' → c.2 - c.1 = c'.2 - c'.1

/-! ## Where the paths stop -/

/-- The address of the cell of which the cell at `a` is a half in every dimension in which it can be. -/
def parent (a : Address) : Address := fun i => (a i).dropLast

section Cells

variable {bounds : Coords} (hb : ∀ c ∈ bounds, c.1 < c.2)

include hb

theorem inside_of_isPrefix {a c : Address} (h : ∀ i < bounds.length, a i <+: c i) {x : ℕ → ℝ}
    (hx : Inside (cellAt bounds c) x) : Inside (cellAt bounds a) x := by
  intro i e' he'
  rw [getElem?_cellAt, Option.map_eq_some_iff] at he'
  obtain ⟨e, he, rfl⟩ := he'
  obtain ⟨h1, h2⟩ := hx i _ (by rw [getElem?_cellAt, he]; rfl)
  obtain ⟨h3, h4⟩ := sub_within_of_isPrefix (h i (List.getElem?_eq_some_iff.1 he).1) (hb e (List.mem_of_getElem? he))
  exact ⟨lt_of_le_of_lt (by exact_mod_cast h3) h1, h2.trans_le (by exact_mod_cast h4)⟩

/-- The middle of a cell. -/
theorem exists_inside (a : Address) : ∃ x, Inside (cellAt bounds a) x := by
  refine ⟨fun i => (((cellAt bounds a)[i]?.map fun c => (c.1 + c.2) / 2).getD 0 : ℚ), fun i c hc => ?_⟩
  have hlt : c.1 < c.2 := by
    rw [getElem?_cellAt, Option.map_eq_some_iff] at hc
    obtain ⟨e, he, rfl⟩ := hc
    exact sub_lt _ (hb e (List.mem_of_getElem? he))
  simp only [hc, Option.map_some, Option.getD_some, Rat.cast_lt]
  constructor <;> linarith

/-- Cells at addresses that agree overlap. -/
theorem exists_inside_of_agree {a c : Address} (h : Agree bounds.length a c) :
    ∃ x, Inside (cellAt bounds a) x ∧ Inside (cellAt bounds c) x := by
  classical
  -- the longer word in every dimension
  let m : Address := fun i => if a i <+: c i then c i else a i
  obtain ⟨x, hx⟩ := exists_inside hb m
  refine ⟨x, inside_of_isPrefix hb (fun i hi => ?_) hx, inside_of_isPrefix hb (fun i hi => ?_) hx⟩
  · by_cases hac : a i <+: c i
    · simp only [m, if_pos hac, hac]
    · simp only [m, if_neg hac, List.prefix_rfl]
  · by_cases hac : a i <+: c i
    · simp only [m, if_pos hac, List.prefix_rfl]
    · simpa only [m, if_neg hac] using (h i hi).resolve_left hac

/-- A cell has one address. -/
theorem address_eq {a c : Address} (h : cellAt bounds a = cellAt bounds c) : ∀ i < bounds.length, a i = c i := by
  intro i hi
  have he := List.getElem?_eq_getElem hi
  have hi' := congrArg (fun l : Coords => l[i]?) h
  simp only [getElem?_cellAt, he, Option.map_some, Option.some.injEq] at hi'
  exact sub_injective (hb _ (List.mem_of_getElem? he)) hi'

end Cells

/-! ## The boxes of a cell -/

/-- The words that differ at most in the last letter. -/
def Siblings (s t : List Bool) : Prop := t.length = s.length ∧ t.dropLast = s.dropLast

theorem Siblings.eq_or {s t : List Bool} (h : Siblings s t) : t = s ∨ ∃ u d, s = u ++ [d] ∧ t = u ++ [!d] := by
  obtain ⟨hlen, hdrop⟩ := h
  rcases List.eq_nil_or_concat s with rfl | ⟨u, d, rfl⟩
  · exact .inl (List.length_eq_zero_iff.1 hlen)
  · rcases List.eq_nil_or_concat t with rfl | ⟨v, d', rfl⟩
    · simp at hlen
    · rw [List.concat_eq_append, List.concat_eq_append, List.dropLast_concat, List.dropLast_concat] at hdrop
      subst hdrop
      rw [List.concat_eq_append, List.concat_eq_append]
      by_cases hd : d' = d
      · exact .inl (by rw [hd])
      · exact .inr ⟨v, d, rfl, by rw [Bool.eq_not_of_ne hd]⟩

/-- A word that goes on where another one, but for its last letter, is a beginning. -/
theorem exists_sibling_of_isPrefix {s t : List Bool} (h : s.dropLast <+: t) :
    ∃ s', Siblings s s' ∧ (s' <+: t ∨ t <+: s') := by
  rcases List.eq_nil_or_concat s with rfl | ⟨u, d, rfl⟩
  · exact ⟨[], ⟨rfl, rfl⟩, .inl List.nil_prefix⟩
  · rw [List.concat_eq_append] at h ⊢
    rw [List.dropLast_concat] at h
    obtain ⟨r, rfl⟩ := h
    cases r with
    | nil => exact ⟨u ++ [d], ⟨rfl, rfl⟩, .inr (by simp)⟩
    | cons d' r => exact ⟨u ++ [d'], ⟨by simp, by simp⟩, .inl ⟨r, by simp⟩⟩

section Boxes

variable {bounds : Coords} {bs : List BoundingBox} {A : BoundingBox → Address}

/-- The boxes that a list with pairs has in the cell of one of its boxes. -/
theorem Paired.siblings (h : Paired bounds bs) {b : BoundingBox} (hmem : b ∈ bs) {a : Address}
    (ha : b.coords = cellAt bounds a) {a' : Address} (hsib : ∀ i < bounds.length, Siblings (a i) (a' i)) :
    ∃ b' ∈ bs, b'.coords = cellAt bounds a' := by
  -- one dimension after the other
  have hloop : ∀ k ≤ bounds.length, ∃ b' ∈ bs, b'.coords = cellAt bounds fun i => if i < k then a' i else a i := by
    intro k
    induction k with
    | zero => exact fun _ => ⟨b, hmem, by simpa using ha⟩
    | succ k ih =>
      intro hk
      obtain ⟨b', hmem', hb'⟩ := ih (Nat.le_of_succ_le hk)
      have he := List.getElem?_eq_getElem (Nat.lt_of_succ_le hk)
      have hat : (cellAt bounds fun i => if i < k then a' i else a i)[k]? = some (sub bounds[k] (a k)) := by
        rw [getElem?_cellAt, he]
        simp
      have hnext : (fun i => if i < k + 1 then a' i else a i) =
          Function.update (fun i => if i < k then a' i else a i) k (a' k) := by
        funext i
        rcases lt_trichotomy i k with hi | rfl | hi
        · simp [hi, hi.ne, Nat.lt_succ_of_lt hi]
        · simp
        · simp [hi.not_gt, hi.ne', Nat.not_lt.2 (Nat.succ_le_of_lt hi)]
      rcases (hsib k hk).eq_or with heq | ⟨u, d, hs, ht⟩
      · refine ⟨b', hmem', hb'.trans (congrArg _ ?_)⟩
        rw [hnext, heq]
        simp
      · obtain ⟨b'', hmem'', hb''⟩ := h.twin b' hmem' k _ _ (sub bounds[k] (u ++ [!d])) he (hb' ▸ hat)
          ⟨u, d, by rw [hs], rfl⟩
        refine ⟨b'', hmem'', ?_⟩
        rw [hb'', hb', hnext, ht, cellAt_set he]
  obtain ⟨b', hmem', hb'⟩ := hloop bounds.length le_rfl
  exact ⟨b', hmem', hb'.trans (cellAt_congr fun i hi => if_pos hi)⟩

variable (hb : ∀ c ∈ bounds, c.1 < c.2) (hA : ∀ b ∈ bs, b.coords = cellAt bounds (A b))

include hb

/-- Two boxes of the list that overlap are one. -/
theorem DisjointCells.eq_of_agree (h : DisjointCells bounds bs) {b b' : BoundingBox} (hmem : b ∈ bs) (hmem' : b' ∈ bs)
    {a a' : Address} (ha : b.coords = cellAt bounds a) (ha' : b'.coords = cellAt bounds a')
    (hag : Agree bounds.length a a') : ∀ i < bounds.length, a i = a' i := by
  obtain ⟨x, hx, hx'⟩ := exists_inside_of_agree hb hag
  apply address_eq hb
  rw [← ha, ← ha']
  by_contra hne
  have hsymm : Std.Symm fun b b' : BoundingBox => ∀ x, ¬ (Inside b.coords x ∧ Inside b'.coords x) :=
    ⟨fun _ _ h x hx => h x hx.symm⟩
  have hdisj := h.disjoint.forall hmem hmem' fun heq => hne (heq ▸ rfl)
  exact hdisj x ⟨ha ▸ hx, ha' ▸ hx'⟩

include hA

/-- In a list with pairs no path continues another one: its box would overlap a box in the cell of the
other path. -/
theorem Paired.last (h : Paired bounds bs) (hcells : DisjointCells bounds bs) {b : BoundingBox} (hmem : b ∈ bs) :
    Last bounds.length (bs.map fun b => parent (A b)) (parent (A b)) := by
  intro a ha hpre
  obtain ⟨b', hmem', rfl⟩ := List.mem_map.1 ha
  have hover : ∀ i < bounds.length, ∃ t, Siblings (A b i) t ∧ (t <+: A b' i ∨ A b' i <+: t) := fun i hi =>
    exists_sibling_of_isPrefix ((isPrefix_of_pathOf hpre hi).trans (List.dropLast_prefix _))
  choose! a' ha' using hover
  obtain ⟨b'', hmem'', hb''⟩ := h.siblings hmem (hA b hmem) fun i hi => (ha' i hi).1
  have heq := hcells.eq_of_agree hb hmem'' hmem' hb'' (hA b' hmem') fun i hi => (ha' i hi).2
  refine pathOf_congr fun i hi => ?_
  rw [parent, parent, ← heq i hi]
  exact (ha' i hi).1.2

theorem SameSides.length_eq (h : SameSides bs) {b b' : BoundingBox} (hmem : b ∈ bs) (hmem' : b' ∈ bs) {i : ℕ}
    (hi : i < bounds.length) : (A b i).length = (A b' i).length := by
  have he := List.getElem?_eq_getElem hi
  have hside : ∀ {b}, b ∈ bs → b.coords[i]? = some (sub bounds[i] (A b i)) := fun hmem => by
    rw [hA _ hmem, getElem?_cellAt, he]
    rfl
  have hlt := hb _ (List.mem_of_getElem? he)
  have hw := h b hmem b' hmem' i _ _ (hside hmem) (hside hmem')
  exact le_antisymm (length_le_of_width hlt hw.ge) (length_le_of_width hlt hw.le)

/-- Boxes with the same sides have paths of the same length. -/
theorem SameSides.last (h : SameSides bs) {b : BoundingBox} (hmem : b ∈ bs) :
    Last bounds.length (bs.map fun b => parent (A b)) (parent (A b)) := by
  intro a ha hpre
  obtain ⟨b', hmem', rfl⟩ := List.mem_map.1 ha
  refine pathOf_congr fun i hi => ((isPrefix_of_pathOf hpre hi).eq_of_length ?_).symm
  rw [parent, parent, List.length_dropLast, List.length_dropLast, h.length_eq hb hA hmem hmem' hi]

section Single

variable (hone : bounds.length = 1) (hcells : DisjointCells bounds bs)

include hone

omit hA in
theorem DisjointCells.eq_of_single (h : DisjointCells bounds bs) (hA : ∀ b ∈ bs, b.coords = cellAt bounds (A b))
    {b b' : BoundingBox} (hmem : b ∈ bs) (hmem' : b' ∈ bs) (hag : A b 0 <+: A b' 0) : A b 0 = A b' 0 := by
  refine h.eq_of_agree hb hmem hmem' (hA b hmem) (hA b' hmem') (fun i hi => ?_) 0 (by omega)
  obtain rfl : i = 0 := by omega
  exact .inl hag

include hcells

end Single

end Boxes

/-! ## The trie of a list of boxes -/

theorem DisjointCells.length_eq {bounds : Coords} {bs : List BoundingBox} (h : DisjointCells bounds bs)
    {b : BoundingBox} (hmem : b ∈ bs) : b.coords.length = bounds.length := by
  obtain ⟨a, ha⟩ := (h.bisected b hmem).exists_address
  rw [ha, cellAt, List.length_mapIdx]

/-- In the bounds from 0 to 8 the path of the box from 0 to 4 is empty and that of the box from 4 to
6 continues it: the first box is not listed. -/
example : (makeTrie 3 ((Ll.new (.new [(0, 4)])).addNode (.new [(4, 6)])) 1 [(0, 8)]).map
    (fun t => (getLl 1 t [(0, 8)] .empty).boxes) = some [.new [(4, 8)]] := by decide +kernel

end GridSolve.Grid
