/-
`class bounding_box` (`approximation.hpp`, `approximation.cpp`) with exact rational coordinates,
and the points of a box. Splitting a box along its longest side keeps all its points; rounding a
box to integer bounds keeps its integer points and adds none. The field `curr_state` is written
and never read by the refinement, and is left out.
-/
import Mathlib.Data.Rat.Floor
import Mathlib.Data.Real.Basic
import Mathlib.Algebra.Order.Floor.Ring
import Mathlib.Tactic

namespace GridSolve.Grid

/-- A lower and an upper bound for every dimension. -/
abbrev Coords := List (ℚ × ℚ)

/-- `class bounding_box`: the state vector has an entry for every shape, 1 for certified. -/
structure BoundingBox where
  coords : Coords
  currStateVec : List ℤ
  confidence : ℤ
  deriving DecidableEq, Repr

namespace BoundingBox

/-- `bounding_box(acoords)`. -/
def new (acoords : Coords) : BoundingBox := { coords := acoords, currStateVec := [], confidence := 0 }

/-- One coordinate of `round`; the branch of the code guarded by `&& false` is never taken. -/
def roundCoord (type : ℤ) (c : ℚ × ℚ) : ℚ × ℚ :=
  ((⌈c.1⌉ : ℚ), if |c.2 - (⌊c.2⌋ : ℚ)| ≤ 1 / 10000 ∧ type = 0 then (⌊c.2⌋ : ℚ) - 1 else (⌊c.2⌋ : ℚ))

/-- `round`. -/
def round (type : ℤ) (b : BoundingBox) : BoundingBox := { b with coords := b.coords.map (roundCoord type) }

/-- `not_valid`. -/
def notValid (b : BoundingBox) : Bool := b.coords.any fun c => c.2 < c.1

/-- `divide`: the new box and this one, which keeps the other half unless `retain`. An index
outside the coordinates has no result. -/
def divide (dir : ℕ) (type : ℤ) (retain : Bool) (b : BoundingBox) : Option (BoundingBox × BoundingBox) :=
  match b.coords[dir]? with
  | none => none
  | some c =>
    let temp := (c.2 + c.1) * (1 / 2)
    if type = 0 then
      some (new (b.coords.set dir (c.1, temp)),
        if retain then b else { b with coords := b.coords.set dir (temp, c.2) })
    else
      some (new (b.coords.set dir (temp, c.2)),
        if retain then b else { b with coords := b.coords.set dir (c.1, temp) })

/-- `norm`: the longest side, at least -1. -/
def norm (b : BoundingBox) : ℚ := b.coords.foldl (fun ans c => max ans (c.2 - c.1)) (-1)

/-- `init_curr_state_vec(v)`. -/
def initCurrStateVec (v : List ℤ) (b : BoundingBox) : BoundingBox := { b with currStateVec := v }

/-- `recompute_confidence`. The sum, an `int`, is compared with `size() - 1` as an unsigned number. -/
def recomputeConfidence (b : BoundingBox) : BoundingBox :=
  if b.currStateVec.sum % 18446744073709551616 ≥ ((b.currStateVec.length : ℤ) - 1) % 18446744073709551616 then
    { b with confidence := 1 }
  else b

/-- The loop that looks for the longest side, `dir` the next index, `idx` the best so far. -/
def longestFrom : ℕ → ℚ → Option ℕ → Coords → Option ℕ
  | _, _, idx, [] => idx
  | dir, mxLen, idx, c :: cs =>
    if mxLen < c.2 - c.1 then longestFrom (dir + 1) (c.2 - c.1) (some dir) cs
    else longestFrom (dir + 1) mxLen idx cs

/-- The longest side; `n_dir` is the number of coordinates, which every box has. -/
def longestDir (b : BoundingBox) : Option ℕ := longestFrom 0 (-1) none b.coords

/-- The split of an undecided box: what is left of it and the new box, which inherits the state
vector. -/
def split (b : BoundingBox) : Option (BoundingBox × BoundingBox) :=
  match b.longestDir with
  | none => none
  | some idx =>
    match b.divide idx 0 false with
    | none => none
    | some (n, this) => some (this, n.initCurrStateVec this.currStateVec)

end BoundingBox

/-! ## Points -/

/-- `x` lies in the box. -/
def InBox (coords : Coords) (x : ℕ → ℝ) : Prop := ∀ i c, coords[i]? = some c → (c.1 : ℝ) ≤ x i ∧ x i ≤ c.2

/-- `x` lies in the interior of the box. -/
def Inside (coords : Coords) (x : ℕ → ℝ) : Prop := ∀ i c, coords[i]? = some c → (c.1 : ℝ) < x i ∧ x i < c.2

theorem Inside.inBox {coords : Coords} {x : ℕ → ℝ} (h : Inside coords x) : InBox coords x :=
  fun i c hc => ⟨(h i c hc).1.le, (h i c hc).2.le⟩

/-- Some box of the list contains `x`. -/
def Covered (bs : List BoundingBox) (x : ℕ → ℝ) : Prop := ∃ b ∈ bs, InBox b.coords x

/-- All corners are integers. -/
def IntCoords (coords : Coords) : Prop := ∀ c ∈ coords, ∃ l r : ℤ, c = ((l : ℚ), (r : ℚ))

theorem inBox_nil (x : ℕ → ℝ) : InBox [] x := fun i c h => by simp at h

/-- The corner of the lower ends. -/
theorem exists_inBox {coords : Coords} (h : ∀ c ∈ coords, c.1 ≤ c.2) : ∃ x, InBox coords x := by
  refine ⟨fun i => ((coords[i]?.map Prod.fst).getD 0 : ℚ), fun i c hc => ?_⟩
  have hle := h c (List.mem_of_getElem? hc)
  simp only [hc, Option.map_some, Option.getD_some]
  exact ⟨le_rfl, by exact_mod_cast hle⟩

/-- A box inside another one, and not empty, has its corners between those of the other. -/
theorem corners_of_subset {coords coords' : Coords} (hv : ∀ c ∈ coords, c.1 ≤ c.2)
    (h : ∀ x, InBox coords x → InBox coords' x) {i : ℕ} {c c' : ℚ × ℚ} (hc : coords[i]? = some c)
    (hc' : coords'[i]? = some c') : c'.1 ≤ c.1 ∧ c.2 ≤ c'.2 := by
  obtain ⟨y, hy⟩ := exists_inBox hv
  -- a point of the box with any value between the corners in coordinate `i`
  have hpoint : ∀ v : ℚ, c.1 ≤ v → v ≤ c.2 → InBox coords (Function.update y i (v : ℝ)) := by
    intro v h1 h2 j d hd
    by_cases hj : j = i
    · subst hj
      rw [hc, Option.some.injEq] at hd
      subst hd
      simp only [Function.update_self, Rat.cast_le]
      exact ⟨h1, h2⟩
    · rw [Function.update_of_ne hj]
      exact hy j d hd
  have hle := hv c (List.mem_of_getElem? hc)
  have hlo := h _ (hpoint c.1 le_rfl hle) i c' hc'
  have hhi := h _ (hpoint c.2 hle le_rfl) i c' hc'
  simp only [Function.update_self, Rat.cast_le] at hlo hhi
  exact ⟨hlo.1, hhi.2⟩

theorem inBox_singleton {c : ℚ × ℚ} {x : ℕ → ℝ} : InBox [c] x ↔ (c.1 : ℝ) ≤ x 0 ∧ x 0 ≤ c.2 := by
  constructor
  · exact fun h => h 0 c rfl
  · rintro h (_ | i) e he
    · cases he
      exact h
    · cases he

/-- A condition on every coordinate, at one coordinate and at the others. -/
theorem forall_coord_at {coords : Coords} {d : ℕ} {c : ℚ × ℚ} (hc : coords[d]? = some c) {P : ℕ → ℚ × ℚ → Prop} :
    (∀ i e, coords[i]? = some e → P i e) ↔ (∀ i ≠ d, ∀ e, coords[i]? = some e → P i e) ∧ P d c := by
  constructor
  · exact fun h => ⟨fun i _ => h i, h d c hc⟩
  · rintro ⟨h1, h2⟩ i e he
    by_cases hi : i = d
    · subst hi
      rw [hc] at he
      cases he
      exact h2
    · exact h1 i hi e he

/-- The same when the coordinate is replaced. -/
theorem forall_coord_set {coords : Coords} {d : ℕ} {c c' : ℚ × ℚ} (hc : coords[d]? = some c)
    {P : ℕ → ℚ × ℚ → Prop} :
    (∀ i e, (coords.set d c')[i]? = some e → P i e) ↔ (∀ i ≠ d, ∀ e, coords[i]? = some e → P i e) ∧ P d c' := by
  have hlt := (List.getElem?_eq_some_iff.1 hc).1
  rw [forall_coord_at (List.getElem?_set_self hlt)]
  refine and_congr_left' (forall₂_congr fun i hi => ?_)
  rw [List.getElem?_set_ne (Ne.symm hi)]

namespace BoundingBox

/-! ## Rounding -/

theorem round_one_coord (c : ℚ × ℚ) : roundCoord 1 c = ((⌈c.1⌉ : ℚ), (⌊c.2⌋ : ℚ)) := by simp [roundCoord]

theorem getElem?_round {b : BoundingBox} {type : ℤ} {i : ℕ} {c : ℚ × ℚ} (h : (b.round type).coords[i]? = some c) :
    ∃ e, b.coords[i]? = some e ∧ c = roundCoord type e := by
  simp only [round, List.getElem?_map, Option.map_eq_some_iff] at h
  obtain ⟨e, he, rfl⟩ := h
  exact ⟨e, he, rfl⟩

theorem intCoords_round (b : BoundingBox) : IntCoords (b.round 1).coords := by
  intro c hc
  obtain ⟨e, -, rfl⟩ := List.mem_map.1 hc
  exact ⟨⌈e.1⌉, ⌊e.2⌋, round_one_coord e⟩

/-- Rounding only shrinks a box. -/
theorem inBox_of_round {b : BoundingBox} {x : ℕ → ℝ} (h : InBox (b.round 1).coords x) : InBox b.coords x := by
  intro i c hc
  have := h i (roundCoord 1 c) (by simp [round, hc])
  rw [round_one_coord] at this
  simp only [Rat.cast_intCast] at this
  constructor
  · exact le_trans (by exact_mod_cast Int.le_ceil c.1) this.1
  · exact this.2.trans (by exact_mod_cast Int.floor_le c.2)

theorem inside_of_round {b : BoundingBox} {x : ℕ → ℝ} (h : Inside (b.round 1).coords x) : Inside b.coords x := by
  intro i c hc
  have := h i (roundCoord 1 c) (by simp [round, hc])
  rw [round_one_coord] at this
  simp only [Rat.cast_intCast] at this
  constructor
  · exact lt_of_le_of_lt (by exact_mod_cast Int.le_ceil c.1) this.1
  · exact this.2.trans_le (by exact_mod_cast Int.floor_le c.2)

/-- Rounding keeps the integer points. -/
theorem inBox_round {b : BoundingBox} {z : ℕ → ℤ} :
    InBox (b.round 1).coords (fun i => (z i : ℝ)) ↔ InBox b.coords (fun i => (z i : ℝ)) := by
  refine ⟨inBox_of_round, fun h i c hc => ?_⟩
  obtain ⟨e, he, rfl⟩ := getElem?_round hc
  obtain ⟨h1, h2⟩ : (e.1 : ℝ) ≤ (z i : ℝ) ∧ (z i : ℝ) ≤ e.2 := h i e he
  rw [round_one_coord]
  simp only [Rat.cast_intCast, Int.cast_le]
  exact ⟨Int.ceil_le.2 (by exact_mod_cast h1), Int.le_floor.2 (by exact_mod_cast h2)⟩

/-- A box turned inside out has no points. -/
theorem not_inBox_of_notValid {b : BoundingBox} (h : b.notValid = true) (x : ℕ → ℝ) : ¬ InBox b.coords x := by
  obtain ⟨c, hc, hlt⟩ := List.any_eq_true.1 h
  obtain ⟨i, hi⟩ := List.getElem?_of_mem hc
  intro hx
  obtain ⟨h1, h2⟩ := hx i c hi
  have : (c.2 : ℝ) < c.1 := by exact_mod_cast of_decide_eq_true hlt
  linarith

/-- Any other box has one. -/
theorem exists_inBox_of_valid {b : BoundingBox} (h : b.notValid = false) : ∃ x, InBox b.coords x := by
  apply exists_inBox
  intro c hc
  simpa using List.any_eq_false.1 h c hc

/-! ## Splitting -/

/-- What a split does: coordinate `dir` is cut in the middle, the rest of both boxes is as before. -/
structure IsSplit (b this n : BoundingBox) (dir : ℕ) (c : ℚ × ℚ) : Prop where
  at_dir : b.coords[dir]? = some c
  longest : b.longestDir = some dir
  this_eq : this = { b with coords := b.coords.set dir ((c.2 + c.1) * (1 / 2), c.2) }
  new_eq : n = ⟨b.coords.set dir (c.1, (c.2 + c.1) * (1 / 2)), b.currStateVec, 0⟩

theorem split_isSplit {b this n : BoundingBox} (h : b.split = some (this, n)) :
    ∃ dir c, IsSplit b this n dir c := by
  unfold split at h
  cases hd : b.longestDir with
  | none => rw [hd] at h; cases h
  | some dir =>
    rw [hd] at h
    simp only [divide] at h
    cases hc : b.coords[dir]? with
    | none => rw [hc] at h; cases h
    | some c =>
      rw [hc] at h
      simp only [if_true, Option.some.injEq, Prod.mk.injEq] at h
      exact ⟨dir, c, hc, hd, h.1.symm, h.2.symm⟩

/-- The side that the search finds has the largest length, if any is longer than the start. -/
theorem longestFrom_spec : ∀ (cs : Coords) (dir : ℕ) (mxLen : ℚ) (idx : Option ℕ),
    (longestFrom dir mxLen idx cs = idx ∧ cs.foldl (fun ans c => max ans (c.2 - c.1)) mxLen = mxLen) ∨
      ∃ j c, longestFrom dir mxLen idx cs = some (dir + j) ∧ cs[j]? = some c ∧
        cs.foldl (fun ans c => max ans (c.2 - c.1)) mxLen = c.2 - c.1 ∧ mxLen < c.2 - c.1
  | [], dir, mxLen, idx => .inl ⟨rfl, rfl⟩
  | e :: cs, dir, mxLen, idx => by
    rw [longestFrom, List.foldl_cons]
    by_cases hlt : mxLen < e.2 - e.1
    · rw [if_pos hlt, max_eq_right hlt.le]
      rcases longestFrom_spec cs (dir + 1) (e.2 - e.1) (some dir) with ⟨h1, h2⟩ | ⟨j, c, h1, h2, h3, h4⟩
      · exact .inr ⟨0, e, by simpa using h1, rfl, h2, hlt⟩
      · exact .inr ⟨j + 1, c, by rw [h1]; congr 1; omega, by simpa using h2, h3, hlt.trans h4⟩
    · rw [if_neg hlt, max_eq_left (not_lt.1 hlt)]
      rcases longestFrom_spec cs (dir + 1) mxLen idx with ⟨h1, h2⟩ | ⟨j, c, h1, h2, h3⟩
      · exact .inl ⟨h1, h2⟩
      · exact .inr ⟨j + 1, c, by rw [h1]; congr 1; omega, by simpa using h2, h3⟩

/-- The side that is cut is as long as the norm says, and longer than -1. -/
theorem IsSplit.norm_eq {b this n : BoundingBox} {dir : ℕ} {c : ℚ × ℚ} (h : IsSplit b this n dir c) :
    c.2 - c.1 = b.norm ∧ -1 < c.2 - c.1 := by
  rcases longestFrom_spec b.coords 0 (-1) none with ⟨h1, -⟩ | ⟨j, e, h1, h2, h3, h4⟩
  · exact absurd (h.longest.symm.trans h1) nofun
  · obtain rfl : dir = j := by simpa using h.longest.symm.trans h1
    rw [h.at_dir] at h2
    cases h2
    exact ⟨h3.symm, h4⟩

/-- A box with a side longer than -1 can be split. -/
theorem exists_split {b : BoundingBox} (h : -1 < b.norm) : ∃ this n, b.split = some (this, n) := by
  rcases longestFrom_spec b.coords 0 (-1) none with ⟨-, h2⟩ | ⟨j, e, h1, h2, -⟩
  · exact absurd h2 (ne_of_gt h)
  · have hdir : b.longestDir = some j := by simpa [longestDir] using h1
    exact ⟨_, _, by simp only [split, hdir, divide, h2, if_true]; rfl⟩

/-- The two halves have together the points of the box. -/
theorem IsSplit.inBox_iff {b this n : BoundingBox} {dir : ℕ} {c : ℚ × ℚ} (h : IsSplit b this n dir c) (x : ℕ → ℝ) :
    InBox b.coords x ↔ InBox this.coords x ∨ InBox n.coords x := by
  rw [h.this_eq, h.new_eq]
  simp only [InBox]
  rw [forall_coord_set h.at_dir, forall_coord_set h.at_dir, forall_coord_at h.at_dir, ← and_or_left]
  refine and_congr_right fun _ => ?_
  push_cast
  constructor
  · rintro ⟨h1, h2⟩
    rcases le_total (((c.2 : ℝ) + c.1) * (1 / 2)) (x dir) with hm | hm
    · exact .inl ⟨hm, h2⟩
    · exact .inr ⟨h1, hm⟩
  · rintro (⟨h1, h2⟩ | ⟨h1, h2⟩)
    · exact ⟨by linarith, h2⟩
    · exact ⟨h1, by linarith⟩

/-- The halves lie in the box, and have no inner point in common. -/
theorem IsSplit.inside {b this n : BoundingBox} {dir : ℕ} {c : ℚ × ℚ} (h : IsSplit b this n dir c) (x : ℕ → ℝ) :
    (Inside this.coords x → Inside b.coords x) ∧ (Inside n.coords x → Inside b.coords x) ∧
      ¬ (Inside this.coords x ∧ Inside n.coords x) := by
  rw [h.this_eq, h.new_eq]
  simp only [Inside]
  rw [forall_coord_set h.at_dir, forall_coord_set h.at_dir, forall_coord_at h.at_dir]
  push_cast
  refine ⟨?_, ?_, ?_⟩
  · rintro ⟨hr, h1, h2⟩
    exact ⟨hr, by linarith, h2⟩
  · rintro ⟨hr, h1, h2⟩
    exact ⟨hr, h1, by linarith⟩
  · rintro ⟨⟨-, h1, -⟩, -, -, h2⟩
    exact lt_asymm h1 h2

end BoundingBox

/-! ## Boxes within boxes -/

/-- The sides of `coords'` are within those of `coords`. -/
def Narrower (coords' coords : Coords) : Prop := List.Forall₂ (fun c' c => c.1 ≤ c'.1 ∧ c'.2 ≤ c.2) coords' coords

theorem Narrower.refl (coords : Coords) : Narrower coords coords := List.forall₂_same.2 fun _ _ => ⟨le_rfl, le_rfl⟩

theorem Narrower.trans {c₁ c₂ c₃ : Coords} (h : Narrower c₁ c₂) (h' : Narrower c₂ c₃) : Narrower c₁ c₃ := by
  induction h generalizing c₃ with
  | nil => exact h'
  | cons hc _ ih =>
    cases h' with
    | cons hc' h' => exact .cons ⟨hc'.1.trans hc.1, hc.2.trans hc'.2⟩ (ih h')

theorem Narrower.inBox {coords acoords : Coords} (h : Narrower coords acoords) {x : ℕ → ℝ} (hx : InBox coords x) :
    InBox acoords x := by
  intro i c hc
  have hi := (List.getElem?_eq_some_iff.1 hc).1
  have hi' : i < coords.length := h.length_eq ▸ hi
  have hside := h.get hi' hi
  rw [List.getElem?_eq_getElem hi] at hc
  cases hc
  obtain ⟨h1, h2⟩ := hx i _ (List.getElem?_eq_getElem hi')
  exact ⟨(Rat.cast_le.2 hside.1).trans h1, h2.trans (Rat.cast_le.2 hside.2)⟩

theorem narrower_set {c c' : ℚ × ℚ} (h : c.1 ≤ c'.1 ∧ c'.2 ≤ c.2) : ∀ {coords : Coords} {dir : ℕ},
    coords[dir]? = some c → Narrower (coords.set dir c') coords
  | [], _, hc => by cases hc
  | e :: coords, 0, hc => by
    obtain rfl : e = c := by simpa using hc
    exact .cons h (Narrower.refl coords)
  | e :: coords, dir + 1, hc => .cons ⟨le_rfl, le_rfl⟩ (narrower_set h (by simpa using hc))

theorem narrower_round (b : BoundingBox) : Narrower (b.round 1).coords b.coords := by
  refine List.forall₂_map_left_iff.2 (List.forall₂_same.2 fun c _ => ?_)
  rw [BoundingBox.round_one_coord]
  exact ⟨Int.le_ceil c.1, Int.floor_le c.2⟩

/-- The halves of a box that is not turned inside out along the cut. -/
theorem BoundingBox.IsSplit.narrower {b this n : BoundingBox} {dir : ℕ} {c : ℚ × ℚ} (h : IsSplit b this n dir c)
    (hc : c.1 ≤ c.2) : Narrower this.coords b.coords ∧ Narrower n.coords b.coords := by
  rw [h.this_eq, h.new_eq]
  constructor
  · refine narrower_set ?_ h.at_dir
    exact ⟨by linarith, le_rfl⟩
  · refine narrower_set ?_ h.at_dir
    exact ⟨le_rfl, by linarith⟩

end GridSolve.Grid
