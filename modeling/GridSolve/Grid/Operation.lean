/-
`bounding_box::intersect` and `operation` (`approximation.hpp`, `approximation.cpp`): the list of the
intersections of all pairs of boxes of two lists. A pair whose intersection has no width in some
coordinate is left out, so the result has the points of both lists only if no common point depends
on such a pair.
-/
import GridSolve.Grid.Ll

namespace GridSolve.Grid

/-- One coordinate of the intersection. -/
def meet (e c : ℚ × ℚ) : ℚ × ℚ := (max c.1 e.1, min c.2 e.2)

/-- The loop of `intersect` over the coordinates of this box, `c` the copy of those of the other.
A coordinate that the other box does not have has no result. -/
def intersectFrom : Coords → Coords → Option Coords
  | [], c => some c
  | _ :: _, [] => none
  | e :: es, c :: cs =>
    if (meet e c).2 ≤ (meet e c).1 then none else (intersectFrom es cs).map fun r => meet e c :: r

namespace BoundingBox

/-- `intersect`. -/
def intersect (this b : BoundingBox) : Option BoundingBox :=
  (intersectFrom this.coords b.coords).map new

end BoundingBox

/-- What `operation` adds for a pair of boxes. -/
def pairing (b₁ b₂ : BoundingBox) : Option BoundingBox :=
  (b₁.intersect b₂).map fun ans =>
    { ans with confidence := if b₁.confidence = 0 ∧ b₂.confidence = 0 then 0 else 1 }

def Ll.addSome (ans : Ll) : Option BoundingBox → Ll
  | none => ans
  | some b => ans.addNode b

/-- `operation`; the argument `type` is not used. -/
def operation (l₁ l₂ : Ll) (_type : ℤ) : Ll :=
  l₁.boxes.foldl (fun ans b₁ => l₂.boxes.foldl (fun ans b₂ => ans.addSome (pairing b₁ b₂)) ans) .empty

/-! ## The boxes of the result -/

namespace Ll

/-- Adding the boxes that a function gives for the boxes of a list. -/
theorem Holds.foldl_addSome (f : BoundingBox → Option BoundingBox) : ∀ (bs : List BoundingBox) {l : Ll},
    l.Holds l.nodes →
      (bs.foldl (fun ans b => ans.addSome (f b)) l).Holds (bs.foldl (fun ans b => ans.addSome (f b)) l).nodes ∧
      (bs.foldl (fun ans b => ans.addSome (f b)) l).boxes = l.boxes ++ bs.filterMap f
  | [], l, h => ⟨h, by simp⟩
  | b :: bs, l, h => by
    rw [List.foldl_cons]
    cases hf : f b with
    | none => simpa [Ll.addSome, hf] using foldl_addSome f bs h
    | some r =>
      obtain ⟨h1, h2⟩ := foldl_addSome f bs (h.addNode r).self
      refine ⟨h1, h2.trans ?_⟩
      rw [h.boxes_addNode, List.filterMap_cons_some hf, List.append_assoc, List.singleton_append]

end Ll

theorem boxes_operation (l₁ l₂ : Ll) (type : ℤ) :
    (operation l₁ l₂ type).boxes = l₁.boxes.flatMap fun b₁ => l₂.boxes.filterMap (pairing b₁) := by
  have hfold : ∀ (bs : List BoundingBox) {l : Ll}, l.Holds l.nodes →
      (bs.foldl (fun ans b₁ => l₂.boxes.foldl (fun ans b₂ => ans.addSome (pairing b₁ b₂)) ans) l).boxes =
        l.boxes ++ bs.flatMap fun b₁ => l₂.boxes.filterMap (pairing b₁) := by
    intro bs
    induction bs with
    | nil => simp
    | cons b bs ih =>
      intro l hl
      obtain ⟨h1, h2⟩ := Ll.Holds.foldl_addSome (pairing b) l₂.boxes hl
      rw [List.foldl_cons, ih h1, h2, List.append_assoc, List.flatMap_cons]
  rw [operation, hfold _ Ll.holds_empty.self]
  rfl

/-! ## Points -/

/-- The boxes overlap with some width in every coordinate. -/
def Overlap (es cs : Coords) : Prop := List.Forall₂ (fun e c => (meet e c).1 < (meet e c).2) es cs

theorem intersectFrom_eq_some_iff : ∀ {es cs r : Coords}, es.length = cs.length →
    (intersectFrom es cs = some r ↔ Overlap es cs ∧ r = List.zipWith meet es cs)
  | [], [], r, _ => by simp [intersectFrom, Overlap, eq_comm]
  | e :: es, c :: cs, r, h => by
    have ih := fun r' => intersectFrom_eq_some_iff (r := r') (Nat.succ.inj h)
    rw [intersectFrom, Overlap, List.forall₂_cons, List.zipWith_cons_cons]
    by_cases hlt : (meet e c).1 < (meet e c).2
    · rw [if_neg (not_le.2 hlt), Option.map_eq_some_iff]
      constructor
      · rintro ⟨r', hr', rfl⟩
        obtain ⟨ho, rfl⟩ := (ih r').1 hr'
        exact ⟨⟨hlt, ho⟩, rfl⟩
      · rintro ⟨⟨-, ho⟩, rfl⟩
        exact ⟨_, (ih _).2 ⟨ho, rfl⟩, rfl⟩
    · rw [if_pos (not_lt.1 hlt)]
      constructor
      · exact nofun
      · exact fun h => absurd h.1.1 hlt

/-- The points of the intersection are the common points. -/
theorem inBox_zipWith_meet {es cs : Coords} (h : es.length = cs.length) (x : ℕ → ℝ) :
    InBox (List.zipWith meet es cs) x ↔ InBox es x ∧ InBox cs x := by
  have hmeet : ∀ e c : ℚ × ℚ, ∀ y : ℝ,
      ((meet e c).1 ≤ y ∧ y ≤ (meet e c).2) ↔ (e.1 ≤ y ∧ y ≤ e.2) ∧ c.1 ≤ y ∧ y ≤ c.2 := by
    intro e c y
    simp only [meet, Rat.cast_max, Rat.cast_min, max_le_iff, le_min_iff]
    tauto
  have hzip : ∀ {i : ℕ} {e c : ℚ × ℚ}, es[i]? = some e → cs[i]? = some c →
      (List.zipWith meet es cs)[i]? = some (meet e c) := by
    intro i e c he hc
    simp [List.getElem?_zipWith, he, hc]
  constructor
  · intro hx
    constructor
    · intro i e he
      have hi : i < cs.length := h ▸ (List.getElem?_eq_some_iff.1 he).1
      exact ((hmeet e _ _).1 (hx i _ (hzip he (List.getElem?_eq_getElem hi)))).1
    · intro i c hc
      have hi : i < es.length := h ▸ (List.getElem?_eq_some_iff.1 hc).1
      exact ((hmeet _ c _).1 (hx i _ (hzip (List.getElem?_eq_getElem hi) hc))).2
  · rintro ⟨hes, hcs⟩ i m hm
    rw [List.getElem?_zipWith_eq_some] at hm
    obtain ⟨e, c, he, hc, rfl⟩ := hm
    exact (hmeet e c _).2 ⟨hes i e he, hcs i c hc⟩

/-- A pair of boxes that overlap gives a box with their common points, any other pair nothing. -/
theorem pairing_eq_some {b₁ b₂ b : BoundingBox} (h : b₁.coords.length = b₂.coords.length)
    (hb : pairing b₁ b₂ = some b) : Overlap b₁.coords b₂.coords ∧ b.coords = List.zipWith meet b₁.coords b₂.coords := by
  obtain ⟨r, hr, rfl⟩ := Option.map_eq_some_iff.1 hb
  obtain ⟨c, hc, rfl⟩ := Option.map_eq_some_iff.1 hr
  exact (intersectFrom_eq_some_iff h).1 hc

theorem exists_pairing {b₁ b₂ : BoundingBox} (h : b₁.coords.length = b₂.coords.length)
    (ho : Overlap b₁.coords b₂.coords) :
    ∃ b, pairing b₁ b₂ = some b ∧ b.coords = List.zipWith meet b₁.coords b₂.coords := by
  have hc := (intersectFrom_eq_some_iff h).2 ⟨ho, rfl⟩
  exact ⟨_, by rw [pairing, BoundingBox.intersect, hc]; rfl, rfl⟩

/-- The points of the result are those that two overlapping boxes have in common. -/
theorem mem_boxes_operation {l₁ l₂ : Ll} {type : ℤ} {n : ℕ} (h₁ : ∀ b ∈ l₁.boxes, b.coords.length = n)
    (h₂ : ∀ b ∈ l₂.boxes, b.coords.length = n) (x : ℕ → ℝ) :
    (∃ b ∈ (operation l₁ l₂ type).boxes, InBox b.coords x) ↔
      ∃ b₁ ∈ l₁.boxes, ∃ b₂ ∈ l₂.boxes, Overlap b₁.coords b₂.coords ∧ InBox b₁.coords x ∧ InBox b₂.coords x := by
  rw [boxes_operation]
  constructor
  · rintro ⟨b, hb, hx⟩
    obtain ⟨b₁, hb₁, hb⟩ := List.mem_flatMap.1 hb
    obtain ⟨b₂, hb₂, hp⟩ := List.mem_filterMap.1 hb
    have hlen := (h₁ b₁ hb₁).trans (h₂ b₂ hb₂).symm
    obtain ⟨ho, hc⟩ := pairing_eq_some hlen hp
    rw [hc, inBox_zipWith_meet hlen] at hx
    exact ⟨b₁, hb₁, b₂, hb₂, ho, hx⟩
  · rintro ⟨b₁, hb₁, b₂, hb₂, ho, hx⟩
    have hlen := (h₁ b₁ hb₁).trans (h₂ b₂ hb₂).symm
    obtain ⟨b, hp, hc⟩ := exists_pairing hlen ho
    refine ⟨b, List.mem_flatMap.2 ⟨b₁, hb₁, List.mem_filterMap.2 ⟨b₂, hb₂, hp⟩⟩, ?_⟩
    rw [hc, inBox_zipWith_meet hlen]
    exact hx

/-- `operation` gives exactly the points that both lists have if and only if every such point lies in
two boxes, one of each list, that overlap with some width in every coordinate. -/
theorem operation_points_iff (l₁ l₂ : Ll) (n : ℕ) (h₁ : ∀ b ∈ l₁.boxes, b.coords.length = n)
    (h₂ : ∀ b ∈ l₂.boxes, b.coords.length = n) :
    (∀ x, (∃ b ∈ (operation l₁ l₂ 0).boxes, InBox b.coords x) ↔
      (∃ b ∈ l₁.boxes, InBox b.coords x) ∧ ∃ b ∈ l₂.boxes, InBox b.coords x) ↔
    ∀ x, ∀ b₁ ∈ l₁.boxes, ∀ b₂ ∈ l₂.boxes, InBox b₁.coords x → InBox b₂.coords x →
      ∃ c₁ ∈ l₁.boxes, ∃ c₂ ∈ l₂.boxes, Overlap c₁.coords c₂.coords ∧ InBox c₁.coords x ∧ InBox c₂.coords x := by
  simp only [mem_boxes_operation h₁ h₂]
  constructor
  · intro h x b₁ hb₁ b₂ hb₂ hx₁ hx₂
    exact (h x).2 ⟨⟨b₁, hb₁, hx₁⟩, b₂, hb₂, hx₂⟩
  · intro h x
    constructor
    · rintro ⟨b₁, hb₁, b₂, hb₂, -, hx₁, hx₂⟩
      exact ⟨⟨b₁, hb₁, hx₁⟩, b₂, hb₂, hx₂⟩
    · rintro ⟨⟨b₁, hb₁, hx₁⟩, b₂, hb₂, hx₂⟩
      exact h x b₁ hb₁ b₂ hb₂ hx₁ hx₂

/-- Two intervals that overlap. -/
theorem operation_points_iff_intervals : Overlap [(0, 2)] [(1, 3)] ∧
    ∀ x, (∃ b ∈ (operation (.new (.new [(0, 2)])) (.new (.new [(1, 3)])) 0).boxes, InBox b.coords x) ↔
      (∃ b ∈ (Ll.new (.new [(0, 2)])).boxes, InBox b.coords x) ∧
        ∃ b ∈ (Ll.new (.new [(1, 3)])).boxes, InBox b.coords x := by
  have h₁ : (Ll.new (.new [(0, 2)])).boxes = [.new [(0, 2)]] := by decide +kernel
  have h₂ : (Ll.new (.new [(1, 3)])).boxes = [.new [(1, 3)]] := by decide +kernel
  have hover : Overlap [(0, 2)] [(1, 3)] := .cons (by decide +kernel) .nil
  refine ⟨hover, (operation_points_iff _ _ 1 (by rw [h₁]; decide +kernel) (by rw [h₂]; decide +kernel)).2 ?_⟩
  rw [h₁, h₂]
  simp only [List.mem_singleton]
  rintro x b₁ rfl b₂ rfl hx₁ hx₂
  exact ⟨_, rfl, _, rfl, hover, hx₁, hx₂⟩

/-- The single point that integer mode leaves of a solution has no intersection with itself. -/
theorem operation_loses_point :
    ¬ ∀ x, (∃ b ∈ (operation (.new (.new [(1, 1)])) (.new (.new [(1, 1)])) 0).boxes, InBox b.coords x) ↔
      (∃ b ∈ (Ll.new (.new [(1, 1)])).boxes, InBox b.coords x) ∧
        ∃ b ∈ (Ll.new (.new [(1, 1)])).boxes, InBox b.coords x := by
  have hnone : (operation (.new (.new [(1, 1)])) (.new (.new [(1, 1)])) 0).boxes = [] := by decide +kernel
  have hmem : BoundingBox.new [(1, 1)] ∈ (Ll.new (.new [(1, 1)])).boxes := by decide +kernel
  have hx : InBox (BoundingBox.new [(1, 1)]).coords fun _ => 1 := inBox_singleton.2 (by norm_num)
  intro h
  obtain ⟨b, hb, -⟩ := (h fun _ => 1).2 ⟨⟨_, hmem, hx⟩, _, hmem, hx⟩
  rw [hnone] at hb
  exact absurd hb List.not_mem_nil

end GridSolve.Grid
