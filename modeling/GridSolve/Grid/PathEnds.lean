/-
When the loop of `get_path` (`approximation.hpp`) ends on the boxes for which `run_thread_int` calls
it. Rounding can make the lower end of a side pass the upper one, and `run_thread_int` asks for the
path before it looks whether the box is valid: on such a side the interval never gets as narrow as
the loop waits for, and its ends never come close to both ends of the side.
-/
import GridSolve.Grid.Filter

namespace GridSolve.Grid

open GridSolve.Bisection GridSolve.Loops

/-! ## Sides whose ends have crossed -/

/-- An interval and a side whose ends are a unit past each other are never close, however narrow the
interval gets. -/
theorem not_closeEnds {e c : ℚ × ℚ} (hc : c.2 - c.1 ≤ -1) (hw : (c.2 - c.1) / 2 ≤ e.2 - e.1) : ¬ CloseEnds e c := by
  rintro ⟨h1, h2⟩
  rw [abs_lt] at h1 h2
  linarith [h1.1, h1.2, h2.1, h2.2]

/-- The loop does not end: the width of the interval, halved again and again, only moves up to 0. -/
theorem pathFrom_eq_none (i : ℕ) {c : ℚ × ℚ} (hc : c.2 - c.1 ≤ -1) : ∀ (fuel : ℕ) {e : ℚ × ℚ},
    (c.2 - c.1) / 2 ≤ e.2 - e.1 → pathFrom i c fuel e = none
  | 0, _, _ => rfl
  | fuel + 1, e, hw => by
    have hgo : bisects c e = true := bisects_eq_true (by linarith) (not_closeEnds hc hw)
    rw [pathFrom, if_pos hgo]
    split_ifs
    · rw [pathFrom_eq_none i hc fuel (by simp only; linarith), Option.map_none]
    · rw [pathFrom_eq_none i hc fuel (by simp only; linarith), Option.map_none]

/-- The first round of the loop may be with an interval that has crossed as well. -/
theorem pathFrom_eq_none_of_le (i : ℕ) {e c : ℚ × ℚ} (hc : c.2 - c.1 ≤ -1) (hw : c.2 - c.1 ≤ e.2 - e.1)
    (hends : ¬ CloseEnds e c) : ∀ fuel, pathFrom i c fuel e = none
  | 0 => rfl
  | fuel + 1 => by
    have hgo : bisects c e = true := bisects_eq_true (by linarith) hends
    rw [pathFrom, if_pos hgo]
    split_ifs
    · rw [pathFrom_eq_none i hc fuel (by simp only; linarith), Option.map_none]
    · rw [pathFrom_eq_none i hc fuel (by simp only; linarith), Option.map_none]

/-! ## The sides of the boxes -/

/-- A side `c` of a box made from bounds with the side `e`: `e` itself, or an interval between
integers, which lies in `e` unless its ends have crossed. -/
def Side (e c : ℚ × ℚ) : Prop :=
  c = e ∨ ∃ l r : ℤ, c = ((l : ℚ), (r : ℚ)) ∧ (l ≤ r → e.1 ≤ l ∧ (r : ℚ) ≤ e.2) ∧ (r < l → (r : ℚ) - l ≤ e.2 - e.1)

theorem Side.round {e c : ℚ × ℚ} (h : Side e c) : Side e (BoundingBox.roundCoord 1 c) := by
  rcases h with rfl | ⟨l, r, rfl, hin, hout⟩
  · have hl := Int.le_ceil c.1
    have hr := Int.floor_le c.2
    rw [BoundingBox.round_one_coord]
    exact .inr ⟨⌈c.1⌉, ⌊c.2⌋, rfl, fun _ => ⟨hl, hr⟩, fun _ => by linarith⟩
  · rw [roundCoord_int]
    exact .inr ⟨l, r, rfl, hin, hout⟩

/-- Halving a side of the bounds. -/
theorem side_halves (e : ℚ × ℚ) (hlen : -1 < e.2 - e.1) :
    Side e (BoundingBox.roundCoord 1 ((e.2 + e.1) * (1 / 2), e.2)) ∧
      Side e (BoundingBox.roundCoord 1 (e.1, (e.2 + e.1) * (1 / 2))) := by
  have hl := Int.le_ceil e.1
  have hr := Int.floor_le e.2
  have hml := Int.le_ceil ((e.2 + e.1) * (1 / 2))
  have hmr := Int.floor_le ((e.2 + e.1) * (1 / 2))
  -- rounded ends that have crossed are at least 1 apart, and the side is longer than -1
  have hapart : ∀ {l r : ℤ}, r < l → (r : ℚ) - l ≤ e.2 - e.1 := by
    intro l r h
    have hone : (r : ℚ) + 1 ≤ l := by exact_mod_cast h
    linarith
  simp only [BoundingBox.round_one_coord]
  constructor
  · refine .inr ⟨_, _, rfl, fun h => ⟨?_, hr⟩, hapart⟩
    have hle : (⌈(e.2 + e.1) * (1 / 2)⌉ : ℚ) ≤ ⌊e.2⌋ := by exact_mod_cast h
    linarith
  · refine .inr ⟨_, _, rfl, fun h => ⟨hl, ?_⟩, hapart⟩
    have hle : (⌈e.1⌉ : ℚ) ≤ ⌊(e.2 + e.1) * (1 / 2)⌋ := by exact_mod_cast h
    linarith

theorem Side.halves {e c : ℚ × ℚ} (h : Side e c) (hlen : -1 < c.2 - c.1) :
    Side e (BoundingBox.roundCoord 1 ((c.2 + c.1) * (1 / 2), c.2)) ∧
      Side e (BoundingBox.roundCoord 1 (c.1, (c.2 + c.1) * (1 / 2))) := by
  rcases h with rfl | ⟨l, r, rfl, hin, -⟩
  · exact side_halves c hlen
  · -- between integers, longer than -1 means not crossed
    have hlr : l ≤ r := by
      have hlt : (l : ℚ) < r + 1 := by simp only at hlen; linarith
      exact Int.lt_add_one_iff.1 (by exact_mod_cast hlt)
    have hlr' : (l : ℚ) ≤ r := by exact_mod_cast hlr
    obtain ⟨h1, h2⟩ := hin hlr
    have hlo : l ≤ ⌊((r : ℚ) + l) * (1 / 2)⌋ := Int.le_floor.2 (by linarith)
    have hhi : ⌈((r : ℚ) + l) * (1 / 2)⌉ ≤ r := Int.ceil_le.2 (by linarith)
    have hlo' : (l : ℚ) ≤ ⌈((r : ℚ) + l) * (1 / 2)⌉ := le_trans (by linarith) (Int.le_ceil _)
    have hhi' : (⌊((r : ℚ) + l) * (1 / 2)⌋ : ℚ) ≤ r := (Int.floor_le _).trans (by linarith)
    simp only [BoundingBox.round_one_coord, Int.floor_intCast, Int.ceil_intCast]
    constructor
    · exact .inr ⟨_, r, rfl, fun _ => ⟨h1.trans hlo', h2⟩, fun h => absurd h (not_lt.2 hhi)⟩
    · exact .inr ⟨l, _, rfl, fun _ => ⟨h1, hhi'.trans h2⟩, fun h => absurd h (not_lt.2 hlo)⟩

theorem Rounded.side {bounds coords : Coords} (h : Rounded bounds coords) : coords.length = bounds.length ∧
    ∀ (i : ℕ) e c, bounds[i]? = some e → coords[i]? = some c → Side e c :=
  h.sides (fun _ _ => .inl rfl) (fun _ _ _ hc => hc.round) fun _ _ _ hc hlen => hc.halves hlen

/-- On such a side the loop ends exactly when the ends have not crossed or agree with those of the
bounds. -/
theorem Side.ends_iff {e c : ℚ × ℚ} (h : Side e c) :
    (c.1 ≤ c.2 ∨ CloseEnds e c → ∃ s, Halvings c e s) ∧
      (¬ (c.1 ≤ c.2 ∨ CloseEnds e c) → ∀ i fuel, pathFrom i c fuel e = none) := by
  have hself : ∀ d : ℚ × ℚ, CloseEnds d d := fun d => by simp [CloseEnds]
  constructor
  · rintro (hle | hends)
    · rcases h with rfl | ⟨l, r, rfl, hin, -⟩
      · exact ⟨[], .stop (not_bisects_self c)⟩
      · have hlr : l ≤ r := Int.cast_le.1 hle
        obtain ⟨h1, h2⟩ := hin hlr
        exact Inner.exists_halvings (.inr ⟨l, r, rfl, hlr, h1, h2⟩)
    · exact ⟨[], .stop (bisects_eq_false hends)⟩
  · intro hno i
    rw [not_or, not_le] at hno
    rcases h with rfl | ⟨l, r, rfl, -, hout⟩
    · exact absurd (hself c) hno.2
    · have hlt : r < l := Int.cast_lt.1 hno.1
      have hone : (r : ℚ) + 1 ≤ l := by exact_mod_cast hlt
      exact pathFrom_eq_none_of_le i (by simp only; linarith) (hout hlt) hno.2

/-! ## The path -/

/-- One side on which the loop does not end is enough. -/
theorem getPath_eq_none {bounds coords : Coords} {i : ℕ} {e c : ℚ × ℚ} (he : bounds[i]? = some e)
    (hc : coords[i]? = some c) {fuel : ℕ} (h : pathFrom i c fuel e = none) :
    getPath fuel coords bounds bounds.length = none := by
  have hi : i ∈ List.range bounds.length := List.mem_range.2 (List.getElem?_eq_some_iff.1 he).1
  have hmapM := mapM_eq_none (f := fun i => coords[i]?.bind fun c => bounds[i]?.bind fun e => pathFrom i c fuel e) hi
    (by simp only [hc, he, Option.bind_some, h])
  simp only [getPath, Option.bind_eq_bind, Option.pure_def]
  rw [hmapM, Option.bind_none]

/-- **`get_path` ends on a box** made from the bounds by splitting and rounding exactly when no side has
its lower end above its upper end, sides with the ends of the bounds apart. -/
theorem getPath_ends_iff {bounds coords : Coords} (h : Rounded bounds coords) :
    (∃ fuel path, getPath fuel coords bounds bounds.length = some path) ↔
      ∀ (i : ℕ) e c, bounds[i]? = some e → coords[i]? = some c → c.1 ≤ c.2 ∨ CloseEnds e c := by
  obtain ⟨hlen, hside⟩ := h.side
  constructor
  · rintro ⟨fuel, path, hpath⟩ i e c he hc
    by_contra hno
    rw [getPath_eq_none he hc ((hside i e c he hc).ends_iff.2 hno i fuel)] at hpath
    cases hpath
  · intro hok
    obtain ⟨a, ha⟩ := exists_stopsAt fun i e c he hc => (hside i e c he hc).ends_iff.1 (hok i e c he hc)
    obtain ⟨fuel, hfuel⟩ := exists_fuel bounds.length [a]
    exact ⟨fuel, _, ha.getPath hlen fun i hi => hfuel a List.mem_cons_self i hi⟩

/-- The box from 4 to 5 in the interval from 0 to 5, two halvings away. -/
theorem getPath_ends_iff_upper :
    Rounded [(0, 5)] [(4, 5)] ∧ ∃ fuel path, getPath fuel [(4, 5)] [(0, 5)] 1 = some path := by
  refine ⟨rounded_five.2.1, (getPath_ends_iff rounded_five.2.1).2 fun i e c _ hc => .inl ?_⟩
  rw [List.mem_singleton.1 (List.mem_of_getElem? hc)]
  norm_num

/-- The upper half of the interval from 1/4 to 3/4 is rounded to the side from 1 to 0, and the loop of
`get_path` does not end on it. -/
theorem getPath_diverges : Rounded [(1 / 4, 3 / 4)] [(1, 0)] ∧
    ∀ fuel, getPath fuel [(1, 0)] [(1 / 4, 3 / 4)] 1 = none := by
  have hsplit : (BoundingBox.new [(1 / 4, 3 / 4)]).split = some (.new [(1 / 2, 3 / 4)], .new [(1 / 4, 1 / 2)]) := by
    decide +kernel
  have hround : ((BoundingBox.new [(1 / 2, 3 / 4)]).round 1).coords = [(1, 0)] := by decide +kernel
  have hside : ∀ fuel, pathFrom 0 (1, 0) fuel (1 / 4, 3 / 4) = none := fun fuel =>
    pathFrom_eq_none 0 (by norm_num) fuel (by norm_num)
  refine ⟨hround ▸ .this (b := .new [(1 / 4, 3 / 4)]) .whole hsplit, fun fuel => ?_⟩
  have hbound : ([(1 / 4, 3 / 4)] : Coords)[0]? = some (1 / 4, 3 / 4) := rfl
  exact getPath_eq_none hbound rfl (hside fuel)

end GridSolve.Grid
