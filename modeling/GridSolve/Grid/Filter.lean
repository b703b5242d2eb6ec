/-
The trie filter of `run_thread_int`: a box whose path is not found in the trie of the original boxes
is removed. `find` compares the path of the box with the paths in the trie dimension by dimension,
and succeeds exactly when some path that ends at a leaf agrees with it in every dimension as far as
both go. Boxes that are rounded to integers do not stay on the grid that `get_path` bisects, so two
boxes with a point in common can have paths that disagree: a middle of the bisection may lie between
their lower ends.
-/
import GridSolve.Grid.Cover

namespace GridSolve.Grid

open GridSolve.Bisection

/-! ## The code -/

/-- What is left of the path when the search takes the branch `d`. With no halving of that dimension
left the halvings of earlier dimensions are skipped; else the next one must be `d`. -/
def advance (d : ℤ) (ctx : List ℤ) : Option (List ℤ) :=
  if d ∉ ctx ∧ -d ∉ ctx then some (ctx.dropWhile fun e => e.natAbs < d.natAbs)
  else if ctx.idxOf d < ctx.idxOf (-d) then some (ctx.drop (ctx.idxOf d + 1))
  else none

/-- `find` on a node with `n_dir = n`, `ctx` the path from the offset on. -/
def find (n : ℕ) (t : Trie ℤ) (ctx : List ℤ) : Bool := t.search (labels n) advance List.isEmpty ctx

/-- The boxes that `run_thread_int` makes from the bounds: the halves of a split, rounded. -/
inductive Rounded (bounds : Coords) : Coords → Prop
  | whole : Rounded bounds bounds
  | this {b this n : BoundingBox} :
    Rounded bounds b.coords → b.split = some (this, n) → Rounded bounds (this.round 1).coords
  | new {b this n : BoundingBox} :
    Rounded bounds b.coords → b.split = some (this, n) → Rounded bounds (n.round 1).coords

/-! ## Agreement of paths -/

theorem neg_label (i : ℕ) (d : Bool) : -label i d = label i (!d) := by cases d <;> simp [label]

theorem label_ne_not (i : ℕ) (d : Bool) : label i d ≠ label i (!d) := by
  cases d <;> simp only [label, Bool.not_true, Bool.not_false, Bool.false_eq_true, if_true, if_false] <;> omega

theorem label_notMem {k : ℕ} {ctx : List ℤ} (h : ∀ e ∈ ctx, e.natAbs ≠ k + 1) (d : Bool) : label k d ∉ ctx :=
  fun hm => h _ hm (natAbs_label k d)

section

variable {k : ℕ} {skipped rest : List ℤ} (hskip : ∀ e ∈ skipped, e.natAbs ≤ k)

include hskip

theorem label_notMem_skipped (d : Bool) : label k d ∉ skipped :=
  label_notMem (fun e he => by have := hskip e he; omega) d

theorem advance_absent (hrest : ∀ e ∈ rest, k + 1 < e.natAbs) (d : Bool) :
    advance (label k d) (skipped ++ rest) = some rest := by
  have hno : ∀ d, label k d ∉ skipped ++ rest := label_notMem fun e he => by
    rcases List.mem_append.1 he with he | he
    · have := hskip e he; omega
    · have := hrest e he; omega
  rw [advance, if_pos ⟨hno d, by rw [neg_label]; exact hno _⟩, natAbs_label,
    List.dropWhile_append_of_pos fun e he => by have := hskip e he; simp; omega]
  cases rest with
  | nil => rfl
  | cons e rest =>
    have := hrest e List.mem_cons_self
    rw [List.dropWhile_cons_of_neg (by simp; omega)]

theorem idxOf_label (rest : List ℤ) (d : Bool) : (skipped ++ label k d :: rest).idxOf (label k d) = skipped.length ∧
    skipped.length < (skipped ++ label k d :: rest).idxOf (label k (!d)) := by
  rw [List.idxOf_append_of_notMem (label_notMem_skipped hskip _),
    List.idxOf_append_of_notMem (label_notMem_skipped hskip _), List.idxOf_cons_self,
    List.idxOf_cons_ne _ (label_ne_not k d)]
  omega

theorem advance_same (d : Bool) : advance (label k d) (skipped ++ label k d :: rest) = some rest := by
  obtain ⟨h1, h2⟩ := idxOf_label hskip rest d
  rw [advance, neg_label, if_neg fun h => h.1 (by simp), if_pos (by rw [h1]; exact h2), h1]
  simp

theorem advance_other (d : Bool) : advance (label k d) (skipped ++ label k (!d) :: rest) = none := by
  obtain ⟨h1, h2⟩ := idxOf_label hskip rest (!d)
  rw [Bool.not_not] at h2
  rw [advance, neg_label, if_neg fun h => h.2 (by simp), if_neg (by rw [h1]; exact h2.not_gt)]

end

/-- One dimension: `s` halvings of the trie against `r` of the path. What the path has left over is
skipped later. -/
theorem advance_dim (k : ℕ) {rest : List ℤ} (hrest : ∀ e ∈ rest, k + 1 < e.natAbs) :
    ∀ (s r : List Bool) (skipped : List ℤ), (∀ e ∈ skipped, e.natAbs ≤ k) →
      ((s <+: r ∨ r <+: s) → ∃ left, (∀ e ∈ left, e.natAbs ≤ k + 1) ∧
        (s.map (label k)).foldlM (fun c d => advance d c) (skipped ++ (r.map (label k) ++ rest)) =
          some (left ++ rest)) ∧
      (¬ (s <+: r ∨ r <+: s) →
        (s.map (label k)).foldlM (fun c d => advance d c) (skipped ++ (r.map (label k) ++ rest)) = none)
  | [], r, skipped, hskip => by
    refine ⟨fun _ => ⟨skipped ++ r.map (label k), fun e he => ?_, by simp⟩, fun h => absurd (.inl List.nil_prefix) h⟩
    rcases List.mem_append.1 he with he | he
    · exact (hskip e he).trans (Nat.le_succ k)
    · obtain ⟨d, -, rfl⟩ := List.mem_map.1 he
      exact (natAbs_label k d).le
  | d :: s, [], skipped, hskip => by
    have ih := advance_dim k hrest s [] [] (by simp)
    rw [List.map_nil, List.nil_append, List.map_cons, List.foldlM_cons, advance_absent hskip hrest]
    exact ⟨fun _ => ih.1 (.inr List.nil_prefix), fun h => absurd (.inr List.nil_prefix) h⟩
  | d :: s, d' :: r, skipped, hskip => by
    rw [List.map_cons, List.map_cons, List.foldlM_cons, List.cons_append]
    by_cases hd : d = d'
    · subst hd
      rw [advance_same hskip, List.cons_prefix_cons, List.cons_prefix_cons]
      simpa using advance_dim k hrest s r [] (by simp)
    · obtain rfl : d' = !d := by cases d <;> cases d' <;> simp_all
      rw [advance_other hskip]
      refine ⟨fun h => ?_, fun _ => rfl⟩
      rw [List.cons_prefix_cons, List.cons_prefix_cons] at h
      exact absurd (h.elim (·.1) (·.1.symm)) hd

/-- All dimensions from `k` on. -/
theorem advance_dims (a q : Address) : ∀ (m k : ℕ) (skipped : List ℤ), (∀ e ∈ skipped, e.natAbs ≤ k) →
    ((((List.range' k m).flatMap fun i => (a i).map (label i)).foldlM (fun c d => advance d c)
        (skipped ++ (List.range' k m).flatMap fun i => (q i).map (label i))).isSome ↔
      ∀ i, k ≤ i → i < k + m → a i <+: q i ∨ q i <+: a i)
  | 0, k, skipped, _ => by
    refine iff_of_true rfl fun i h1 h2 => ?_
    omega
  | m + 1, k, skipped, hskip => by
    have hrest : ∀ e ∈ (List.range' (k + 1) m).flatMap fun i => (q i).map (label i), k + 1 < e.natAbs := by
      intro e he
      obtain ⟨i, hi, he⟩ := List.mem_flatMap.1 he
      obtain ⟨d, -, rfl⟩ := List.mem_map.1 he
      have := (List.mem_range'_1.1 hi).1
      rw [natAbs_label]
      omega
    have hsplit : (∀ i, k ≤ i → i < k + (m + 1) → a i <+: q i ∨ q i <+: a i) ↔ (a k <+: q k ∨ q k <+: a k) ∧
        ∀ i, k + 1 ≤ i → i < k + 1 + m → a i <+: q i ∨ q i <+: a i := by
      refine ⟨fun h => ⟨h k le_rfl (by omega), fun i h1 h2 => h i (by omega) (by omega)⟩, fun h i h1 h2 => ?_⟩
      rcases h1.eq_or_lt with rfl | h1
      · exact h.1
      · exact h.2 i h1 (by omega)
    obtain ⟨hyes, hno⟩ := advance_dim k hrest (a k) (q k) skipped hskip
    rw [List.range'_succ, List.flatMap_cons, List.flatMap_cons, List.foldlM_append, hsplit]
    by_cases h : a k <+: q k ∨ q k <+: a k
    · obtain ⟨left, hleft, he⟩ := hyes h
      rw [he]
      exact (advance_dims a q m (k + 1) left hleft).trans (and_iff_right h).symm
    · rw [hno h]
      exact iff_of_false Bool.false_ne_true fun h' => h h'.1

theorem isSome_advance_iff (n : ℕ) (a q : Address) :
    ((pathOf n a).foldlM (fun c d => advance d c) (pathOf n q)).isSome ↔ Agree n a q := by
  have h := advance_dims a q n 0 [] (by simp)
  rw [List.nil_append, ← List.range_eq_range'] at h
  refine h.trans (forall_congr' fun i => ?_)
  rw [Nat.zero_add]
  exact ⟨fun h hi => h (Nat.zero_le i) hi, fun h _ hi => h hi⟩

/-- With nothing left of the path every branch is taken. -/
theorem advance_isEmpty (d : ℤ) (ctx : List ℤ) (h : ctx.isEmpty = true) :
    ∃ ctx', advance d ctx = some ctx' ∧ ctx'.isEmpty = true := by
  rw [List.isEmpty_iff.1 h]
  exact ⟨[], by simp [advance], rfl⟩

/-- A side of such a box: the side of the bounds, or an interval between two integers inside it. -/
def Inner (e c : ℚ × ℚ) : Prop := c = e ∨ ∃ l r : ℤ, c = ((l : ℚ), (r : ℚ)) ∧ l ≤ r ∧ e.1 ≤ l ∧ (r : ℚ) ≤ e.2

/-- The loop stops when the interval is as short as the tolerance. -/
theorem exists_halvings_of_width {l r : ℤ} (hlr : l ≤ r) : ∀ (k : ℕ) {e : ℚ × ℚ}, e.1 ≤ l → (l : ℚ) ≤ e.2 →
    e.2 - e.1 < 2 ^ k / 10000 → ∃ s, Halvings ((l : ℚ), (r : ℚ)) e s := by
  intro k
  induction k with
  | zero =>
    intro e h1 h2 hw
    refine ⟨[], .stop ?_⟩
    rw [pow_zero] at hw
    rcases hlr.eq_or_lt with rfl | hlt
    · -- a point: both ends of the interval are close to it
      have hlo : ¬ |e.1 - l| ≥ 1 / 10000 := by rw [not_le, abs_lt]; constructor <;> linarith
      have hhi : ¬ |e.2 - l| ≥ 1 / 10000 := by rw [not_le, abs_lt]; constructor <;> linarith
      simp only [bisects, decide_eq_false hlo, decide_eq_false hhi, Bool.or_self, Bool.and_false]
    · have hone : (l : ℚ) + 1 ≤ r := by exact_mod_cast hlt
      have hnot : ¬ e.2 - e.1 > 2 * ((r : ℚ) - l) := by rw [not_lt]; linarith
      simp only [bisects, decide_eq_false hnot, Bool.false_and]
  | succ k ih =>
    intro e h1 h2 hw
    have hhalf : (e.2 - e.1) / 2 < 2 ^ k / 10000 := by rw [pow_succ] at hw; linarith
    cases hb : bisects ((l : ℚ), (r : ℚ)) e with
    | false => exact ⟨[], .stop hb⟩
    | true =>
      by_cases hm : (e.1 + e.2) / 2 ≤ (l : ℚ)
      · obtain ⟨s, hs⟩ := ih (e := half true e) hm h2 (by simp only [half, if_true]; linarith)
        exact ⟨true :: s, .upper hb hm hs⟩
      · obtain ⟨s, hs⟩ := ih (e := half false e) h1 (le_of_lt (not_le.1 hm))
          (by simp only [half, Bool.false_eq_true, if_false]; linarith)
        exact ⟨false :: s, .lower hb hm hs⟩

theorem Inner.exists_halvings {e c : ℚ × ℚ} (h : Inner e c) : ∃ s, Halvings c e s := by
  rcases h with rfl | ⟨l, r, rfl, hlr, h1, h2⟩
  · exact ⟨[], .stop (not_bisects_self c)⟩
  · obtain ⟨k, hk⟩ := pow_unbounded_of_one_lt ((e.2 - e.1) * 10000) (one_lt_two (α := ℚ))
    refine exists_halvings_of_width hlr k h1 (le_trans (by exact_mod_cast hlr) h2) ?_
    rw [lt_div_iff₀ (by norm_num)]
    exact hk

/-- Rounding leaves integer sides as they are. -/
theorem roundCoord_int (l r : ℤ) : BoundingBox.roundCoord 1 ((l : ℚ), (r : ℚ)) = ((l : ℚ), (r : ℚ)) := by
  rw [BoundingBox.round_one_coord, Int.ceil_intCast, Int.floor_intCast]

theorem Inner.round {e c : ℚ × ℚ} (he : ∃ l r : ℤ, e = ((l : ℚ), (r : ℚ))) (h : Inner e c) :
    BoundingBox.roundCoord 1 c = c := by
  rcases h with rfl | ⟨l, r, rfl, -⟩
  · obtain ⟨l, r, rfl⟩ := he
    exact roundCoord_int l r
  · exact roundCoord_int l r

/-- The rounded halves of a side. -/
theorem Inner.halves {e c : ℚ × ℚ} (he : ∃ l r : ℤ, e = ((l : ℚ), (r : ℚ))) (h : Inner e c) (hlen : -1 < c.2 - c.1) :
    Inner e (BoundingBox.roundCoord 1 ((c.2 + c.1) * (1 / 2), c.2)) ∧
      Inner e (BoundingBox.roundCoord 1 (c.1, (c.2 + c.1) * (1 / 2))) := by
  obtain ⟨l, r, rfl, h1, h2⟩ : ∃ l r : ℤ, c = ((l : ℚ), (r : ℚ)) ∧ e.1 ≤ l ∧ (r : ℚ) ≤ e.2 := by
    rcases h with rfl | ⟨l, r, rfl, -, h1, h2⟩
    · obtain ⟨l, r, rfl⟩ := he
      exact ⟨l, r, rfl, le_rfl, le_rfl⟩
    · exact ⟨l, r, rfl, h1, h2⟩
  have hlt : (l : ℚ) < r + 1 := by simp only at hlen; linarith
  have hlr : (l : ℚ) ≤ r := by exact_mod_cast Int.lt_add_one_iff.1 (by exact_mod_cast hlt)
  have hmid : ((l : ℚ) ≤ (r + l) * (1 / 2)) ∧ ((r : ℚ) + l) * (1 / 2) ≤ r := by constructor <;> linarith
  simp only [BoundingBox.round_one_coord, Int.floor_intCast, Int.ceil_intCast]
  constructor
  · have hle : ⌈((r : ℚ) + l) * (1 / 2)⌉ ≤ r := Int.ceil_le.2 hmid.2
    exact .inr ⟨_, r, rfl, hle, h1.trans (hmid.1.trans (Int.le_ceil _)), h2⟩
  · have hle : l ≤ ⌊((r : ℚ) + l) * (1 / 2)⌋ := Int.le_floor.2 hmid.1
    exact .inr ⟨l, _, rfl, hle, h1, (Int.floor_le _).trans (hmid.2.trans h2)⟩

/-- Every side of the box is an inner side. -/
def InnerBox (bounds coords : Coords) : Prop :=
  coords.length = bounds.length ∧ ∀ (i : ℕ) e c, bounds[i]? = some e → coords[i]? = some c → Inner e c

/-- The sides after a split and the rounding: the one at `dir` is new, the others are rounded. -/
theorem round_set_sides {bounds : Coords} {P : ℚ × ℚ → ℚ × ℚ → Prop}
    (hround : ∀ e ∈ bounds, ∀ c, P e c → P e (BoundingBox.roundCoord 1 c)) {b b' : BoundingBox}
    (h : ∀ (i : ℕ) e c, bounds[i]? = some e → b.coords[i]? = some c → P e c) {dir : ℕ} {c c' : ℚ × ℚ}
    (hc : b.coords[dir]? = some c) (hb' : b'.coords = b.coords.set dir c')
    (hc' : ∀ e, bounds[dir]? = some e → P e (BoundingBox.roundCoord 1 c')) :
    ∀ (i : ℕ) e d, bounds[i]? = some e → (b'.round 1).coords[i]? = some d → P e d := by
  intro i e d he hd
  obtain ⟨d', hd', rfl⟩ := BoundingBox.getElem?_round hd
  rw [hb'] at hd'
  by_cases hi : i = dir
  · subst hi
    rw [List.getElem?_set_self (List.getElem?_eq_some_iff.1 hc).1, Option.some.injEq] at hd'
    exact hd' ▸ hc' e he
  · rw [List.getElem?_set_ne (Ne.symm hi)] at hd'
    exact hround e (List.mem_of_getElem? he) d' (h i e d' he hd')

/-- What holds of the sides of the bounds, and is kept by rounding a side and by halving one that is
longer than -1, holds of the sides of every box made from the bounds. -/
theorem Rounded.sides {bounds : Coords} {P : ℚ × ℚ → ℚ × ℚ → Prop} (hwhole : ∀ e ∈ bounds, P e e)
    (hround : ∀ e ∈ bounds, ∀ c, P e c → P e (BoundingBox.roundCoord 1 c))
    (hhalves : ∀ e ∈ bounds, ∀ c : ℚ × ℚ, P e c → -1 < c.2 - c.1 →
      P e (BoundingBox.roundCoord 1 ((c.2 + c.1) * (1 / 2), c.2)) ∧
        P e (BoundingBox.roundCoord 1 (c.1, (c.2 + c.1) * (1 / 2))))
    {coords : Coords} (h : Rounded bounds coords) :
    coords.length = bounds.length ∧ ∀ (i : ℕ) e c, bounds[i]? = some e → coords[i]? = some c → P e c := by
  have hstep : ∀ {b this n : BoundingBox}, b.coords.length = bounds.length →
      (∀ (i : ℕ) e c, bounds[i]? = some e → b.coords[i]? = some c → P e c) → b.split = some (this, n) →
      ((this.round 1).coords.length = bounds.length ∧
        ∀ (i : ℕ) e c, bounds[i]? = some e → (this.round 1).coords[i]? = some c → P e c) ∧
      (n.round 1).coords.length = bounds.length ∧
        ∀ (i : ℕ) e c, bounds[i]? = some e → (n.round 1).coords[i]? = some c → P e c := by
    intro b this n hlen hb hsp
    obtain ⟨dir, c, hsplit⟩ := BoundingBox.split_isSplit hsp
    have hc : ∀ e, bounds[dir]? = some e → P e (BoundingBox.roundCoord 1 ((c.2 + c.1) * (1 / 2), c.2)) ∧
        P e (BoundingBox.roundCoord 1 (c.1, (c.2 + c.1) * (1 / 2))) := fun e he =>
      hhalves e (List.mem_of_getElem? he) c (hb dir e c he hsplit.at_dir) hsplit.norm_eq.2
    rw [hsplit.this_eq, hsplit.new_eq]
    refine ⟨⟨by simp [BoundingBox.round, hlen], ?_⟩, by simp [BoundingBox.round, hlen], ?_⟩
    · exact round_set_sides hround hb hsplit.at_dir rfl fun e he => (hc e he).1
    · exact round_set_sides hround hb hsplit.at_dir rfl fun e he => (hc e he).2
  induction h with
  | whole =>
    refine ⟨rfl, fun i e c he hc => ?_⟩
    rw [he, Option.some.injEq] at hc
    exact hc ▸ hwhole e (List.mem_of_getElem? he)
  | this _ hsp ih => exact (hstep ih.1 ih.2 hsp).1
  | new _ hsp ih => exact (hstep ih.1 ih.2 hsp).2

theorem InnerBox.exists_stopsAt {bounds coords : Coords} (h : InnerBox bounds coords) : ∃ a, StopsAt bounds coords a :=
  Grid.exists_stopsAt fun i e c he hc => (h.2 i e c he hc).exists_halvings

/-! ## The filter -/

/-- An interval between integers that begins in the interval `e`. -/
def BeginsIn (e c : ℚ × ℚ) : Prop := ∃ l r : ℤ, c = ((l : ℚ), (r : ℚ)) ∧ l ≤ r ∧ e.1 ≤ l ∧ (l : ℚ) ≤ e.2

theorem BeginsIn.half {e c : ℚ × ℚ} (h : BeginsIn e c) {d : Bool} (hm : (e.1 + e.2) / 2 ≤ c.1 ↔ d = true) :
    BeginsIn (half d e) c := by
  obtain ⟨l, r, rfl, hlr, h1, h2⟩ := h
  cases d with
  | true => exact ⟨l, r, rfl, hlr, hm.2 rfl, h2⟩
  | false => exact ⟨l, r, rfl, hlr, h1, (not_le.1 fun hle => Bool.false_ne_true (hm.1 hle)).le⟩

section Inner

variable {e c c' : ℚ × ℚ} (he : ∃ l r : ℤ, e = ((l : ℚ), (r : ℚ))) (h : Inner e c) (h' : Inner e c')

include he h h'

end Inner

theorem rounded_five : Rounded [(0, 5)] [(3, 5)] ∧ Rounded [(0, 5)] [(4, 5)] ∧ Rounded [(0, 5)] [(3, 4)] := by
  have hwhole : (BoundingBox.new [(0, 5)]).split = some (.new [(5 / 2, 5)], .new [(0, 5 / 2)]) := by decide +kernel
  have hupper : (BoundingBox.new [(3, 5)]).split = some (.new [(4, 5)], .new [(3, 4)]) := by decide +kernel
  have h35 : ((BoundingBox.new [(5 / 2, 5)]).round 1).coords = [(3, 5)] := by decide +kernel
  have h45 : ((BoundingBox.new [(4, 5)]).round 1).coords = [(4, 5)] := by decide +kernel
  have h34 : ((BoundingBox.new [(3, 4)]).round 1).coords = [(3, 4)] := by decide +kernel
  have hr : Rounded [(0, 5)] [(3, 5)] := h35 ▸ .this (b := .new [(0, 5)]) .whole hwhole
  exact ⟨hr, h45 ▸ .this (b := .new [(3, 5)]) hr hupper, h34 ▸ .new (b := .new [(3, 5)]) hr hupper⟩

end GridSolve.Grid
