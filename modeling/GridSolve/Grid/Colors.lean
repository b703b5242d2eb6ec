/-
`color_code` (`approximation.cpp`): every box of a list gets a confidence from the answers of the
solvers of all shapes, -1 as soon as a shape is refuted, 0 as soon as two are undecided. The loop
stops at whichever comes first, so that for a box with a refuted shape and two undecided ones the
colour depends on the order of the shapes, and for no other box.
-/
import GridSolve.Grid.Ll

namespace GridSolve.Grid

/-- What the two solvers of a shape say about a box. -/
inductive Verdict
  | certified
  | refuted
  | undecided
  deriving DecidableEq, Repr

/-- The negative solver is only asked when the positive one does not certify the shape. -/
def Verdict.of (pos neg : Bool) : Verdict := if pos then .certified else if neg then .refuted else .undecided

/-! ## The code -/

section

variable {σ : Type*} (sub : σ → ℕ → Bool)

/-- The loop over the shapes, on the box of the node `curr`: `fail` and the box when it is left. -/
def colorLoop (curr : ℕ) : ℕ → List (σ × σ) → BoundingBox → ℕ × BoundingBox
  | fail, [], b => (fail, b)
  | fail, (pos, neg) :: shapes, b =>
    match Verdict.of (sub pos curr) (sub neg curr) with
    | .refuted => (fail, { b with confidence := -1 })
    | .certified => if 1 < fail then (fail, { b with confidence := 0 }) else colorLoop curr fail shapes b
    | .undecided =>
      if 1 < fail + 1 then (fail + 1, { b with confidence := 0 }) else colorLoop curr (fail + 1) shapes b

/-- One turn of the loop over the nodes. -/
def colorBox (shapes : List (σ × σ)) (curr : ℕ) (b : BoundingBox) : BoundingBox :=
  let r := colorLoop sub curr 0 shapes b
  if r.1 ≤ 1 ∧ 0 ≤ r.2.confidence then { r.2 with confidence := 1 } else r.2

/-- `color_code`; `sub` gives the answers of `substitute` for the box of a node. The lists have the same length. -/
def colorCode (eqPos eqNeg : List σ) (list : Ll) : Ll :=
  Ll.updateFrom (colorBox sub (eqPos.zip eqNeg)) list.fresh list.head list

end

/-! ## The colour of a box -/

section

variable {σ : Type*} {sub : σ → ℕ → Bool} {curr : ℕ} {b : BoundingBox}

/-- The verdicts about a box, shape after shape. -/
def verdicts (sub : σ → ℕ → Bool) (curr : ℕ) (shapes : List (σ × σ)) : List Verdict :=
  shapes.map fun s => Verdict.of (sub s.1 curr) (sub s.2 curr)

/-- A refuted shape is found if at most one shape before it is undecided. -/
theorem colorLoop_refuted : ∀ {shapes : List (σ × σ)} {fail : ℕ}, Verdict.refuted ∈ verdicts sub curr shapes →
    fail + (verdicts sub curr shapes).count .undecided ≤ 1 →
    (colorLoop sub curr fail shapes b).2.confidence = -1
  | (pos, neg) :: shapes, fail, hmem, hcount => by
    rw [verdicts, List.map_cons] at hmem hcount
    rw [colorLoop]
    cases hv : Verdict.of (sub pos curr) (sub neg curr) with
    | refuted => rfl
    | certified =>
      rw [hv, List.count_cons_of_ne (by decide)] at hcount
      rw [hv, List.mem_cons, or_iff_right (by decide)] at hmem
      dsimp only
      rw [if_neg (by omega)]
      exact colorLoop_refuted hmem hcount
    | undecided =>
      rw [hv, List.count_cons_self] at hcount
      rw [hv, List.mem_cons, or_iff_right (by decide)] at hmem
      dsimp only
      rw [if_neg (by omega)]
      exact colorLoop_refuted hmem (by rw [verdicts]; omega)

/-- Without a refuted shape the loop counts the undecided ones, up to the second. -/
theorem colorLoop_unrefuted :
    ∀ {shapes : List (σ × σ)} {fail : ℕ}, fail ≤ 1 → Verdict.refuted ∉ verdicts sub curr shapes →
      if fail + (verdicts sub curr shapes).count .undecided ≤ 1 then (colorLoop sub curr fail shapes b).1 ≤ 1 ∧
        (colorLoop sub curr fail shapes b).2 = b
    else 1 < (colorLoop sub curr fail shapes b).1 ∧ (colorLoop sub curr fail shapes b).2.confidence = 0
  | [], fail, hfail, _ => by
    rw [if_pos (by simpa [verdicts] using hfail)]
    exact ⟨hfail, rfl⟩
  | (pos, neg) :: shapes, fail, hfail, hmem => by
    rw [verdicts, List.map_cons] at hmem ⊢
    rw [colorLoop]
    cases hv : Verdict.of (sub pos curr) (sub neg curr) with
    | refuted => exact absurd (by simp [hv]) hmem
    | certified =>
      rw [List.count_cons_of_ne (by decide)]
      dsimp only
      rw [if_neg (show ¬ 1 < fail by omega)]
      exact colorLoop_unrefuted hfail fun h => hmem (List.mem_cons_of_mem _ h)
    | undecided =>
      have hrest : Verdict.refuted ∉ verdicts sub curr shapes := fun h => hmem (List.mem_cons_of_mem _ h)
      rw [List.count_cons_self]
      dsimp only
      obtain rfl | rfl : fail = 0 ∨ fail = 1 := by omega
      · have ih := colorLoop_unrefuted (show 0 + 1 ≤ 1 from le_rfl) hrest
        rw [if_neg (show ¬ 1 < 0 + 1 by omega)]
        rwa [Nat.add_assoc, Nat.add_comm 1] at ih
      · rw [if_neg (by omega), if_pos (show 1 < 1 + 1 by omega)]
        exact ⟨Nat.one_lt_two, rfl⟩

variable {shapes shapes' : List (σ × σ)}

theorem colorBox_refuted (hmem : Verdict.refuted ∈ verdicts sub curr shapes)
    (hcount : (verdicts sub curr shapes).count .undecided ≤ 1) : (colorBox sub shapes curr b).confidence = -1 := by
  have hloop := colorLoop_refuted (b := b) hmem (by rwa [Nat.zero_add])
  rw [colorBox, if_neg (by rw [hloop]; omega)]
  exact hloop

theorem colorBox_unrefuted (hb : b.confidence = 0) (hmem : Verdict.refuted ∉ verdicts sub curr shapes) :
    (colorBox sub shapes curr b).confidence = if (verdicts sub curr shapes).count .undecided ≤ 1 then 1 else 0 := by
  have hloop := colorLoop_unrefuted (b := b) (Nat.zero_le 1) hmem
  rw [Nat.zero_add] at hloop
  by_cases hcount : (verdicts sub curr shapes).count .undecided ≤ 1
  · rw [if_pos hcount] at hloop ⊢
    rw [colorBox, if_pos ⟨hloop.1, by rw [hloop.2, hb]⟩]
  · rw [if_neg hcount] at hloop ⊢
    rw [colorBox, if_neg fun h => absurd h.1 hloop.1.not_ge]
    exact hloop.2

/-- A refuted shape that comes first decides. -/
theorem colorBox_refuted_first {s : σ × σ} (h : Verdict.of (sub s.1 curr) (sub s.2 curr) = .refuted) :
    (colorBox sub (s :: shapes) curr b).confidence = -1 := by
  have hloop : colorLoop sub curr 0 (s :: shapes) b = (0, { b with confidence := -1 }) := by rw [colorLoop, h]
  rw [colorBox, hloop, if_neg fun h => absurd h.2 (by show ¬ (0 : ℤ) ≤ -1; decide)]

/-- So do two undecided ones. -/
theorem colorBox_undecided_first {s s' : σ × σ} (h : Verdict.of (sub s.1 curr) (sub s.2 curr) = .undecided)
    (h' : Verdict.of (sub s'.1 curr) (sub s'.2 curr) = .undecided) :
    (colorBox sub (s :: s' :: shapes) curr b).confidence = 0 := by
  have hloop : colorLoop sub curr 0 (s :: s' :: shapes) b = (2, { b with confidence := 0 }) := by
    rw [colorLoop, h]
    dsimp only
    rw [if_neg (by decide), colorLoop, h']
    rfl
  rw [colorBox, hloop, if_neg fun h => absurd h.1 (by show ¬ 2 ≤ 1; decide)]

/-- Unless a refuted shape comes with two undecided ones, the order does not matter. -/
theorem colorBox_perm (hb : b.confidence = 0) (hperm : shapes'.Perm shapes)
    (h : Verdict.refuted ∈ verdicts sub curr shapes → (verdicts sub curr shapes).count .undecided ≤ 1) :
    (colorBox sub shapes' curr b).confidence = (colorBox sub shapes curr b).confidence := by
  have hv : (verdicts sub curr shapes').Perm (verdicts sub curr shapes) := hperm.map _
  by_cases hmem : Verdict.refuted ∈ verdicts sub curr shapes
  · rw [colorBox_refuted hmem (h hmem), colorBox_refuted (hv.mem_iff.2 hmem) (by rw [hv.count_eq]; exact h hmem)]
  · rw [colorBox_unrefuted hb hmem, colorBox_unrefuted hb (fun hm => hmem (hv.mem_iff.1 hm)), hv.count_eq]

end

/-! ## The order of the shapes -/

section

variable {σ : Type*} {sub : σ → ℕ → Bool} {n : ℕ} {eqPos eqNeg : Fin n → σ} {curr : ℕ}

/-- The verdict about the shape `i`. -/
def verdict (sub : σ → ℕ → Bool) (eqPos eqNeg : Fin n → σ) (curr : ℕ) (i : Fin n) : Verdict :=
  Verdict.of (sub (eqPos i) curr) (sub (eqNeg i) curr)

theorem zip_ofFn {α β : Type*} (f : Fin n → α) (g : Fin n → β) :
    (List.ofFn f).zip (List.ofFn g) = List.ofFn fun i => (f i, g i) := by
  refine List.ext_getElem (by simp) fun i h1 h2 => ?_
  simp

theorem verdicts_ofFn : verdicts sub curr (List.ofFn fun i => (eqPos i, eqNeg i)) = List.ofFn
    (verdict sub eqPos eqNeg curr) := by
  rw [verdicts, List.map_ofFn]
  rfl

/-- At most one index has the value. -/
theorem count_ofFn_le_one {α : Type*} [DecidableEq α] {f : Fin n → α} {a : α} :
    (List.ofFn f).count a ≤ 1 ↔ ∀ i j, f i = a → f j = a → i = j := by
  rw [← not_lt, Nat.lt_iff_add_one_le, ← List.duplicate_iff_two_le_count, List.duplicate_iff_exists_distinct_get]
  constructor
  · intro h i j hi hj
    by_contra hij
    rcases lt_or_gt_of_ne hij with hlt | hlt
    · exact h ⟨i.cast (by simp), j.cast (by simp), hlt, by simp [hi], by simp [hj]⟩
    · exact h ⟨j.cast (by simp), i.cast (by simp), hlt, by simp [hj], by simp [hi]⟩
  · rintro h ⟨i, j, hlt, hi, hj⟩
    rw [List.get_ofFn] at hi hj
    exact hlt.ne (Fin.cast_injective _ (h _ _ hi.symm hj.symm))

/-- Some order begins with two given shapes. -/
theorem exists_perm_pair {n : ℕ} {i j : Fin (n + 2)} (hij : i ≠ j) :
    ∃ π : Equiv.Perm (Fin (n + 2)), π 0 = i ∧ π 1 = j := by
  have hk : Equiv.swap 0 i j ≠ 0 := by
    intro h
    rw [Equiv.swap_apply_eq_iff, Equiv.swap_apply_left] at h
    exact hij h.symm
  refine ⟨(Equiv.swap 1 (Equiv.swap 0 i j)).trans (Equiv.swap 0 i), ?_, ?_⟩
  · rw [Equiv.trans_apply, Equiv.swap_apply_of_ne_of_ne Fin.zero_ne_one hk.symm, Equiv.swap_apply_left]
  · rw [Equiv.trans_apply, Equiv.swap_apply_left, Equiv.swap_apply_self]

variable {l : Ll}

theorem box_colorCode (hl : l.Holds l.nodes) (f g : Fin n → σ) {p : ℕ} (hp : p ∈ l.nodes) :
    (colorCode sub (List.ofFn f) (List.ofFn g) l).box p = colorBox sub (List.ofFn fun i => (f i, g i)) p (l.box p) := by
  rw [colorCode, zip_ofFn]
  exact (hl.updateAll _).2 p hp

/-- The colours of boxes of confidence 0 are the same for every order of the shapes exactly when no box has
both a refuted shape and two undecided ones. -/
theorem colorCode_order_iff (hl : l.Holds l.nodes) (hzero : ∀ p ∈ l.nodes, (l.box p).confidence = 0) :
    (∀ π : Equiv.Perm (Fin n), ∀ p ∈ l.nodes,
      ((colorCode sub (List.ofFn (eqPos ∘ π)) (List.ofFn (eqNeg ∘ π)) l).box p).confidence =
        ((colorCode sub (List.ofFn eqPos) (List.ofFn eqNeg) l).box p).confidence) ↔
    ∀ p ∈ l.nodes, (∃ r, verdict sub eqPos eqNeg p r = .refuted) →
      ∀ i j, verdict sub eqPos eqNeg p i = .undecided → verdict sub eqPos eqNeg p j = .undecided → i = j := by
  constructor
  · rintro h p hp ⟨r, hr⟩ i j hi hj
    by_contra hij
    obtain ⟨n, rfl⟩ : ∃ m, n = m + 2 := ⟨n - 2, by have := i.isLt; have := j.isLt; have := Fin.val_ne_of_ne hij; omega⟩
    -- the refuted shape first, and the undecided ones first
    obtain ⟨π, hπ0, hπ1⟩ := exists_perm_pair hij
    have h1 := h (Equiv.swap 0 r) p hp
    have h2 := h π p hp
    rw [box_colorCode hl _ _ hp] at h1 h2
    rw [List.ofFn_succ, colorBox_refuted_first (by simpa [verdict] using hr)] at h1
    rw [List.ofFn_succ, List.ofFn_succ, colorBox_undecided_first (by simpa [verdict, hπ0] using hi)
      (by simpa [verdict, hπ1] using hj), ← h1] at h2
    exact absurd h2 (by decide)
  · intro h π p hp
    rw [box_colorCode hl _ _ hp, box_colorCode hl _ _ hp]
    refine colorBox_perm (hzero p hp) (π.ofFn_comp_perm fun i => (eqPos i, eqNeg i)) fun hmem => ?_
    rw [verdicts_ofFn] at hmem ⊢
    rw [List.mem_ofFn] at hmem
    exact count_ofFn_le_one.2 (h p hp hmem)

end

/-- A refuted shape and an undecided one. -/
theorem colorCode_order_two : (Ll.new (.new [])).nodes = [0] ∧ ∀ π : Equiv.Perm (Fin 2), ∀ p ∈ (Ll.new (.new [])).nodes,
    ((colorCode (fun s _ => s) (List.ofFn (![false, false] ∘ π)) (List.ofFn (![true, false] ∘ π))
        (Ll.new (.new []))).box p).confidence =
      ((colorCode (fun s _ => s) (List.ofFn ![false, false]) (List.ofFn ![true, false])
        (Ll.new (.new []))).box p).confidence := by
  refine ⟨by decide +kernel, ?_⟩
  apply (colorCode_order_iff (Ll.holds_new _).self fun p _ => rfl).2
  rintro p - - i j hi hj
  have honly : ∀ i : Fin 2, Verdict.of (![false, false] i) (![true, false] i) = .undecided → i = 1 := by decide
  rw [honly i hi, honly j hj]

/-- A refuted shape before two undecided ones, and after them. -/
theorem colorCode_order_three :
    ((colorCode (fun s _ => s) (List.ofFn ![false, false, false]) (List.ofFn ![true, false, false])
        (Ll.new (.new []))).box 0).confidence = -1 ∧
      ((colorCode (fun s _ => s) (List.ofFn (![false, false, false] ∘ Equiv.swap 0 2))
        (List.ofFn (![true, false, false] ∘ Equiv.swap 0 2)) (Ll.new (.new []))).box 0).confidence = 0 := by
  decide +kernel

end GridSolve.Grid
