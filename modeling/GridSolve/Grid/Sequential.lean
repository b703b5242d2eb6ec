/-
The refinement without threads: classify a box, and if it is undecided and large split it and go on
with both halves. Whatever the schedule, `run_threads` ends with the boxes that this recursion
gives.
-/
import GridSolve.Grid.Threads

namespace GridSolve.Grid

open GridSolve.Rewriting

/-! ## Termination -/

namespace BoundingBox

/-- How many pieces of length `vol` fit into the sides of a box, added up. -/
def cells (vol : ℚ) (b : BoundingBox) : ℕ := (b.coords.map fun c => ⌊(c.2 - c.1) / vol⌋₊).sum

theorem cells_round_le {vol : ℚ} (hvol : 0 < vol) (b : BoundingBox) : (b.round 1).cells vol ≤ b.cells vol := by
  simp only [cells, round, List.map_map]
  apply List.sum_le_sum
  intro c _
  apply Nat.floor_le_floor
  apply div_le_div_of_nonneg_right _ hvol.le
  simp only [round_one_coord]
  linarith [Int.le_ceil c.1, Int.floor_le c.2]

theorem sum_map_set_lt {α : Type*} {f : α → ℕ} {a a' : α} (hlt : f a' < f a) : ∀ {l : List α} {i : ℕ},
    l[i]? = some a → ((l.set i a').map f).sum < (l.map f).sum
  | b :: l, 0, ha => by
    obtain rfl : b = a := by simpa using ha
    simpa using hlt
  | b :: l, i + 1, ha => by
    have := sum_map_set_lt hlt (show l[i]? = some a by simpa using ha)
    simpa using this

/-- Half of a side that is long enough has fewer pieces. -/
theorem floor_half_lt {vol w : ℚ} (hvol : 0 < vol) (hw : vol ≤ w) : ⌊w * (1 / 2) / vol⌋₊ < ⌊w / vol⌋₊ := by
  have h1 : 1 ≤ w / vol := (one_le_div hvol).2 hw
  have h2 : (1 : ℚ) ≤ ⌊w / vol⌋₊ := by exact_mod_cast (Nat.one_le_floor_iff _).2 h1
  have h3 := Nat.lt_floor_add_one (w / vol)
  have h4 : w * (1 / 2) / vol = w / vol / 2 := by ring
  rw [h4, Nat.floor_lt (by linarith)]
  linarith

/-- Both halves of a split are smaller, and rounding leaves them so. -/
theorem IsSplit.cells_lt {b this n : BoundingBox} {dir : ℕ} {c : ℚ × ℚ} (h : IsSplit b this n dir c) {vol : ℚ}
    (hvol : 0 < vol) (hnorm : vol ≤ b.norm) :
    (this.round 1).cells vol < b.cells vol ∧ (n.round 1).cells vol < b.cells vol := by
  rw [← h.norm_eq.1] at hnorm
  have hhalf := floor_half_lt hvol hnorm
  constructor
  · refine (cells_round_le hvol this).trans_lt ?_
    rw [h.this_eq]
    apply sum_map_set_lt _ h.at_dir
    rwa [show c.2 - (c.2 + c.1) * (1 / 2) = (c.2 - c.1) * (1 / 2) by ring]
  · refine (cells_round_le hvol n).trans_lt ?_
    rw [h.new_eq]
    apply sum_map_set_lt _ h.at_dir
    rwa [show (c.2 + c.1) * (1 / 2) - c.1 = (c.2 - c.1) * (1 / 2) by ring]

end BoundingBox

/-! ## The recursion -/

/-- What becomes of a box. -/
inductive Outcome
  | dropped
  | kept (b : BoundingBox)
  | halves (this n : BoundingBox)

namespace Decided

variable (D : Decided)

/-- The loop over the shapes from shape `i` on, `m` of them left; `none` when one is refuted. -/
def visitFrom : ℕ → ℕ → Found → BoundingBox → Option (BoundingBox × Found)
  | 0, _, found, b => some (b, found)
  | m + 1, i, found, b =>
    if 0 < b.stateAt i then visitFrom m (i + 1) found b
    else if D.pos i b.coords then visitFrom m (i + 1) found (b.setState i 1)
    else if D.neg i b.coords then none
    else visitFrom m (i + 1) .keep b

/-- An undecided box. One that has no side is not split. -/
def settle (b : BoundingBox) : Outcome :=
  if b.norm < D.volLimit then .kept b.recomputeConfidence
  else
    match b.split with
    | none => .dropped
    | some (this, n) => .halves (this.round 1) (n.round 1)

def finish : Option (BoundingBox × Found) → Outcome
  | none => .dropped
  | some (b, .inside) => .kept b.confirm
  | some (b, .keep) => D.settle b

/-- The classification of a box. -/
def classify (b : BoundingBox) : Outcome :=
  if b.notValid then .dropped else D.finish (D.visitFrom D.shapes 0 .inside b)

theorem coords_visitFrom : ∀ {m i : ℕ} {found found' : Found} {b b' : BoundingBox},
    D.visitFrom m i found b = some (b', found') → b'.coords = b.coords
  | 0, _, _, _, _, _, h => by cases h; rfl
  | m + 1, i, found, found', b, b', h => by
    rw [visitFrom] at h
    split_ifs at h
    · exact coords_visitFrom h
    · exact (coords_visitFrom h).trans rfl
    · exact coords_visitFrom h

theorem cells_of_settle (hvol : 0 < D.volLimit) {b b₁ b₂ : BoundingBox} (h : D.settle b = .halves b₁ b₂) :
    b₁.cells D.volLimit < b.cells D.volLimit ∧ b₂.cells D.volLimit < b.cells D.volLimit := by
  unfold settle at h
  split_ifs at h with hn
  cases hs : b.split with
  | none => rw [hs] at h; cases h
  | some q =>
    obtain ⟨this, n⟩ := q
    rw [hs] at h
    obtain ⟨rfl, rfl⟩ : this.round 1 = b₁ ∧ n.round 1 = b₂ := by simpa using h
    obtain ⟨dir, c, hsplit⟩ := BoundingBox.split_isSplit hs
    exact hsplit.cells_lt hvol (not_lt.1 hn)

theorem cells_of_classify (hvol : 0 < D.volLimit) {b b₁ b₂ : BoundingBox} (h : D.classify b = .halves b₁ b₂) :
    b₁.cells D.volLimit < b.cells D.volLimit ∧ b₂.cells D.volLimit < b.cells D.volLimit := by
  unfold classify at h
  split_ifs at h
  cases hv : D.visitFrom D.shapes 0 .inside b with
  | none => rw [hv] at h; cases h
  | some q =>
    obtain ⟨b', found⟩ := q
    rw [hv] at h
    cases found with
    | inside => cases h
    | keep =>
      have hcoords := D.coords_visitFrom hv
      have hcells : b'.cells D.volLimit = b.cells D.volLimit := by rw [BoundingBox.cells, hcoords]; rfl
      rw [← hcells]
      exact D.cells_of_settle hvol h

variable {D}

/-- The sequential recursion: the boxes that are left of a box. -/
def subdivide (hvol : 0 < D.volLimit) (b : BoundingBox) : Multiset BoundingBox :=
  match _h : D.classify b with
  | .dropped => 0
  | .kept b' => {b'}
  | .halves this n => subdivide hvol this + subdivide hvol n
termination_by b.cells D.volLimit
decreasing_by
  · exact (D.cells_of_classify hvol _h).1
  · exact (D.cells_of_classify hvol _h).2

/-- The boxes that are left of a classified box. -/
def left (hvol : 0 < D.volLimit) : Outcome → Multiset BoundingBox
  | .dropped => 0
  | .kept b => {b}
  | .halves this n => subdivide hvol this + subdivide hvol n

theorem subdivide_eq (hvol : 0 < D.volLimit) (b : BoundingBox) : subdivide hvol b = left hvol (D.classify b) := by
  rw [subdivide]
  split <;> simp only [*, left]

/-! ## The rules keep what is left -/

/-- What is left of an item in the end. -/
def value (hvol : 0 < D.volLimit) : Token → Multiset BoundingBox
  | .pending b => subdivide hvol b
  | .held b .taken => subdivide hvol b
  | .held b (.visiting i found) => left hvol (D.finish (D.visitFrom (D.shapes - i) i found b))
  | .held b .settle => left hvol (D.settle b)
  | .held b .finished => {b}
  | .held b (.halved n) => subdivide hvol (b.round 1) + subdivide hvol (n.round 1)
  | .held _ .refuted => 0
  | .held _ .invalid => 0
  | .loose b => subdivide hvol b
  | .done b => {b}
  | .gone _ => 0

theorem value_visiting (hvol : 0 < D.volLimit) {i : ℕ} (hi : i < D.shapes) (found : Found) (b : BoundingBox) :
    value hvol (.held b (.visiting i found)) =
      if 0 < b.stateAt i then value hvol (.held b (.visiting (i + 1) found))
      else if D.pos i b.coords then value hvol (.held (b.setState i 1) (.visiting (i + 1) found))
      else if D.neg i b.coords then 0
      else value hvol (.held b (.visiting (i + 1) .keep)) := by
  have hm : D.shapes - i = D.shapes - (i + 1) + 1 := by omega
  simp only [value]
  rw [hm, visitFrom]
  split_ifs <;> rfl

theorem value_process (hvol : 0 < D.volLimit) {b b' : BoundingBox} {st st' : Stage} (h : Process D.config b st b' st') :
    value hvol (.held b' st') = value hvol (.held b st) := by
  cases h with
  | invalid _ hnv => simp [value, subdivide_eq, classify, hnv, left]
  | enter hv => simp [value, subdivide_eq, classify, hv rfl]
  | skip hi hs => rw [value_visiting hvol hi, if_pos hs]
  | certify hi hs hyes => rw [value_visiting hvol hi, if_neg hs, if_pos (pos_yes.1 hyes)]
  | refute hi hs hno hyes =>
    rw [value_visiting hvol hi, if_neg hs, if_neg (by simp [pos_no.1 hno]), if_pos (neg_yes.1 hyes)]
    rfl
  | inconclusive hi hs hno hno' =>
    rw [value_visiting hvol hi, if_neg hs, if_neg (by simp [pos_no.1 hno]), if_neg (by simp [neg_no.1 hno'])]
  | accept =>
    simp only [value, config, Nat.sub_self]
    rfl
  | undecided =>
    simp only [value, config, Nat.sub_self]
    rfl
  | small hn => simp only [value, settle, if_pos (show b.norm < D.volLimit from hn), left]
  | divide hn hs => simp only [value, settle, if_neg (show ¬ b.norm < D.volLimit from hn), hs, left]

theorem value_rule (hvol : 0 < D.volLimit) {t : Token} {ts : Multiset Token} (h : Rule D.config t ts) :
    (ts.map (value hvol)).sum = value hvol t := by
  cases h with
  | process hp => simpa using value_process hvol hp
  | timeout hi => exact absurd hi not_interrupted
  | halve b n => simp [value, Config.half, config]
  | shelve _ hreal => cases hreal
  | rescore _ hreal => cases hreal
  | _ => simp [value]

/-- What is left of boxes that stay and boxes that are gone. -/
theorem sum_value_final (hvol : 0 < D.volLimit) (kept gone : List BoundingBox) :
    (((kept.map Token.done : List Token) + (gone.map Token.gone : List Token) : Multiset Token).map (value hvol)).sum =
      kept := by
  have hgone : (gone.map (value hvol ∘ Token.gone)).sum = 0 := by simp [Function.comp_def, value]
  have hkept := Multiset.sum_map_singleton (kept : Multiset BoundingBox)
  rw [Multiset.map_coe, Multiset.sum_coe] at hkept
  rw [Multiset.map_add, Multiset.sum_add, Multiset.map_coe, Multiset.map_coe, List.map_map, List.map_map,
    Multiset.sum_coe, Multiset.sum_coe, hgone, add_zero]
  exact hkept

end Decided

/-- All threads have returned. -/
def State.Finished (s : State) : Prop := ∀ pc ∈ s.threads, pc = .returned

theorem Layout.finished {s : State} {taken pending kept : List ℕ} (h : Layout s taken pending kept)
    (hne : s.threads ≠ []) (hs : s.Finished) :
    s.shared.currBox = none ∧ s.shared.frags.Holds taken ∧ taken.Perm kept ∧
      s.items pending kept = ((kept.map s.shared.frags.box).map Token.done : List Token) +
        (s.shared.gone.map Token.gone : List Token) := by
  obtain ⟨pc, hpc⟩ := List.exists_mem_of_ne_nil _ hne
  rcases h.counted with ⟨hret, -⟩ | ⟨-, hcur, -⟩
  · exact absurd (hs pc hpc ▸ hpc) hret
  · obtain rfl : pending = [] := List.head?_eq_none_iff.1 (h.cursor.symm.trans hcur)
    have hheld : s.held = [] := List.flatMap_eq_nil_iff.2 fun pc hpc => by rw [hs pc hpc]; rfl
    have hbind : (s.threads : Multiset Pc).bind (Pc.items s.shared.frags) = 0 :=
      (Multiset.bind_congr fun pc hpc => by rw [hs pc hpc]; rfl).trans (Multiset.bind_zero _)
    refine ⟨hcur, by simpa using h.holds, by simpa [hheld] using h.perm, ?_⟩
    simp only [State.items, rest, List.append_nil, hbind, List.map_nil, List.map_map, Multiset.coe_nil,
      zero_add, add_zero]
    rfl

theorem Reaches.length {cfg : Config} {s s' : State} (h : Reaches cfg s s') : s'.threads.length = s.threads.length := by
  induction h with
  | refl => rfl
  | tail _ hs ih =>
    obtain ⟨u, v, -⟩ := hs
    simpa using ih

/-- When all threads have returned, every box of the list is finished, and these boxes and the
discarded ones come from those of the initial list by the rules. -/
theorem Reaches.final {cfg : Config} {l : Ll} {seq : List ℕ} {s : State} {nThreads : ℕ} (hl : l.Holds seq)
    (hn : 0 < nThreads) (h : Reaches cfg (init l nThreads) s) (hfin : s.Finished) :
    s.shared.currBox = none ∧ s.shared.frags.Holds s.shared.frags.nodes ∧
      Runs (Rule cfg) (l.boxes.map Token.pending : List Token)
        ((s.shared.frags.boxes.map Token.done : List Token) + (s.shared.gone.map Token.gone : List Token)) := by
  obtain ⟨M, ⟨taken, pending, kept, hlay, rfl⟩, hruns⟩ := h.items hl
  have hne : s.threads ≠ [] := by
    rw [← List.length_pos_iff, h.length]
    simpa [init] using hn
  obtain ⟨hcur, hholds, hperm, hitems⟩ := hlay.finished hne hfin
  refine ⟨hcur, hholds.self, ?_⟩
  have hkept : (((kept.map s.shared.frags.box).map Token.done : List Token) : Multiset Token) =
      (s.shared.frags.boxes.map Token.done : List Token) := by
    rw [hholds.boxes_eq]
    exact (Multiset.coe_eq_coe.2 ((hperm.map _).map _)).symm
  rw [← hkept, ← hitems]
  exact hruns

/-- The boxes of a final state are what the recursion leaves of the initial ones, and at no time do
two threads hold the same node. -/
theorem schedule_independent {D : Decided} (hvol : 0 < D.volLimit) {l : Ll} (hl : l.Holds l.nodes) {nThreads : ℕ}
    (hn : 0 < nThreads) {s : State} (hrun : Reaches D.config (init l nThreads) s) :
    s.held.Nodup ∧ (s.Finished → s.shared.currBox = none ∧
      (s.shared.frags.boxes : Multiset BoundingBox) = (l.boxes.map (Decided.subdivide hvol)).sum) := by
  refine ⟨?_, fun hfin => ?_⟩
  · obtain ⟨M, ⟨taken, pending, kept, hlay, rfl⟩, -⟩ := hrun.items hl
    exact (List.nodup_append.1 (List.nodup_append.1 hlay.nodup).1).2.1
  · obtain ⟨hcur, -, hruns⟩ := hrun.final hl hn hfin
    have hsum := hruns.sum_eq fun t ts hr => Decided.value_rule hvol hr
    refine ⟨hcur, ?_⟩
    rw [← Decided.sum_value_final hvol _ s.shared.gone, hsum, Multiset.map_coe, Multiset.sum_coe, List.map_map]
    rfl

/-- Two threads that take turns on the interval from 0 to 1. -/
def turns : List ℕ := [0, 1, 0, 1, 0, 1, 0, 1, 0, 1, 0, 0, 1, 0, 1, 0, 1, 0, 1, 0, 1, 0, 1, 0, 1, 0, 1]

theorem schedule_independent_turns :
    ∃ s, Reaches Decided.unsure.config (init (initialList [(0, 1)] 1) 2) s ∧ s.Finished ∧ s.held.Nodup ∧
      s.shared.currBox = none ∧
      (s.shared.frags.boxes : Multiset BoundingBox) =
        ((initialList [(0, 1)] 1).boxes.map (Decided.subdivide (D := Decided.unsure) (by decide))).sum := by
  have hstate : (Decided.unsure.run turns (init (initialList [(0, 1)] 1) 2)).map (fun s => s.threads) =
      some [.returned, .returned] := by decide +kernel
  obtain ⟨s, hs, he⟩ := Option.map_eq_some_iff.1 hstate
  have hrun := Decided.run_reaches _ hs
  have hfin : s.Finished := by
    intro pc hpc
    rw [he] at hpc
    simpa using hpc
  obtain ⟨hnd, hend⟩ := schedule_independent (D := Decided.unsure) (by decide) (Ll.holds_new _).self (by decide) hrun
  exact ⟨s, hrun, hfin, hnd, hend hfin⟩

end GridSolve.Grid
