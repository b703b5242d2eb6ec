/-
What happens to one box. `Process` is the code that a box goes through between the operations on
the list: the test of its sides, the loop over the shapes, and what follows from its result. It is
the same in `run_thread_int` and `run_iters`. `Rule` tells the life of a box as an item of its own:
waiting, in work, split in two, kept or discarded. Every rule keeps the points of the box (integer
points, where halves are rounded) and what has been certified on it.
-/
import GridSolve.Grid.Box
import GridSolve.Lib.Rewriting

namespace GridSolve.Grid

open GridSolve.Rewriting

/-- What a call of `substitute` gives; z3 may throw `Timeout`. -/
inductive Answer
  | yes
  | no
  | timeout
  deriving DecidableEq, Repr

/-- The parameters of a refinement. `pos` and `neg` are the answers that the positive and the
negative solver of a shape may give on a box. -/
structure Config where
  shapes : ℕ
  volLimit : ℚ
  /-- `run_thread_int`: boxes are tested with `not_valid`, halves are rounded. -/
  integer : Bool
  pos : ℕ → Coords → Answer → Prop
  neg : ℕ → Coords → Answer → Prop

namespace BoundingBox

/-- `curr_state_vec_()[i]`. -/
def stateAt (b : BoundingBox) (i : ℕ) : ℤ := b.currStateVec.getD i 0

/-- `curr_state_vec_()[i] = v`. -/
def setState (i : ℕ) (v : ℤ) (b : BoundingBox) : BoundingBox :=
  { b with currStateVec := b.currStateVec.set i v }

/-- `confidence_() = 1`. -/
def confirm (b : BoundingBox) : BoundingBox := { b with confidence := 1 }

end BoundingBox

/-- The variable `found` while the loop over the shapes runs: 2 (`inside`) or 1 (`keep`). -/
inductive Found
  | inside
  | keep
  deriving DecidableEq, Repr

/-- Where the code is with the box in hand. -/
inductive Stage
  /-- just taken from the cursor -/
  | taken
  /-- in the loop over the shapes, at `idx_solver` -/
  | visiting (idxSolver : ℕ) (found : Found)
  /-- a negative solver has answered true, `remove` is next -/
  | refuted
  /-- `not_valid`, `remove` is next -/
  | invalid
  /-- undecided: the norm is compared with the limit -/
  | settle
  /-- the box stays as it is -/
  | finished
  /-- divided; `n` is the new half -/
  | halved (n : BoundingBox)
  deriving DecidableEq, Repr

/-- The new half that is not in the list yet. -/
def Stage.half : Stage → List BoundingBox
  | .halved n => [n]
  | _ => []

/-- The code between two operations on the list, on the box it works on. -/
inductive Process (cfg : Config) : BoundingBox → Stage → BoundingBox → Stage → Prop
  | invalid {b : BoundingBox} : cfg.integer = true → b.notValid = true → Process cfg b .taken b .invalid
  | enter {b : BoundingBox} : (cfg.integer = true → b.notValid = false) →
      Process cfg b .taken b (.visiting 0 .inside)
  | skip {b : BoundingBox} {i : ℕ} {found : Found} : i < cfg.shapes → 0 < b.stateAt i →
      Process cfg b (.visiting i found) b (.visiting (i + 1) found)
  | certify {b : BoundingBox} {i : ℕ} {found : Found} : i < cfg.shapes → ¬ 0 < b.stateAt i →
      cfg.pos i b.coords .yes → Process cfg b (.visiting i found) (b.setState i 1) (.visiting (i + 1) found)
  | refute {b : BoundingBox} {i : ℕ} {found : Found} : i < cfg.shapes → ¬ 0 < b.stateAt i →
      cfg.pos i b.coords .no → cfg.neg i b.coords .yes →
      Process cfg b (.visiting i found) (b.setState i (-1)) .refuted
  -- `found` becomes 1 or stays 1
  | inconclusive {b : BoundingBox} {i : ℕ} {found : Found} : i < cfg.shapes → ¬ 0 < b.stateAt i →
      cfg.pos i b.coords .no → cfg.neg i b.coords .no →
      Process cfg b (.visiting i found) b (.visiting (i + 1) .keep)
  | accept {b : BoundingBox} : Process cfg b (.visiting cfg.shapes .inside) b.confirm .finished
  | undecided {b : BoundingBox} : Process cfg b (.visiting cfg.shapes .keep) b .settle
  | small {b : BoundingBox} : b.norm < cfg.volLimit → Process cfg b .settle b.recomputeConfidence .finished
  | divide {b this n : BoundingBox} : ¬ b.norm < cfg.volLimit → b.split = some (this, n) →
      Process cfg b .settle this (.halved n)

/-- What becomes of a half when it is put on the list. -/
def Config.half (cfg : Config) (b : BoundingBox) : BoundingBox := if cfg.integer then b.round 1 else b

/-- A solver call for shape `i` throws. -/
def Config.Interrupted (cfg : Config) (i : ℕ) (c : Coords) : Prop :=
  cfg.pos i c .timeout ∨ cfg.pos i c .no ∧ cfg.neg i c .timeout

/-- A box and what is going on with it. -/
inductive Token
  /-- in the list, from the cursor on -/
  | pending (b : BoundingBox)
  /-- in the list, before the cursor, and being worked on -/
  | held (b : BoundingBox) (stage : Stage)
  /-- a new half that is not in the list yet -/
  | loose (b : BoundingBox)
  /-- in the list, before the cursor, for good -/
  | done (b : BoundingBox)
  /-- removed on the answer of a negative solver -/
  | gone (b : BoundingBox)
  deriving DecidableEq, Repr

/-- The life of a box. -/
inductive Rule (cfg : Config) : Token → Multiset Token → Prop
  | fetch (b : BoundingBox) : Rule cfg (.pending b) {.held b .taken}
  | process {b b' : BoundingBox} {st st' : Stage} : Process cfg b st b' st' → Rule cfg (.held b st) {.held b' st'}
  -- the handler of a timeout does what is done with an undecided box
  | timeout {b : BoundingBox} {i : ℕ} {found : Found} : cfg.Interrupted i b.coords →
      Rule cfg (.held b (.visiting i found)) {.held b .settle}
  | drop (b : BoundingBox) : Rule cfg (.held b .invalid) 0
  | discard (b : BoundingBox) : Rule cfg (.held b .refuted) {.gone b}
  | keep (b : BoundingBox) : Rule cfg (.held b .finished) {.done b}
  | halve (b n : BoundingBox) : Rule cfg (.held b (.halved n)) {.pending (cfg.half b), .loose (cfg.half n)}
  | append (b : BoundingBox) : Rule cfg (.loose b) {.pending b}
  -- at the end of `run_iters` the cursor is given up and the confidence of every box recomputed
  | shelve (b : BoundingBox) : cfg.integer = false → Rule cfg (.pending b) {.done b}
  | rescore (b : BoundingBox) : cfg.integer = false → Rule cfg (.done b) {.done b.recomputeConfidence}

/-! ## Solvers that always answer -/

/-- Integer mode with solvers that answer true or false, and the same on the same box. -/
structure Decided where
  shapes : ℕ
  volLimit : ℚ
  pos : ℕ → Coords → Bool
  neg : ℕ → Coords → Bool

namespace Decided

variable (D : Decided)

def config : Config where
  shapes := D.shapes
  volLimit := D.volLimit
  integer := true
  pos i c a := a = if D.pos i c then .yes else .no
  neg i c a := a = if D.neg i c then .yes else .no

variable {D} {i : ℕ} {c : Coords}

theorem pos_yes : D.config.pos i c .yes ↔ D.pos i c = true := by cases h : D.pos i c <;> simp [config, h]

theorem pos_no : D.config.pos i c .no ↔ D.pos i c = false := by cases h : D.pos i c <;> simp [config, h]

theorem neg_yes : D.config.neg i c .yes ↔ D.neg i c = true := by cases h : D.neg i c <;> simp [config, h]

theorem neg_no : D.config.neg i c .no ↔ D.neg i c = false := by cases h : D.neg i c <;> simp [config, h]

theorem not_interrupted : ¬ D.config.Interrupted i c := by
  rintro (h | ⟨-, h⟩)
  · cases hp : D.pos i c <;> simp [config, hp] at h
  · cases hp : D.neg i c <;> simp [config, hp] at h

variable (D)

/-- The next piece of work on a box. -/
def process (b : BoundingBox) : Stage → Option (BoundingBox × Stage)
  | .taken => some (b, if b.notValid then .invalid else .visiting 0 .inside)
  | .visiting i found =>
    if i < D.shapes then
      if 0 < b.stateAt i then some (b, .visiting (i + 1) found)
      else if D.pos i b.coords then some (b.setState i 1, .visiting (i + 1) found)
      else if D.neg i b.coords then some (b.setState i (-1), .refuted)
      else some (b, .visiting (i + 1) .keep)
    else if i = D.shapes then
      match found with
      | .inside => some (b.confirm, .finished)
      | .keep => some (b, .settle)
    else none
  | .settle =>
    if b.norm < D.volLimit then some (b.recomputeConfidence, .finished)
    else
      match b.split with
      | none => none
      | some (this, n) => some (this, .halved n)
  | _ => none

theorem process_visiting {b b' : BoundingBox} {found : Found} {st' : Stage} (hi : i < D.shapes)
    (h : D.process b (.visiting i found) = some (b', st')) : Process D.config b (.visiting i found) b' st' := by
  simp only [process, if_pos hi] at h
  split_ifs at h with h1 h2 h3 <;> cases h
  · exact .skip hi h1
  · exact .certify hi h1 (pos_yes.2 h2)
  · exact .refute hi h1 (pos_no.2 (by simpa using h2)) (neg_yes.2 h3)
  · exact .inconclusive hi h1 (pos_no.2 (by simpa using h2)) (neg_no.2 (by simpa using h3))

theorem process_sound {b b' : BoundingBox} {st st' : Stage} (h : D.process b st = some (b', st')) :
    Process D.config b st b' st' := by
  cases st with
  | taken =>
    cases hv : b.notValid <;> (simp only [process, hv] at h; cases h)
    · exact .enter fun _ => hv
    · exact .invalid rfl hv
  | visiting i found =>
    by_cases hi : i < D.shapes
    · exact D.process_visiting hi h
    · simp only [process, if_neg hi] at h
      split_ifs at h with he
      subst he
      cases found <;> cases h
      · exact .accept
      · exact .undecided
  | settle =>
    simp only [process] at h
    split_ifs at h with hn
    · cases h
      exact .small hn
    · cases hs : b.split with
      | none => rw [hs] at h; cases h
      | some q =>
        rw [hs] at h
        cases h
        exact .divide hn hs
  | _ => cases h

end Decided

/-! ## Points -/

/-- The boxes of an item. -/
def Token.boxes : Token → Multiset BoundingBox
  | .held b (.halved n) => {b, n}
  | .held b _ => {b}
  | .pending b => {b}
  | .loose b => {b}
  | .done b => {b}
  | .gone b => {b}

theorem boxes_held (b : BoundingBox) (st : Stage) : (Token.held b st).boxes = {b} + (st.half : List BoundingBox) := by
  cases st <;> rfl

/-- Items with one box each. -/
theorem bind_boxes_map {α : Type*} (l : List α) {f : α → Token} {g : α → BoundingBox} (h : ∀ a, (f a).boxes = {g a}) :
    ((l.map f : List Token) : Multiset Token).bind Token.boxes = (l.map g : List BoundingBox) := by
  rw [← Multiset.map_coe, Multiset.bind_map]
  simp only [h]
  rw [Multiset.bind_singleton, Multiset.map_coe]

theorem bind_boxes_gone (gone : List BoundingBox) :
    ((gone.map Token.gone : List Token) : Multiset Token).bind Token.boxes = gone := by
  rw [bind_boxes_map gone (fun b => (rfl : (Token.gone b).boxes = {b})), List.map_id']

/-- The points that an item answers for. A box that is turned inside out has none. -/
def Token.Covers : Token → (ℕ → ℝ) → Prop
  | .held _ .invalid, _ => False
  | .held b (.halved n), x => InBox b.coords x ∨ InBox n.coords x
  | .held b _, x => InBox b.coords x
  | .pending b, x => InBox b.coords x
  | .loose b, x => InBox b.coords x
  | .done b, x => InBox b.coords x
  | .gone b, x => InBox b.coords x

namespace BoundingBox

@[simp] theorem coords_setState (i : ℕ) (v : ℤ) (b : BoundingBox) : (b.setState i v).coords = b.coords := rfl
@[simp] theorem coords_confirm (b : BoundingBox) : b.confirm.coords = b.coords := rfl

@[simp] theorem coords_recomputeConfidence (b : BoundingBox) : b.recomputeConfidence.coords = b.coords := by
  unfold recomputeConfidence; split <;> rfl

@[simp] theorem currStateVec_recomputeConfidence (b : BoundingBox) :
    b.recomputeConfidence.currStateVec = b.currStateVec := by
  unfold recomputeConfidence; split <;> rfl

theorem stateAt_setState (i j : ℕ) (v : ℤ) (b : BoundingBox) :
    (b.setState i v).stateAt j = if i = j ∧ i < b.currStateVec.length then v else b.stateAt j := by
  simp only [stateAt, setState, List.getD_eq_getElem?_getD, List.getElem?_set]
  by_cases hij : i = j
  · subst hij
    by_cases hlt : i < b.currStateVec.length <;> simp [hlt]
  · simp [hij]

end BoundingBox

theorem Config.inBox_of_half (cfg : Config) {b : BoundingBox} {x : ℕ → ℝ} (h : InBox (cfg.half b).coords x) :
    InBox b.coords x := by
  unfold Config.half at h
  split at h
  · exact BoundingBox.inBox_of_round h
  · exact h

theorem Config.currStateVec_half (cfg : Config) (b : BoundingBox) : (cfg.half b).currStateVec = b.currStateVec := by
  unfold Config.half; split <;> rfl

/-- Working on a box keeps its points and adds none. -/
theorem Process.covers {cfg : Config} {b b' : BoundingBox} {st st' : Stage} (h : Process cfg b st b' st')
    (x : ℕ → ℝ) : (Token.held b st).Covers x ↔ (Token.held b' st').Covers x := by
  cases h with
  | invalid _ hnv => exact iff_of_false (BoundingBox.not_inBox_of_notValid hnv x) id
  | small => simp [Token.Covers]
  | divide _ hs =>
    obtain ⟨dir, c, hsplit⟩ := BoundingBox.split_isSplit hs
    exact hsplit.inBox_iff x
  | _ => exact Iff.rfl

theorem Token.Covers.mem_boxes {t : Token} {x : ℕ → ℝ} (h : t.Covers x) : ∃ b ∈ t.boxes, InBox b.coords x := by
  cases t with
  | held b st =>
    cases st with
    | halved n =>
      rcases h with h | h
      · exact ⟨b, by simp [Token.boxes], h⟩
      · exact ⟨n, by simp [Token.boxes], h⟩
    | invalid => exact absurd h id
    | _ => exact ⟨b, Multiset.mem_singleton_self b, h⟩
  | _ => exact ⟨_, Multiset.mem_singleton_self _, h⟩

/-- Working on a box adds no point. -/
theorem Process.sub {cfg : Config} {b b' : BoundingBox} {st st' : Stage} (h : Process cfg b st b' st') {x : ℕ → ℝ} :
    ∀ e' ∈ (Token.held b' st').boxes, InBox e'.coords x → ∃ e ∈ (Token.held b st).boxes, InBox e.coords x := by
  cases h with
  | divide _ hs =>
    obtain ⟨dir, c, hsplit⟩ := BoundingBox.split_isSplit hs
    have hsub := hsplit.inBox_iff x
    simp only [Token.boxes, Multiset.insert_eq_cons, Multiset.mem_cons, Multiset.mem_singleton]
    grind
  | _ => simp [Token.boxes]

/-- A rule adds no point. -/
theorem Rule.sub {cfg : Config} {t : Token} {ts : Multiset Token} (h : Rule cfg t ts) {x : ℕ → ℝ} :
    ∀ t' ∈ ts, ∀ b' ∈ t'.boxes, InBox b'.coords x → ∃ b ∈ t.boxes, InBox b.coords x := by
  cases h with
  | process hp => simpa using hp.sub
  | halve b n =>
    intro t' ht' e he hx
    rcases Multiset.mem_cons.1 ht' with rfl | ht'
    · rw [Multiset.mem_singleton.1 he] at hx
      exact ⟨b, by simp [Token.boxes], cfg.inBox_of_half hx⟩
    · rw [Multiset.mem_singleton.1 ht'] at he
      rw [Multiset.mem_singleton.1 he] at hx
      exact ⟨n, by simp [Token.boxes], cfg.inBox_of_half hx⟩
  | drop => simp
  | _ => simp [Token.boxes]

/-- A rule loses no point that survives the rounding of halves. -/
theorem Rule.covers {cfg : Config} {t : Token} {ts : Multiset Token} (h : Rule cfg t ts) {x : ℕ → ℝ}
    (hhalf : ∀ b : BoundingBox, InBox b.coords x → InBox (cfg.half b).coords x) (hx : t.Covers x) :
    ∃ t' ∈ ts, t'.Covers x := by
  cases h with
  | process hp => exact ⟨_, Multiset.mem_singleton_self _, (hp.covers x).1 hx⟩
  | drop => exact absurd hx id
  | halve b n =>
    rcases hx with hx | hx
    · exact ⟨_, Multiset.mem_cons_self _ _, hhalf b hx⟩
    · exact ⟨_, Multiset.mem_cons_of_mem (Multiset.mem_singleton_self _), hhalf n hx⟩
  | rescore b => exact ⟨_, Multiset.mem_singleton_self _, by simpa [Token.Covers] using hx⟩
  | _ => exact ⟨_, Multiset.mem_singleton_self _, hx⟩

/-- Integer points survive the rounding. -/
theorem Config.half_keeps_int (cfg : Config) (z : ℕ → ℤ) (b : BoundingBox) (h : InBox b.coords fun i => (z i : ℝ)) :
    InBox (cfg.half b).coords fun i => (z i : ℝ) := by
  unfold Config.half
  split
  · exact BoundingBox.inBox_round.2 h
  · exact h

/-- Without rounding every point does. -/
theorem Config.half_keeps {cfg : Config} (hreal : cfg.integer = false) (x : ℕ → ℝ) (b : BoundingBox)
    (h : InBox b.coords x) : InBox (cfg.half b).coords x := by
  simpa [Config.half, hreal] using h

/-! ## Interiors -/

section

open scoped Classical

variable (x : ℕ → ℝ)

/-- 1 if the point lies in the interior of the box. -/
noncomputable def BoundingBox.inner (b : BoundingBox) : ℕ := if Inside b.coords x then 1 else 0

/-- How many boxes of an item have the point in their interior. -/
noncomputable def Token.inner (t : Token) : ℕ := (t.boxes.map (BoundingBox.inner x)).sum

theorem BoundingBox.inner_le {b b' : BoundingBox} (h : Inside b'.coords x → Inside b.coords x) :
    b'.inner x ≤ b.inner x := by
  unfold BoundingBox.inner
  split_ifs with h' hb
  · exact le_refl _
  · exact absurd (h h') hb
  · exact Nat.zero_le _
  · exact le_refl _

theorem Config.inner_half_le (cfg : Config) (b : BoundingBox) : (cfg.half b).inner x ≤ b.inner x := by
  apply BoundingBox.inner_le
  unfold Config.half
  split
  · exact BoundingBox.inside_of_round
  · exact id

theorem BoundingBox.IsSplit.inner_le {b this n : BoundingBox} {dir : ℕ} {c : ℚ × ℚ} (h : IsSplit b this n dir c) :
    this.inner x + n.inner x ≤ b.inner x := by
  obtain ⟨h1, h2, h3⟩ := h.inside x
  unfold BoundingBox.inner
  split_ifs with ha hb hc <;> tauto

theorem Process.inner_le {cfg : Config} {b b' : BoundingBox} {st st' : Stage} (h : Process cfg b st b' st') :
    (Token.held b' st').inner x ≤ (Token.held b st).inner x := by
  cases h with
  | small => simpa [Token.inner, Token.boxes] using BoundingBox.inner_le x (by simp)
  | divide _ hs =>
    obtain ⟨dir, c, hsplit⟩ := BoundingBox.split_isSplit hs
    simpa [Token.inner, Token.boxes] using hsplit.inner_le x
  | _ => exact le_refl _

/-- No rule puts a point into the interior of more boxes. -/
theorem Rule.inner_le {cfg : Config} {t : Token} {ts : Multiset Token} (h : Rule cfg t ts) :
    (ts.map (Token.inner x)).sum ≤ t.inner x := by
  cases h with
  | process hp => simpa using hp.inner_le x
  | halve b n =>
    simpa [Token.inner, Token.boxes] using Nat.add_le_add (cfg.inner_half_le x b) (cfg.inner_half_le x n)
  | drop b => simp
  | rescore b => simpa [Token.inner, Token.boxes] using BoundingBox.inner_le x (by simp)
  | _ => simp [Token.inner, Token.boxes]

theorem sum_inner (M : Multiset Token) :
    (M.map (Token.inner x)).sum = ((M.bind Token.boxes).map (BoundingBox.inner x)).sum := by
  rw [Multiset.map_bind, Multiset.sum_bind]
  rfl

/-- Boxes of which no two have a point in their interiors. -/
theorem pairwise_of_sum_inner : ∀ {bs : List BoundingBox}, (∀ x, (bs.map (BoundingBox.inner x)).sum ≤ 1) →
    bs.Pairwise fun b b' => ∀ x, ¬ (Inside b.coords x ∧ Inside b'.coords x)
  | [], _ => .nil
  | b :: bs, h => by
    constructor
    · rintro b' hb' x ⟨h1, h2⟩
      have hle := List.single_le_sum (l := bs.map (BoundingBox.inner x)) (fun _ _ => Nat.zero_le _) _
        (List.mem_map_of_mem hb')
      have hx := h x
      rw [List.map_cons, List.sum_cons] at hx
      rw [BoundingBox.inner, if_pos h2] at hle
      rw [BoundingBox.inner, if_pos h1] at hx
      omega
    · refine pairwise_of_sum_inner fun x => ?_
      have hx := h x
      rw [List.map_cons, List.sum_cons] at hx
      omega

end

/-! ## Discarded boxes -/

/-- A box on its way out for good has been refuted: a negative solver has answered true on it. -/
def Token.Refuted (cfg : Config) : Token → Prop
  | .held b .refuted => ∃ i < cfg.shapes, cfg.neg i b.coords .yes
  | .gone b => ∃ i < cfg.shapes, cfg.neg i b.coords .yes
  | _ => True

theorem Rule.refuted {cfg : Config} {t : Token} {ts : Multiset Token} (h : Rule cfg t ts) (ht : t.Refuted cfg) :
    ∀ t' ∈ ts, t'.Refuted cfg := by
  cases h with
  | process hp =>
    cases hp with
    | refute hi _ _ hneg => simpa [Token.Refuted] using ⟨_, hi, hneg⟩
    | _ => simp [Token.Refuted]
  | discard b => simpa [Token.Refuted] using ht
  | halve b n => simp [Token.Refuted]
  | _ => simp [Token.Refuted]

/-! ## Unclassified boxes -/

/-- A box that is not classified yet has confidence 0. -/
def Token.Unconfirmed : Token → Prop
  | .pending b => b.confidence = 0
  | .loose b => b.confidence = 0
  | .held _ .finished => True
  | .held b (.halved n) => b.confidence = 0 ∧ n.confidence = 0
  | .held b _ => b.confidence = 0
  | _ => True

theorem Config.confidence_half (cfg : Config) (b : BoundingBox) : (cfg.half b).confidence = b.confidence := by
  unfold Config.half; split <;> rfl

theorem Rule.unconfirmed {cfg : Config} {t : Token} {ts : Multiset Token} (h : Rule cfg t ts) (ht : t.Unconfirmed) :
    ∀ t' ∈ ts, t'.Unconfirmed := by
  cases h with
  | process hp =>
    cases hp with
    | divide _ hs =>
      obtain ⟨dir, c, hsplit⟩ := BoundingBox.split_isSplit hs
      have hb : _ = (0 : ℤ) := ht
      simp [Token.Unconfirmed, hsplit.this_eq, hsplit.new_eq, hb]
    | accept => simp [Token.Unconfirmed]
    | small => simp [Token.Unconfirmed]
    | _ => simpa [Token.Unconfirmed, BoundingBox.setState] using ht
  | halve b n =>
    have hb : b.confidence = 0 ∧ n.confidence = 0 := ht
    simp [Token.Unconfirmed, cfg.confidence_half, hb]
  | drop => simp
  | discard => simp [Token.Unconfirmed]
  | keep => simp [Token.Unconfirmed]
  | shelve => simp [Token.Unconfirmed]
  | rescore => simp [Token.Unconfirmed]
  | _ => simpa [Token.Unconfirmed] using ht

/-! ## Certified shapes -/

section

variable (p : ℕ → (ℕ → ℝ) → ℝ)

/-- The shapes marked in the state vector are non-negative on the box. -/
def BoundingBox.Certified (b : BoundingBox) : Prop := ∀ i, 0 < b.stateAt i → ∀ x, InBox b.coords x → 0 ≤ p i x

/-- While `found` is 2 the shapes visited so far are non-negative on the box. -/
def Stage.Certified (coords : Coords) : Stage → Prop
  | .visiting i .inside => ∀ j < i, ∀ x, InBox coords x → 0 ≤ p j x
  | .halved n => n.Certified p
  | _ => True

def Token.Certified : Token → Prop
  | .held b st => b.Certified p ∧ st.Certified p b.coords
  | .pending b => b.Certified p
  | .loose b => b.Certified p
  | .done b => b.Certified p
  | .gone b => b.Certified p

variable {p}

/-- A certificate holds on every part of the box. -/
theorem BoundingBox.Certified.mono {b b' : BoundingBox} (h : b.Certified p)
    (hs : ∀ i, 0 < b'.stateAt i → 0 < b.stateAt i) (hc : ∀ x, InBox b'.coords x → InBox b.coords x) :
    b'.Certified p := fun i hi x hx => h i (hs i hi) x (hc x hx)

theorem BoundingBox.Certified.half {b : BoundingBox} (h : b.Certified p) (cfg : Config) : (cfg.half b).Certified p :=
  h.mono (fun i hi => by simpa [stateAt, cfg.currStateVec_half] using hi) fun _ => cfg.inBox_of_half

theorem BoundingBox.Certified.recomputeConfidence {b : BoundingBox} (h : b.Certified p) :
    b.recomputeConfidence.Certified p := h.mono (fun i hi => by simpa [stateAt] using hi) fun x hx => by simpa using hx

theorem Token.Certified.boxes {t : Token} (h : t.Certified p) : ∀ b ∈ t.boxes, b.Certified p := by
  cases t with
  | held b st =>
    cases st with
    | halved n => simpa [Token.boxes, Token.Certified, Stage.Certified] using h
    | _ => simpa [Token.boxes] using h.1
  | _ => simpa [Token.boxes, Token.Certified] using h

theorem Process.certified {cfg : Config} (hpos : ∀ i c, cfg.pos i c .yes → ∀ x, InBox c x → 0 ≤ p i x)
    {b b' : BoundingBox} {st st' : Stage} (h : Process cfg b st b' st') (hb : (Token.held b st).Certified p) :
    (Token.held b' st').Certified p := by
  obtain ⟨hb, hst⟩ := hb
  cases h with
  | enter => exact ⟨hb, fun j hj => absurd hj (Nat.not_lt_zero j)⟩
  | @skip i found _ hs =>
    refine ⟨hb, ?_⟩
    cases found with
    | keep => trivial
    | inside =>
      intro j hj x hx
      rcases Nat.lt_succ_iff_lt_or_eq.1 hj with hj | rfl
      · exact hst j hj x hx
      · exact hb j hs x hx
  | @certify i found _ _ hyes =>
    constructor
    · intro j hj x hx
      rw [BoundingBox.stateAt_setState] at hj
      split at hj
      · rename_i hij
        exact hij.1 ▸ hpos i _ hyes x hx
      · exact hb j hj x hx
    · cases found with
      | keep => trivial
      | inside =>
        intro j hj x hx
        rcases Nat.lt_succ_iff_lt_or_eq.1 hj with hj | rfl
        · exact hst j hj x hx
        · exact hpos j _ hyes x hx
  | refute =>
    refine ⟨fun j hj x hx => ?_, trivial⟩
    rw [BoundingBox.stateAt_setState] at hj
    split at hj
    · exact absurd hj (by decide)
    · exact hb j hj x hx
  | small => exact ⟨hb.recomputeConfidence, trivial⟩
  | divide _ hs =>
    obtain ⟨dir, c, hsplit⟩ := BoundingBox.split_isSplit hs
    have hsub := hsplit.inBox_iff
    refine ⟨hb.mono ?_ fun x hx => (hsub x).2 (.inl hx), hb.mono ?_ fun x hx => (hsub x).2 (.inr hx)⟩
    · rw [hsplit.this_eq]; exact fun _ => id
    · rw [hsplit.new_eq]; exact fun _ => id
  | _ => exact ⟨hb, trivial⟩

/-- The rules pass certificates on. -/
theorem Rule.certified {cfg : Config} (hpos : ∀ i c, cfg.pos i c .yes → ∀ x, InBox c x → 0 ≤ p i x)
    {t : Token} {ts : Multiset Token} (h : Rule cfg t ts) (ht : t.Certified p) : ∀ t' ∈ ts, t'.Certified p := by
  cases h with
  | fetch b => simpa [Token.Certified, Stage.Certified] using ht
  | process hp => simpa using hp.certified hpos ht
  | timeout => simpa [Token.Certified, Stage.Certified] using ht.1
  | drop => simp
  | halve b n =>
    intro t' ht'
    rcases Multiset.mem_cons.1 ht' with rfl | ht'
    · exact ht.1.half cfg
    · rw [Multiset.mem_singleton.1 ht']
      exact BoundingBox.Certified.half ht.2 cfg
  | discard b => simpa [Token.Certified] using ht.1
  | keep b => simpa [Token.Certified] using ht.1
  | rescore b => simpa [Token.Certified] using BoundingBox.Certified.recomputeConfidence ht
  | _ => simpa [Token.Certified] using ht

end

end GridSolve.Grid
