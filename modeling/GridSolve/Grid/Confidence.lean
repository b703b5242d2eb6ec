/-
`fragmentation_intersection::recompute_confidence` (`approximation.hpp`), the pass over the list that
follows the threads: a box of confidence 0 is kept and confirmed if the query finds a solution in
it, and removed if not; the others are not looked at. A box has confidence 1 before the pass when
all shapes are certified on it, but also when it is small and one shape is not: what the pass leaves
contains solutions only as far as those boxes do.
-/
import GridSolve.Core.Smt
import GridSolve.Grid.Sequential

namespace GridSolve.Grid

open MvPolynomial GridSolve.Rewriting GridSolve.Poly GridSolve.Core

/-! ## The pass -/

section

variable (query : ℕ → Coords → Bool)

/-- The loop, `calls` the number of queries made so far. Every turn goes on to the next node. -/
def recomputeFrom : ℕ → Option ℕ → ℕ → Ll → Ll
  | 0, _, _, frags => frags
  | _ + 1, none, _, frags => frags
  | fuel + 1, some curr, calls, frags =>
    if (frags.box curr).confidence = 0 then
      if query calls (frags.box curr).coords then
        recomputeFrom fuel (frags.next curr) (calls + 1) (frags.setBox curr (frags.box curr).confirm)
      else recomputeFrom fuel (frags.remove curr).1 (calls + 1) (frags.remove curr).2
    else recomputeFrom fuel (frags.next curr) calls frags

/-- `recompute_confidence`, with the answers of `make_smt_query`. -/
def recomputeConfidence (frags : Ll) : Ll := recomputeFrom query frags.fresh frags.head 0 frags

/-- The pass over a sequence of boxes. -/
def recheck : ℕ → List BoundingBox → List BoundingBox
  | _, [] => []
  | calls, b :: bs =>
    if b.confidence = 0 then
      if query calls b.coords then b.confirm :: recheck (calls + 1) bs else recheck (calls + 1) bs
    else b :: recheck calls bs

variable {query}

theorem boxes_recomputeFrom : ∀ (fuel : ℕ) (post : List ℕ) {pre : List ℕ} {l : Ll} {calls : ℕ}, l.Holds (pre ++ post) →
    post.length ≤ fuel → (recomputeFrom query fuel post.head? calls l).boxes =
      pre.map l.box ++ recheck query calls (post.map l.box)
  | 0, [], pre, l, calls, h, _ => by simpa [recomputeFrom, recheck] using h.boxes_eq
  | fuel + 1, [], pre, l, calls, h, _ => by simpa [recomputeFrom, recheck] using h.boxes_eq
  | fuel + 1, n :: post, pre, l, calls, h, hlen => by
    have hlen' : post.length ≤ fuel := Nat.le_of_succ_le_succ hlen
    have hnext := h.next_eq
    have hcut : l.Holds ((pre ++ [n]) ++ post) := by simpa using h
    rw [List.head?_cons, recomputeFrom, List.map_cons, recheck]
    by_cases hconf : (l.box n).confidence = 0
    · rw [if_pos hconf, if_pos hconf]
      by_cases hq : query calls (l.box n).coords = true
      · -- The box of this node changes, the others do not.
        have hother : ∀ p ∈ pre ++ post, (l.setBox n (l.box n).confirm).box p = l.box p := by
          intro p hp
          rw [Ll.box_setBox, if_neg (fun he : p = n => h.not_mem (he ▸ hp))]
        rw [if_pos hq, if_pos hq, hnext, boxes_recomputeFrom fuel post (hcut.setBox n _) hlen']
        rw [List.map_append, List.map_congr_left fun p hp => hother p (List.mem_append_left _ hp),
          List.map_congr_left fun p hp => hother p (List.mem_append_right _ hp)]
        simp
      · obtain ⟨h1, h2⟩ := h.remove
        rw [if_neg hq, if_neg hq, h1, boxes_recomputeFrom fuel post h2 hlen', funext (Ll.box_remove l n)]
    · rw [if_neg hconf, if_neg hconf, hnext, boxes_recomputeFrom fuel post hcut hlen']
      simp

/-- The pass over the list is the pass over its boxes. -/
theorem boxes_recomputeConfidence {l : Ll} (h : l.Holds l.nodes) :
    (recomputeConfidence query l).boxes = recheck query 0 l.boxes := by
  rw [recomputeConfidence, h.head_eq, boxes_recomputeFrom l.fresh l.nodes (show l.Holds ([] ++ l.nodes) from h)
    h.length_le]
  rfl

/-- What the pass leaves: the boxes it has not looked at, and those in which the query has found a
solution. -/
theorem mem_recheck : ∀ {bs : List BoundingBox} {calls : ℕ} {b' : BoundingBox}, b' ∈ recheck query calls bs →
    ∃ b ∈ bs, b'.coords = b.coords ∧ (b.confidence ≠ 0 ∨ ∃ k, query k b.coords = true)
  | b :: bs, calls, b', h => by
    have hrest : ∀ {k}, b' ∈ recheck query k bs →
        ∃ c ∈ b :: bs, b'.coords = c.coords ∧ (c.confidence ≠ 0 ∨ ∃ k, query k c.coords = true) := by
      intro k h
      obtain ⟨c, hc, hres⟩ := mem_recheck h
      exact ⟨c, List.mem_cons_of_mem b hc, hres⟩
    rw [recheck] at h
    split_ifs at h with hconf hq
    · rcases List.mem_cons.1 h with rfl | h
      · exact ⟨b, List.mem_cons_self, rfl, .inr ⟨calls, hq⟩⟩
      · exact hrest h
    · exact hrest h
    · rcases List.mem_cons.1 h with rfl | h
      · exact ⟨b', List.mem_cons_self, rfl, .inl hconf⟩
      · exact hrest h

/-- A box stays if its confidence is not 0 or the query always finds a solution in it. -/
theorem recheck_keeps : ∀ (calls : ℕ) {bs : List BoundingBox} {b : BoundingBox}, b ∈ bs →
    (b.confidence = 0 → ∀ k, query k b.coords = true) → ∃ b' ∈ recheck query calls bs, b'.coords = b.coords
  | calls, c :: bs, b, h, hb => by
    rw [recheck]
    rcases List.mem_cons.1 h with rfl | h
    · by_cases hconf : b.confidence = 0
      · rw [if_pos hconf, if_pos (hb hconf calls)]
        exact ⟨_, List.mem_cons_self, rfl⟩
      · rw [if_neg hconf]
        exact ⟨b, List.mem_cons_self, rfl⟩
    · have hrest := fun k => recheck_keeps k h hb
      split_ifs with hconf hq
      · obtain ⟨b', hb', hres⟩ := hrest (calls + 1)
        exact ⟨b', List.mem_cons_of_mem _ hb', hres⟩
      · exact hrest (calls + 1)
      · obtain ⟨b', hb', hres⟩ := hrest calls
        exact ⟨b', List.mem_cons_of_mem _ hb', hres⟩

end

/-! ## Confidence and certificates -/

theorem sum_le_length : ∀ {vs : List ℤ}, (∀ v ∈ vs, v = 0 ∨ v = 1) → vs.sum ≤ vs.length
  | [], _ => le_refl _
  | v :: vs, h => by
    rw [List.forall_mem_cons] at h
    have := sum_le_length h.2
    rw [List.sum_cons, List.length_cons]
    push_cast
    rcases h.1 with rfl | rfl <;> omega

theorem sum_lt_length : ∀ {vs : List ℤ} {i : ℕ}, (∀ v ∈ vs, v = 0 ∨ v = 1) → vs[i]? = some 0 → vs.sum < vs.length
  | v :: vs, 0, h, hi => by
    rw [List.forall_mem_cons] at h
    have := sum_le_length h.2
    obtain rfl : v = 0 := by simpa using hi
    rw [List.sum_cons, List.length_cons]
    push_cast
    omega
  | v :: vs, i + 1, h, hi => by
    rw [List.forall_mem_cons] at h
    have := sum_lt_length h.2 (by simpa using hi)
    rw [List.sum_cons, List.length_cons]
    push_cast
    rcases h.1 with rfl | rfl <;> omega

/-- With two marks missing the sum does not reach the length minus one. -/
theorem sum_lt_of_two : ∀ {vs : List ℤ} {i j : ℕ}, (∀ v ∈ vs, v = 0 ∨ v = 1) → i < j → vs[i]? = some 0 →
    vs[j]? = some 0 → vs.sum < vs.length - 1
  | v :: vs, 0, j + 1, h, _, hi, hj => by
    rw [List.forall_mem_cons] at h
    have := sum_lt_length h.2 (by simpa using hj)
    obtain rfl : v = 0 := by simpa using hi
    rw [List.sum_cons, List.length_cons]
    push_cast
    omega
  | v :: vs, i + 1, j + 1, h, hij, hi, hj => by
    rw [List.forall_mem_cons] at h
    have := sum_lt_of_two h.2 (Nat.lt_of_succ_lt_succ hij) (by simpa using hi) (by simpa using hj)
    rw [List.sum_cons, List.length_cons]
    push_cast
    rcases h.1 with rfl | rfl <;> omega

namespace BoundingBox

variable {k : ℕ} {b : BoundingBox}

/-- The state vector has a 0 or a 1 for every shape. -/
def Marked (k : ℕ) (b : BoundingBox) : Prop := b.currStateVec.length = k ∧ ∀ v ∈ b.currStateVec, v = 0 ∨ v = 1

/-- At most one shape is not certified. -/
def AllButOne (k : ℕ) (b : BoundingBox) : Prop := ∀ i < k, ∀ j < k, b.stateAt i ≠ 1 → b.stateAt j ≠ 1 → i = j

/-- A box that is finished: it has a point, and if it is confirmed then at most one shape is not certified. -/
def Settled (k : ℕ) (b : BoundingBox) : Prop := b.notValid = false ∧ (b.confidence ≠ 0 → b.AllButOne k)

theorem Marked.getElem? (h : b.Marked k) {i : ℕ} (hi : i < k) (hne : b.stateAt i ≠ 1) :
    b.currStateVec[i]? = some 0 := by
  have hlt : i < b.currStateVec.length := by rwa [h.1]
  rw [stateAt, List.getD_eq_getElem?_getD, List.getElem?_eq_getElem hlt, Option.getD_some] at hne
  rw [List.getElem?_eq_getElem hlt, (h.2 _ (List.getElem_mem hlt)).resolve_right hne]

theorem Marked.set (h : b.Marked k) (i : ℕ) : (b.setState i 1).Marked k := by
  refine ⟨by simpa [setState] using h.1, fun v hv => ?_⟩
  rcases List.mem_or_eq_of_mem_set hv with hv | rfl
  · exact h.2 v hv
  · exact .inr rfl

theorem Marked.eq_one (h : b.Marked k) {i : ℕ} (hi : i < k) (hpos : 0 < b.stateAt i) : b.stateAt i = 1 := by
  by_contra hne
  rw [stateAt, List.getD_eq_getElem?_getD, h.getElem? hi hne] at hpos
  exact absurd hpos (lt_irrefl 0)

/-- The marks up to a shape that is skipped or certified. -/
theorem forall_lt_succ_marked {i : ℕ} (hall : ∀ j < i, b.stateAt j = 1) (hi : b.stateAt i = 1) :
    ∀ j < i + 1, b.stateAt j = 1 := by
  intro j hj
  rcases Nat.lt_succ_iff_lt_or_eq.1 hj with hj | rfl
  · exact hall j hj
  · exact hi

theorem Marked.certify (h : b.Marked k) {i : ℕ} (hi : i < k) (hall : ∀ j < i, b.stateAt j = 1) :
    ∀ j < i + 1, (b.setState i 1).stateAt j = 1 := by
  refine forall_lt_succ_marked (fun j hj => ?_) ?_
  · rw [stateAt_setState, if_neg fun h => hj.ne' h.1]
    exact hall j hj
  · rw [stateAt_setState, if_pos ⟨rfl, by rwa [h.1]⟩]

/-- What `recompute_confidence` confirms has at most one shape that is not certified. -/
theorem Marked.recomputeConfidence (h : b.Marked k) (hk : k ≤ 18446744073709551616) (hconf : b.confidence = 0)
    (hne : b.recomputeConfidence.confidence ≠ 0) : b.AllButOne k := by
  unfold BoundingBox.recomputeConfidence at hne
  split_ifs at hne with hsum
  · have hlt : ∀ i j, i < j → i < k → j < k → b.stateAt i ≠ 1 → b.stateAt j ≠ 1 → False := by
      intro i j hij hi hj h1 h2
      have := sum_lt_of_two h.2 hij (h.getElem? hi h1) (h.getElem? hj h2)
      have hlen := h.1
      have hnonneg : 0 ≤ b.currStateVec.sum := List.sum_nonneg fun v hv => by rcases h.2 v hv with rfl | rfl <;> decide
      omega
    intro i hi j hj h1 h2
    rcases lt_trichotomy i j with hij | hij | hij
    · exact (hlt i j hij hi hj h1 h2).elim
    · exact hij
    · exact (hlt j i hij hj hi h2 h1).elim
  · exact absurd hconf hne

end BoundingBox

/-- The marks of an item in integer mode. While `found` is 2 all shapes visited so far are marked. -/
def Token.Scored (k : ℕ) : Token → Prop
  | .pending b => b.Marked k
  | .held b .taken => b.Marked k
  | .held b (.visiting i found) => b.Marked k ∧ b.notValid = false ∧ (found = .inside → ∀ j < i, b.stateAt j = 1)
  | .held _ .refuted => True
  | .held _ .invalid => True
  | .held b .settle => b.Marked k ∧ b.notValid = false
  | .held b .finished => b.Settled k
  | .held b (.halved n) => b.Marked k ∧ n.Marked k
  | .loose b => b.Marked k
  | .done b => b.Settled k
  | .gone _ => True

theorem Process.scored {cfg : Config} (hint : cfg.integer = true) (hk : cfg.shapes ≤ 18446744073709551616)
    {b b' : BoundingBox} {st st' : Stage} (h : Process cfg b st b' st') (hs : (Token.held b st).Scored cfg.shapes)
    (hu : (Token.held b st).Unconfirmed) : (Token.held b' st').Scored cfg.shapes := by
  cases h with
  | invalid => trivial
  | enter hv => exact ⟨hs, hv hint, fun _ j hj => absurd hj (Nat.not_lt_zero j)⟩
  | skip hi hpos => exact ⟨hs.1, hs.2.1, fun hf => BoundingBox.forall_lt_succ_marked (hs.2.2 hf) (hs.1.eq_one hi hpos)⟩
  | certify hi _ _ => exact ⟨hs.1.set _, hs.2.1, fun hf => hs.1.certify hi (hs.2.2 hf)⟩
  | refute => trivial
  | inconclusive => exact ⟨hs.1, hs.2.1, fun h => by cases h⟩
  | accept => exact ⟨hs.2.1, fun _ i hi j _ h1 _ => absurd (hs.2.2 rfl i hi) h1⟩
  | undecided => exact ⟨hs.1, hs.2.1⟩
  | small =>
    refine ⟨by simpa [BoundingBox.notValid] using hs.2, fun hne => ?_⟩
    simpa [BoundingBox.AllButOne, BoundingBox.stateAt] using hs.1.recomputeConfidence hk hu hne
  | divide _ hsp =>
    obtain ⟨dir, c, hsplit⟩ := BoundingBox.split_isSplit hsp
    rw [hsplit.this_eq, hsplit.new_eq]
    exact ⟨hs.1, hs.1⟩

theorem Rule.scored {cfg : Config} (hint : cfg.integer = true) (hk : cfg.shapes ≤ 18446744073709551616)
    {t : Token} {ts : Multiset Token} (h : Rule cfg t ts) (ht : t.Scored cfg.shapes) (hu : t.Unconfirmed) :
    ∀ t' ∈ ts, t'.Scored cfg.shapes := by
  cases h with
  | process hp => simpa using hp.scored hint hk ht hu
  | timeout =>
    intro t' ht'
    rw [Multiset.mem_singleton.1 ht']
    exact ⟨ht.1, ht.2.1⟩
  | drop => simp
  | discard => simp [Token.Scored]
  | halve b n =>
    have hhalf : ∀ e : BoundingBox, e.Marked cfg.shapes → (cfg.half e).Marked cfg.shapes := fun e he => by
      rwa [BoundingBox.Marked, cfg.currStateVec_half]
    simpa [Token.Scored] using ⟨hhalf b ht.1, hhalf n ht.2⟩
  | shelve _ hreal => rw [hint] at hreal; cases hreal
  | rescore _ hreal => rw [hint] at hreal; cases hreal
  | _ => simpa [Token.Scored] using ht

/-! ## Solutions -/

/-- The box contains a point at which all polynomials are non-negative. -/
def HasSolution (eCheck : List Multinomial) (coords : Coords) : Prop :=
  ∃ x, InBox coords x ∧ ∀ p ∈ eCheck, 0 ≤ aeval x p.toMv

/-- The polynomial of shape `i`. -/
noncomputable def shapeValue (eCheck : List Multinomial) (i : ℕ) (x : ℕ → ℝ) : ℝ :=
  aeval x (eCheck.getD i (.const true 0)).toMv

theorem forall_shapeValue {eCheck : List Multinomial} {x : ℕ → ℝ} :
    (∀ i < eCheck.length, 0 ≤ shapeValue eCheck i x) ↔ ∀ p ∈ eCheck, 0 ≤ aeval x p.toMv := by
  rw [List.forall_mem_iff_getElem]
  refine forall₂_congr fun i hi => ?_
  rw [shapeValue, List.getD_eq_getElem?_getD, List.getElem?_eq_getElem hi, Option.getD_some]

section

variable {cfg : Config} {eCheck : List Multinomial}

/-- What holds of the boxes that the threads leave. -/
theorem Reaches.settled (hint : cfg.integer = true) (hk : cfg.shapes ≤ 18446744073709551616)
    (hpos : ∀ i c, cfg.pos i c .yes → ∀ x, InBox c x → 0 ≤ shapeValue eCheck i x) {acoords : Coords} {nThreads : ℕ}
    (hn : 0 < nThreads) {s : State} (hrun : Reaches cfg (init (initialList acoords cfg.shapes) nThreads) s)
    (hfin : s.Finished) :
    ∀ b ∈ s.shared.frags.boxes, b.Settled cfg.shapes ∧ b.Certified (shapeValue eCheck) := by
  obtain ⟨-, -, hruns⟩ := hrun.final (Ll.holds_new _) hn hfin
  have hinv := hruns.forall_mem
    (P := fun t => t.Scored cfg.shapes ∧ t.Unconfirmed ∧ t.Certified (shapeValue eCheck))
    (fun t ts hr ht t' ht' => ⟨hr.scored hint hk ht.1 ht.2.1 t' ht', hr.unconfirmed ht.2.1 t' ht',
      hr.certified hpos ht.2.2 t' ht'⟩)
    (forall_initial ⟨⟨List.length_replicate, fun v hv => .inl (List.eq_of_mem_replicate hv)⟩, rfl,
      certified_initial _ acoords cfg.shapes⟩)
  intro b hb
  have hdone : Token.done b ∈ ((s.shared.frags.boxes.map Token.done : List Token) : Multiset Token) +
      (s.shared.gone.map Token.gone : List Token) :=
    Multiset.mem_add.2 (.inl (Multiset.mem_coe.2 (List.mem_map_of_mem hb)))
  obtain ⟨h1, -, h3⟩ := hinv _ hdone
  exact ⟨h1, h3⟩

/-- A box that is settled and certified, with its one shape that may not be certified. -/
theorem BoundingBox.Settled.hasSolution {b : BoundingBox} (hb : b.Settled eCheck.length)
    (hc : b.Certified (shapeValue eCheck)) (hconf : b.confidence ≠ 0)
    (hone : ∀ i < eCheck.length, b.stateAt i ≠ 1 → ∃ x, InBox b.coords x ∧ 0 ≤ shapeValue eCheck i x) :
    HasSolution eCheck b.coords := by
  -- A point for the shape that is not certified, if there is one, and any point otherwise.
  by_cases hall : ∀ i < eCheck.length, b.stateAt i = 1
  · obtain ⟨x, hx⟩ := exists_inBox_of_valid hb.1
    exact ⟨x, hx, forall_shapeValue.1 fun i hi => hc i (by rw [hall i hi]; exact zero_lt_one) x hx⟩
  · push Not at hall
    obtain ⟨i, hi, hne⟩ := hall
    obtain ⟨x, hx, hval⟩ := hone i hi hne
    refine ⟨x, hx, forall_shapeValue.1 fun j hj => ?_⟩
    by_cases hj1 : b.stateAt j = 1
    · exact hc j (by rw [hj1]; exact zero_lt_one) x hx
    · exact hb.2 hconf i hi j hj hne hj1 ▸ hval

/-- Every box that is left after the pass contains a solution exactly when every confirmed box
contains, for the shape that is not certified on it, if there is one, a point at which that shape is
non-negative. -/
theorem reported_boxes_iff (hint : cfg.integer = true) (hshapes : cfg.shapes = eCheck.length)
    (hk : eCheck.length ≤ 18446744073709551616)
    (hpos : ∀ i c, cfg.pos i c .yes → ∀ x, InBox c x → 0 ≤ shapeValue eCheck i x)
    {check : ℕ → List Term → CheckResult} (hcheck : CheckSound check) (hpoly : ∀ p ∈ eCheck, printsExactly p = true)
    {acoords : Coords} {nThreads : ℕ} (hn : 0 < nThreads) {s : State}
    (hrun : Reaches cfg (init (initialList acoords cfg.shapes) nThreads) s) (hfin : s.Finished)
    (hexact : ∀ b ∈ s.shared.frags.boxes, BoundsExact b.coords) :
    (∀ b ∈ (recomputeConfidence (smtQuery check eCheck) s.shared.frags).boxes, HasSolution eCheck b.coords) ↔
      ∀ b ∈ s.shared.frags.boxes, b.confidence ≠ 0 → ∀ i < eCheck.length, b.stateAt i ≠ 1 →
        ∃ x, InBox b.coords x ∧ 0 ≤ shapeValue eCheck i x := by
  obtain ⟨-, hholds, -⟩ := hrun.final (Ll.holds_new _) hn hfin
  have hsettled := hrun.settled hint (hshapes ▸ hk) hpos hn hfin
  rw [hshapes] at hsettled
  rw [boxes_recomputeConfidence hholds]
  constructor
  · intro h b hb hconf i hi _
    obtain ⟨b', hb', hcoords⟩ := recheck_keeps 0 hb fun h0 => absurd h0 hconf
    obtain ⟨x, hx, hsol⟩ := h b' hb'
    exact ⟨x, hcoords ▸ hx, forall_shapeValue.2 hsol i hi⟩
  · intro h b' hb'
    obtain ⟨b, hb, hcoords, hconf | ⟨k, hq⟩⟩ := mem_recheck hb'
    · rw [hcoords]
      exact (hsettled b hb).1.hasSolution (hsettled b hb).2 hconf (h b hb hconf)
    · rw [hcoords]
      exact solution_of_smtQuery hcheck (hexact b hb) hpoly hq

end

/-- A z3 that never decides anything. -/
def undecidedCheck : ℕ → List Term → CheckResult := fun _ _ => .unknown

theorem undecidedCheck_sound : CheckSound undecidedCheck := ⟨nofun, nofun⟩

theorem Decided.unsure_never (i : ℕ) (c : Coords) : ¬ unsure.config.pos i c .yes ∧ ¬ unsure.config.neg i c .yes :=
  ⟨fun h => Bool.false_ne_true (pos_yes.1 h), fun h => Bool.false_ne_true (neg_yes.1 h)⟩

/-- The first coordinate is non-negative on both points of the interval from 0 to 1, on which it is
not certified. -/
theorem reported_boxes_iff_turns :
    ∃ s, Reaches Decided.unsure.config (init (initialList [(0, 1)] 1) 2) s ∧ s.Finished ∧
      ∀ b ∈ (recomputeConfidence (smtQuery undecidedCheck [.var ⟨0, false⟩ true]) s.shared.frags).boxes,
        HasSolution [.var ⟨0, false⟩ true] b.coords := by
  have hstate : (Decided.unsure.run turns (init (initialList [(0, 1)] 1) 2)).map
      (fun s => (s.threads, s.shared.frags.boxes)) =
      some ([.returned, .returned], [⟨[(1, 1)], [0], 1⟩, ⟨[(0, 0)], [0], 1⟩]) := by decide +kernel
  obtain ⟨s, hs, he⟩ := Option.map_eq_some_iff.1 hstate
  rw [Prod.mk.injEq] at he
  have hfin : s.Finished := by
    intro pc hpc
    rw [he.1] at hpc
    simpa using hpc
  refine ⟨s, Decided.run_reaches _ hs, hfin, ?_⟩
  apply (reported_boxes_iff rfl rfl (by decide) (fun i c h => absurd h (Decided.unsure_never i c).1)
    undecidedCheck_sound (by decide +kernel) (by decide) (Decided.run_reaches _ hs) hfin ?_).2
  · have hval : ∀ (i : ℕ) (x : ℕ → ℝ), i < 1 → shapeValue [.var ⟨0, false⟩ true] i x = x 0 := by
      intro i x hi
      obtain rfl : i = 0 := by omega
      simp [shapeValue, Multinomial.var, Multinomial.toMv_node, Multinomial.toMvMp]
    rw [he.2]
    simp only [List.forall_mem_cons]
    refine ⟨fun _ i hi _ => ⟨fun _ => 1, inBox_singleton.2 (by norm_num), ?_⟩,
      fun _ i hi _ => ⟨fun _ => 0, inBox_singleton.2 (by norm_num), ?_⟩, List.forall_mem_nil _⟩
    · exact (hval i _ hi).symm ▸ zero_le_one
    · exact (hval i _ hi).symm ▸ le_refl 0
  · rw [he.2]
    simp only [List.forall_mem_cons, BoundsExact]
    decide +kernel

/-- A small box on which a negative constant is the only shape, and not refuted, is reported. -/
theorem reported_box_without_solution :
    ∃ s, Reaches Decided.unsure.config (init (initialList [(0, 0)] 1) 1) s ∧ s.Finished ∧
      (∀ i c, ¬ Decided.unsure.config.pos i c .yes ∧ ¬ Decided.unsure.config.neg i c .yes) ∧
      CheckSound undecidedCheck ∧
      (recomputeConfidence (smtQuery undecidedCheck [.const true (-1)]) s.shared.frags).boxes =
        [⟨[(0, 0)], [0], 1⟩] ∧
      ¬ HasSolution [.const true (-1)] [(0, 0)] := by
  have hstate : (Decided.unsure.run (List.replicate 7 0) (init (initialList [(0, 0)] 1) 1)).map
      (fun s => (s.threads, (recomputeConfidence (smtQuery undecidedCheck [.const true (-1)]) s.shared.frags).boxes)) =
      some ([.returned], [⟨[(0, 0)], [0], 1⟩]) := by decide +kernel
  obtain ⟨s, hs, he⟩ := Option.map_eq_some_iff.1 hstate
  rw [Prod.mk.injEq] at he
  refine ⟨s, Decided.run_reaches _ hs, ?_, Decided.unsure_never, undecidedCheck_sound, he.2, ?_⟩
  · intro pc hpc
    rw [he.1] at hpc
    simpa using hpc
  · rintro ⟨x, -, hx⟩
    have := hx _ List.mem_cons_self
    norm_num at this

end GridSolve.Grid
