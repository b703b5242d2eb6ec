/-
The refinement on boxes of one point. One of the two solvers of a constraint accepts such a box, so
the integer refinement decides all of them.
-/
import GridSolve.Grid.Pipeline

namespace GridSolve.Grid

open MvPolynomial GridSolve.Rewriting GridSolve.Poly GridSolve.Core GridSolve.Core.Handelman
open GridSolve.Poly.Multinomial (WF)

/-! ## What is left of the refinement -/

/-- The loop over the shapes has found every shape certified. -/
def BoundingBox.Accepted (k : ℕ) (b : BoundingBox) : Prop := b.confidence = 1 ∧ ∀ i < k, b.stateAt i = 1

/-- What came out of the loop and was too small to be divided. -/
def BoundingBox.Small (cfg : Config) (P : Coords → Prop) (b : BoundingBox) : Prop :=
  ¬ P b.coords ∧ b.notValid = false ∧ b.norm < cfg.volLimit

/-- A box with the property `P` does not come out of the loop undecided. -/
def Token.Outcome (cfg : Config) (P : Coords → Prop) : Token → Prop
  | .pending b => b.Marked cfg.shapes
  | .loose b => b.Marked cfg.shapes
  | .held b .taken => b.Marked cfg.shapes
  | .held b (.visiting i .inside) => b.Marked cfg.shapes ∧ b.notValid = false ∧ ∀ j < i, b.stateAt j = 1
  | .held b (.visiting _ .keep) => b.Marked cfg.shapes ∧ b.notValid = false ∧ ¬ P b.coords
  | .held b .settle => b.Marked cfg.shapes ∧ b.notValid = false ∧ ¬ P b.coords
  | .held b .finished => b.Accepted cfg.shapes ∨ b.Small cfg P
  | .held b (.halved n) => b.Marked cfg.shapes ∧ n.Marked cfg.shapes
  | .held _ .refuted => True
  | .held _ .invalid => True
  | .done b => b.Accepted cfg.shapes ∨ b.Small cfg P
  | .gone _ => True

section

variable {cfg : Config} {P : Coords → Prop}

theorem Process.outcome (hint : cfg.integer = true)
    (hP : ∀ c, P c → ∀ i < cfg.shapes, cfg.pos i c .no → ¬ cfg.neg i c .no) {b b' : BoundingBox} {st st' : Stage}
    (h : Process cfg b st b' st') (ho : (Token.held b st).Outcome cfg P) : (Token.held b' st').Outcome cfg P := by
  cases h with
  | invalid => trivial
  | enter hv => exact ⟨ho, hv hint, fun j hj => absurd hj (Nat.not_lt_zero j)⟩
  | @skip i found hi hpos =>
    cases found with
    | inside => exact ⟨ho.1, ho.2.1, BoundingBox.forall_lt_succ_marked ho.2.2 (ho.1.eq_one hi hpos)⟩
    | keep => exact ho
  | @certify i found hi =>
    cases found with
    | inside => exact ⟨ho.1.set i, ho.2.1, ho.1.certify hi ho.2.2⟩
    | keep => exact ⟨ho.1.set i, ho.2⟩
  | refute => trivial
  | @inconclusive i found hi _ hpos hneg =>
    have hnot : ¬ P b.coords := fun hp => hP _ hp _ hi hpos hneg
    cases found <;> exact ⟨ho.1, ho.2.1, hnot⟩
  | accept => exact .inl ⟨rfl, ho.2.2⟩
  | undecided => exact ho
  | small hnorm =>
    refine .inr ⟨?_, ?_, ?_⟩
    · simpa using ho.2.2
    · simpa [BoundingBox.notValid] using ho.2.1
    · simpa [BoundingBox.norm] using hnorm
  | divide _ hsp =>
    obtain ⟨dir, c, hsplit⟩ := BoundingBox.split_isSplit hsp
    rw [hsplit.this_eq, hsplit.new_eq]
    exact ⟨ho.1, ho.1⟩

theorem Rule.outcome (hint : cfg.integer = true) (hnot : ∀ i c, ¬ cfg.Interrupted i c)
    (hP : ∀ c, P c → ∀ i < cfg.shapes, cfg.pos i c .no → ¬ cfg.neg i c .no) {t : Token} {ts : Multiset Token}
    (h : Rule cfg t ts) (ho : t.Outcome cfg P) : ∀ t' ∈ ts, t'.Outcome cfg P := by
  cases h with
  | process hp => simpa using hp.outcome hint hP ho
  | timeout h => exact absurd h (hnot _ _)
  | drop => simp
  | discard => simp [Token.Outcome]
  | halve b n =>
    have hhalf : ∀ e : BoundingBox, e.Marked cfg.shapes → (cfg.half e).Marked cfg.shapes := fun e he => by
      rwa [BoundingBox.Marked, cfg.currStateVec_half]
    simpa [Token.Outcome] using ⟨hhalf b ho.1, hhalf n ho.2⟩
  | shelve _ hreal => rw [hint] at hreal; cases hreal
  | rescore _ hreal => rw [hint] at hreal; cases hreal
  | _ => simpa [Token.Outcome] using ho

/-- Every rule keeps the dimension. -/
theorem Rule.sized {n : ℕ} {t : Token} {ts : Multiset Token} (h : Rule cfg t ts)
    (ht : ∀ b ∈ t.boxes, b.coords.length = n) : ∀ t' ∈ ts, ∀ b ∈ t'.boxes, b.coords.length = n := by
  cases h with
  | process hp =>
    cases hp with
    | divide _ hsp =>
      obtain ⟨dir, c, hsplit⟩ := BoundingBox.split_isSplit hsp
      rw [hsplit.this_eq, hsplit.new_eq]
      simpa [Token.boxes] using ht
    | _ => simpa [Token.boxes] using ht
  | drop => simp
  | halve b m =>
    have hhalf : ∀ e : BoundingBox, (cfg.half e).coords.length = e.coords.length := fun e => by
      unfold Config.half
      split_ifs
      · simp [BoundingBox.round]
      · rfl
    simpa [Token.boxes, hhalf] using ht
  | _ => simpa [Token.boxes] using ht

end

theorem foldl_max_ge : ∀ (cs : Coords) (a : ℚ), a ≤ cs.foldl (fun ans c => max ans (c.2 - c.1)) a ∧
    ∀ c ∈ cs, c.2 - c.1 ≤ cs.foldl (fun ans c => max ans (c.2 - c.1)) a
  | [], a => ⟨le_rfl, by simp⟩
  | e :: cs, a => by
    obtain ⟨h1, h2⟩ := foldl_max_ge cs (max a (e.2 - e.1))
    refine ⟨(le_max_left _ _).trans h1, List.forall_mem_cons.2 ⟨(le_max_right _ _).trans h1, h2⟩⟩

/-- Integer corners and no side as long as 1: the box is a point. -/
theorem isPoint_of_norm_lt {b : BoundingBox} (hint : IntCoords b.coords) (hvalid : b.notValid = false)
    (hnorm : b.norm < 1) : IsPoint b.coords := by
  intro c hc
  obtain ⟨l, r, rfl⟩ := hint c hc
  have hside := (foldl_max_ge b.coords (-1)).2 _ hc
  have hle : ¬ ((r : ℚ) < l) := by
    simpa using List.any_eq_false.1 hvalid _ hc
  have hlt : (r : ℚ) - l < 1 := hside.trans_lt hnorm
  have h1 : l ≤ r := by exact_mod_cast not_lt.1 hle
  have h2 : r - l < 1 := by exact_mod_cast hlt
  rw [show l = r by omega]

/-- **Boxes of one point are decided.** On a point the two solvers of a constraint answer with the sign
of its polynomial there. So a complete run leaves no point undecided, and with integer corners and a
limit of at most 1 no box at all. -/
theorem point_boxes_decided {w w' : World} {n : ℕ} {lo hi : ℕ → ℕ} (hs : BoxSetup w n lo hi) {grb : LP → Bool}
    (hgrb : ∀ lp, grb lp = true ↔ lp.Feasible) {idMap : ℕ → ℕ → ℕ} (hid : NamesBounds idMap n lo hi)
    {cs : List (Multinomial × ℤ)} {fuel : ℕ} (hcs : ∀ c ∈ cs, WF (InProg n) 0 c.1 ∧ WithinDegree n lo hi fuel c)
    {sols : List (Solver × Solver)}
    (hok : buildSolvers n lo hi fuel cs w = .ok (sols, w')) :
    List.Forall₂ (fun c sol => SolversDecide grb idMap n c.1 sol) cs sols ∧
      ∀ (acoords : Coords) (volLimit : ℚ) (nThreads : ℕ) (s : State), acoords.length = n → 0 < nThreads →
        Reaches (solverAnswers grb sols w'.v.varArr.length idMap volLimit).config
          (init (initialList acoords sols.length) nThreads) s → s.Finished →
        ∀ b ∈ s.shared.frags.boxes, (IsPoint b.coords ∨ IntCoords acoords ∧ volLimit ≤ 1) → b.Accepted sols.length := by
  have hdecide := buildSolvers_decide hgrb hid hs hcs hok
  refine ⟨hdecide, fun acoords volLimit nThreads s hlen hn hrun hfin b hb hwhich => ?_⟩
  -- One of the two answers on a point is true.
  have hP : ∀ c, (c.length = n ∧ IsPoint c) → ∀ i < sols.length,
      (solverAnswers grb sols w'.v.varArr.length idMap volLimit).config.pos i c .no →
      ¬ (solverAnswers grb sols w'.v.varArr.length idMap volLimit).config.neg i c .no := by
    rintro c ⟨hc, hpoint⟩ i hi hpos hneg
    obtain ⟨h1, h2⟩ := hdecide.get (hdecide.length_eq ▸ hi) hi w'.v.varArr.length c hc hpoint
    rw [Decided.pos_no] at hpos
    rw [Decided.neg_no] at hneg
    simp only [solverAnswers, List.getElem?_eq_getElem hi, Option.any_some] at hpos hneg
    have hlt := not_le.1 fun h => Bool.false_ne_true (hpos.symm.trans (h1.2 h))
    exact Bool.false_ne_true (hneg.symm.trans (h2.2 hlt.le))
  obtain ⟨-, -, hruns⟩ := hrun.final (Ll.holds_new _) hn hfin
  have hdone : Token.done b ∈ ((s.shared.frags.boxes.map Token.done : List Token) : Multiset Token) +
      (s.shared.gone.map Token.gone : List Token) :=
    Multiset.mem_add.2 (.inl (Multiset.mem_coe.2 (List.mem_map_of_mem hb)))
  obtain ⟨hsize, hout⟩ := hruns.forall_mem
    (P := fun t => (∀ b ∈ t.boxes, b.coords.length = n) ∧
      t.Outcome (solverAnswers grb sols w'.v.varArr.length idMap volLimit).config fun c => c.length = n ∧ IsPoint c)
    (fun t ts hr ht t' ht' =>
      ⟨hr.sized ht.1 t' ht', hr.outcome rfl (fun _ _ => Decided.not_interrupted) hP ht.2 t' ht'⟩)
    (forall_initial ⟨fun b hb => by rw [Multiset.mem_singleton.1 hb]; exact hlen,
      List.length_replicate, fun v hv => .inl (List.eq_of_mem_replicate hv)⟩) _ hdone
  have hblen : b.coords.length = n := hsize b (Multiset.mem_singleton_self b)
  rcases hout with h | ⟨hnot, hvalid, hnorm⟩
  · exact h
  · -- a small box with integer corners is a point
    refine absurd ⟨hblen, ?_⟩ hnot
    rcases hwhich with h | ⟨hgrid, hvol⟩
    · exact h
    · have hstart : ∀ t ∈ (((initialList acoords sols.length).boxes.map Token.pending : List Token) : Multiset Token),
          t.OnGrid n := forall_initial ⟨hlen, hgrid⟩
      have hint := hruns.forall_mem (fun t ts hr ht t' ht' => hr.onGrid rfl ht t' ht') hstart _ hdone
      exact isPoint_of_norm_lt hint.2 hvalid (hnorm.trans_le hvol)

/-- The constraint `x ≥ 0` on the point 1. -/
theorem point_boxes_decided_linear :
    ∃ (grb : LP → Bool) (sols : List (Solver × Solver)) (w' : World) (s : State),
      (∀ lp, grb lp = true ↔ lp.Feasible) ∧ driverSolvers (.var ⟨0, false⟩ true) = .ok (sols, w') ∧
      List.Forall₂ (fun c sol => SolversDecide grb (fun _ t => t + 1) 1 c.1 sol)
        [(.var ⟨0, false⟩ true, (1 : ℤ))] sols ∧
      Reaches (solverAnswers grb sols w'.v.varArr.length (fun _ t => t + 1) 1).config
        (init (initialList [(1, 1)] sols.length) 1) s ∧ s.Finished ∧ s.shared.frags.boxes = [⟨[(1, 1)], [1], 1⟩] ∧
      ∀ b ∈ s.shared.frags.boxes, b.Accepted sols.length := by
  classical
  have hgrb : ∀ lp : LP, decide lp.Feasible = true ↔ lp.Feasible := fun lp => decide_eq_true_iff
  obtain ⟨sol, w', hr, -⟩ := exists_driverSolvers (.var ⟨0, false⟩ true) (driverLP 9)
    (fun sol sz => sol.1.lp sz (subMapFrom (fun _ t => t + 1) 0 [(1, 2)] [])) (by decide +kernel)
  have hcs : ∀ c ∈ [(Multinomial.var ⟨0, false⟩ true, (1 : ℤ))],
      WF (InProg 1) 0 c.1 ∧ WithinDegree 1 (fun _ => 1) (fun _ => 2) 2 c := by
    have hmax : ∀ q : Multinomial, (boxCore 1 (fun _ => 1) (fun _ => 2) q 1).maxDeg = 1 := fun _ => rfl
    refine List.forall_mem_singleton.2 ⟨wf_driverVar, fun q _ => ?_⟩
    rw [hmax, Multinomial.toMv_var, totalDegree_X]
    decide
  have hboth := point_boxes_decided driverWorld_setup hgrb driver_namesBounds hcs hr
  have hpoint : IsPoint [((1 : ℚ), (1 : ℚ))] := List.forall_mem_singleton.2 rfl
  have hyes := ((List.forall₂_cons.1 hboth.1).1 w'.v.varArr.length [(1, 1)] rfl hpoint).1.2
    (by simp [Multinomial.toMv_var, corner])
  have hyes : (solverAnswers (fun lp => decide lp.Feasible) [sol] w'.v.varArr.length (fun _ t => t + 1) 1).config.pos
      0 [(1, 1)] .yes := Decided.pos_yes.2 (by simpa [solverAnswers] using hyes)
  obtain ⟨s, hrun, hfin, hboxes, -⟩ := reaches_accepted rfl (by decide +kernel) hyes
  refine ⟨fun lp => decide lp.Feasible, [sol], w', s, hgrb, hr, hboth.1, hrun, hfin, hboxes, fun b hb => ?_⟩
  exact hboth.2 [(1, 1)] 1 1 s rfl zero_lt_one hrun hfin b hb
    (.inl (by rw [hboxes] at hb; rw [List.mem_singleton.1 hb]; exact hpoint))

end GridSolve.Grid
