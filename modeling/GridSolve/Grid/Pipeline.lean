/-
The integer pipeline of the drivers (`test8.cpp`): the threads on the initial box, with the answers of
the solvers, and the pass over what they leave. No integer solution is lost as long as no box is
discarded that contains a solution on the boundary of the constraint refuted on it, z3 decides every
query, and six decimals are enough for the coefficients.
-/
import GridSolve.Core.Solvers
import GridSolve.Grid.Confidence

namespace GridSolve.Grid

open MvPolynomial GridSolve.Rewriting GridSolve.Poly GridSolve.Core GridSolve.Core.Handelman
open GridSolve.Poly.Multinomial (WF)

/-- The answers that the threads get from the solvers, `sz` the number of variables. -/
def solverAnswers (grb : LP → Bool) (sols : List (Solver × Solver)) (sz : ℕ) (idMap : ℕ → ℕ → ℕ) (volLimit : ℚ) :
    Decided where
  shapes := sols.length
  volLimit := volLimit
  pos i c := (sols[i]?).any fun sol => substitute grb sol.1 sz idMap c
  neg i c := (sols[i]?).any fun sol => substitute grb sol.2 sz idMap c

/-! ## Integer corners -/

theorem IntCoords.boundsExact {coords : Coords} (h : IntCoords coords) : BoundsExact coords := by
  intro c hc
  obtain ⟨l, r, rfl⟩ := h c hc
  exact ⟨toStringVal_intCast l, toStringVal_intCast r⟩

/-- The boxes of an item have `n` coordinates, and integer corners unless they have just been cut. -/
def Token.OnGrid (n : ℕ) : Token → Prop
  | .held b (.halved m) => b.coords.length = n ∧ m.coords.length = n
  | .held b _ => b.coords.length = n ∧ IntCoords b.coords
  | .pending b => b.coords.length = n ∧ IntCoords b.coords
  | .loose b => b.coords.length = n ∧ IntCoords b.coords
  | .done b => b.coords.length = n ∧ IntCoords b.coords
  | .gone b => b.coords.length = n ∧ IntCoords b.coords

theorem Process.onGrid {cfg : Config} {n : ℕ} {b b' : BoundingBox} {st st' : Stage} (h : Process cfg b st b' st')
    (hb : (Token.held b st).OnGrid n) : (Token.held b' st').OnGrid n := by
  cases h with
  | divide _ hsp =>
    obtain ⟨dir, c, hsplit⟩ := BoundingBox.split_isSplit hsp
    rw [hsplit.this_eq, hsplit.new_eq]
    exact ⟨by simpa using hb.1, by simpa using hb.1⟩
  | small => simpa [Token.OnGrid] using hb
  | _ => exact hb

theorem Rule.onGrid {cfg : Config} (hint : cfg.integer = true) {n : ℕ} {t : Token} {ts : Multiset Token}
    (h : Rule cfg t ts) (ht : t.OnGrid n) : ∀ t' ∈ ts, t'.OnGrid n := by
  cases h with
  | process hp => simpa using hp.onGrid ht
  | drop => simp
  | halve b m =>
    have hhalf : ∀ e : BoundingBox, e.coords.length = n → (cfg.half e).coords.length = n ∧
        IntCoords (cfg.half e).coords := by
      intro e he
      rw [Config.half, if_pos hint]
      exact ⟨by simpa [BoundingBox.round] using he, e.intCoords_round⟩
    simpa [Token.OnGrid] using ⟨hhalf b ht.1, hhalf m ht.2⟩
  | shelve _ hreal => rw [hint] at hreal; cases hreal
  | rescore _ hreal => rw [hint] at hreal; cases hreal
  | _ => simpa [Token.OnGrid] using ht

/-! ## Solutions -/

/-- Where an integer point of the initial box is when the threads have returned. -/
theorem Reaches.point_kept {cfg : Config} (hint : cfg.integer = true) {acoords : Coords} {nThreads : ℕ}
    (hn : 0 < nThreads) {s : State} (hrun : Reaches cfg (init (initialList acoords cfg.shapes) nThreads) s)
    (hfin : s.Finished) (hgrid : IntCoords acoords) {z : ℕ → ℤ} (hz : InBox acoords fun i => (z i : ℝ)) :
    (∃ b ∈ s.shared.frags.boxes, IntCoords b.coords ∧ InBox b.coords fun i => (z i : ℝ)) ∨
      ∃ b ∈ s.shared.gone, b.coords.length = acoords.length ∧ (∃ i < cfg.shapes, cfg.neg i b.coords .yes) ∧
        InBox b.coords fun i => (z i : ℝ) := by
  obtain ⟨-, -, hruns⟩ := hrun.final (Ll.holds_new _) hn hfin
  obtain ⟨t, ht, hx⟩ := hruns.exists_mem (fun _ _ hr => hr.covers (cfg.half_keeps_int z))
    ⟨_, Multiset.mem_coe.2 (List.mem_singleton_self _), hz⟩
  have hinv := hruns.forall_mem (P := fun t => t.Refuted cfg ∧ t.OnGrid acoords.length)
    (fun t ts hr ht t' ht' => ⟨hr.refuted ht.1 t' ht', hr.onGrid hint ht.2 t' ht'⟩)
    (forall_initial ⟨trivial, rfl, hgrid⟩) t ht
  rcases Multiset.mem_add.1 ht with ht | ht
  · obtain ⟨b, hb, rfl⟩ := List.mem_map.1 (Multiset.mem_coe.1 ht)
    exact .inl ⟨b, hb, hinv.2.2, hx⟩
  · obtain ⟨b, hb, rfl⟩ := List.mem_map.1 (Multiset.mem_coe.1 ht)
    exact .inr ⟨b, hb, hinv.2.1, hinv.1, hx⟩

/-- No integer solution is lost in a run of the threads and the pass, if no discarded box contains a
solution that is a zero of a constraint refuted on it, z3 decides every box that it is asked about,
and the coefficients are printed exactly. -/
theorem no_solution_lost {w w' : World} {n : ℕ} {lo hi : ℕ → ℕ} (hs : BoxSetup w n lo hi) {grb : LP → Bool}
    (hgrb : ∀ lp, grb lp = true ↔ lp.Feasible) {idMap : ℕ → ℕ → ℕ} (hid : NamesBounds idMap n lo hi)
    {cs : List (Multinomial × ℤ)} (hcs : ∀ c ∈ cs, WF (InProg n) 0 c.1) {fuel : ℕ} {sols : List (Solver × Solver)}
    (hok : buildSolvers n lo hi fuel cs w = .ok (sols, w')) {check : ℕ → List Term → CheckResult}
    (hcheck : CheckSound check) {acoords : Coords} (hlen : acoords.length = n) (hgrid : IntCoords acoords)
    {volLimit : ℚ} {nThreads : ℕ} (hn : 0 < nThreads) {s : State}
    (hrun : Reaches (solverAnswers grb sols w'.v.varArr.length idMap volLimit).config
      (init (initialList acoords sols.length) nThreads) s) (hfin : s.Finished)
    (hprint : ∀ c ∈ cs, printsExactly c.1 = true)
    (hknown : ∀ b ∈ s.shared.frags.boxes, b.confidence = 0 →
      ∀ k, check k (queryTerms (cs.map Prod.fst) b.coords) ≠ .unknown)
    (hzero : ∀ b ∈ s.shared.gone, ∀ z : ℕ → ℤ, InBox b.coords (fun i => (z i : ℝ)) →
      (∀ c ∈ cs, 0 ≤ aeval (fun i => (z i : ℝ)) c.1.toMv) →
      ∀ i < sols.length, (solverAnswers grb sols w'.v.varArr.length idMap volLimit).neg i b.coords = true →
        shapeValue (cs.map Prod.fst) i (fun i => (z i : ℝ)) ≠ 0)
    (z : ℕ → ℤ) (hz : InBox acoords fun i => (z i : ℝ)) (hsol : ∀ c ∈ cs, 0 ≤ aeval (fun i => (z i : ℝ)) c.1.toMv) :
    ∃ b ∈ (recomputeConfidence (smtQuery check (cs.map Prod.fst)) s.shared.frags).boxes,
      InBox b.coords fun i => (z i : ℝ) := by
  have hsound := buildSolvers_sound hgrb hid hs hcs hok
  have hsol' : ∀ p ∈ cs.map Prod.fst, 0 ≤ aeval (fun i => (z i : ℝ)) p.toMv := List.forall_mem_map.2 hsol
  obtain ⟨-, hholds, -⟩ := hrun.final (Ll.holds_new _) hn hfin
  rw [boxes_recomputeConfidence hholds]
  rcases hrun.point_kept rfl hn hfin hgrid hz with ⟨b, hb, hint, hx⟩ | ⟨b, hb, hblen, ⟨i, hi, hneg⟩, hx⟩
  · -- The box is kept by the pass: it contains a solution.
    have hquery : b.confidence = 0 → ∀ k, smtQuery check (cs.map Prod.fst) k b.coords = true := fun hconf k =>
      smtQuery_of_solution hcheck hint.boundsExact (List.forall_mem_map.2 hprint) (hknown b hb hconf k) hx hsol'
    obtain ⟨b', hb', hcoords⟩ := recheck_keeps 0 hb hquery
    exact ⟨b', hb', hcoords ▸ hx⟩
  · -- A refuted constraint is at most zero on the box, and zero at a solution.
    rw [Decided.neg_yes] at hneg
    have hics : i < cs.length := hsound.length_eq ▸ hi
    have hge := forall_shapeValue.2 hsol' i (by rwa [List.length_map])
    have hle : shapeValue (cs.map Prod.fst) i (fun i => (z i : ℝ)) ≤ 0 := by
      have hpair := hsound.get hics hi
      simp only [solverAnswers, List.getElem?_eq_getElem hi, Option.any_some] at hneg
      simpa [shapeValue, hics] using (hpair _ b.coords (hblen.trans hlen) _ hx).2 hneg
    exact absurd (le_antisymm hle hge) (hzero b hb z hx hsol i hi hneg)

/-! ## Two runs of a driver with one constraint -/

/-- A step of the only thread. -/
theorem Act.step {cfg : Config} {sh sh' : Shared} {pc pc' : Pc} (h : Act cfg sh pc sh' pc') :
    Step cfg ⟨sh, [pc]⟩ ⟨sh', [pc']⟩ := .intro [] [] h

/-- A box that is refuted at once: nothing is left. -/
theorem reaches_refuted {cfg : Config} (hshapes : cfg.shapes = 1) {acoords : Coords}
    (hvalid : (BoundingBox.new acoords).notValid = false) (hpos : cfg.pos 0 acoords .no)
    (hneg : cfg.neg 0 acoords .yes) :
    ∃ s, Reaches cfg (init (initialList acoords 1) 1) s ∧ s.Finished ∧ s.shared.frags.boxes = [] := by
  have henter : Act cfg (init (initialList acoords 1) 1).shared .start _ _ := .enter rfl
  have h1 : Reaches cfg _ _ := .single henter.step
  have h2 := h1.tail (Act.step (.process (.enter fun _ => hvalid)))
  have h3 := h2.tail (Act.step (.process (.refute (hshapes ▸ zero_lt_one) (lt_irrefl (0 : ℤ)) hpos hneg)))
  have h4 := h3.tail (Act.step .discard)
  have h5 := h4.tail (Act.step (.enter rfl))
  exact ⟨_, h5, fun pc hpc => List.mem_singleton.1 hpc, rfl⟩

/-- A box that is certified at once. -/
theorem reaches_accepted {cfg : Config} (hshapes : cfg.shapes = 1) {acoords : Coords}
    (hvalid : (BoundingBox.new acoords).notValid = false) (hpos : cfg.pos 0 acoords .yes) :
    ∃ s, Reaches cfg (init (initialList acoords 1) 1) s ∧ s.Finished ∧
      s.shared.frags.boxes = [⟨acoords, [1], 1⟩] ∧ s.shared.gone = [] := by
  have haccept : ∀ b, Process cfg b (.visiting 1 .inside) b.confirm .finished := fun b => hshapes ▸ .accept
  have henter : Act cfg (init (initialList acoords 1) 1).shared .start _ _ := .enter rfl
  have h1 : Reaches cfg _ _ := .single henter.step
  have h2 := h1.tail (Act.step (.process (.enter fun _ => hvalid)))
  have h3 := h2.tail (Act.step (.process (.certify (hshapes ▸ zero_lt_one) (lt_irrefl (0 : ℤ)) hpos)))
  have h4 := h3.tail (Act.step (.process (haccept _)))
  have h5 := h4.tail (Act.step .leave)
  have h6 := h5.tail (Act.step (.enter rfl))
  exact ⟨_, h6, fun pc hpc => List.mem_singleton.1 hpc, rfl, rfl⟩

/-- The program that refutes `-x` on the interval from 0 to 1. -/
def refutingLP : LP where
  n := 9
  rows := [.ge ⟨0, [(6, 1)]⟩, .ge ⟨0, [(7, 1)]⟩, .ge ⟨0, [(8, 1)]⟩,
    .ge ⟨0, [(8, 1), (7, 1), (6, 0)]⟩, .le ⟨0, [(8, 1), (7, 1), (6, 0)]⟩,
    .ge ⟨-1, [(7, -1), (6, 1)]⟩, .le ⟨-1, [(7, -1), (6, 1)]⟩]

/-- `x = 1 * (x - 0) + 0 * (1 - x) + 0`. -/
theorem refutingLP_feasible : refutingLP.Feasible := by
  refine ⟨fun i => if i = 6 then 1 else 0, fun i _ => by dsimp only; split_ifs <;> norm_num, fun r hr => ?_⟩
  simp only [refutingLP, List.mem_cons, List.not_mem_nil, or_false] at hr
  rcases hr with rfl | rfl | rfl | rfl | rfl | rfl | rfl <;> norm_num [Row.Holds, LinExpr.eval]

/-- The constraint `x ≥ 0` on the interval from 1 to 2. -/
theorem no_solution_lost_accepted :
    ∃ (grb : LP → Bool) (sols : List (Solver × Solver)) (w' : World) (s : State),
      (∀ lp, grb lp = true ↔ lp.Feasible) ∧ driverSolvers (.var ⟨0, false⟩ true) = .ok (sols, w') ∧
      Reaches (solverAnswers grb sols w'.v.varArr.length (fun _ t => t + 1) 1).config
        (init (initialList [(1, 2)] sols.length) 1) s ∧ s.Finished ∧
      ∃ b ∈ (recomputeConfidence (smtQuery undecidedCheck [.var ⟨0, false⟩ true]) s.shared.frags).boxes,
        InBox b.coords fun _ => ((1 : ℤ) : ℝ) := by
  classical
  have hgrb : ∀ lp : LP, decide lp.Feasible = true ↔ lp.Feasible := fun lp => decide_eq_true_iff
  obtain ⟨sol, w', hr, hrows⟩ := exists_driverSolvers (.var ⟨0, false⟩ true) (driverLP 9)
    (fun sol sz => sol.1.lp sz (subMapFrom (fun _ t => t + 1) 0 [(1, 2)] [])) (by decide +kernel)
  have hpos : (solverAnswers (fun lp => decide lp.Feasible) [sol] w'.v.varArr.length (fun _ t => t + 1) 1).config.pos 0
      [(1, 2)] .yes := by
    rw [Decided.pos_yes]
    simp [solverAnswers, substitute, hrows, driverLP_feasible]
  obtain ⟨s, hrun, hfin, hboxes, hgone⟩ := reaches_accepted rfl (by decide +kernel) hpos
  refine ⟨fun lp => decide lp.Feasible, [sol], w', s, hgrb, hr, hrun, hfin, ?_⟩
  apply no_solution_lost driverWorld_setup hgrb driver_namesBounds
    (List.forall_mem_singleton.2 wf_driverVar) hr undecidedCheck_sound rfl
    (List.forall_mem_singleton.2 ⟨1, 2, by norm_num⟩) zero_lt_one hrun hfin
      (List.forall_mem_singleton.2 (by decide +kernel))
  · rw [hboxes]
    exact List.forall_mem_singleton.2 fun h => absurd h one_ne_zero
  · rw [hgone]
    exact fun _ h => absurd h List.not_mem_nil
  · exact inBox_singleton.2 (by norm_num)
  · simp [Multinomial.toMv_var]

/-- The constraint `-x ≥ 0` holds at 0; the interval from 0 to 1 is discarded because the polynomial is at
most zero on it. -/
theorem solution_lost :
    ∃ (grb : LP → Bool) (sols : List (Solver × Solver)) (w' : World) (s : State),
      (∀ lp, grb lp = true ↔ lp.Feasible) ∧
      driverSolvers ((Multinomial.var ⟨0, false⟩ true).mulDouble (-1)) = .ok (sols, w') ∧ CheckSound undecidedCheck ∧
      Reaches (solverAnswers grb sols w'.v.varArr.length (fun _ t => t + 1) 1).config
        (init (initialList [(0, 1)] sols.length) 1) s ∧ s.Finished ∧
      InBox [(0, 1)] (fun _ => ((0 : ℤ) : ℝ)) ∧
      0 ≤ aeval (fun _ => ((0 : ℤ) : ℝ)) ((Multinomial.var ⟨0, false⟩ true).mulDouble (-1)).toMv ∧
      (recomputeConfidence (smtQuery undecidedCheck [(Multinomial.var ⟨0, false⟩ true).mulDouble (-1)])
        s.shared.frags).boxes = [] := by
  classical
  have hgrb : ∀ lp : LP, decide lp.Feasible = true ↔ lp.Feasible := fun lp => decide_eq_true_iff
  obtain ⟨hval, hwf⟩ := Multinomial.mulDouble_spec (-1) wf_driverVar
  obtain ⟨sol, w', hr, hrows⟩ := exists_driverSolvers ((Multinomial.var ⟨0, false⟩ true).mulDouble (-1))
    refutingLP (fun sol sz => sol.2.lp sz (subMapFrom (fun _ t => t + 1) 0 [(0, 1)] [])) (by decide +kernel)
  have hsound := buildSolvers_sound hgrb driver_namesBounds driverWorld_setup (List.forall_mem_singleton.2 hwf) hr
  have hpos : (solverAnswers (fun lp => decide lp.Feasible) [sol] w'.v.varArr.length (fun _ t => t + 1) 1).config.pos 0
      [(0, 1)] .no := by
    rw [Decided.pos_no]
    -- A certificate would make `-x` non-negative at 1.
    by_contra hyes
    rw [Bool.not_eq_false] at hyes
    have hnn := ((List.forall₂_cons.1 hsound).1 w'.v.varArr.length [(0, 1)] rfl (fun _ => 1)
      (inBox_singleton.2 (by norm_num))).1 (by simpa [solverAnswers] using hyes)
    norm_num [hval, Multinomial.toMv_var] at hnn
  have hneg : (solverAnswers (fun lp => decide lp.Feasible) [sol] w'.v.varArr.length (fun _ t => t + 1) 1).config.neg 0
      [(0, 1)] .yes := by
    rw [Decided.neg_yes]
    simp [solverAnswers, substitute, hrows, refutingLP_feasible]
  obtain ⟨s, hrun, hfin, hboxes⟩ := reaches_refuted rfl (by decide +kernel) hpos hneg
  refine ⟨fun lp => decide lp.Feasible, [sol], w', s, hgrb, hr, undecidedCheck_sound, hrun, hfin,
    inBox_singleton.2 (by norm_num), ?_, ?_⟩
  · simp [hval, Multinomial.toMv_var]
  · rw [boxes_recomputeConfidence (hrun.final (Ll.holds_new _) zero_lt_one hfin).2.1, hboxes]
    rfl

end GridSolve.Grid
