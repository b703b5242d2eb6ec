/-
What a complete run says about the constraints. The test of `curr_state_vec` in the loop over the
shapes only saves calls: verdicts are inherited by the halves, so asking again gives the same run.
With constraints of degree one a box is left undecided only if a constraint changes its sign on it.
And the number that `count_solutions.py` prints for the file of an integer run lies between the
number of strict solutions, but for those in the first line, and the number of solutions.
-/
import GridSolve.Grid.SinglePoint
import GridSolve.Grid.Solutions
import GridSolve.Core.Verdict

namespace GridSolve.Grid

open MvPolynomial GridSolve.Rewriting GridSolve.Poly GridSolve.Core GridSolve.Core.Handelman
open GridSolve.Poly.Multinomial (WF)

theorem Config.narrower_half (cfg : Config) (b : BoundingBox) : Narrower (cfg.half b).coords b.coords := by
  unfold Config.half
  split_ifs
  · exact narrower_round b
  · exact Narrower.refl _

/-! ## Asking again -/

namespace Decided

variable (D : Decided)

/-- The body of the loop over the shapes without the test of `curr_state_vec_`. -/
def ask (b : BoundingBox) (i : ℕ) (found : Found) : BoundingBox × Stage :=
  if D.pos i b.coords then (b.setState i 1, .visiting (i + 1) found)
  else if D.neg i b.coords then (b.setState i (-1), .refuted)
  else (b, .visiting (i + 1) .keep)

/-- The next step of a thread that asks the solvers for every shape. -/
def actAsking (sh : Shared) : Pc → Option (Shared × Pc)
  | .working toP (.visiting i found) =>
    if i < D.shapes then
      let q := D.ask (sh.frags.box toP) i found
      some ({ sh with frags := sh.frags.setBox toP q.1 }, .working toP q.2)
    else D.act sh (.working toP (.visiting i found))
  | pc => D.act sh pc

def stepAsking (t : ℕ) (s : State) : Option State :=
  match s.threads[t]? with
  | none => none
  | some pc => (D.actAsking s.shared pc).map fun q => ⟨q.1, s.threads.set t q.2⟩

/-- A schedule of threads that ask the solvers for every shape. -/
def runAsking (schedule : List ℕ) (s : State) : Option State := schedule.foldlM (fun s t => D.stepAsking t s) s

/-- Verdicts of the positive solvers pass to smaller boxes of dimension `n`. -/
def Inherits (n : ℕ) : Prop :=
  ∀ i < D.shapes, ∀ c c' : Coords, c.length = n → Narrower c' c → D.pos i c = true → D.pos i c' = true

end Decided

/-- The shapes marked in the state vector are those that the solver would accept on the box again. -/
structure BoundingBox.Sure (D : Decided) (n : ℕ) (b : BoundingBox) : Prop where
  length : b.coords.length = n
  marked : b.Marked D.shapes
  accepted : ∀ i < D.shapes, 0 < b.stateAt i → D.pos i b.coords = true

/-- The boxes that are not on their way out are sure. -/
def Token.Sure (D : Decided) (n : ℕ) : Token → Prop
  | .held _ .refuted => True
  | .held _ .invalid => True
  | .held b (.halved m) => b.Sure D n ∧ m.Sure D n
  | .held b _ => b.Sure D n
  | .pending b => b.Sure D n
  | .loose b => b.Sure D n
  | .done b => b.Sure D n
  | .gone _ => True

section

variable {D : Decided} {n : ℕ} {b b' : BoundingBox}

theorem BoundingBox.Sure.narrow (h : b.Sure D n) (hD : D.Inherits n) (hvec : b'.currStateVec = b.currStateVec)
    (hsub : Narrower b'.coords b.coords) : b'.Sure D n where
  length := hsub.length_eq.trans h.length
  marked := by
    rw [BoundingBox.Marked, hvec]
    exact h.marked
  accepted i hi hpos := by
    rw [BoundingBox.stateAt, hvec] at hpos
    exact hD i hi _ _ h.length hsub (h.accepted i hi hpos)

theorem BoundingBox.Sure.certify (h : b.Sure D n) {i : ℕ} (hyes : D.pos i b.coords = true) :
    (b.setState i 1).Sure D n where
  length := h.length
  marked := h.marked.set i
  accepted j hj hpos := by
    rw [BoundingBox.stateAt_setState] at hpos
    split_ifs at hpos with hij
    · rw [← hij.1]
      exact hyes
    · exact h.accepted j hj hpos

theorem Process.sure (hD : D.Inherits n) (hvol : 0 < D.volLimit) {st st' : Stage}
    (h : Process D.config b st b' st') (hb : (Token.held b st).Sure D n) : (Token.held b' st').Sure D n := by
  cases h with
  | invalid => trivial
  | refute => trivial
  | accept => exact BoundingBox.Sure.narrow hb hD rfl (Narrower.refl _)
  | small =>
    refine BoundingBox.Sure.narrow hb hD b.currStateVec_recomputeConfidence ?_
    rw [b.coords_recomputeConfidence]
    exact Narrower.refl _
  | certify _ _ hyes => exact BoundingBox.Sure.certify hb (Decided.pos_yes.1 hyes)
  | divide hnorm hsp =>
    -- the side that is cut is at least as long as the limit
    obtain ⟨dir, c, hsplit⟩ := BoundingBox.split_isSplit hsp
    have hlong : D.volLimit ≤ c.2 - c.1 := hsplit.norm_eq.1 ▸ not_lt.1 hnorm
    obtain ⟨hthis, hnew⟩ := hsplit.narrower (by linarith)
    have hb : b.Sure D n := hb
    exact ⟨hb.narrow hD (by rw [hsplit.this_eq]) hthis, hb.narrow hD (by rw [hsplit.new_eq]) hnew⟩
  | _ => exact hb

theorem Rule.sure (hD : D.Inherits n) (hvol : 0 < D.volLimit) {t : Token} {ts : Multiset Token}
    (h : Rule D.config t ts) (ht : t.Sure D n) : ∀ t' ∈ ts, t'.Sure D n := by
  cases h with
  | process hp => simpa using hp.sure hD hvol ht
  | timeout h => exact absurd h Decided.not_interrupted
  | drop => simp
  | halve b m =>
    have hhalf : ∀ e : BoundingBox, e.Sure D n → (D.config.half e).Sure D n := fun e he =>
      he.narrow hD (D.config.currStateVec_half e) (D.config.narrower_half e)
    simpa [Token.Sure] using ⟨hhalf b ht.1, hhalf m ht.2⟩
  | discard => simp [Token.Sure]
  | shelve _ hreal => cases hreal
  | rescore _ hreal => cases hreal
  | _ => simpa [Token.Sure] using ht

/-- On a sure box the test of `curr_state_vec_` changes nothing. -/
theorem BoundingBox.Sure.ask (h : b.Sure D n) {i : ℕ} (hi : i < D.shapes) (found : Found) :
    D.process b (.visiting i found) = some (D.ask b i found) := by
  simp only [Decided.process, if_pos hi, Decided.ask]
  by_cases hpos : 0 < b.stateAt i
  · -- setting the mark again leaves the box as it is
    have hset : b.setState i 1 = b := by
      have hlt : i < b.currStateVec.length := h.marked.1 ▸ hi
      have hone := h.marked.eq_one hi hpos
      rw [BoundingBox.stateAt, List.getD_eq_getElem?_getD, List.getElem?_eq_getElem hlt, Option.getD_some] at hone
      simp only [BoundingBox.setState, ← hone, List.set_getElem_self]
    rw [if_pos hpos, if_pos (h.accepted i hi hpos), hset]
  · rw [if_neg hpos]
    split_ifs <;> rfl

theorem Decided.actAsking_eq {sh : Shared} {pc : Pc} (h : ∀ t ∈ pc.items sh.frags, t.Sure D n) :
    D.actAsking sh pc = D.act sh pc := by
  cases pc with
  | working toP st =>
    cases st with
    | visiting i found =>
      by_cases hi : i < D.shapes
      · have hb : (sh.frags.box toP).Sure D n := h _ (Multiset.mem_singleton_self _)
        simp only [Decided.actAsking, if_pos hi, Decided.act, hb.ask hi found, Option.map_some]
      · simp only [Decided.actAsking, if_neg hi]
    | _ => rfl
  | _ => rfl

theorem Decided.stepAsking_eq {s : State} (h : ∀ pc ∈ s.threads, ∀ t ∈ pc.items s.shared.frags, t.Sure D n) (t : ℕ) :
    D.stepAsking t s = D.step t s := by
  unfold Decided.stepAsking Decided.step
  cases hpc : s.threads[t]? with
  | none => rfl
  | some pc =>
    have hmem : pc ∈ s.threads := List.mem_of_getElem? hpc
    simp only [D.actAsking_eq (h pc hmem)]

theorem marked_initial (acoords : Coords) (k : ℕ) :
    ((BoundingBox.new acoords).initCurrStateVec (List.replicate k 0)).Marked k :=
  ⟨List.length_replicate, fun _ hv => .inl (List.eq_of_mem_replicate hv)⟩

theorem sure_initial {acoords : Coords} (hlen : acoords.length = n) :
    (Token.pending ((BoundingBox.new acoords).initCurrStateVec (List.replicate D.shapes 0))).Sure D n := by
  refine ⟨hlen, marked_initial acoords _, fun i hi hpos => ?_⟩
  simp [BoundingBox.stateAt, BoundingBox.initCurrStateVec, hi] at hpos

/-- In every state that the threads reach, the boxes they work on are sure. -/
theorem Reaches.sure (hD : D.Inherits n) (hvol : 0 < D.volLimit) {acoords : Coords} (hlen : acoords.length = n)
    {nThreads : ℕ} {s : State} (h : Reaches D.config (init (initialList acoords D.shapes) nThreads) s) :
    ∀ pc ∈ s.threads, ∀ t ∈ pc.items s.shared.frags, t.Sure D n := by
  obtain ⟨M, ⟨taken, pending, kept, -, rfl⟩, hruns⟩ := h.items (Ll.holds_new _)
  have hall := hruns.forall_mem (fun _ _ hr => hr.sure hD hvol) (forall_initial (sure_initial hlen))
  intro pc hpc t ht
  exact hall t (mem_items.2 (.inr (.inr (.inr ⟨pc, hpc, ht⟩))))

theorem Decided.runAsking_eq (hD : D.Inherits n) (hvol : 0 < D.volLimit) {acoords : Coords} (hlen : acoords.length = n)
    {nThreads : ℕ} : ∀ (schedule : List ℕ) {s : State},
    Reaches D.config (init (initialList acoords D.shapes) nThreads) s → D.runAsking schedule s = D.run schedule s
  | [], _, _ => rfl
  | t :: schedule, s, h => by
    unfold Decided.runAsking Decided.run
    rw [List.foldlM_cons, List.foldlM_cons, D.stepAsking_eq (h.sure hD hvol hlen) t]
    cases hs : D.step t s with
    | none => rfl
    | some s' => exact runAsking_eq hD hvol hlen schedule (h.tail (D.step_sound hs))

end

/-- The verdicts of the solvers that are built for the constraints. -/
theorem solverAnswers_inherits {w w' : World} {n : ℕ} {lo hi : ℕ → ℕ} (hs : BoxSetup w n lo hi) {grb : LP → Bool}
    (hgrb : ∀ lp, grb lp = true ↔ lp.Feasible) {idMap : ℕ → ℕ → ℕ} (hid : NamesBounds idMap n lo hi)
    {cs : List (Multinomial × ℤ)} {fuel : ℕ} (hcs : ∀ c ∈ cs, WF (InProg n) 0 c.1 ∧ Fueled n lo hi fuel c)
    {sols : List (Solver × Solver)} (hok : buildSolvers n lo hi fuel cs w = .ok (sols, w')) (sz : ℕ) (volLimit : ℚ) :
    (solverAnswers grb sols sz idMap volLimit).Inherits n := by
  have hcombine := buildSolvers_combine hgrb hid hs hcs hok
  intro i hi c c' hc hsub hyes
  have hi : i < sols.length := hi
  have hpair := hcombine.get (hcombine.length_eq ▸ hi) hi sz
  simp only [solverAnswers, List.getElem?_eq_getElem hi, Option.any_some] at hyes ⊢
  rw [List.get_eq_getElem, List.get_eq_getElem] at hpair
  rw [(hpair c hc).1] at hyes
  rw [(hpair c' (hsub.length_eq.trans hc)).1]
  exact hyes.mono le_rfl hsub

/-- **The marks of a box only save work.** Whatever the schedule, threads that ask the solvers for every
shape go through the same states as threads that skip the shapes marked in `curr_state_vec_`. -/
theorem asking_again_agrees {w w' : World} {n : ℕ} {lo hi : ℕ → ℕ} (hs : BoxSetup w n lo hi) {grb : LP → Bool}
    (hgrb : ∀ lp, grb lp = true ↔ lp.Feasible) {idMap : ℕ → ℕ → ℕ} (hid : NamesBounds idMap n lo hi)
    {cs : List (Multinomial × ℤ)} {fuel : ℕ} (hcs : ∀ c ∈ cs, WF (InProg n) 0 c.1 ∧ Fueled n lo hi fuel c)
    {sols : List (Solver × Solver)} (hok : buildSolvers n lo hi fuel cs w = .ok (sols, w')) {acoords : Coords}
    (hlen : acoords.length = n) {volLimit : ℚ} (hvol : 0 < volLimit) (nThreads : ℕ) (schedule : List ℕ) :
    (solverAnswers grb sols w'.v.varArr.length idMap volLimit).runAsking schedule
        (init (initialList acoords sols.length) nThreads) =
      (solverAnswers grb sols w'.v.varArr.length idMap volLimit).run schedule
        (init (initialList acoords sols.length) nThreads) :=
  Decided.runAsking_eq (D := solverAnswers grb sols w'.v.varArr.length idMap volLimit)
    (solverAnswers_inherits hs hgrb hid hcs hok _ _) hvol hlen schedule .refl

theorem asking_again_agrees_linear :
    ∃ (grb : LP → Bool) (sols : List (Solver × Solver)) (w' : World),
      (∀ lp, grb lp = true ↔ lp.Feasible) ∧ driverSolvers (.var ⟨0, false⟩ true) = .ok (sols, w') ∧
      ∀ schedule, (solverAnswers grb sols w'.v.varArr.length (fun _ t => t + 1) 1).runAsking schedule
          (init (initialList [(-4, 4)] sols.length) 2) =
        (solverAnswers grb sols w'.v.varArr.length (fun _ t => t + 1) 1).run schedule
          (init (initialList [(-4, 4)] sols.length) 2) := by
  classical
  have hgrb : ∀ lp : LP, decide lp.Feasible = true ↔ lp.Feasible := fun lp => decide_eq_true_iff
  obtain ⟨sol, w', hr, -⟩ := exists_driverSolvers (.var ⟨0, false⟩ true) (driverLP 9)
    (fun sol sz => sol.1.lp sz (subMapFrom (fun _ t => t + 1) 0 [(1, 2)] [])) (by decide +kernel)
  have hcs := fun c hc => And.intro (driver_withinDegree c hc).1 (driver_withinDegree c hc).2.1.fueled
  refine ⟨_, [sol], w', hgrb, hr, fun schedule => ?_⟩
  exact asking_again_agrees driverWorld_setup hgrb driver_namesBounds hcs hr rfl one_pos 2 schedule

/-! ## What is left at the end -/

section

variable {cfg : Config} {acoords : Coords}

/-- The boxes are parts of the initial box, and those that are past the test of their sides have points. -/
def Token.Placed (acoords : Coords) : Token → Prop
  | .pending b => Narrower b.coords acoords
  | .loose b => Narrower b.coords acoords
  | .held b .taken => Narrower b.coords acoords
  | .held b .invalid => Narrower b.coords acoords
  | .held b (.halved m) => Narrower b.coords acoords ∧ Narrower m.coords acoords
  | .held b _ => Narrower b.coords acoords ∧ b.notValid = false
  | .done b => Narrower b.coords acoords ∧ b.notValid = false
  | .gone b => Narrower b.coords acoords ∧ b.notValid = false

theorem Process.placed (hint : cfg.integer = true) (hvol : 0 < cfg.volLimit) {b b' : BoundingBox} {st st' : Stage}
    (h : Process cfg b st b' st') (hb : (Token.held b st).Placed acoords) : (Token.held b' st').Placed acoords := by
  cases h with
  | enter hv => exact ⟨hb, hv hint⟩
  | small =>
    refine ⟨by simpa using hb.1, ?_⟩
    simpa [BoundingBox.notValid] using hb.2
  | divide hnorm hsp =>
    obtain ⟨dir, c, hsplit⟩ := BoundingBox.split_isSplit hsp
    have hlong : cfg.volLimit ≤ c.2 - c.1 := hsplit.norm_eq.1 ▸ not_lt.1 hnorm
    obtain ⟨hthis, hnew⟩ := hsplit.narrower (by linarith)
    exact ⟨hthis.trans hb.1, hnew.trans hb.1⟩
  | _ => exact hb

theorem Rule.placed (hint : cfg.integer = true) (hvol : 0 < cfg.volLimit) {t : Token} {ts : Multiset Token}
    (h : Rule cfg t ts) (ht : t.Placed acoords) : ∀ t' ∈ ts, t'.Placed acoords := by
  cases h with
  | process hp => simpa using hp.placed hint hvol ht
  | drop => simp
  | halve b m =>
    have hhalf : ∀ e : BoundingBox, Narrower e.coords acoords → Narrower (cfg.half e).coords acoords := fun e he =>
      (cfg.narrower_half e).trans he
    simpa [Token.Placed] using ⟨hhalf b ht.1, hhalf m ht.2⟩
  | shelve _ hreal => rw [hint] at hreal; cases hreal
  | rescore _ hreal => rw [hint] at hreal; cases hreal
  | _ => simpa [Token.Placed] using ht

/-- A property of the items holds of the boxes that are left and of those that are gone. -/
theorem Reaches.forall_left {P : Token → Prop} (hP : ∀ t ts, Rule cfg t ts → P t → ∀ t' ∈ ts, P t') {nThreads : ℕ}
    (hn : 0 < nThreads) {s : State} (hrun : Reaches cfg (init (initialList acoords cfg.shapes) nThreads) s)
    (hfin : s.Finished) (h0 : P (.pending ((BoundingBox.new acoords).initCurrStateVec (List.replicate cfg.shapes 0)))) :
    (∀ b ∈ s.shared.frags.boxes, P (.done b)) ∧ ∀ b ∈ s.shared.gone, P (.gone b) := by
  obtain ⟨-, -, hruns⟩ := hrun.final (Ll.holds_new _) hn hfin
  have hall := hruns.forall_mem hP (forall_initial h0)
  constructor
  · intro b hb
    exact hall _ (Multiset.mem_add.2 (.inl (Multiset.mem_coe.2 (List.mem_map_of_mem hb))))
  · intro b hb
    exact hall _ (Multiset.mem_add.2 (.inr (Multiset.mem_coe.2 (List.mem_map_of_mem hb))))

end

theorem forall_le_of_valid {b : BoundingBox} (h : b.notValid = false) : ∀ c ∈ b.coords, c.1 ≤ c.2 := by
  intro c hc
  simpa using List.any_eq_false.1 h c hc

section

variable {w w' : World} {n : ℕ} {lo hi : ℕ → ℕ} {grb : LP → Bool} {idMap : ℕ → ℕ → ℕ} {cs : List (Multinomial × ℤ)}
  {fuel : ℕ} {sols : List (Solver × Solver)} {acoords : Coords} {volLimit : ℚ} {nThreads : ℕ} {s : State}

/-- The verdicts of sound solvers. -/
theorem solverAnswers_sound (hsound : List.Forall₂ (fun c sol => SolversSound grb idMap n c.1 sol) cs sols) {sz i : ℕ}
    {c : Coords} (hc : c.length = n) :
    ((solverAnswers grb sols sz idMap volLimit).pos i c = true →
        ∀ x, InBox c x → 0 ≤ shapeValue (cs.map Prod.fst) i x) ∧
      ((solverAnswers grb sols sz idMap volLimit).neg i c = true →
        ∀ x, InBox c x → shapeValue (cs.map Prod.fst) i x ≤ 0) := by
  by_cases hi : i < sols.length
  · have hics : i < cs.length := hsound.length_eq ▸ hi
    have hpair := hsound.get hics hi sz c hc
    simp only [solverAnswers, List.getElem?_eq_getElem hi, Option.any_some]
    constructor <;> intro h x hx
    · simpa [shapeValue, hics] using (hpair x hx).1 h
    · simpa [shapeValue, hics] using (hpair x hx).2 h
  · simp [solverAnswers, List.getElem?_eq_none (not_lt.1 hi)]

/-- What holds of the boxes of a complete run: they are parts of the initial box and have points, the marked
shapes are accepted on them, and a box that is not accepted is short and does not have the property `P`
that excludes undecided shapes. -/
structure BoundingBox.Left (D : Decided) (acoords : Coords) (P : Coords → Prop) (b : BoundingBox) : Prop where
  narrower : Narrower b.coords acoords
  valid : b.notValid = false
  sure : b.Sure D acoords.length
  outcome : b.Accepted D.shapes ∨ b.Small D.config P

theorem Reaches.left {D : Decided} (hD : D.Inherits acoords.length) (hvol : 0 < D.volLimit) {P : Coords → Prop}
    (hP : ∀ c, P c → ∀ i < D.shapes, D.pos i c = true ∨ D.neg i c = true) (hn : 0 < nThreads)
    (hrun : Reaches D.config (init (initialList acoords D.shapes) nThreads) s) (hfin : s.Finished) :
    (∀ b ∈ s.shared.frags.boxes, b.Left D acoords P) ∧
      ∀ b ∈ s.shared.gone, Narrower b.coords acoords ∧ ∃ i < D.shapes, D.neg i b.coords = true := by
  have hdecide : ∀ c, P c → ∀ i < D.shapes, D.config.pos i c .no → ¬ D.config.neg i c .no := by
    intro c hc i hi hpos hneg
    rw [Decided.pos_no] at hpos
    rw [Decided.neg_no] at hneg
    simpa [hpos, hneg] using hP c hc i hi
  obtain ⟨hleft, hgone⟩ := hrun.forall_left
    (P := fun t => t.Placed acoords ∧ t.Sure D acoords.length ∧ t.Outcome D.config P ∧ t.Refuted D.config)
    (fun t ts hr ht t' ht' => ⟨hr.placed rfl hvol ht.1 t' ht', hr.sure hD hvol ht.2.1 t' ht',
      hr.outcome rfl (fun _ _ => Decided.not_interrupted) hdecide ht.2.2.1 t' ht', hr.refuted ht.2.2.2 t' ht'⟩)
    hn hfin ⟨Narrower.refl _, sure_initial rfl, marked_initial _ _, trivial⟩
  constructor
  · intro b hb
    obtain ⟨hplaced, hsure, hout, -⟩ := hleft b hb
    exact ⟨hplaced.1, hplaced.2, hsure, hout⟩
  · intro b hb
    obtain ⟨hplaced, -, -, i, hi, hneg⟩ := hgone b hb
    exact ⟨hplaced.1, i, hi, Decided.neg_yes.1 hneg⟩

/-- An accepted box is inside the solutions. -/
theorem BoundingBox.Left.solutions (hsound : List.Forall₂ (fun c sol => SolversSound grb idMap n c.1 sol) cs sols)
    {sz : ℕ} {P : Coords → Prop} {b : BoundingBox} (h : b.Left (solverAnswers grb sols sz idMap volLimit) acoords P)
    (hlen : acoords.length = n) (hacc : b.Accepted sols.length) :
    ∀ c ∈ cs, ∀ x, InBox b.coords x → 0 ≤ aeval x c.1.toMv := by
  intro c hc x hx
  refine forall_shapeValue.1 (fun i hi => ?_) c.1 (List.mem_map_of_mem hc)
  have hi : i < sols.length := by rwa [List.length_map, hsound.length_eq] at hi
  have hone : 0 < b.stateAt i := by
    rw [hacc.2 i hi]
    exact one_pos
  exact (solverAnswers_sound hsound (h.sure.length.trans hlen)).1 (h.sure.accepted i hi hone) x hx

/-- **Constraints of degree one.** A complete run accepts boxes that lie inside the solutions, discards
boxes on which a constraint is nowhere positive, and leaves a box undecided only if it is shorter than
the limit and a constraint takes both signs on it. -/
theorem linear_boxes_decided (hs : BoxSetup w n lo hi) (hgrb : ∀ lp, grb lp = true ↔ lp.Feasible)
    (hid : NamesBounds idMap n lo hi)
    (hcs : ∀ c ∈ cs, WF (InProg n) 0 c.1 ∧ WithinDegree n lo hi fuel c ∧ c.1.toMv.totalDegree ≤ 1)
    (hok : buildSolvers n lo hi fuel cs w = .ok (sols, w')) (hlen : acoords.length = n) (hvol : 0 < volLimit)
    (hn : 0 < nThreads)
    (hrun : Reaches (solverAnswers grb sols w'.v.varArr.length idMap volLimit).config
      (init (initialList acoords sols.length) nThreads) s) (hfin : s.Finished) :
    (∀ b ∈ s.shared.frags.boxes,
      (b.confidence = 1 ∧ ∀ c ∈ cs, ∀ x, InBox b.coords x → 0 ≤ aeval x c.1.toMv) ∨
        (b.norm < volLimit ∧ ∃ c ∈ cs, (∃ x, InBox b.coords x ∧ aeval x c.1.toMv < 0) ∧
          ∃ y, InBox b.coords y ∧ 0 < aeval y c.1.toMv)) ∧
      ∀ b ∈ s.shared.gone, ∃ c ∈ cs, ∀ x, InBox b.coords x → aeval x c.1.toMv ≤ 0 := by
  subst hlen
  have hexact := buildSolvers_exact hs hgrb hid hcs hok
  have hsound := buildSolvers_sound hgrb hid hs (fun c hc => (hcs c hc).1) hok
  have hD := solverAnswers_inherits hs hgrb hid (fun c hc => ⟨(hcs c hc).1, (hcs c hc).2.1.fueled⟩) hok
    w'.v.varArr.length volLimit
  obtain ⟨hleft, hgone⟩ := hrun.left hD hvol
    (P := fun c => ∀ i < sols.length, (solverAnswers grb sols w'.v.varArr.length idMap volLimit).pos i c = true ∨
      (solverAnswers grb sols w'.v.varArr.length idMap volLimit).neg i c = true) (fun _ hc => hc) hn hfin
  constructor
  · intro b hb
    have hb := hleft b hb
    rcases hb.outcome with hacc | ⟨hnot, -, hnorm⟩
    · exact .inl ⟨hacc.1, hb.solutions hsound rfl hacc⟩
    · -- a shape on which both solvers say no takes both signs
      right
      refine ⟨hnorm, ?_⟩
      push Not at hnot
      obtain ⟨i, hi, hpos, hneg⟩ := hnot
      have hics : i < cs.length := hexact.length_eq ▸ hi
      obtain ⟨h1, h2⟩ := hexact.get hics hi w'.v.varArr.length b.coords hb.sure.length (forall_le_of_valid hb.valid)
      simp only [solverAnswers, List.getElem?_eq_getElem hi, Option.any_some] at hpos hneg
      refine ⟨_, List.get_mem cs ⟨i, hics⟩, ?_, ?_⟩
      · by_contra hall
        push Not at hall
        exact hpos (h1.2 hall)
      · by_contra hall
        push Not at hall
        exact hneg (h2.2 hall)
  · intro b hb
    obtain ⟨hsub, i, hi, hneg⟩ := hgone b hb
    have hics : i < cs.length := hsound.length_eq ▸ hi
    refine ⟨_, List.get_mem cs ⟨i, hics⟩, fun x hx => ?_⟩
    simpa [shapeValue, hics] using (solverAnswers_sound hsound hsub.length_eq).2 hneg x hx

/-- A run of the driver with the constraint `x ≥ 0` on the interval from 1 to 2. -/
theorem exists_driver_run : ∃ (grb : LP → Bool) (sols : List (Solver × Solver)) (w' : World) (s : State),
    (∀ lp, grb lp = true ↔ lp.Feasible) ∧ driverSolvers (.var ⟨0, false⟩ true) = .ok (sols, w') ∧
    Reaches (solverAnswers grb sols w'.v.varArr.length (fun _ t => t + 1) 1).config
      (init (initialList [(1, 2)] sols.length) 1) s ∧ s.Finished ∧ s.shared.frags.boxes = [⟨[(1, 2)], [1], 1⟩] := by
  classical
  obtain ⟨sol, w', hr, hrows⟩ := exists_driverSolvers (.var ⟨0, false⟩ true) (driverLP 9)
    (fun sol sz => sol.1.lp sz (subMapFrom (fun _ t => t + 1) 0 [(1, 2)] [])) (by decide +kernel)
  have hpos : (solverAnswers (fun lp => decide lp.Feasible) [sol] w'.v.varArr.length (fun _ t => t + 1) 1).config.pos 0
      [(1, 2)] .yes := by
    rw [Decided.pos_yes]
    simp [solverAnswers, substitute, hrows, driverLP_feasible]
  obtain ⟨s, hrun, hfin, hboxes, -⟩ := reaches_accepted rfl (by decide +kernel) hpos
  exact ⟨fun lp => decide lp.Feasible, [sol], w', s, fun lp => decide_eq_true_iff, hr, hrun, hfin, hboxes⟩

theorem linear_boxes_decided_interval :
    ∃ (grb : LP → Bool) (sols : List (Solver × Solver)) (w' : World) (s : State),
      driverSolvers (.var ⟨0, false⟩ true) = .ok (sols, w') ∧
      Reaches (solverAnswers grb sols w'.v.varArr.length (fun _ t => t + 1) 1).config
        (init (initialList [(1, 2)] sols.length) 1) s ∧ s.Finished ∧ s.shared.frags.boxes ≠ [] ∧
      ∀ b ∈ s.shared.frags.boxes,
        (b.confidence = 1 ∧ ∀ c ∈ [(Multinomial.var ⟨0, false⟩ true, (1 : ℤ))], ∀ x, InBox b.coords x →
        0 ≤ aeval x c.1.toMv) ∨
          (b.norm < 1 ∧ ∃ c ∈ [(Multinomial.var ⟨0, false⟩ true, (1 : ℤ))],
          (∃ x, InBox b.coords x ∧ aeval x c.1.toMv < 0) ∧
            ∃ y, InBox b.coords y ∧ 0 < aeval y c.1.toMv) := by
  obtain ⟨grb, sols, w', s, hgrb, hr, hrun, hfin, hboxes⟩ := exists_driver_run
  refine ⟨grb, sols, w', s, hr, hrun, hfin, by rw [hboxes]; exact List.cons_ne_nil _ _, ?_⟩
  exact (linear_boxes_decided driverWorld_setup hgrb driver_namesBounds driver_withinDegree hr rfl one_pos one_pos hrun
    hfin).1

/-! ## The number of solutions -/

open CountSolutions

/-- The integer points of a box that satisfy the constraints. -/
def integerSolutions (cs : List (Multinomial × ℤ)) (acoords : Coords) : Set (List ℤ) :=
  {z | z.length = acoords.length ∧ InBox acoords (fun i => (z.getD i 0 : ℝ)) ∧
    ∀ c ∈ cs, 0 ≤ aeval (fun i => (z.getD i 0 : ℝ)) c.1.toMv}

/-- Those at which no constraint is zero. -/
def strictSolutions (cs : List (Multinomial × ℤ)) (acoords : Coords) : Set (List ℤ) :=
  {z | z.length = acoords.length ∧ InBox acoords (fun i => (z.getD i 0 : ℝ)) ∧
    ∀ c ∈ cs, 0 < aeval (fun i => (z.getD i 0 : ℝ)) c.1.toMv}

theorem finite_integerSolutions (cs : List (Multinomial × ℤ)) (acoords : Coords) :
    (integerSolutions cs acoords).Finite :=
  (finite_inRow acoords).subset fun _ hz => inRow_iff.2 ⟨hz.1, hz.2.1⟩

/-- The pass has nothing to do where every box is confirmed. -/
theorem recheck_confirmed (query : ℕ → Coords → Bool) (calls : ℕ) : ∀ {bs : List BoundingBox},
    (∀ b ∈ bs, b.confidence ≠ 0) → recheck query calls bs = bs
  | [], _ => rfl
  | b :: bs, h => by
    rw [List.forall_mem_cons] at h
    rw [recheck, if_neg h.1, recheck_confirmed query calls h.2]

theorem readable_of_narrower : ∀ {coords acoords : Coords}, Narrower coords acoords → (∀ c ∈ coords, c.1 ≤ c.2) →
    (∀ c ∈ acoords, |c.1| < 1000000 ∧ |c.2| < 1000000) → Readable coords
  | [], _, _, _, _ => trivial
  | c :: coords, _, .cons (b := a) hc h, hvalid, hsmall => by
    rw [List.forall_mem_cons] at hvalid hsmall
    obtain ⟨⟨h1, h2⟩, hsmall⟩ := hsmall
    rw [abs_lt] at h1 h2
    refine ⟨abs_lt.2 ⟨?_, ?_⟩, abs_lt.2 ⟨?_, ?_⟩, fun _ => readable_of_narrower h hvalid.2 hsmall⟩ <;>
      linarith [hc.1, hc.2, hvalid.1]

/-- The two solvers of a constraint decide a point. -/
theorem solverAnswers_point (hdecide : List.Forall₂ (fun c sol => SolversDecide grb idMap n c.1 sol) cs sols) {sz : ℕ}
    {c : Coords} (hc : c.length = n ∧ IsPoint c) {i : ℕ} (hi : i < sols.length) :
    (solverAnswers grb sols sz idMap volLimit).pos i c = true ∨
      (solverAnswers grb sols sz idMap volLimit).neg i c = true := by
  obtain ⟨h1, h2⟩ := hdecide.get (hdecide.length_eq ▸ hi) hi sz c hc.1 hc.2
  simp only [solverAnswers, List.getElem?_eq_getElem hi, Option.any_some]
  exact (le_total _ _).imp h1.2 h2.2

/-- No strict solution is discarded. -/
theorem strictSolutions_subset (hsound : List.Forall₂ (fun c sol => SolversSound grb idMap n c.1 sol) cs sols) {sz : ℕ}
    (hlen : acoords.length = n) (hgrid : IntCoords acoords) (hn : 0 < nThreads)
    (hrun : Reaches (solverAnswers grb sols sz idMap volLimit).config
      (init (initialList acoords sols.length) nThreads) s) (hfin : s.Finished) :
    strictSolutions cs acoords ⊆ solutions acoords.length s.shared.frags.boxes := by
  rintro z ⟨hz, hx, hsol⟩
  refine ⟨hz, ?_⟩
  rcases hrun.point_kept rfl hn hfin hgrid (z := fun i => z.getD i 0) hx with
    ⟨b, hb, -, hin⟩ | ⟨b, hb, hblen, ⟨i, hi, hneg⟩, hin⟩
  · exact ⟨b, hb, hin⟩
  · have hics : i < cs.length := hsound.length_eq ▸ hi
    have hle := (solverAnswers_sound hsound (hblen.trans hlen)).2 (Decided.neg_yes.1 hneg) _ hin
    have hlt := hsol _ (List.get_mem cs ⟨i, hics⟩)
    simp only [shapeValue, List.getD_eq_getElem?_getD, List.getElem?_map, List.getElem?_eq_getElem hics,
      Option.map_some, Option.getD_some] at hle
    exact absurd hlt (not_lt.2 hle)

/-- A point of the boxes is in the first one or in a later one. -/
theorem solutions_subset_union (n : ℕ) :
    ∀ bs : List BoundingBox, solutions n bs ⊆ solutions n bs.tail ∪ solutions n (bs.take 1)
  | [], _, ⟨_, _, hb, _⟩ => absurd hb List.not_mem_nil
  | b :: bs, z, ⟨hz, b', hb', hx⟩ => by
    rcases List.mem_cons.1 hb' with rfl | hb'
    · exact .inr ⟨hz, b', List.mem_singleton_self _, hx⟩
    · exact .inl ⟨hz, b', hb', hx⟩

/-- The number printed for a list whose boxes are all accepted: asking again changes none of them. -/
theorem main_recomputed {l : Ll} (hl : l.Holds l.nodes) {n : ℕ} (hpos : 0 < n) (hne : l.boxes ≠ [])
    (hboxes : ∀ b ∈ l.boxes, b.confidence = 1 ∧ IntCoords b.coords ∧ b.coords.length = n)
    (hread : ∀ b ∈ l.boxes.tail, Readable b.coords) (query : ℕ → Coords → Bool) :
    CountSolutions.main (recomputeConfidence query l).print = some (solutions n l.boxes.tail).ncard := by
  have hsame : (recomputeConfidence query l).boxes = l.boxes := by
    rw [boxes_recomputeConfidence hl]
    exact recheck_confirmed query 0 fun b hb => by rw [(hboxes b hb).1]; exact one_ne_zero
  obtain ⟨m, rfl⟩ := Nat.exists_eq_succ_of_ne_zero hpos.ne'
  rw [← hsame] at hread hboxes hne ⊢
  refine (main_print (fun b hb => ?_) hne).1 hread
  obtain ⟨hconf, hint, hlen⟩ := hboxes b hb
  exact ⟨hint, hlen, by rw [hconf]; exact zero_le_one⟩

/-- **The number that is printed.** The file of a complete integer run is read without an exception. The
number printed is at most that of the integer solutions in the initial box, and with the strict solutions
on the first line, which is taken for a header, at least that of the strict ones. -/
theorem count_between (hs : BoxSetup w n lo hi) (hgrb : ∀ lp, grb lp = true ↔ lp.Feasible)
    (hid : NamesBounds idMap n lo hi) (hcs : ∀ c ∈ cs, WF (InProg n) 0 c.1 ∧ WithinDegree n lo hi fuel c)
    (hok : buildSolvers n lo hi fuel cs w = .ok (sols, w')) (hlen : acoords.length = n) (hpos : 0 < n)
    (hgrid : IntCoords acoords) (hsmall : ∀ c ∈ acoords, |c.1| < 1000000 ∧ |c.2| < 1000000) (hvol : 0 < volLimit)
    (hlimit : volLimit ≤ 1) (hn : 0 < nThreads)
    (hrun : Reaches (solverAnswers grb sols w'.v.varArr.length idMap volLimit).config
      (init (initialList acoords sols.length) nThreads) s) (hfin : s.Finished) (query : ℕ → Coords → Bool) :
    (s.shared.frags.boxes = [] ∧ strictSolutions cs acoords = ∅) ∨
      ∃ k, CountSolutions.main (recomputeConfidence query s.shared.frags).print = some k ∧
        k ≤ (integerSolutions cs acoords).ncard ∧
        (strictSolutions cs acoords).ncard ≤
          k + (strictSolutions cs acoords ∩ solutions n (s.shared.frags.boxes.take 1)).ncard := by
  subst hlen
  have hsound := buildSolvers_sound hgrb hid hs (fun c hc => (hcs c hc).1) hok
  have hD := solverAnswers_inherits hs hgrb hid (fun c hc => ⟨(hcs c hc).1, (hcs c hc).2.fueled⟩) hok
    w'.v.varArr.length volLimit
  obtain ⟨hleft, -⟩ := hrun.left hD hvol
    (fun c hc i hi => solverAnswers_point (buildSolvers_decide hgrb hid hs hcs hok) hc hi) hn hfin
  have honGrid := (hrun.forall_left (fun _ _ hr => hr.onGrid rfl) hn hfin ⟨rfl, hgrid⟩).1
  -- a short box with integer corners is a point
  have hacc : ∀ b ∈ s.shared.frags.boxes, b.Accepted sols.length := by
    intro b hb
    rcases (hleft b hb).outcome with h | ⟨hnot, hvalid, hnorm⟩
    · exact h
    · exact absurd ⟨(hleft b hb).sure.length, isPoint_of_norm_lt (honGrid b hb).2 hvalid (hnorm.trans_le hlimit)⟩ hnot
  have hstrict := strictSolutions_subset hsound rfl hgrid hn hrun hfin
  by_cases hne : s.shared.frags.boxes = []
  · refine .inl ⟨hne, Set.eq_empty_of_subset_empty fun z hz => ?_⟩
    obtain ⟨-, b, hb, -⟩ := hstrict hz
    rw [hne] at hb
    exact absurd hb List.not_mem_nil
  right
  obtain ⟨-, hholds, -⟩ := hrun.final (Ll.holds_new _) hn hfin
  have hmain := main_recomputed hholds hpos hne
    (fun b hb => ⟨(hacc b hb).1, (honGrid b hb).2, (hleft b hb).sure.length⟩)
    (fun b hb => by
      have hb := hleft b (List.mem_of_mem_tail hb)
      exact readable_of_narrower hb.narrower (forall_le_of_valid hb.valid) hsmall) query
  have hfinite : ∀ bs ⊆ s.shared.frags.boxes, (solutions acoords.length bs).Finite := fun bs hsub =>
    finite_solutions fun b hb => (hleft b (hsub hb)).sure.length
  refine ⟨_, hmain, Set.ncard_le_ncard ?_ (finite_integerSolutions cs acoords), ?_⟩
  · rintro z ⟨hz, b, hb, hx⟩
    have hb := List.mem_of_mem_tail hb
    exact ⟨hz, (hleft b hb).narrower.inBox hx, fun c hc => (hleft b hb).solutions hsound rfl (hacc b hb) c hc _ hx⟩
  · have hsplit : strictSolutions cs acoords ⊆ solutions acoords.length s.shared.frags.boxes.tail ∪
        (strictSolutions cs acoords ∩ solutions acoords.length (s.shared.frags.boxes.take 1)) := fun z hz =>
      (solutions_subset_union _ _ (hstrict hz)).imp id fun hfirst => ⟨hz, hfirst⟩
    calc (strictSolutions cs acoords).ncard
        ≤ (solutions acoords.length s.shared.frags.boxes.tail ∪
            (strictSolutions cs acoords ∩ solutions acoords.length (s.shared.frags.boxes.take 1))).ncard :=
          Set.ncard_le_ncard hsplit ((hfinite _ (List.tail_subset _)).union
            ((hfinite _ (List.take_subset _ _)).inter_of_right _))
      _ ≤ _ := Set.ncard_union_le _ _

/-- The constraint `x ≥ 0` on the interval from 1 to 2: the one line is taken for a header. -/
theorem count_between_interval :
    ∃ (grb : LP → Bool) (sols : List (Solver × Solver)) (w' : World) (s : State),
      driverSolvers (.var ⟨0, false⟩ true) = .ok (sols, w') ∧
      Reaches (solverAnswers grb sols w'.v.varArr.length (fun _ t => t + 1) 1).config
        (init (initialList [(1, 2)] sols.length) 1) s ∧ s.Finished ∧ s.shared.frags.boxes = [⟨[(1, 2)], [1], 1⟩] ∧
      ∃ k, CountSolutions.main (recomputeConfidence (fun _ _ => false) s.shared.frags).print = some k ∧
        k ≤ (integerSolutions [(.var ⟨0, false⟩ true, 1)] [(1, 2)]).ncard ∧
        (strictSolutions [(.var ⟨0, false⟩ true, 1)] [(1, 2)]).ncard ≤
          k + (strictSolutions [(.var ⟨0, false⟩ true, 1)] [(1, 2)] ∩
            solutions 1 (s.shared.frags.boxes.take 1)).ncard := by
  obtain ⟨grb, sols, w', s, hgrb, hr, hrun, hfin, hboxes⟩ := exists_driver_run
  refine ⟨grb, sols, w', s, hr, hrun, hfin, hboxes, ?_⟩
  have hcount := count_between driverWorld_setup hgrb driver_namesBounds
    (fun c hc => ⟨(driver_withinDegree c hc).1, (driver_withinDegree c hc).2.1⟩) hr rfl one_pos
    (List.forall_mem_singleton.2 ⟨1, 2, by norm_num⟩) (List.forall_mem_singleton.2 (by norm_num)) one_pos le_rfl one_pos
    hrun hfin (fun _ _ => false)
  rcases hcount with ⟨hnil, -⟩ | hcount
  · rw [hboxes] at hnil
    cases hnil
  · exact hcount

end

end GridSolve.Grid
