/-
`run_iters` (`approximation.cpp`) on solvers that `solve(3, ..)` has filled. Its calls have type 3 and
find no formula to ask about, so the positive solver of every shape accepts the initial box, whatever
the constraints are.
-/
import GridSolve.Core.ModSolver
import GridSolve.Grid.Iters

namespace GridSolve.Grid

open GridSolve.Core GridSolve.Core.Handelman

/-! ## `run_iters` on the solvers of `solve(3, ..)` -/

/-- The answers that the solvers of a `run_iters` may give: each is asked with type 3, after any calls. -/
def plainConfig (grb : LP → Bool) (v : Vars) (idMap : ℕ → ℕ → ℕ) (n : ℕ) (volLimit : ℚ) (pos neg : List ModSolver) :
    Config where
  shapes := pos.length
  volLimit := volLimit
  integer := false
  pos i c a := ∃ s s₁ s₂ check, pos[i]? = some s ∧ QuantifiedSound check ∧ s.Called grb v idMap n s₁ ∧
    s₁.substitute grb check v idMap 3 c = .ok (a, s₂)
  neg i c a := ∃ s s₁ s₂ check, neg[i]? = some s ∧ QuantifiedSound check ∧ s.Called grb v idMap n s₁ ∧
    s₁.substitute grb check v idMap 3 c = .ok (a, s₂)

/-- The initial box after the first `i` of `k` shapes. -/
def marked (acoords : Coords) (k i : ℕ) : BoundingBox := ⟨acoords, List.replicate i 1 ++ List.replicate (k - i) 0, 0⟩

/-- The initial box, certified. -/
def accepted (acoords : Coords) (k : ℕ) : BoundingBox := ⟨acoords, List.replicate k 1, 1⟩

/-- The initial box in hand, never refused so far. -/
def Stage.Unrefused (acoords : Coords) (k : ℕ) (b : BoundingBox) : Stage → Prop
  | .taken => b = marked acoords k 0
  | .visiting i found => found = .inside ∧ i ≤ k ∧ b = marked acoords k i
  | .finished => b = accepted acoords k
  | _ => False

/-- The list is still the initial box, and nothing was thrown. -/
def IterState.Whole (acoords : Coords) (k : ℕ) (s : IterState) : Prop :=
  s.frags.Holds [0] ∧ s.caught = false ∧ match s.pc with
    | .top => s.itr = 0 ∧ s.currBox = some 0 ∧ s.frags.box 0 = marked acoords k 0 ∨
        s.currBox = none ∧ s.frags.box 0 = accepted acoords k
    | .working st => s.currBox = some 0 ∧ st.Unrefused acoords k (s.frags.box 0)
    | .returned => s.frags.box 0 = accepted acoords k
    | .exited => False

/-- A solver has thrown, and the program is about to end. -/
def IterState.Failing (s : IterState) : Prop :=
  s.caught = true ∧ match s.pc with
    | .working .settle => True
    | .working .finished => True
    | .working (.halved _) => True
    | .exited => True
    | _ => False

section

variable {cfg : Config} {iterLimit : ℤ} {acoords : Coords} {s s' : IterState}

theorem stateAt_marked {k i : ℕ} (hi : i < k) : (marked acoords k i).stateAt i = 0 := by
  simp [BoundingBox.stateAt, marked, List.getD_eq_getElem?_getD, hi]

theorem setState_marked {k i : ℕ} (hi : i < k) : (marked acoords k i).setState i 1 = marked acoords k (i + 1) := by
  obtain ⟨m, rfl⟩ : ∃ m, k = i + (m + 1) := ⟨k - i - 1, by omega⟩
  simp only [BoundingBox.setState, marked, Nat.add_sub_cancel_left, show i + (m + 1) - (i + 1) = m by omega]
  rw [List.set_append_right _ _ (by simp), List.length_replicate, Nat.sub_self, List.replicate_succ (n := m),
    List.set_cons_zero, List.replicate_succ', List.append_assoc]
  rfl

theorem Process.unrefused (hpos : ∀ i, ¬ cfg.pos i acoords .no) {b b' : BoundingBox} {st st' : Stage}
    (h : Process cfg.real b st b' st') (hst : st.Unrefused acoords cfg.shapes b) :
    st'.Unrefused acoords cfg.shapes b' := by
  cases h with
  | invalid hint => cases hint
  | enter => exact ⟨rfl, Nat.zero_le _, hst⟩
  | skip hi hmark =>
    obtain ⟨-, -, rfl⟩ := hst
    rw [stateAt_marked (show _ < cfg.shapes from hi)] at hmark
    exact absurd hmark (lt_irrefl 0)
  | certify hi =>
    obtain ⟨hfound, -, rfl⟩ := hst
    exact ⟨hfound, hi, setState_marked hi⟩
  | refute _ _ hno =>
    obtain ⟨-, -, rfl⟩ := hst
    exact hpos _ hno
  | inconclusive _ _ hno =>
    obtain ⟨-, -, rfl⟩ := hst
    exact absurd hno (hpos _)
  | accept =>
    obtain ⟨-, -, rfl⟩ := hst
    show (marked acoords cfg.shapes cfg.shapes).confirm = accepted acoords cfg.shapes
    simp [marked, accepted, BoundingBox.confirm]
  | undecided => exact absurd hst.1 nofun
  | small => exact hst.elim
  | divide => exact hst.elim

theorem recomputeConfidence_accepted (acoords : Coords) (k : ℕ) :
    (accepted acoords k).recomputeConfidence = accepted acoords k := by
  unfold BoundingBox.recomputeConfidence
  split_ifs <;> rfl

theorem IterStep.whole (hpos : ∀ i, ¬ cfg.pos i acoords .no) (hlimit : 0 < iterLimit) (hs : IterStep cfg iterLimit s s')
    (h : s.Whole acoords cfg.shapes) : s'.Whole acoords cfg.shapes ∨ s'.Failing := by
  obtain ⟨hh, hcaught, hpc'⟩ := h
  cases hs with
  | enter hpc _ hcur =>
    rw [hpc] at hpc'
    rcases hpc' with ⟨-, hcur', hbox⟩ | ⟨hcur', -⟩
    · exact .inl ⟨hh, hcaught, hcur', hbox⟩
    · rw [hcur] at hcur'
      cases hcur'
  | @process n _ _ b' hpc hcur hp =>
    rw [hpc] at hpc'
    obtain ⟨hcur', hst⟩ := hpc'
    obtain rfl : n = 0 := Option.some.inj (hcur.symm.trans hcur')
    refine .inl ⟨hh.setBox 0 b', hcaught, hcur', ?_⟩
    rw [Ll.box_setBox, if_pos rfl]
    exact hp.unrefused hpos hst
  | timeout => exact .inr ⟨rfl, trivial⟩
  | discard hpc =>
    rw [hpc] at hpc'
    exact hpc'.2.elim
  | @advance n hpc hcur =>
    rw [hpc] at hpc'
    obtain ⟨hcur', hbox⟩ := hpc'
    obtain rfl : n = 0 := Option.some.inj (hcur.symm.trans hcur')
    have hnext : s.frags.next 0 = none := (show s.frags.Holds ([] ++ 0 :: []) from hh).next_eq
    refine .inl ⟨hh, hcaught, ?_⟩
    simp only [IterState.after, hcaught, if_neg Bool.false_ne_true]
    exact .inr ⟨hnext, hbox⟩
  | split hpc =>
    rw [hpc] at hpc'
    exact hpc'.2.elim
  | leave hpc hwhy =>
    rw [hpc] at hpc'
    obtain ⟨hh', hbox'⟩ := hh.recomputeConfidence
    rcases hpc' with ⟨hitr, hcur', -⟩ | ⟨-, hbox⟩
    · rcases hwhy with hlt | hnone
      · rw [hitr] at hlt
        exact absurd hlimit hlt
      · rw [hcur'] at hnone
        cases hnone
    · refine .inl ⟨hh', hcaught, ?_⟩
      show s.frags.recomputeConfidence.box 0 = accepted acoords cfg.shapes
      rw [hbox' 0 List.mem_cons_self, hbox, recomputeConfidence_accepted]

theorem IterStep.failing (hs : IterStep cfg iterLimit s s') (h : s.Failing) : s'.Failing := by
  obtain ⟨hcaught, hpc'⟩ := h
  cases hs with
  | enter hpc => rw [hpc] at hpc'; exact hpc'.elim
  | process hpc _ hp =>
    rw [hpc] at hpc'
    refine ⟨hcaught, ?_⟩
    cases hp with
    | small => trivial
    | divide => trivial
    | _ => exact hpc'.elim
  | timeout hpc => rw [hpc] at hpc'; exact hpc'.elim
  | discard hpc => rw [hpc] at hpc'; exact hpc'.elim
  | advance =>
    refine ⟨hcaught, ?_⟩
    simp only [IterState.after, hcaught, if_true]
  | split =>
    refine ⟨hcaught, ?_⟩
    simp only [IterState.after, hcaught, if_true]
  | leave hpc => rw [hpc] at hpc'; exact hpc'.elim

theorem IterReaches.whole (hpos : ∀ i, ¬ cfg.pos i acoords .no) (hlimit : 0 < iterLimit)
    (h : IterReaches cfg iterLimit (iterInit (initialList acoords cfg.shapes)) s) :
    s.Whole acoords cfg.shapes ∨ s.Failing := by
  induction h with
  | refl => exact .inl ⟨Ll.holds_new _, rfl, .inl ⟨rfl, rfl, rfl⟩⟩
  | tail _ hs ih => exact ih.elim (hs.whole hpos hlimit) fun hf => .inr (hs.failing hf)

end

/-- **`run_iters` on the solvers of `solve(3, ..)` certifies everything.** Whatever the constraints are, if
it returns then the list is the initial box, with all shapes certified and the confidence 1. -/
theorem run_iters_accepts_all {w : World} {n : ℕ} {lo hi : ℕ → ℕ} {idMap : ℕ → ℕ → ℕ} (hs : BoxSetup w n lo hi)
    (hv : BoxVars w.v n lo hi) (hid : NamesBounds idMap n lo hi) (grb : LP → Bool) (volLimit : ℚ)
    {pos neg : List ModSolver} (hmod : ∀ s ∈ pos, s.modConstraints = []) {acoords : Coords} (hlen : acoords.length = n)
    {iterLimit : ℤ} (hlimit : 0 < iterLimit) {s : IterState}
    (hrun : IterReaches (plainConfig grb w.v idMap n volLimit pos neg) iterLimit
      (iterInit (initialList acoords pos.length)) s) (hret : s.pc = .returned) :
    s.frags.boxes = [⟨acoords, List.replicate pos.length 1, 1⟩] := by
  have hpos : ∀ i, ¬ (plainConfig grb w.v idMap n volLimit pos neg).pos i acoords .no := by
    rintro i ⟨sol, s₁, s₂, check, hsol, hcheck, hcalled, hcall⟩
    rw [hcalled.substitute_plain hs hv hid hlen (by decide) (by decide)] at hcall
    have hno := congrArg Prod.fst (Except.ok.inj hcall)
    exact hcheck.unsat _ (checked_eq_no.1 hno) (ModSolver.pinned_sat (hmod sol (List.mem_of_getElem? hsol)) _)
  rcases hrun.whole hpos hlimit with ⟨hh, -, hbox⟩ | ⟨-, hfail⟩
  · rw [hret] at hbox
    rw [hh.boxes_eq, List.map_singleton]
    exact congrArg (fun b => [b]) hbox
  · rw [hret] at hfail
    exact hfail.elim

/-- With the constraint `1 = 0` the interval from 0 to 1 is certified. -/
theorem run_iters_accepts_all_driver :
    ∃ s, IterReaches (plainConfig (fun _ => true) driverWorld.v (fun _ t => t + 1) 1 1 [absurdSolver] [absurdSolver]) 3
        (iterInit (initialList [(0, 1)] 1)) s ∧ s.pc = .returned ∧ s.frags.boxes = [⟨[(0, 1)], [1], 1⟩] := by
  have hyes : (plainConfig (fun _ => true) driverWorld.v (fun _ t => t + 1) 1 1 [absurdSolver] [absurdSolver]).pos 0
      [(0, 1)] .yes := by
    refine ⟨absurdSolver, _, absurdSolver.pinned (subMapFrom (fun _ t => t + 1) 0 [(0, 1)] []), exactCheck, rfl,
      exactCheck_sound, .refl, ?_⟩
    rw [driverWorld_setup.substitute_plain driverWorld_vars driver_namesBounds rfl (by decide) (by decide), exactCheck,
      if_pos (ModSolver.pinned_sat rfl _)]
    rfl
  have h1 :=
    (Relation.ReflTransGen.refl (r := IterStep (plainConfig (fun _ => true) driverWorld.v (fun _ t => t + 1) 1 1
      [absurdSolver] [absurdSolver]) 3) (a := iterInit (initialList [(0, 1)] 1))).tail (.enter rfl (by decide) rfl)
  have h2 := h1.tail (.process rfl rfl (.enter nofun))
  have h3 := h2.tail (.process rfl rfl (.certify (by decide) (by decide) hyes))
  have h4 := h3.tail (.process rfl rfl .accept)
  have h5 := h4.tail (.advance rfl rfl)
  have h6 := h5.tail (.leave rfl (.inr rfl))
  refine ⟨_, h6, rfl, ?_⟩
  exact run_iters_accepts_all driverWorld_setup driverWorld_vars driver_namesBounds _ 1
    (List.forall_mem_singleton.2 rfl) rfl (by decide) h6 rfl

end GridSolve.Grid
