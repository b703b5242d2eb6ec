/-
The solver of the plain path. A call of `bounding_box::substitute` with type 3, the one that
`run_iters` makes, throws the other constraints of the solver away, pins the templates of the bounds
to the corners of the box and asks z3 about the kept formulas. On a solver that `plain_solve` has
prepared that decides the box; on one that `solve(3, ..)` has filled nothing is left to ask, so every
box is accepted.
-/
import GridSolve.Core.Incremental
import GridSolve.Core.PlainSolve
import GridSolve.Grid.Refine

namespace GridSolve.Core

open MvPolynomial Handelman GridSolve.Poly GridSolve.Grid GridSolve.Specialize
open GridSolve.Poly.Multinomial (WF mapCoeffs toMv_congr)
open GridSolve.Trace (bind_ok)

/-! ## A solver that is asked again and again -/

/-- The class `solver` with its `mod_constraints`. -/
structure ModSolver extends Solver where
  modConstraints : List Quantified
  deriving DecidableEq, Repr

/-- The entries of a `std::map`, in the order of the keys. -/
def SubMap.entries (m : SubMap) : List (ℕ × ℚ) :=
  ((m.map Prod.fst).dedup.mergeSort fun i j => i ≤ j).filterMap fun i => (m.lookup i).map fun c => (i, c)

/-- How `substitute` ends on what z3 has answered. -/
def checked : CheckResult → Grid.Answer
  | .sat => .yes
  | .unsat => .no
  | .unknown => .timeout

namespace ModSolver

/-- What `solver::solve(silent, sub_map, "z3")` adds to the solver. -/
def formulas (s : ModSolver) (sub : SubMap) : List Quantified :=
  s.eq.map (fun a => .eq (printSymWith (some sub) a)) ++ s.ineq.map (fun a => .ge (printSymWith (some sub) a)) ++
    s.modConstraints.map (·.subst sub)

/-- `empty_constraints`. -/
def emptyConstraints (s : ModSolver) : ModSolver := { s with eq := [], ineq := [] }

/-- The new constraints of a call with type 3: an equation for every template of the map. -/
def pin (v : Vars) (m : SubMap) (s : ModSolver) : Except Err ModSolver :=
  m.entries.foldlM (fun s e => do
    let x ← v.byIndex e.1
    return { s with toSolver := s.toSolver.add (x.addDouble (-1 * e.2)) false }) s.emptyConstraints

/-- `bounding_box::substitute`, `grb` telling whether Gurobi reports `OPTIMAL` and `check` what z3 answers. -/
def substitute (grb : LP → Bool) (check : List Quantified → CheckResult) (v : Vars) (idMap : ℕ → ℕ → ℕ) (type : ℤ)
    (coords : Coords) (s : ModSolver) : Except Err (Grid.Answer × ModSolver) := do
  let m := subMapFrom idMap 0 coords []
  if type = 0 then return (if grb (s.lp v.varArr.length m) then .yes else .no, s)
  else if type = 1 then return (checked (check (s.formulas m)), s)
  else
    let s ← s.pin v m
    return (checked (check (s.formulas m)), s)

end ModSolver

/-- There are values for the constants that make all formulas true. -/
def QuantifiedSat (fs : List Quantified) : Prop := ∃ x, ∀ f ∈ fs, f.Holds x

/-- The answers `sat` and `unsat` are right. -/
structure QuantifiedSound (check : List Quantified → CheckResult) : Prop where
  sat : ∀ fs, check fs = .sat → QuantifiedSat fs
  unsat : ∀ fs, check fs = .unsat → ¬ QuantifiedSat fs

theorem mem_entries {m : SubMap} {e : ℕ × ℚ} : e ∈ m.entries ↔ m.lookup e.1 = some e.2 := by
  simp only [SubMap.entries, List.mem_filterMap, List.mem_mergeSort, List.mem_dedup, Option.map_eq_some_iff]
  constructor
  · rintro ⟨i, -, c, hc, rfl⟩
    exact hc
  · intro h
    refine ⟨e.1, ?_, e.2, h, rfl⟩
    by_contra hne
    rw [List.lookup_eq_none_iff.2 fun x hx => by
      have hx' : e.1 ≠ x.1 := fun he => hne (he ▸ List.mem_map_of_mem hx)
      simpa using hx'] at h
    cases h

/-- The equation of a template, as it is stored. -/
def pinEq (e : ℕ × ℚ) : Multinomial := .node false ⟨e.1, true⟩ [(0, .const false (-e.2)), (1, .const false 1)]

theorem add_pin (e : ℕ × ℚ) (s : Solver) :
    s.add ((Multinomial.var ⟨e.1, true⟩ true).addDouble (-1 * e.2)) false = { s with eq := s.eq ++ [pinEq e] } := by
  have hadd : (Multinomial.var ⟨e.1, true⟩ true).addDouble (-1 * e.2) = pinEq e := by
    by_cases hc : e.2 = 0 <;>
      simp [Multinomial.var, Multinomial.addDouble, Multinomial.addDoubleMp, Multinomial.copy, Multinomial.simplify,
        Multinomial.isZero, List.lookup_cons, pinEq, hc]
  rw [hadd]
  rfl

/-- The constraints of the solver after a call with type 3. -/
def ModSolver.pinned (m : SubMap) (s : ModSolver) : ModSolver := { s with eq := m.entries.map pinEq, ineq := [] }

theorem pin_loop (v : Vars) : ∀ (l : List (ℕ × ℚ)) (s : ModSolver),
    (∀ e ∈ l, v.varArr[e.1]? = some (.var ⟨e.1, true⟩ true)) →
    l.foldlM (fun (s : ModSolver) e => do
      let x ← v.byIndex e.1
      return { s with toSolver := s.toSolver.add (x.addDouble (-1 * e.2)) false }) s =
      (.ok { s with eq := s.eq ++ l.map pinEq } : Except Err ModSolver)
  | [], s, _ => by
    rw [List.map_nil, List.append_nil]
    rfl
  | e :: l, s, h => by
    rw [List.forall_mem_cons] at h
    have hx : v.byIndex e.1 = .ok (.var ⟨e.1, true⟩ true) := by
      rw [Vars.byIndex, if_neg (by omega), Int.toNat_natCast, h.1]
    rw [List.foldlM_cons, hx]
    refine (pin_loop v l _ h.2).trans ?_
    simp only [add_pin, List.map_cons, List.append_assoc, List.singleton_append]

section

variable {w : World} {n nExpr : ℕ} {lo hi : ℕ → ℕ} {idMap : ℕ → ℕ → ℕ} {coords coords' : Coords} {s : ModSolver}

/-- The keys of the map are the templates of the bounds. -/
theorem Handelman.BoxSetup.lookup_iff (hs : BoxSetup w n lo hi) (hid : NamesBounds idMap n lo hi)
    (hlen : coords.length = n) {t : ℕ} {c : ℚ} :
    (subMapFrom idMap 0 coords []).lookup t = some c ↔ ∃ j < 2 * n, t = boundId lo hi j ∧ c = bound coords j := by
  have hbound : ∀ j < 2 * n, (subMapFrom idMap 0 coords []).lookup (boundId lo hi j) = some (bound coords j) := by
    intro j hj
    have hlt : j / 2 < coords.length := by omega
    rw [hs.lookup_bound hid hlen hj (List.getElem?_eq_getElem hlt), bound, List.getElem?_eq_getElem hlt]
    rfl
  constructor
  · intro h
    by_cases hkey : ∃ j < 2 * n, t = boundId lo hi j
    · obtain ⟨j, hj, rfl⟩ := hkey
      exact ⟨j, hj, rfl, Option.some.inj (h.symm.trans (hbound j hj))⟩
    · rw [lookup_subMapFrom_of_ne] at h
      · cases h
      · intro k _ hk
        obtain ⟨h0, h1⟩ := hid k (by omega)
        constructor
        · rintro rfl
          refine hkey ⟨2 * k, by omega, ?_⟩
          rw [h0, boundId, if_pos (by omega), show 2 * k / 2 = k by omega]
        · rintro rfl
          refine hkey ⟨2 * k + 1, by omega, ?_⟩
          rw [h1, boundId, if_neg (by omega), show (2 * k + 1) / 2 = k by omega]
  · rintro ⟨j, hj, rfl, rfl⟩
    exact hbound j hj

/-- A call with type 3 throws the constraints away and pins the bounds. -/
theorem Handelman.BoxSetup.pin_eq (hs : BoxSetup w n lo hi) (hv : BoxVars w.v n lo hi) (hid : NamesBounds idMap n lo hi)
    (hlen : coords.length = n) (s : ModSolver) :
    s.pin w.v (subMapFrom idMap 0 coords []) = .ok (s.pinned (subMapFrom idMap 0 coords [])) := by
  refine pin_loop w.v _ s.emptyConstraints fun e he => ?_
  obtain ⟨j, hj, ht, -⟩ := (hs.lookup_iff hid hlen).1 (mem_entries.1 he)
  rw [ht]
  exact hv.bound hj

theorem eval_printSymWith_pinEq {m : SubMap} {e : ℕ × ℚ} {c : ℚ} (h : m.lookup e.1 = some c) (x : ℕ → ℝ) :
    (printSymWith (some m) (pinEq e)).eval x = toStringVal c - toStringVal e.2 := by
  have hone : toStringVal 1 = 1 := by decide +kernel
  simp [pinEq, printSymWith, printSymWithMp, symEntry, Core.pow, boundTo, h, realVal, Term.eval, hone, toStringVal_neg]
  ring

theorem eval_printSymGRB_pinEq {m : SubMap} {e : ℕ × ℚ} {c : ℚ} (h : m.lookup e.1 = some c) (u : ℕ → ℝ) :
    (printSymGRB m (pinEq e)).eval u = c - e.2 := by
  simp [pinEq, printSymGRB, printSymGRBMp, printEntry, h, LinExpr.eval, LinExpr.add, LinExpr.scale]
  ring

/-- Two boxes with the same corners. -/
theorem coords_eq_iff (hlen : coords.length = n) (hlen' : coords'.length = n) :
    coords' = coords ↔ ∀ j < 2 * n, bound coords' j = bound coords j := by
  refine ⟨fun h _ _ => by rw [h], fun h => ?_⟩
  refine List.ext_getElem (hlen'.trans hlen.symm) fun i hi' hi => ?_
  have h1 := h (2 * i) (by omega)
  have h2 := h (2 * i + 1) (by omega)
  unfold bound at h1 h2
  rw [show 2 * i / 2 = i by omega, List.getElem?_eq_getElem hi, List.getElem?_eq_getElem hi'] at h1
  rw [show (2 * i + 1) / 2 = i by omega, List.getElem?_eq_getElem hi, List.getElem?_eq_getElem hi'] at h2
  exact Prod.ext (by simpa using h1) (by simpa using h2)

/-- Gurobi compares the two boxes. -/
theorem Handelman.BoxSetup.feasible_pinned_iff (hs : BoxSetup w n lo hi) (hid : NamesBounds idMap n lo hi)
    (hlen : coords.length = n) (hlen' : coords'.length = n) (s : ModSolver) (sz : ℕ) :
    ((s.pinned (subMapFrom idMap 0 coords [])).lp sz (subMapFrom idMap 0 coords' [])).Feasible ↔ coords' = coords := by
  have hrow : ∀ j < 2 * n, ∀ u,
      (printSymGRB (subMapFrom idMap 0 coords' []) (pinEq (boundId lo hi j, bound coords j))).eval u =
        bound coords' j - bound coords j := fun j hj u =>
    eval_printSymGRB_pinEq ((hs.lookup_iff hid hlen').2 ⟨j, hj, rfl, rfl⟩) u
  rw [coords_eq_iff hlen hlen']
  simp only [LP.Feasible, Solver.lp, ModSolver.pinned, List.map_nil, List.nil_append, List.mem_flatMap, List.mem_map]
  constructor
  · rintro ⟨u, -, hu⟩ j hj
    have hmem : (boundId lo hi j, bound coords j) ∈ SubMap.entries (subMapFrom idMap 0 coords []) :=
      mem_entries.2 ((hs.lookup_iff hid hlen).2 ⟨j, hj, rfl, rfl⟩)
    have hge : 0 ≤ (printSymGRB (subMapFrom idMap 0 coords' []) (pinEq (boundId lo hi j, bound coords j))).eval u :=
      hu (.ge _) ⟨_, ⟨_, hmem, rfl⟩, List.mem_cons_self⟩
    have hle : (printSymGRB (subMapFrom idMap 0 coords' []) (pinEq (boundId lo hi j, bound coords j))).eval u ≤ 0 :=
      hu (.le _) ⟨_, ⟨_, hmem, rfl⟩, List.mem_cons_of_mem _ List.mem_cons_self⟩
    rw [hrow j hj] at hge hle
    exact_mod_cast sub_eq_zero.1 (le_antisymm hle hge)
  · intro heq
    refine ⟨fun _ => 0, fun _ _ => le_rfl, ?_⟩
    rintro r ⟨_, ⟨e, he, rfl⟩, hr⟩
    obtain ⟨j, hj, ht, hc⟩ := (hs.lookup_iff hid hlen).1 (mem_entries.1 he)
    obtain rfl : e = (boundId lo hi j, bound coords j) := Prod.ext ht hc
    have hzero := hrow j hj fun _ => 0
    rw [heq j hj, sub_self] at hzero
    simp only [List.mem_cons, List.not_mem_nil, or_false] at hr
    rcases hr with rfl | rfl
    · exact hzero.ge
    · exact hzero.le

/-- For z3 the pinned bounds are what it was given as their values. -/
theorem ModSolver.holds_pinned (s : ModSolver) (m : SubMap) (x : ℕ → ℝ) :
    (∀ f ∈ (s.pinned m).formulas m, f.Holds x) ↔ ∀ f ∈ s.modConstraints, (f.subst m).Holds x := by
  simp only [ModSolver.formulas, ModSolver.pinned, List.map_nil, List.append_nil, List.forall_mem_append,
    List.forall_mem_map]
  refine and_iff_right fun e he => ?_
  rw [Quantified.Holds, eval_printSymWith_pinEq (mem_entries.1 he), sub_self]

/-- Any number of calls of `substitute` on one solver, of any types and on any boxes of dimension `n`. -/
def ModSolver.Called (grb : LP → Bool) (v : Vars) (idMap : ℕ → ℕ → ℕ) (n : ℕ) : ModSolver → ModSolver → Prop :=
  Relation.ReflTransGen fun s s' => ∃ check type coords a, coords.length = n ∧
    s.substitute grb check v idMap type coords = .ok (a, s')

variable {grb : LP → Bool} {check : List Quantified → CheckResult}

theorem Handelman.BoxSetup.substitute_plain (hs : BoxSetup w n lo hi) (hv : BoxVars w.v n lo hi)
    (hid : NamesBounds idMap n lo hi) (hlen : coords.length = n) {type : ℤ} (h0 : type ≠ 0) (h1 : type ≠ 1)
    (s : ModSolver) : s.substitute grb check w.v idMap type coords =
      .ok (checked (check ((s.pinned (subMapFrom idMap 0 coords [])).formulas (subMapFrom idMap 0 coords []))),
        s.pinned (subMapFrom idMap 0 coords [])) := by
  rw [ModSolver.substitute, if_neg h0, if_neg h1, hs.pin_eq hv hid hlen]
  rfl

/-- However often it was asked, a solver has the constraints it had or is pinned to a box. -/
theorem ModSolver.Called.state (hs : BoxSetup w n lo hi) (hv : BoxVars w.v n lo hi) (hid : NamesBounds idMap n lo hi)
    {s₁ : ModSolver} (h : s.Called grb w.v idMap n s₁) :
    s₁ = s ∨ ∃ coords, coords.length = n ∧ s₁ = s.pinned (subMapFrom idMap 0 coords []) := by
  induction h with
  | refl => exact .inl rfl
  | tail _ hstep ih =>
    obtain ⟨check, type, coords, a, hlen, hok⟩ := hstep
    by_cases h0 : type = 0
    · rw [ModSolver.substitute, if_pos h0] at hok
      cases hok
      exact ih
    by_cases h1 : type = 1
    · rw [ModSolver.substitute, if_neg h0, if_pos h1] at hok
      cases hok
      exact ih
    rw [hs.substitute_plain hv hid hlen h0 h1] at hok
    cases hok
    refine .inr ⟨coords, hlen, ?_⟩
    rcases ih with rfl | ⟨_, _, rfl⟩ <;> rfl

/-- What a call with type 3 asks z3, whatever calls there were before. -/
theorem ModSolver.Called.substitute_plain (hs : BoxSetup w n lo hi) (hv : BoxVars w.v n lo hi)
    (hid : NamesBounds idMap n lo hi) {s₁ : ModSolver} (h : s.Called grb w.v idMap n s₁) (hlen : coords.length = n)
    {type : ℤ} (h0 : type ≠ 0) (h1 : type ≠ 1) :
    s₁.substitute grb check w.v idMap type coords =
      .ok (checked (check ((s.pinned (subMapFrom idMap 0 coords [])).formulas (subMapFrom idMap 0 coords []))),
        s.pinned (subMapFrom idMap 0 coords [])) := by
  rw [hs.substitute_plain hv hid hlen h0 h1]
  rcases h.state hs hv hid with rfl | ⟨_, _, rfl⟩ <;> rfl

theorem checked_eq_yes {r : CheckResult} : checked r = .yes ↔ r = .sat := by cases r <;> simp [checked]

theorem checked_eq_no {r : CheckResult} : checked r = .no ↔ r = .unsat := by cases r <;> simp [checked]

/-- A solver without formulas of `plain_solve` has nothing left that could be false. -/
theorem ModSolver.pinned_sat (hmod : s.modConstraints = []) (m : SubMap) : QuantifiedSat ((s.pinned m).formulas m) := by
  refine ⟨0, (s.holds_pinned m 0).2 ?_⟩
  rw [hmod]
  exact List.forall_mem_nil _

/-- **A call with type 3 forgets the constraints.** On a solver that `solve(3, ..)` has filled, after any
calls, it does not answer no, whatever the constraints were. And from then on Gurobi, asked about a box,
answers whether it is the one of that call. -/
theorem plain_call_forgets (hs : BoxSetup w n lo hi) (hv : BoxVars w.v n lo hi) (hid : NamesBounds idMap n lo hi)
    (hgrb : ∀ lp, grb lp = true ↔ lp.Feasible) (hcheck : QuantifiedSound check) (hmod : s.modConstraints = [])
    {s₁ : ModSolver} (hcalled : s.Called grb w.v idMap n s₁) (hlen : coords.length = n) {type : ℤ} (h0 : type ≠ 0)
    (h1 : type ≠ 1) :
    ∃ a s₂, s₁.substitute grb check w.v idMap type coords = .ok (a, s₂) ∧ a ≠ .no ∧
      ∀ check' coords', coords'.length = n →
        s₂.substitute grb check' w.v idMap 0 coords' = .ok (if coords' = coords then .yes else .no, s₂) := by
  refine ⟨_, _, hcalled.substitute_plain hs hv hid hlen h0 h1, ?_, fun check' coords' hlen' => ?_⟩
  · rw [Ne, checked_eq_no]
    exact fun hun => hcheck.unsat _ hun (ModSolver.pinned_sat hmod _)
  · have hiff := hs.feasible_pinned_iff hid hlen hlen' s w.v.varArr.length
    rw [← hgrb] at hiff
    simp only [ModSolver.substitute, if_true, hiff]
    rfl

theorem driverWorld_vars : BoxVars driverWorld.v 1 (fun _ => 1) (fun _ => 2) where
  prog := by decide
  lower := by decide
  upper := by decide

open Classical in
/-- z3 without a limit of time. -/
noncomputable def exactCheck (fs : List Quantified) : CheckResult := if QuantifiedSat fs then .sat else .unsat

theorem exactCheck_sound : QuantifiedSound exactCheck := by
  constructor <;> intro fs h <;> unfold exactCheck at h <;> split_ifs at h with hsat <;> exact hsat

/-- The constraint `1 = 0`. -/
def absurdSolver : ModSolver := ⟨⟨[.const true 1], []⟩, []⟩

/-- The constraint `1 = 0` is gone after a call. -/
theorem plain_call_forgets_driver :
    ∃ (grb : LP → Bool) (a : Grid.Answer) (s₂ : ModSolver), (∀ lp, grb lp = true ↔ lp.Feasible) ∧
      absurdSolver.substitute grb exactCheck driverWorld.v (fun _ t => t + 1) 3 [(1, 2)] = .ok (a, s₂) ∧ a ≠ .no ∧
    s₂.substitute grb exactCheck driverWorld.v (fun _ t => t + 1) 0 [(1, 2)] = .ok (.yes, s₂) ∧
    s₂.substitute grb exactCheck driverWorld.v (fun _ t => t + 1) 0 [(1, 3)] = .ok (.no, s₂) := by
  classical
  have hgrb : ∀ lp : LP, decide lp.Feasible = true ↔ lp.Feasible := fun lp => decide_eq_true_iff
  obtain ⟨a, s₂, hcall, ha, hlater⟩ := plain_call_forgets (s := absurdSolver) driverWorld_setup
    driverWorld_vars driver_namesBounds hgrb exactCheck_sound rfl .refl
    (show ([(1, 2)] : Coords).length = 1 from rfl) (show (3 : ℤ) ≠ 0 by decide) (by decide)
  refine ⟨_, a, s₂, hgrb, hcall, ha, ?_, ?_⟩
  · rw [hlater _ _ rfl, if_pos rfl]
  · rw [hlater _ _ rfl, if_neg (by decide)]

theorem Handelman.plainSolve_eq {h : Handelman} {f : Quantified} (hf : premise h.lhs = some f) (v : Vars) (nExpr : ℕ) :
    h.plainSolve v nExpr = some (h.rhsArr.map fun rhs => quantify v nExpr (.implies f (.ge (printSym rhs)))) := by
  rw [Handelman.plainSolve, hf]
  exact List.mapM_pure

theorem Handelman.BoxSetup.exists_premise (hs : BoxSetup w n lo hi) (hn : 0 < n) {h : Handelman}
    (hl : h.lhs = (new.addBox n lo hi).lhs) : ∃ f, premise h.lhs = some f := by
  have hlen := hs.lhs_length hl
  cases hlhs : h.lhs with
  | nil =>
    rw [hlhs, List.length_nil] at hlen
    omega
  | cons p ps => exact ⟨_, rfl⟩

/-- The formulas of `plain_solve` are satisfiable exactly when the right-hand sides are non-negative on
the box. -/
theorem Handelman.BoxSetup.plain_sat_iff (hs : BoxSetup w n lo hi) (hv : BoxVars w.v n lo hi)
    (hid : NamesBounds idMap n lo hi) (hexpr : n ≤ nExpr) (hlen : coords.length = n) {h : Handelman}
    (hl : h.lhs = (new.addBox n lo hi).lhs) (hrhs : ∀ p ∈ h.rhsArr, WF (InProg n) 0 p) {fs : List Quantified}
    (hfs : h.plainSolve w.v nExpr = some fs) (hn : 0 < n) (hmod : s.modConstraints = fs) :
    QuantifiedSat ((s.pinned (subMapFrom idMap 0 coords [])).formulas (subMapFrom idMap 0 coords [])) ↔
      ∀ p ∈ h.rhsArr, ∀ y, InBox (printedBox coords) y → 0 ≤ aeval y (p.mapCoeffs toStringVal).toMv := by
  obtain ⟨f, hf⟩ := hs.exists_premise hn hl
  obtain rfl : h.rhsArr.map (fun rhs => quantify w.v nExpr (.implies f (.ge (printSym rhs)))) = fs :=
    Option.some.inj ((plainSolve_eq hf w.v nExpr).symm.trans hfs)
  have hpoint : ∀ x, (∀ f ∈ s.modConstraints, (f.subst (subMapFrom idMap 0 coords [])).Holds x) ↔
      ∀ p ∈ h.rhsArr, ∀ y, InBox (printedBox coords) y → 0 ≤ aeval y (p.mapCoeffs toStringVal).toMv := by
    intro x
    rw [hmod, List.forall_mem_map]
    exact forall₂_congr fun p hp => hs.holds_plain hv hexpr hid hlen hl hf (hrhs p hp) x
  simp only [QuantifiedSat, ModSolver.holds_pinned, hpoint, exists_const]

/-- **The verdict of the plain path.** On a solver that `plain_solve` has prepared, after any calls, a
call with type 3 answers yes only if every right-hand side is non-negative on the box and no only if
one is not, up to the digits that are printed. -/
theorem plain_verdict (hs : BoxSetup w n lo hi) (hv : BoxVars w.v n lo hi) (hid : NamesBounds idMap n lo hi)
    (hn : 0 < n) (hexpr : n ≤ nExpr) {h : Handelman} (hl : h.lhs = (new.addBox n lo hi).lhs)
    (hrhs : ∀ p ∈ h.rhsArr, WF (InProg n) 0 p) (hcheck : QuantifiedSound check) :
    ∃ fs, h.plainSolve w.v nExpr = some fs ∧ ∀ (grb : LP → Bool) (s : ModSolver), s.modConstraints = fs →
      ∀ s₁, s.Called grb w.v idMap n s₁ → ∀ coords type, coords.length = n → type ≠ 0 → type ≠ 1 →
        ∃ a s₂, s₁.substitute grb check w.v idMap type coords = .ok (a, s₂) ∧
          (a = .yes → ∀ p ∈ h.rhsArr, ∀ y, InBox (printedBox coords) y → 0 ≤ aeval y (p.mapCoeffs toStringVal).toMv) ∧
          (a = .no → ∃ p ∈ h.rhsArr, ∃ y, InBox (printedBox coords) y ∧
          aeval y (p.mapCoeffs toStringVal).toMv < 0) := by
  obtain ⟨f, hf⟩ := hs.exists_premise hn hl
  refine ⟨_, plainSolve_eq hf w.v nExpr, fun grb s hmod s₁ hcalled coords type hlen h0 h1 => ?_⟩
  have hsat := hs.plain_sat_iff hv hid hexpr hlen hl hrhs (plainSolve_eq hf w.v nExpr) hn hmod
  refine ⟨_, _, hcalled.substitute_plain hs hv hid hlen h0 h1, fun hyes => ?_, fun hno => ?_⟩
  · exact hsat.1 (hcheck.sat _ (checked_eq_yes.1 hyes))
  · have hun := mt hsat.2 (hcheck.unsat _ (checked_eq_no.1 hno))
    push Not at hun
    exact hun

/-! ## The plain path and the certificates -/

theorem coeffs_bare (m : Multinomial) : m.bare.coeffs = m.coeffs := by
  induction m with
  | const s c => rfl
  | node s k mp ih =>
    rw [Multinomial.bare, Multinomial.coeffs, Multinomial.coeffs, Multinomial.coeffsMp_eq, Multinomial.coeffsMp_eq,
      Multinomial.bareMp_eq, Entries.mapVals, List.flatMap_map]
    exact List.flatMap_congr ih

theorem mapCoeffs_stored {p : Multinomial} (h : ∀ c ∈ p.coeffs, sixDecimals c = true) :
    (stored p).mapCoeffs toStringVal = stored p := by
  refine Multinomial.mapCoeffs_eq_self fun c hc => toStringVal_eq_self_iff.2 (h c ?_)
  rwa [← coeffs_bare, bare_stored, coeffs_bare] at hc

/-- `x ≥ 0` is not accepted on the interval from -1 to 1, and not refused on the one from 1 to 2. -/
theorem plain_verdict_interval : ∃ fs, (boxCore 1 (fun _ => 1) (fun _ => 2) (.var ⟨0, false⟩ true) 1).plainSolve
      driverWorld.v 3 = some fs ∧
    ∀ grb, ∃ a s₁ a' s₂,
      (ModSolver.mk ⟨[], []⟩ fs).substitute grb exactCheck driverWorld.v (fun _ t => t + 1) 3 [(-1, 1)] = .ok (a, s₁) ∧
      a ≠ .yes ∧ s₁.substitute grb exactCheck driverWorld.v (fun _ t => t + 1) 3 [(1, 2)] = .ok (a', s₂) ∧
        a' ≠ .no := by
  have hrhs : ∀ q ∈ (boxCore 1 (fun _ => 1) (fun _ => 2) (.var ⟨0, false⟩ true) 1).rhsArr, WF (InProg 1) 0 q := by
    rw [boxCore_rhsArr]
    exact List.forall_mem_singleton.2 (wf_stored wf_driverVar)
  have hval : ∀ y : ℕ → ℝ, aeval y ((stored (.var ⟨0, false⟩ true)).mapCoeffs toStringVal).toMv = y 0 := fun y => by
    rw [mapCoeffs_stored (by decide +kernel), toMv_congr (bare_stored _), Multinomial.toMv_var, aeval_X]
  have hbox : printedBox [(-1, 1)] = [(-1, 1)] ∧ printedBox [(1, 2)] = [(1, 2)] := by decide +kernel
  obtain ⟨fs, hfs, hall⟩ := plain_verdict driverWorld_setup driverWorld_vars driver_namesBounds one_pos
    (show 1 ≤ 3 by decide) boxCore_lhs hrhs exactCheck_sound
  refine ⟨fs, hfs, fun grb => ?_⟩
  obtain ⟨a, s₁, hcall, hyes, -⟩ := hall grb ⟨⟨[], []⟩, fs⟩ rfl _ .refl [(-1, 1)] 3 rfl (by decide) (by decide)
  obtain ⟨a', s₂, hcall', -, hno⟩ :=
    hall grb ⟨⟨[], []⟩, fs⟩ rfl s₁ (.single ⟨_, 3, [(-1, 1)], a, rfl, hcall⟩) [(1, 2)] 3 rfl (by decide) (by decide)
  refine ⟨a, s₁, a', s₂, hcall, fun ha => ?_, hcall', fun ha => ?_⟩
  · have hneg := hyes ha _ (by rw [boxCore_rhsArr]; exact List.mem_singleton_self _) (fun _ => -1) (by
      rw [hbox.1, inBox_singleton]
      norm_num)
    rw [hval] at hneg
    norm_num at hneg
  · obtain ⟨q, hq, y, hy, hlt⟩ := hno ha
    rw [boxCore_rhsArr, List.mem_singleton] at hq
    rw [hq, hval] at hlt
    rw [hbox.2, inBox_singleton] at hy
    norm_num at hy
    linarith [hy.1]

/-- **The plain path and the certificate of Gurobi.** Where six decimals are enough, the plain path does
not refuse a box that has a certificate; and if the constraint is of degree one, it does not accept a
box that has none. -/
theorem plain_agrees_with_certificate (hs : BoxSetup w n lo hi) (hv : BoxVars w.v n lo hi)
    (hid : NamesBounds idMap n lo hi) (hn : 0 < n) (hexpr : n ≤ nExpr) (hgrb : ∀ lp, grb lp = true ↔ lp.Feasible)
    (hcheck : QuantifiedSound check) {p : Multinomial} (hp : WF (InProg n) 0 p) {adeg : ℤ} {fuel : ℕ}
    (hfuel0 : 0 < fuel) (hfuel : (boxCore n lo hi p adeg).maxDeg < fuel) {w' : World}
    (hok : (boxCore n lo hi p adeg).solve fuel w.newSolver = .ok w')
    (hplain : (boxCore n lo hi p adeg).plainSolve w.v nExpr = some s.modConstraints) {s₁ s₂ : ModSolver}
    (hcalled : s.Called grb w.v idMap n s₁) (hcoeffs : ∀ c ∈ p.coeffs, sixDecimals c = true)
    (hcorners : CornersExact coords) (hlen : coords.length = n) (hvalid : ∀ c ∈ coords, c.1 ≤ c.2) {a : Grid.Answer}
    (hcall : s₁.substitute grb check w.v idMap 3 coords = .ok (a, s₂)) (sz : ℕ) :
    (substitute grb w'.s sz idMap coords = true → a ≠ .no) ∧
      (p.toMv.totalDegree ≤ 1 → (p.toMv.totalDegree : ℤ) ≤ (boxCore n lo hi p adeg).maxDeg →
        substitute grb w'.s sz idMap coords = false → a ≠ .yes) := by
  have hrhs : ∀ q ∈ (boxCore n lo hi p adeg).rhsArr, WF (InProg n) 0 q := by
    rw [boxCore_rhsArr]
    exact List.forall_mem_singleton.2 (wf_stored hp)
  have hsat : QuantifiedSat ((s.pinned (subMapFrom idMap 0 coords [])).formulas (subMapFrom idMap 0 coords [])) ↔
      ∀ x, InBox coords x → 0 ≤ aeval x p.toMv := by
    rw [hs.plain_sat_iff hv hid hexpr hlen boxCore_lhs hrhs hplain hn rfl, boxCore_rhsArr, List.forall_mem_singleton,
      mapCoeffs_stored hcoeffs, toMv_congr (bare_stored p)]
    simp only [printedBox_eq_iff.2 (.inl hcorners)]
  rw [hcalled.substitute_plain hs hv hid hlen (by decide) (by decide)] at hcall
  cases hcall
  constructor
  · intro hyes hno
    refine hcheck.unsat _ (checked_eq_no.1 hno) (hsat.2 fun x hx => ?_)
    exact hs.newSolver.nonneg_of_substitute hgrb hp hok hid hlen hyes hx
  · intro hlin hdeg hno hyes
    have hpos := hsat.1 (hcheck.sat _ (checked_eq_yes.1 hyes))
    rw [(hs.substitute_iff hgrb hid hlen hp hfuel0 hfuel hok sz).2 (combines_of_linear hp hlin hdeg hvalid hpos)] at hno
    cases hno

/-- The certificate for `x ≥ 0` on the interval from 1 to 2. -/
theorem plain_agrees_with_certificate_interval : ∃ (grb : LP → Bool) (w' : World) (s s₂ : ModSolver) (a : Grid.Answer),
    (∀ lp, grb lp = true ↔ lp.Feasible) ∧
    (boxCore 1 (fun _ => 1) (fun _ => 2) (.var ⟨0, false⟩ true) 1).solve 2 driverWorld.newSolver = .ok w' ∧
    (boxCore 1 (fun _ => 1) (fun _ => 2) (.var ⟨0, false⟩ true) 1).plainSolve driverWorld.v 3 = some s.modConstraints ∧
    substitute grb w'.s 6 (fun _ t => t + 1) [(1, 2)] = true ∧
    s.substitute grb exactCheck driverWorld.v (fun _ t => t + 1) 3 [(1, 2)] = .ok (a, s₂) ∧ a ≠ .no := by
  have hcorners : CornersExact [(1, 2)] := by
    unfold CornersExact
    decide +kernel
  classical
  have hgrb : ∀ lp : LP, decide lp.Feasible = true ↔ lp.Feasible := fun lp => decide_eq_true_iff
  have hlp : ((boxCore 1 (fun _ => 1) (fun _ => 2) (.var ⟨0, false⟩ true) 1).solve 2 driverWorld.newSolver).map
      (fun w => w.s.lp 6 (subMapFrom (fun _ t => t + 1) 0 [(1, 2)] [])) = .ok (driverLP 6) := by decide +kernel
  cases hok : (boxCore 1 (fun _ => 1) (fun _ => 2) (.var ⟨0, false⟩ true) 1).solve 2 driverWorld.newSolver with
  | error e =>
    rw [hok] at hlp
    cases hlp
  | ok w' =>
    rw [hok] at hlp
    have hrows : w'.s.lp 6 (subMapFrom (fun _ t => t + 1) 0 [(1, 2)] []) = driverLP 6 := by injection hlp
    have hyes : substitute (fun lp => decide lp.Feasible) w'.s 6 (fun _ t => t + 1) [(1, 2)] = true := by
      rw [substitute, hrows]
      exact decide_eq_true (driverLP_feasible 6)
    obtain ⟨f, hf⟩ := driverWorld_setup.exists_premise one_pos
      (boxCore_lhs : (boxCore 1 (fun _ => 1) (fun _ => 2) (.var ⟨0, false⟩ true) 1).lhs = _)
    obtain ⟨fs, hplain⟩ : ∃ fs, (boxCore 1 (fun _ => 1) (fun _ => 2) (.var ⟨0, false⟩ true) 1).plainSolve
        driverWorld.v 3 = some fs :=
      ⟨_, plainSolve_eq hf driverWorld.v 3⟩
    have hcall : (ModSolver.mk ⟨[], []⟩ fs).substitute (fun lp => decide lp.Feasible) exactCheck driverWorld.v
        (fun _ t => t + 1) 3 [(1, 2)] = _ :=
      driverWorld_setup.substitute_plain driverWorld_vars driver_namesBounds rfl (by decide) (by decide) _
    refine ⟨_, w', ⟨⟨[], []⟩, fs⟩, _, _, hgrb, rfl, hplain, hyes, hcall, ?_⟩
    exact (plain_agrees_with_certificate driverWorld_setup driverWorld_vars driver_namesBounds one_pos (by decide) hgrb
      exactCheck_sound wf_driverVar (by decide) (by decide) hok hplain .refl (by decide +kernel) hcorners rfl
        (by decide) hcall
      6).1 hyes

end

end GridSolve.Core
