/-
The solvers that a driver makes (`test8.cpp`): for every constraint polynomial a positive and a
negative one. What they accept of a box holds there. On a box of one point, where both bounds of every
variable have the same value, the left-hand sides are the differences to the point with both signs,
and a polynomial within the degree bound is in the cone of their products as soon as it is not
negative at the point. So one of the two solvers of a constraint always accepts.
-/
import GridSolve.Core.Certificate
import GridSolve.Lib.Expansion

namespace GridSolve.Core

open MvPolynomial GridSolve.Poly GridSolve.Specialize GridSolve.Cone GridSolve.Expansion GridSolve.Grid Handelman
open GridSolve.Poly.Multinomial (WF progPoly mulDouble_spec toMv_congr)
open GridSolve.Trace (bind_ok)

/-! ## The solvers of a driver -/

/-- `handelman_core(v)` has a solver of its own. -/
def World.newSolver (w : World) : World := { w with s := { eq := [], ineq := [] } }

/-- The loop of a driver over its constraints, each with the degree it sets: the positive solver is
for the polynomial, the negative one for the polynomial times -1. -/
def buildSolvers (n : ℕ) (lo hi : ℕ → ℕ) (fuel : ℕ) :
    List (Multinomial × ℤ) → World → Except Err (List (Solver × Solver) × World)
  | [], w => .ok ([], w)
  | (p, adeg) :: cs, w => do
    let w₁ ← (boxCore n lo hi p adeg).solve fuel w.newSolver
    let w₂ ← (boxCore n lo hi (p.mulDouble (-1)) adeg).solve fuel w₁.newSolver
    let (sols, w₃) ← buildSolvers n lo hi fuel cs w₂
    return ((w₁.s, w₂.s) :: sols, w₃)

section

variable {w w' : World} {n : ℕ} {lo hi : ℕ → ℕ}

theorem Handelman.BoxSetup.newSolver (h : BoxSetup w n lo hi) : BoxSetup w.newSolver n lo hi :=
  ⟨h.synced, h.lo_range, h.hi_range, h.lo_inj, h.hi_inj, h.lo_ne_hi⟩

/-- The setting survives a call of `solve`, which only adds templates. -/
theorem Handelman.BoxSetup.solve (h : BoxSetup w n lo hi) {p : Multinomial} (hp : WF (InProg n) 0 p)
    {adeg : ℤ} {fuel : ℕ} (hok : (boxCore n lo hi p adeg).solve fuel w = .ok w') : BoxSetup w' n lo hi := by
  obtain ⟨ps, toSolve, hpass, -⟩ := h.exact_pass hp hok
  have hsize := hpass.size
  refine ⟨hpass.synced, fun i hi' => ?_, fun i hi' => ?_, h.lo_inj, h.hi_inj, h.lo_ne_hi⟩
  · have := h.lo_range i hi'
    omega
  · have := h.hi_range i hi'
    omega

/-- What the two solvers of a constraint show about a box. -/
def SolversSound (grb : LP → Bool) (idMap : ℕ → ℕ → ℕ) (n : ℕ) (p : Multinomial) (sol : Solver × Solver) : Prop :=
  ∀ (sz : ℕ) (coords : Coords), coords.length = n → ∀ x, InBox coords x →
    (substitute grb sol.1 sz idMap coords = true → 0 ≤ aeval x p.toMv) ∧
      (substitute grb sol.2 sz idMap coords = true → aeval x p.toMv ≤ 0)

theorem buildSolvers_sound {grb : LP → Bool} (hgrb : ∀ lp, grb lp = true ↔ lp.Feasible) {idMap : ℕ → ℕ → ℕ}
    (hid : NamesBounds idMap n lo hi) {fuel : ℕ} : ∀ {cs : List (Multinomial × ℤ)} {w w' : World}
    {sols : List (Solver × Solver)}, BoxSetup w n lo hi → (∀ c ∈ cs, WF (InProg n) 0 c.1) →
    buildSolvers n lo hi fuel cs w = .ok (sols, w') →
    List.Forall₂ (fun c sol => SolversSound grb idMap n c.1 sol) cs sols
  | [], w, w', sols, _, _, hok => by
    cases hok
    exact .nil
  | (p, adeg) :: cs, w, w', sols, hs, hcs, hok => by
    rw [List.forall_mem_cons] at hcs
    obtain ⟨hneg, hwf⟩ := mulDouble_spec (-1) hcs.1
    rw [buildSolvers] at hok
    obtain ⟨w₁, h1, hok⟩ := bind_ok hok
    obtain ⟨w₂, h2, hok⟩ := bind_ok hok
    obtain ⟨⟨sols', w₃⟩, h3, hok⟩ := bind_ok hok
    cases hok
    have hs₁ := hs.newSolver.solve hcs.1 h1
    have hs₂ := hs₁.newSolver.solve hwf h2
    refine .cons (fun sz coords hlen x hx => ⟨fun hsub => ?_, fun hsub => ?_⟩)
      (buildSolvers_sound hgrb hid hs₂ hcs.2 h3)
    · exact hs.newSolver.nonneg_of_substitute hgrb hcs.1 h1 hid hlen hsub hx
    · have hnn := hs₁.newSolver.nonneg_of_substitute hgrb hwf h2 hid hlen hsub hx
      rw [hneg, map_mul, aeval_C] at hnn
      simpa using hnn

end

/-! ## Boxes of one point -/

/-- The box is one point. -/
def IsPoint (coords : Coords) : Prop := ∀ c ∈ coords, c.1 = c.2

/-- The lower corner of a box. -/
def corner (coords : Coords) (i : ℕ) : ℚ := (coords[i]?.map Prod.fst).getD 0

theorem IsPoint.inBox_corner {coords : Coords} (h : IsPoint coords) : InBox coords fun i => (corner coords i : ℝ) := by
  intro i c hc
  have heq := h c (List.mem_of_getElem? hc)
  simp only [corner, hc, Option.map_some, Option.getD_some]
  exact ⟨le_rfl, by rw [heq]⟩

namespace Handelman

variable {w w' : World} {n : ℕ} {lo hi : ℕ → ℕ} {p : Multinomial} {adeg : ℤ} {idMap : ℕ → ℕ → ℕ} {coords : Coords}

/-- A left-hand side with the values of a point is a difference to it. -/
theorem BoxSetup.progPoly_lhs (hs : BoxSetup w n lo hi) (hid : NamesBounds idMap n lo hi) (hlen : coords.length = n)
    (hpoint : IsPoint coords) (u : ℕ → ℝ) {j : ℕ} (hj : j < 2 * n) :
    progPoly n ((subMapFrom idMap 0 coords []).value u) ((boxCore n lo hi p adeg).lhsAt j) =
      C (boundSign j : ℝ) * (X (j / 2) - C (corner coords (j / 2) : ℝ)) := by
  obtain ⟨c, hc⟩ : ∃ c, coords[j / 2]? = some c := ⟨_, List.getElem?_eq_getElem (by omega)⟩
  have heq := hpoint c (List.mem_of_getElem? hc)
  have hval : (subMapFrom idMap 0 coords []).value u (boundId lo hi j) = corner coords (j / 2) := by
    simp only [SubMap.value, hs.lookup_bound hid hlen hj hc, corner, hc, Option.map_some, Option.getD_some,
      heq, ite_self]
  rw [hs.progPoly_lhsAt boxCore_lhs _ hj, hval]

/-- Every product of left-hand sides for the variables of the polynomial, with no more factors than its
degree, is formed. -/
theorem BoxSetup.mem_products (hs : BoxSetup w n lo hi) (hp : WF (InProg n) 0 p) {fuel : ℕ}
    (hdeg : (p.toMv.totalDegree : ℤ) ≤ (boxCore n lo hi p adeg).maxDeg) (hfuel : (boxCore n lo hi p adeg).maxDeg < fuel)
    {α : Multiset ℕ} (hα : ∀ j ∈ α, j / 2 ∈ p.toMv.vars) (hcard : α.card ≤ p.toMv.totalDegree) :
    α ∈ (boxCore n lo hi p adeg).makeDegArr.products (stored p).retIdArr fuel 0 0 := by
  have hrhs : WF (InProg n) 0 (stored p) := wf_stored hp
  have hids := retIdArr_lt hrhs
  have hmem : ∀ j ∈ α, j / 2 ∈ (stored p).retIdArr := fun j hj =>
    Multinomial.mem_retIdArr_of_vars hrhs (by rw [toMv_congr (bare_stored p)]; exact hα j hj)
  have hlt : ∀ j ∈ α, j < 2 * n := fun j hj => by
    have := hids _ (hmem j hj)
    omega
  refine mem_of_card_lt ⟨fun j hj => ⟨Nat.zero_le _, ?_, ?_⟩, .inr ?_⟩ (by omega)
  · exact (hlt j hj).trans_eq hs.boxCore_length.symm
  · exact (hs.cmpPoly_iff boxCore_lhs hids (hlt j hj)).2 (hmem j hj)
  · have hone : ∀ j ∈ α, (boxCore n lo hi p adeg).makeDegArr.degAt j = 1 := fun j hj =>
      hs.degAt_eq boxCore_lhs (hlt j hj)
    rw [Multiset.map_congr rfl hone, Multiset.map_const', Multiset.sum_replicate, smul_eq_mul, mul_one, zero_add]
    exact (Nat.cast_le.2 hcard).trans hdeg

/-- At a point the right-hand side is in the cone as soon as it is not negative. -/
theorem BoxSetup.inCone_point (hs : BoxSetup w n lo hi) (hid : NamesBounds idMap n lo hi) (hlen : coords.length = n)
    (hpoint : IsPoint coords) (hp : WF (InProg n) 0 p) {fuel : ℕ}
    (hdeg : (p.toMv.totalDegree : ℤ) ≤ (boxCore n lo hi p adeg).maxDeg) (hfuel : (boxCore n lo hi p adeg).maxDeg < fuel)
    (h0 : 0 ≤ aeval (fun i => (corner coords i : ℝ)) p.toMv) (u : ℕ → ℝ) :
    InCone ℝ (· ∈ (boxCore n lo hi p adeg).makeDegArr.products (stored p).retIdArr fuel 0 0)
      (fun j => progPoly n ((subMapFrom idMap 0 coords []).value u) ((boxCore n lo hi p adeg).lhsAt j))
      (progPoly n ((subMapFrom idMap 0 coords []).value u) (stored p)) := by
  have hvars : ∀ i ∈ (map (algebraMap ℚ ℝ) p.toMv).vars, i ∈ p.toMv.vars ∧ i < n := fun i hi => by
    have hi := vars_map p.toMv (algebraMap ℚ ℝ) hi
    obtain ⟨k, hk, rfl⟩ := hp.vars i hi
    exact ⟨hi, hk.2⟩
  rw [show progPoly n _ (stored p) = map (algebraMap ℚ ℝ) p.toMv by
    rw [← progPoly_prog hp, progPoly, progPoly, toMv_congr (bare_stored p)]]
  refine inCone_of_eval_nonneg (fun i => (corner coords i : ℝ)) (fun i => 2 * i) (fun i => 2 * i + 1)
    (fun i hi => ?_) (fun i hi => ?_) (fun α hα hcard => ?_) ?_
  · have := (hvars i hi).2
    rw [hs.progPoly_lhs hid hlen hpoint u (by omega), boundSign, if_pos (by omega), show 2 * i / 2 = i by omega,
      Rat.cast_one, C_1, one_mul]
  · have := (hvars i hi).2
    rw [hs.progPoly_lhs hid hlen hpoint u (by omega), boundSign, if_neg (by omega), show (2 * i + 1) / 2 = i by omega,
      Rat.cast_neg, Rat.cast_one, C_neg, C_1, neg_one_mul, neg_sub]
  · refine hs.mem_products hp hdeg hfuel (fun j hj => ?_)
      (hcard.trans (Finset.sup_mono (support_map_subset _ _)))
    obtain ⟨i, hi, rfl | rfl⟩ := hα j hj
    · rw [show 2 * i / 2 = i by omega]
      exact (hvars i hi).1
    · rw [show (2 * i + 1) / 2 = i by omega]
      exact (hvars i hi).1
  · rwa [eval_map, ← aeval_def]

/-- The values of a solution of the constraints that are non-negative solve the linear program. -/
theorem BoxSetup.feasible_of_sat (hs : BoxSetup w n lo hi) (hid : NamesBounds idMap n lo hi) (hlen : coords.length = n)
    (hp : WF (InProg n) 0 p) {ps : List (Multiset ℕ)} {toSolve : Multinomial}
    (hpass : (boxCore n lo hi p adeg).Pass (BoxSymbol n lo hi) ps w (stored p) toSolve w')
    (hval : toSolve.toMv = (boxCore n lo hi p adeg).templSum (ps.zipIdx w.numSymbols) - p.toMv) {u : ℕ → ℝ}
    (hu : ∀ i < w.numSymbols, u i = (subMapFrom idMap 0 coords []).value 0 i)
    (hsat : (added toSolve w.numSymbols ps.length).Sat u) (sz : ℕ) :
    ((added toSolve w.numSymbols ps.length).lp sz (subMapFrom idMap 0 coords [])).Feasible := by
  obtain ⟨v, hv⟩ : ∃ v : ℕ → ℝ, v = fun t => if w.numSymbols ≤ t ∧ t < w.numSymbols + ps.length then u t else 0 :=
    ⟨_, rfl⟩
  refine ⟨v, fun i _ => ?_,
    (rows_hold_iff (fun k hk => hs.unbound_iff hid hlen hk) (hs.rows_linear hp hpass hval) v).2 ?_⟩
  · rw [hv]
    dsimp only
    split_ifs with ht
    · exact (sat_added.1 hsat).2 i ht.1 ht.2
    · exact le_rfl
  · -- the rows see the values of the bounds and the new templates only
    have hrow : ∀ a, a ∈ (added toSolve w.numSymbols ps.length).eq ∨ a ∈ (added toSolve w.numSymbols ps.length).ineq →
        aeval ((subMapFrom idMap 0 coords []).value v) a.toMv = aeval u a.toMv := by
      intro a ha
      refine eval₂Hom_congr' rfl (fun i hi _ => ?_) rfl
      obtain ⟨k, hk, rfl⟩ := (hs.rows_linear hp hpass hval a ha).1.vars i hi
      unfold SubMap.value
      cases hl : (subMapFrom idMap 0 coords []).lookup k.id with
      | none =>
        have hnew := (hs.unbound_iff hid hlen hk).2 hl
        obtain hold | ⟨-, -, hlt⟩ := hk.1
        · exact absurd (hs.id_lt k hold) (not_lt.2 hnew)
        · simp only [hv, if_pos (And.intro hnew hlt)]
      | some c =>
        have hold : k.id < w.numSymbols := by
          by_contra hge
          rw [hs.lookup_fresh hid hlen (not_lt.1 hge)] at hl
          cases hl
        simp only [hu _ hold, SubMap.value, hl]
    exact ⟨fun a ha => (hrow a (.inl ha)).trans (hsat.1 a ha), fun a ha => (hrow a (.inr ha)).ge.trans' (hsat.2 a ha)⟩

/-- On a point the solver accepts exactly the polynomials that are not negative there. -/
theorem BoxSetup.substitute_point (hs : BoxSetup w n lo hi) {grb : LP → Bool} (hgrb : ∀ lp, grb lp = true ↔ lp.Feasible)
    (hid : NamesBounds idMap n lo hi) (hlen : coords.length = n) (hpoint : IsPoint coords) (hp : WF (InProg n) 0 p)
    {fuel : ℕ} (hdeg : (p.toMv.totalDegree : ℤ) ≤ (boxCore n lo hi p adeg).maxDeg)
    (hfuel : (boxCore n lo hi p adeg).maxDeg < fuel) (hok : (boxCore n lo hi p adeg).solve fuel w.newSolver = .ok w')
    (sz : ℕ) :
    substitute grb w'.s sz idMap coords = true ↔ 0 ≤ aeval (fun i => (corner coords i : ℝ)) p.toMv := by
  refine ⟨fun h => hs.newSolver.nonneg_of_substitute hgrb hp hok hid hlen h hpoint.inBox_corner, fun h0 => ?_⟩
  obtain ⟨ps, toSolve, hpass, hval, hn, -, rfl⟩ := hs.newSolver.exact_pass hp hok
  obtain ⟨u, hu, hsat⟩ := (hpass.solvable_iff hs.newSolver.wf_lhs ((wf_stored hp).mono fun _ => .inl)
    hs.newSolver.ordered hs.newSolver.le_size hs.newSolver.id_lt (by rw [hval, toMv_congr (bare_stored p)]) hn
    (fun _ => Iff.rfl) _).2 (hs.inCone_point hid hlen hpoint hp hdeg hfuel h0 0)
  rw [substitute, hgrb, show w'.s = ⟨w'.s.eq, w'.s.ineq⟩ from rfl, hpass.eq, hpass.ineq]
  exact hs.newSolver.feasible_of_sat hid hlen hp hpass hval hu hsat sz

end Handelman

section

open Handelman

variable {w w' : World} {n : ℕ} {lo hi : ℕ → ℕ}

/-- The degree of the polynomial is within the bounds of the cores for it and for its negation, and the
fuel is enough for both. -/
def WithinDegree (n : ℕ) (lo hi : ℕ → ℕ) (fuel : ℕ) (c : Multinomial × ℤ) : Prop :=
  ∀ q, q = c.1 ∨ q = c.1.mulDouble (-1) →
    (c.1.toMv.totalDegree : ℤ) ≤ (boxCore n lo hi q c.2).maxDeg ∧ (boxCore n lo hi q c.2).maxDeg < fuel

/-- What the two solvers of a constraint answer on a point. -/
def SolversDecide (grb : LP → Bool) (idMap : ℕ → ℕ → ℕ) (n : ℕ) (p : Multinomial) (sol : Solver × Solver) : Prop :=
  ∀ (sz : ℕ) (coords : Coords), coords.length = n → IsPoint coords →
    (substitute grb sol.1 sz idMap coords = true ↔ 0 ≤ aeval (fun i => (corner coords i : ℝ)) p.toMv) ∧
      (substitute grb sol.2 sz idMap coords = true ↔ aeval (fun i => (corner coords i : ℝ)) p.toMv ≤ 0)

theorem buildSolvers_decide {grb : LP → Bool} (hgrb : ∀ lp, grb lp = true ↔ lp.Feasible) {idMap : ℕ → ℕ → ℕ}
    (hid : NamesBounds idMap n lo hi) {fuel : ℕ} : ∀ {cs : List (Multinomial × ℤ)} {w w' : World}
    {sols : List (Solver × Solver)}, BoxSetup w n lo hi →
    (∀ c ∈ cs, WF (InProg n) 0 c.1 ∧ WithinDegree n lo hi fuel c) → buildSolvers n lo hi fuel cs w = .ok (sols, w') →
    List.Forall₂ (fun c sol => SolversDecide grb idMap n c.1 sol) cs sols
  | [], w, w', sols, _, _, hok => by
    cases hok
    exact .nil
  | (p, adeg) :: cs, w, w', sols, hs, hcs, hok => by
    rw [List.forall_mem_cons] at hcs
    obtain ⟨⟨hp, hwithin⟩, hcs⟩ := hcs
    obtain ⟨hneg, hwf⟩ := mulDouble_spec (-1) hp
    obtain ⟨hdeg₁, hfuel₁⟩ := hwithin p (.inl rfl)
    obtain ⟨hdeg₂, hfuel₂⟩ := hwithin _ (.inr rfl)
    rw [buildSolvers] at hok
    obtain ⟨w₁, h1, hok⟩ := bind_ok hok
    obtain ⟨w₂, h2, hok⟩ := bind_ok hok
    obtain ⟨⟨sols', w₃⟩, h3, hok⟩ := bind_ok hok
    cases hok
    have hs₁ := hs.newSolver.solve hp h1
    have hs₂ := hs₁.newSolver.solve hwf h2
    refine .cons (fun sz coords hlen hpoint => ⟨?_, ?_⟩) (buildSolvers_decide hgrb hid hs₂ hcs h3)
    · exact hs.substitute_point hgrb hid hlen hpoint hp hdeg₁ hfuel₁ h1 sz
    · have hsame : (p.mulDouble (-1)).toMv.totalDegree ≤ p.toMv.totalDegree := by
        rw [hneg, map_neg, C_1, mul_neg_one, totalDegree_neg]
      rw [hs₁.substitute_point hgrb hid hlen hpoint hwf ((Nat.cast_le.2 hsame).trans hdeg₂) hfuel₂ h2 sz, hneg, map_mul,
        aeval_C]
      simp

end

/-! ## A driver with one variable -/

/-- The solvers of a driver with one variable `x` and one constraint of degree 1. -/
def driverSolvers (p : Multinomial) : Except Err (List (Solver × Solver) × World) :=
  buildSolvers 1 (fun _ => 1) (fun _ => 2) 2 [(p, 1)] driverWorld

/-- Reading a program off the one pair of solvers. -/
theorem exists_driverSolvers (p : Multinomial) (lp : LP) (f : Solver × Solver → ℕ → LP)
    (h : (driverSolvers p).map (fun r => r.1.map fun sol => f sol r.2.v.varArr.length) = .ok [lp]) :
    ∃ sol w', driverSolvers p = .ok ([sol], w') ∧ f sol w'.v.varArr.length = lp := by
  cases hr : driverSolvers p with
  | error e => rw [hr] at h; cases h
  | ok r =>
    obtain ⟨sols, w'⟩ := r
    rw [hr] at h
    have hsols : sols.map (fun sol => f sol w'.v.varArr.length) = [lp] := by injection h
    obtain ⟨sol, rfl, hlp⟩ := List.map_eq_singleton_iff.1 hsols
    exact ⟨sol, w', rfl, hlp⟩

theorem driver_namesBounds : NamesBounds (fun _ t => t + 1) 1 (fun _ => 1) (fun _ => 2) := fun _ _ => ⟨rfl, rfl⟩

theorem wf_driverVar : WF (InProg 1) 0 (.var ⟨0, false⟩ true) :=
  Multinomial.wf_var (show InProg 1 ⟨0, false⟩ from ⟨rfl, Nat.zero_lt_one⟩) le_rfl true

end GridSolve.Core
