/-
The relevance filter of `gen_pol`: left-hand sides that share no symbol with the right-hand side are
not used. For the sides of a box this loses no certificate. Giving the other variables the values of
their lower bounds turns every side of theirs into a non-negative constant, and a combination of
products of all sides into one of products of the relevant sides.
-/
import GridSolve.Core.Certificate

namespace GridSolve.Core

open MvPolynomial GridSolve.Poly GridSolve.Specialize GridSolve.Cone
open GridSolve.Poly.Multinomial (WF progPoly toMv_congr)
open GridSolve.Trace (bind_ok foldlM_congr)

/-- The constraints of `s` that have come after those of `old`. -/
def Solver.since (old s : Solver) : Solver where
  eq := s.eq.drop old.eq.length
  ineq := s.ineq.drop old.ineq.length

namespace Handelman

/-! ## The code without the filter -/

/-- `genStep` without the `cmp_poly` test. -/
def genStepAll (h : Handelman) (currDeg : ℕ) (rec : ℕ → ℕ → World → Except Err (Multinomial × World))
    (acc : Multinomial × World) (j : ℕ) : Except Err (Multinomial × World) :=
  if currDeg + h.degAt j ≥ 2147483648 then .error .intOverflow
  else if ((currDeg + h.degAt j : ℕ) : ℤ) ≤ h.maxDeg then do
    let (p, w) ← rec (currDeg + h.degAt j) j acc.2
    return (acc.1.add ((h.lhsAt j).mul p), w)
  else .ok acc

/-- `genPol` without the `cmp_poly` test. -/
def genPolAll (h : Handelman) : ℕ → ℕ → ℕ → World → Except Err (Multinomial × World)
  | 0, _, _, _ => .error .outOfFuel
  | fuel + 1, currDeg, firstIndex, w => do
    let (ans, w) ← (List.range' firstIndex (h.lhs.length - firstIndex)).foldlM
      (genStepAll h currDeg (genPolAll h fuel)) (.const false 0, w)
    let (t, w) ← addTemplate w
    return (ans.add t, w)

def solveRhsAll (h : Handelman) (fuel : ℕ) (w : World) (rhs : Multinomial) : Except Err World := do
  let (p, w) ← h.genPolAll fuel 0 0 w
  let toSolve := p.add (rhs.mulDouble (-1))
  return { w with s := toSolve.reduce.foldl (fun s a => s.add a false) w.s }

/-- `solve` with `genPolAll`. -/
def solveAll (h : Handelman) (fuel : ℕ) (w : World) : Except Err World :=
  h.rhsArr.foldlM (h.makeDegArr.solveRhsAll fuel) w

variable {h : Handelman} {idArr : List ℕ}

/-- Where every left-hand side passes the test there is no difference. -/
theorem genPolAll_eq (hall : ∀ j < h.lhs.length, (h.lhsAt j).cmpPoly idArr = true) : ∀ (fuel c first : ℕ) (w : World),
    h.genPolAll fuel c first w = h.genPol idArr fuel c first w
  | 0, _, _, _ => rfl
  | fuel + 1, c, first, w => by
    have hrec : h.genPolAll fuel = h.genPol idArr fuel := funext fun c => funext fun j => funext fun w =>
      genPolAll_eq hall fuel c j w
    have hstep : ∀ j ∈ List.range' first (h.lhs.length - first), ∀ acc,
        h.genStepAll c (h.genPolAll fuel) acc j = h.genStep idArr c (h.genPol idArr fuel) acc j := by
      intro j hj acc
      have hlt : j < h.lhs.length := by
        have := List.mem_range'_1.1 hj
        omega
      rw [genStepAll, genStep, hrec]
      simp only [hall j hlt, and_true]
    rw [genPolAll, genPol, foldlM_congr _ hstep]

/-! ## Products of all sides -/

/-- The products of total degree at most `max_deg`, of any left-hand sides. -/
structure AnyProduct (h : Handelman) (α : Multiset ℕ) : Prop where
  mem : ∀ j ∈ α, j < h.lhs.length
  deg : α = 0 ∨ (((α.map h.makeDegArr.degAt).sum : ℕ) : ℤ) ≤ h.maxDeg

theorem AnyProduct.admissible {α : Multiset ℕ} (hα : h.AnyProduct α)
    (hcmp : ∀ j ∈ α, (h.lhsAt j).cmpPoly idArr = true) : h.makeDegArr.Admissible idArr 0 0 α :=
  ⟨fun j hj => ⟨Nat.zero_le j, hα.mem j hj, hcmp j hj⟩, hα.deg.imp_right fun hd => by rw [Nat.zero_add]; exact hd⟩

theorem anyProduct_of_admissible {α : Multiset ℕ} (hα : h.makeDegArr.Admissible idArr 0 0 α) : h.AnyProduct α :=
  ⟨fun j hj => (hα.mem j hj).2.1, hα.deg.imp_right fun hd => by rw [Nat.zero_add] at hd; exact hd⟩

/-- Factors can be left out. -/
theorem AnyProduct.filter {α : Multiset ℕ} (hα : h.AnyProduct α) (rel : ℕ → Prop) [DecidablePred rel] :
    h.AnyProduct (α.filter rel) := by
  refine ⟨fun j hj => hα.mem j (Multiset.mem_filter.1 hj).1, ?_⟩
  rcases hα.deg with rfl | hd
  · exact .inl rfl
  · right
    have hle : ((α.filter rel).map h.makeDegArr.degAt).sum ≤ (α.map h.makeDegArr.degAt).sum := by
      conv_rhs => rw [← Multiset.filter_add_not rel α, Multiset.map_add, Multiset.sum_add]
      exact Nat.le_add_right _ _
    exact (Nat.cast_le.2 hle).trans hd

section

variable {w w' : World} {n : ℕ} {lo hi : ℕ → ℕ} {p : Multinomial} {v : ℕ → ℝ}

/-- The irrelevant variables at their lower bounds. -/
noncomputable def atLower (ids : List ℕ) (lo : ℕ → ℕ) (v : ℕ → ℝ) : MvPolynomial ℕ ℝ →ₐ[ℝ] MvPolynomial ℕ ℝ :=
  aeval fun i => if i ∈ ids then X i else C (v (lo i))

theorem atLower_progPoly (hp : WF (InProg n) 0 p) : atLower p.retIdArr lo v (progPoly n v p) = progPoly n v p := by
  rw [progPoly_prog hp]
  conv_rhs => rw [← aeval_X_left_apply (map (algebraMap ℚ ℝ) p.toMv)]
  refine eval₂Hom_congr' rfl (fun i hi _ => if_pos ?_) rfl
  exact Multinomial.mem_retIdArr_of_vars hp (vars_map p.toMv (algebraMap ℚ ℝ) hi)

/-- A relevant side stays as it is. -/
theorem BoxSetup.atLower_relevant (hs : BoxSetup w n lo hi) (hl : h.lhs = (new.addBox n lo hi).lhs) {ids : List ℕ}
    {j : ℕ} (hj : j < 2 * n) (hrel : j / 2 ∈ ids) :
    atLower ids lo v (progPoly n v (h.lhsAt j)) = progPoly n v (h.lhsAt j) := by
  rw [hs.progPoly_lhsAt hl v hj, atLower, map_mul, map_sub, algHom_C, algHom_C, aeval_X, if_pos hrel]
  rfl

/-- An irrelevant side becomes 0 or the length of the box. -/
theorem BoxSetup.atLower_irrelevant (hs : BoxSetup w n lo hi) (hl : h.lhs = (new.addBox n lo hi).lhs)
    (hv : ∀ i < n, v (lo i) ≤ v (hi i)) {ids : List ℕ} {j : ℕ} (hj : j < 2 * n) (hrel : j / 2 ∉ ids) :
    ∃ c : ℝ, 0 ≤ c ∧ atLower ids lo v (progPoly n v (h.lhsAt j)) = algebraMap ℝ (MvPolynomial ℕ ℝ) c := by
  refine ⟨boundSign j * (v (lo (j / 2)) - v (boundId lo hi j)), ?_, ?_⟩
  · have hlen := hv (j / 2) (by omega)
    unfold boundSign boundId
    split_ifs
    · simp
    · push_cast
      linarith
  · rw [hs.progPoly_lhsAt hl v hj, atLower, map_mul, map_sub, algHom_C, algHom_C, aeval_X, if_neg hrel]
    simp only [algebraMap_eq, map_mul, map_sub]

/-- The relevant sides are enough for every combination of the sides. -/
theorem BoxSetup.inCone_usable_iff (hs : BoxSetup w n lo hi) (hl : h.lhs = (new.addBox n lo hi).lhs)
    (hp : WF (InProg n) 0 p) (hv : ∀ i < n, v (lo i) ≤ v (hi i)) :
    InCone ℝ (h.Usable p) (fun j => progPoly n v (h.lhsAt j)) (progPoly n v p) ↔
      InCone ℝ h.AnyProduct (fun j => progPoly n v (h.lhsAt j)) (progPoly n v p) := by
  have hlt : ∀ α, h.AnyProduct α → ∀ j ∈ α, j < 2 * n := fun α hα j hj => by
    have := hα.mem j hj
    rwa [hs.lhs_length hl] at this
  constructor
  · exact fun hc => hc.mono fun α hα => anyProduct_of_admissible hα
  · intro hc
    refine hc.filter (atLower p.retIdArr lo v) (atLower_progPoly hp)
      (fun α hα j hj => hs.atLower_relevant hl (hlt α hα j hj))
      (fun α hα j hj => hs.atLower_irrelevant hl hv (hlt α hα j hj)) fun α hα => ?_
    refine (hα.filter _).admissible fun j hj => ?_
    obtain ⟨hj, hrel⟩ := Multiset.mem_filter.1 hj
    exact (hs.cmpPoly_iff hl (retIdArr_lt hp) (hlt α hα j hj)).2 hrel

/-! ## The generated systems -/

/-- The products that a run with the ids `idArr` has listed, given fuel enough. -/
theorem BoxSetup.mem_products_iff (hs : BoxSetup w n lo hi) (hl : h.lhs = (new.addBox n lo hi).lhs) {fuel : ℕ}
    (hfuel : h.maxDeg < fuel) (hfuel0 : 0 < fuel) (α : Multiset ℕ) :
    α ∈ h.makeDegArr.products idArr fuel 0 0 ↔ h.makeDegArr.Admissible idArr 0 0 α := by
  refine ⟨admissible_of_mem, mem_of_admissible (fun j hj _ => ?_) (by simpa [makeDegArr] using hfuel) hfuel0⟩
  have hlen := hs.lhs_length hl
  rw [hs.degAt_eq hl (by simpa [makeDegArr, hlen] using hj)]
  exact Nat.one_pos

/-- The constraints that come of `gen_pol` are solvable exactly when the right-hand side is in the
cone of the products it was allowed to use. -/
theorem BoxSetup.solvable_iff (hs : BoxSetup w n lo hi) (hl : h.lhs = (new.addBox n lo hi).lhs)
    (hp : WF (InProg n) 0 p) (hids : ∀ i ∈ idArr, i < n) {fuel : ℕ} (hfuel : h.maxDeg < fuel) (hfuel0 : 0 < fuel)
    {r : Multinomial × World} (hr : h.makeDegArr.genPol idArr fuel 0 0 w = .ok r) (v : ℕ → ℝ) :
    (∃ u, (∀ i < w.numSymbols, u i = v i) ∧ (w.s.since
      ((r.1.add (p.mulDouble (-1))).reduce.foldl (fun s a => s.add a false) r.2.s)).Sat u) ↔
      InCone ℝ (h.makeDegArr.Admissible idArr 0 0) (fun j => progPoly n v (h.lhsAt j)) (progPoly n v p) := by
  have hbox : WF (BoxSymbol n lo hi) 0 p := hp.mono fun _ => .inl
  have hlhs : ∀ j, WF (BoxSymbol n lo hi) 0 (h.makeDegArr.lhsAt j) := hs.wf_lhsAt hl
  have hpass := pass_of_genPol hs.synced hlhs hbox hr
  have hroom := hpass.room
  rw [hpass.size] at hroom
  have hval := hpass.exact hlhs hbox hs.id_lt (hs.fitsExp hl hids (by omega))
  have hsince : w.s.since ((r.1.add (p.mulDouble (-1))).reduce.foldl (fun s a => s.add a false) r.2.s) =
      added (r.1.add (p.mulDouble (-1))) w.numSymbols (h.makeDegArr.products idArr fuel 0 0).length := by
    rw [Solver.since, hpass.eq, hpass.ineq, List.drop_left, List.drop_left]
  rw [hsince]
  exact hpass.solvable_iff hlhs hbox hs.ordered hs.le_size hs.id_lt hval (nodup_products fuel 0 0)
    (hs.mem_products_iff hl hfuel hfuel0) v

/-- The core of a driver with `max_deg` as given. -/
def boxCoreOf (n : ℕ) (lo hi : ℕ → ℕ) (p : Multinomial) (maxDeg : ℤ) : Handelman :=
  { (new.addBox n lo hi).addRhs p with maxDeg }

theorem boxCoreOf_rhsArr {maxDeg : ℤ} : (boxCoreOf n lo hi p maxDeg).rhsArr = [stored p] := by
  change (new.addBox n lo hi).rhsArr ++ [stored p] = [stored p]
  rw [addBox_rhsArr, List.nil_append]

theorem solveAll_singleton {fuel : ℕ} {rhs : Multinomial} (hrhs : h.rhsArr = [rhs]) :
    h.solveAll fuel w = h.makeDegArr.solveRhsAll fuel w rhs := by
  rw [solveAll, hrhs, List.foldlM_cons]
  cases h.makeDegArr.solveRhsAll fuel w rhs <;> rfl

/-- **The relevance filter loses no certificate on boxes**: for all values of the bounds the
right-hand side is a combination of products of the sides that pass `cmp_poly` exactly when it is
one of products of all sides. So the constraints `solve` adds with the filter and without it are
solvable for the same boxes. -/
theorem relevance_filter (hs : BoxSetup w n lo hi) (hp : WF (InProg n) 0 p) (maxDeg : ℤ)
    (hv : ∀ i < n, v (lo i) ≤ v (hi i)) :
    (InCone ℝ ((boxCoreOf n lo hi p maxDeg).Usable (stored p))
        (fun j => progPoly n v ((boxCoreOf n lo hi p maxDeg).lhsAt j)) (progPoly n v (stored p)) ↔
      InCone ℝ (boxCoreOf n lo hi p maxDeg).AnyProduct
        (fun j => progPoly n v ((boxCoreOf n lo hi p maxDeg).lhsAt j)) (progPoly n v (stored p))) ∧
    ∀ (fuel : ℕ) (w₁ w₂ : World), maxDeg < fuel → 0 < fuel → (boxCoreOf n lo hi p maxDeg).solve fuel w = .ok w₁ →
      (boxCoreOf n lo hi p maxDeg).solveAll fuel w = .ok w₂ →
      ((∃ u, (∀ i < w.numSymbols, u i = v i) ∧ (w.s.since w₁.s).Sat u) ↔
        ∃ u, (∀ i < w.numSymbols, u i = v i) ∧ (w.s.since w₂.s).Sat u) := by
  have hl : (boxCoreOf n lo hi p maxDeg).lhs = (new.addBox n lo hi).lhs := rfl
  have hrhs : WF (InProg n) 0 (stored p) := wf_stored hp
  have hids := retIdArr_lt hrhs
  have hcone := hs.inCone_usable_iff hl hrhs hv
  refine ⟨hcone, fun fuel w₁ w₂ hfuel hfuel0 h₁ h₂ => ?_⟩
  rw [solve_singleton boxCoreOf_rhsArr] at h₁
  rw [solveAll_singleton boxCoreOf_rhsArr] at h₂
  obtain ⟨r₁, hr₁, h₁⟩ := bind_ok h₁
  obtain ⟨r₂, hr₂, h₂⟩ := bind_ok h₂
  cases h₁
  cases h₂
  -- without the filter, `gen_pol` does what it does when all program variables are asked for
  have hrange : ∀ i ∈ List.range n, i < n := fun i hi' => List.mem_range.1 hi'
  have hall : ∀ j < 2 * n, ((boxCoreOf n lo hi p maxDeg).lhsAt j).cmpPoly (List.range n) = true := fun j hj =>
    (hs.cmpPoly_iff hl hrange hj).2 (List.mem_range.2 (by omega))
  have hlen : (boxCoreOf n lo hi p maxDeg).makeDegArr.lhs.length = 2 * n := hs.lhs_length hl
  have hunfiltered := genPolAll_eq (h := (boxCoreOf n lo hi p maxDeg).makeDegArr)
    (fun j hj => hall j (hlen ▸ hj)) fuel 0 0 w
  rw [hunfiltered] at hr₂
  have hsolve₁ := hs.solvable_iff hl hrhs hids hfuel hfuel0 hr₁ v
  have hsolve₂ := hs.solvable_iff hl hrhs hrange hfuel hfuel0 hr₂ v
  refine hsolve₁.trans (hcone.trans (Iff.trans ?_ hsolve₂.symm))
  constructor
  · exact fun hc => hc.mono fun α hα => hα.admissible fun j hj => hall j (hlen ▸ hα.mem j hj)
  · exact fun hc => hc.mono fun α hα => anyProduct_of_admissible hα

end

/-- Two program variables and the four templates of their bounds. -/
def planeWorld : World where
  numSymbols := 6
  v := { varArr := [.var ⟨0, false⟩ true, .var ⟨1, false⟩ true, .var ⟨2, true⟩ true, .var ⟨3, true⟩ true,
           .var ⟨4, true⟩ true, .var ⟨5, true⟩ true]
         mp := [] }
  s := { eq := [], ineq := [] }

theorem planeWorld_setup : BoxSetup planeWorld 2 (fun i => i + 2) (fun i => i + 4) where
  synced := rfl
  lo_range := by decide
  hi_range := by decide
  lo_inj := by decide
  hi_inj := by decide
  lo_ne_hi := by decide

/-- The right-hand side is the first variable, so the sides of the second are left out. -/
theorem relevance_filter_plane :
    ∃ w₁ w₂, (boxCoreOf 2 (fun i => i + 2) (fun i => i + 4) (.var ⟨0, false⟩ true) 1).solve 2 planeWorld = .ok w₁ ∧
      (boxCoreOf 2 (fun i => i + 2) (fun i => i + 4) (.var ⟨0, false⟩ true) 1).solveAll 2 planeWorld = .ok w₂ ∧
      ((∃ u, (∀ i < 6, u i = if i < 4 then (1 : ℝ) else 2) ∧ (planeWorld.s.since w₁.s).Sat u) ↔
        ∃ u, (∀ i < 6, u i = if i < 4 then (1 : ℝ) else 2) ∧ (planeWorld.s.since w₂.s).Sat u) := by
  have hwf : WF (InProg 2) 0 (.var ⟨0, false⟩ true) :=
    Multinomial.wf_var (show InProg 2 ⟨0, false⟩ from ⟨rfl, Nat.two_pos⟩) (Nat.zero_le _) true
  have hok₁ : ((boxCoreOf 2 (fun i => i + 2) (fun i => i + 4) (.var ⟨0, false⟩ true) 1).solve 2 planeWorld).isOk =
      true := by decide +kernel
  have hok₂ : ((boxCoreOf 2 (fun i => i + 2) (fun i => i + 4) (.var ⟨0, false⟩ true) 1).solveAll 2 planeWorld).isOk =
      true := by decide +kernel
  cases h₁ : (boxCoreOf 2 (fun i => i + 2) (fun i => i + 4) (.var ⟨0, false⟩ true) 1).solve 2 planeWorld with
  | error e =>
    rw [h₁] at hok₁
    cases hok₁
  | ok w₁ =>
    cases h₂ : (boxCoreOf 2 (fun i => i + 2) (fun i => i + 4) (.var ⟨0, false⟩ true) 1).solveAll 2 planeWorld with
    | error e =>
      rw [h₂] at hok₂
      cases hok₂
    | ok w₂ =>
      have hv : ∀ i < 2, (if i + 2 < 4 then (1 : ℝ) else 2) ≤ if i + 4 < 4 then (1 : ℝ) else 2 := by
        intro i hi
        rw [if_pos (by omega), if_neg (by omega)]
        exact one_le_two
      exact ⟨w₁, w₂, rfl, rfl, (relevance_filter (v := fun i => if i < 4 then (1 : ℝ) else 2) planeWorld_setup hwf 1
        hv).2 2 w₁ w₂ (by decide) (by decide) h₁ h₂⟩

end Handelman

end GridSolve.Core
