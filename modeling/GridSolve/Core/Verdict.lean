/-
What the verdict of a solver depends on. With the corners of a box put in, the linear program is
feasible exactly when the right-hand side is in the cone of the products that `gen_pol` formed. So a
positive verdict is inherited by smaller boxes and higher degrees, a constraint of degree one is
decided exactly, and every box that is small enough is decided where the constraint is not near zero.
-/
import GridSolve.Core.Relevance
import GridSolve.Core.Solvers
import GridSolve.Lib.Subdivision

namespace GridSolve.Core

open MvPolynomial GridSolve.Poly GridSolve.Specialize GridSolve.Cone GridSolve.Subdivision GridSolve.Grid
open GridSolve.Poly.Multinomial (WF progPoly mulDouble_spec toMv_congr)
open GridSolve.Trace (bind_ok)

namespace Handelman

/-! ## The cone of a box -/

/-- The corner of a box that left-hand side `j` compares with. -/
def bound (coords : Coords) (j : ℕ) : ℚ := (coords[j / 2]?.map fun c => if j % 2 = 0 then c.1 else c.2).getD 0

/-- Left-hand side `j` of a box. -/
noncomputable def boxSide (coords : Coords) (j : ℕ) : MvPolynomial ℕ ℝ :=
  C (boundSign j : ℝ) * (X (j / 2) - C (bound coords j : ℝ))

/-- The products that are formed for the right-hand side `p`: sides for its symbols, no more of them
than the degree allows. -/
structure SideProduct (n : ℕ) (p : Multinomial) (maxDeg : ℤ) (α : Multiset ℕ) : Prop where
  mem : ∀ j ∈ α, j < 2 * n ∧ j / 2 ∈ (stored p).retIdArr
  card : α = 0 ∨ (α.card : ℤ) ≤ maxDeg

/-- The right-hand side is a combination of the products of the sides of the box. -/
def Combines (n : ℕ) (p : Multinomial) (maxDeg : ℤ) (coords : Coords) : Prop :=
  InCone ℝ (SideProduct n p maxDeg) (boxSide coords) (map (algebraMap ℚ ℝ) p.toMv)

variable {w w' : World} {n : ℕ} {lo hi : ℕ → ℕ} {p : Multinomial} {adeg : ℤ} {idMap : ℕ → ℕ → ℕ} {coords : Coords}

theorem SideProduct.mono {d d' : ℤ} {α β : Multiset ℕ} (h : SideProduct n p d α) (hd : d ≤ d') (hβ : β ≤ α) :
    SideProduct n p d' β := by
  refine ⟨fun j hj => h.mem j (Multiset.mem_of_le hβ hj), ?_⟩
  rcases h.card with rfl | hc
  · exact .inl (Multiset.le_zero.1 hβ)
  · exact .inr (((Nat.cast_le.2 (Multiset.card_le_card hβ)).trans hc).trans hd)

/-- Sides for the variables of the polynomial may be multiplied up to the degree. -/
theorem sideProduct_of_vars (hp : WF (InProg n) 0 p) {d : ℤ} {α : Multiset ℕ} (hα : ∀ j ∈ α, j / 2 ∈ p.toMv.vars)
    (hcard : (α.card : ℤ) ≤ d) : SideProduct n p d α := by
  have hrhs : WF (InProg n) 0 (stored p) := wf_stored hp
  have hmem : ∀ j ∈ α, j / 2 ∈ (stored p).retIdArr := fun j hj =>
    Multinomial.mem_retIdArr_of_vars hrhs (by rw [toMv_congr (bare_stored p)]; exact hα j hj)
  refine ⟨fun j hj => ⟨?_, hmem j hj⟩, .inr hcard⟩
  have := retIdArr_lt hrhs _ (hmem j hj)
  omega

theorem BoxSetup.usable_iff (hs : BoxSetup w n lo hi) (hp : WF (InProg n) 0 p) {α : Multiset ℕ} :
    (boxCore n lo hi p adeg).Usable (stored p) α ↔ SideProduct n p (boxCore n lo hi p adeg).maxDeg α := by
  have hids := retIdArr_lt (wf_stored hp)
  have hlen : (boxCore n lo hi p adeg).makeDegArr.lhs.length = 2 * n := hs.boxCore_length
  have hdeg : (∀ j ∈ α, j < 2 * n) → (α.map (boxCore n lo hi p adeg).makeDegArr.degAt).sum = α.card := fun hα => by
    rw [Multiset.map_congr rfl fun j hj => hs.degAt_eq boxCore_lhs (hα j hj), Multiset.map_const',
      Multiset.sum_replicate, smul_eq_mul, mul_one]
  constructor
  · intro h
    have hlt : ∀ j ∈ α, j < 2 * n := fun j hj => hlen ▸ (h.mem j hj).2.1
    refine ⟨fun j hj => ⟨hlt j hj, (hs.cmpPoly_iff boxCore_lhs hids (hlt j hj)).1 (h.mem j hj).2.2⟩, ?_⟩
    have hd := h.deg
    rw [hdeg hlt, Nat.zero_add] at hd
    exact hd
  · intro h
    refine ⟨fun j hj => ⟨Nat.zero_le j, hlen ▸ (h.mem j hj).1, ?_⟩, ?_⟩
    · exact (hs.cmpPoly_iff boxCore_lhs hids (h.mem j hj).1).2 (h.mem j hj).2
    · rw [hdeg fun j hj => (h.mem j hj).1, Nat.zero_add]
      exact h.card

/-- A left-hand side with the corners of the box put in. -/
theorem BoxSetup.progPoly_boxSide (hs : BoxSetup w n lo hi) (hid : NamesBounds idMap n lo hi) (hlen : coords.length = n)
    (u : ℕ → ℝ) {j : ℕ} (hj : j < 2 * n) :
    progPoly n ((subMapFrom idMap 0 coords []).value u) ((boxCore n lo hi p adeg).lhsAt j) = boxSide coords j := by
  obtain ⟨c, hc⟩ : ∃ c, coords[j / 2]? = some c := ⟨_, List.getElem?_eq_getElem (by omega)⟩
  have hval : (subMapFrom idMap 0 coords []).value u (boundId lo hi j) = bound coords j := by
    simp only [SubMap.value, hs.lookup_bound hid hlen hj hc, bound, hc, Option.map_some, Option.getD_some]
  rw [hs.progPoly_lhsAt boxCore_lhs _ hj, hval, boxSide]

/-- **The verdict on a box** says whether the right-hand side is a combination of the products of its
sides. -/
theorem BoxSetup.substitute_iff (hs : BoxSetup w n lo hi) {grb : LP → Bool} (hgrb : ∀ lp, grb lp = true ↔ lp.Feasible)
    (hid : NamesBounds idMap n lo hi) (hlen : coords.length = n) (hp : WF (InProg n) 0 p) {fuel : ℕ} (hfuel0 : 0 < fuel)
    (hfuel : (boxCore n lo hi p adeg).maxDeg < fuel) (hok : (boxCore n lo hi p adeg).solve fuel w.newSolver = .ok w')
    (sz : ℕ) :
    substitute grb w'.s sz idMap coords = true ↔ Combines n p (boxCore n lo hi p adeg).maxDeg coords := by
  have hs' := hs.newSolver
  obtain ⟨ps, toSolve, hpass, hval, hn, hmem, hps⟩ := hs'.exact_pass hp hok
  have hforms : ∀ α, α ∈ ps ↔ SideProduct n p (boxCore n lo hi p adeg).maxDeg α := fun α => by
    rw [hps, hs'.mem_products_iff boxCore_lhs hfuel hfuel0 α]
    exact hs'.usable_iff hp
  have hrhs : ∀ u, progPoly n ((subMapFrom idMap 0 coords []).value u) (stored p) = map (algebraMap ℚ ℝ) p.toMv :=
    fun u => by rw [← progPoly_prog hp, progPoly, progPoly, toMv_congr (bare_stored p)]
  have hcone : ∀ u, InCone ℝ (SideProduct n p (boxCore n lo hi p adeg).maxDeg)
      (fun j => progPoly n ((subMapFrom idMap 0 coords []).value u) ((boxCore n lo hi p adeg).lhsAt j))
      (progPoly n ((subMapFrom idMap 0 coords []).value u) (stored p)) ↔
      Combines n p (boxCore n lo hi p adeg).maxDeg coords := fun u => by
    rw [hrhs, Combines]
    constructor
    · exact fun h => h.congr fun α hα j hj => hs.progPoly_boxSide hid hlen u (hα.mem j hj).1
    · exact fun h => h.congr fun α hα j hj => (hs.progPoly_boxSide hid hlen u (hα.mem j hj).1).symm
  have hsolv := fun v => hpass.solvable_iff hs'.wf_lhs
    ((wf_stored hp).mono fun _ => .inl) hs'.ordered hs'.le_size hs'.id_lt
    (by rw [hval, toMv_congr (bare_stored p)]) hn hforms v
  rw [substitute, hgrb, show w'.s = ⟨w'.s.eq, w'.s.ineq⟩ from rfl, hpass.eq, hpass.ineq]
  constructor
  · intro hf
    obtain ⟨u, hsat⟩ := sat_of_feasible (fun k hk => hs'.unbound_iff hid hlen hk) (hs'.rows_linear hp hpass hval) hf
    exact (hcone u).1 ((hsolv _).1 ⟨_, fun _ _ => rfl, hsat⟩)
  · intro h
    obtain ⟨u, hu, hsat⟩ := (hsolv _).2 ((hcone 0).2 h)
    exact hs'.feasible_of_sat hid hlen hp hpass hval hu hsat sz

/-! ## Smaller boxes and higher degrees -/

/-- A side of the larger box is one of the smaller box and a distance. -/
theorem boxSide_narrower {coords coords' : Coords} (h : Narrower coords' coords) (j : ℕ) :
    boxSide coords j = boxSide coords' j +
        algebraMap ℝ (MvPolynomial ℕ ℝ) ((boundSign j * (bound coords' j - bound coords j) : ℚ) : ℝ) ∧
      0 ≤ ((boundSign j * (bound coords' j - bound coords j) : ℚ) : ℝ) := by
  constructor
  · simp only [boxSide, algebraMap_eq, Rat.cast_mul, Rat.cast_sub, C_mul, C_sub]
    ring
  · rw [Rat.cast_nonneg]
    have hlen := h.length_eq
    by_cases hj : j / 2 < coords.length
    · have hside := h.get (hlen ▸ hj) hj
      simp only [List.get_eq_getElem] at hside
      unfold boundSign bound
      rw [List.getElem?_eq_getElem hj, List.getElem?_eq_getElem (hlen ▸ hj)]
      simp only [Option.map_some, Option.getD_some]
      split_ifs <;> linarith [hside.1, hside.2]
    · have hnone : bound coords' j = 0 ∧ bound coords j = 0 := by
        unfold bound
        rw [List.getElem?_eq_none (by omega), List.getElem?_eq_none (by omega)]
        exact ⟨rfl, rfl⟩
      rw [hnone.1, hnone.2, sub_zero, mul_zero]

theorem Combines.mono {d d' : ℤ} {coords coords' : Coords} (h : Combines n p d coords) (hd : d ≤ d')
    (hsub : Narrower coords' coords) : Combines n p d' coords' :=
  InCone.of_add h (fun _ _ j _ => boxSide_narrower hsub j) fun _ hα _ hβ => hα.mono hd hβ

/-- A positive verdict on a box is one on every box within it, also of a solver for a higher degree. -/
theorem substitute_inherited {w₁ w₂ w₁' w₂' : World} (hs₁ : BoxSetup w₁ n lo hi) (hs₂ : BoxSetup w₂ n lo hi)
    {grb : LP → Bool} (hgrb : ∀ lp, grb lp = true ↔ lp.Feasible) (hid : NamesBounds idMap n lo hi)
    (hp : WF (InProg n) 0 p) {adeg₁ adeg₂ : ℤ} {fuel₁ fuel₂ : ℕ} (hfuel₁ : 0 < fuel₁) (hfuel₂ : 0 < fuel₂)
    (hdeg₁ : (boxCore n lo hi p adeg₁).maxDeg < fuel₁) (hdeg₂ : (boxCore n lo hi p adeg₂).maxDeg < fuel₂)
    (hok₁ : (boxCore n lo hi p adeg₁).solve fuel₁ w₁.newSolver = .ok w₁')
    (hok₂ : (boxCore n lo hi p adeg₂).solve fuel₂ w₂.newSolver = .ok w₂')
    (hdeg : (boxCore n lo hi p adeg₁).maxDeg ≤ (boxCore n lo hi p adeg₂).maxDeg) {coords coords' : Coords}
    (hlen : coords.length = n) (hsub : Narrower coords' coords) (sz₁ sz₂ : ℕ)
    (h : substitute grb w₁'.s sz₁ idMap coords = true) : substitute grb w₂'.s sz₂ idMap coords' = true := by
  rw [hs₂.substitute_iff hgrb hid (hsub.length_eq.trans hlen) hp hfuel₂ hdeg₂ hok₂ sz₂]
  exact ((hs₁.substitute_iff hgrb hid hlen hp hfuel₁ hdeg₁ hok₁ sz₁).1 h).mono hdeg hsub

/-- The verdict on `x ≥ 0` passes from the interval from 1 to 2 to its first half, and from degree 1 to
degree 2. -/
theorem substitute_inherited_half : ∃ (grb : LP → Bool) (w₁ w₂ : World), (∀ lp, grb lp = true ↔ lp.Feasible) ∧
    (boxCore 1 (fun _ => 1) (fun _ => 2) (.var ⟨0, false⟩ true) 1).solve 2 driverWorld.newSolver = .ok w₁ ∧
    (boxCore 1 (fun _ => 1) (fun _ => 2) (.var ⟨0, false⟩ true) 2).solve 3 driverWorld.newSolver = .ok w₂ ∧
    substitute grb w₁.s 6 (fun _ t => t + 1) [(1, 2)] = true ∧
    substitute grb w₂.s 6 (fun _ t => t + 1) [(1, 3 / 2)] = true := by
  classical
  have hgrb : ∀ lp : LP, decide lp.Feasible = true ↔ lp.Feasible := fun lp => decide_eq_true_iff
  have hlp : ((boxCore 1 (fun _ => 1) (fun _ => 2) (.var ⟨0, false⟩ true) 1).solve 2 driverWorld.newSolver).map
      (fun w => w.s.lp 6 (subMapFrom (fun _ t => t + 1) 0 [(1, 2)] [])) = .ok (driverLP 6) := by decide +kernel
  have hok : ((boxCore 1 (fun _ => 1) (fun _ => 2) (.var ⟨0, false⟩ true) 2).solve 3 driverWorld.newSolver).isOk =
      true := by decide +kernel
  cases h₁ : (boxCore 1 (fun _ => 1) (fun _ => 2) (.var ⟨0, false⟩ true) 1).solve 2 driverWorld.newSolver with
  | error e =>
    rw [h₁] at hlp
    cases hlp
  | ok w₁ =>
    cases h₂ : (boxCore 1 (fun _ => 1) (fun _ => 2) (.var ⟨0, false⟩ true) 2).solve 3 driverWorld.newSolver with
    | error e =>
      rw [h₂] at hok
      cases hok
    | ok w₂ =>
      rw [h₁] at hlp
      have hrows : w₁.s.lp 6 (subMapFrom (fun _ t => t + 1) 0 [(1, 2)] []) = driverLP 6 := by injection hlp
      have hyes : substitute (fun lp => decide lp.Feasible) w₁.s 6 (fun _ t => t + 1) [(1, 2)] = true := by
        rw [substitute, hrows]
        exact decide_eq_true (driverLP_feasible 6)
      have hsub : Narrower [(1, 3 / 2)] [(1, 2)] := .cons ⟨le_rfl, by norm_num⟩ .nil
      exact ⟨_, w₁, w₂, hgrb, rfl, rfl, hyes, substitute_inherited driverWorld_setup driverWorld_setup hgrb
        (fun _ _ => ⟨rfl, rfl⟩) (Multinomial.wf_var (show InProg 1 ⟨0, false⟩ from ⟨rfl, Nat.zero_lt_one⟩) le_rfl true)
        (by decide) (by decide) (by decide) (by decide) h₁ h₂ (by decide) rfl hsub 6 6 hyes⟩

/-! ## Constraints of degree one, and small boxes -/

/-- The length of side `i`. -/
def width (coords : Coords) (i : ℕ) : ℚ := (coords[i]?.map fun c => c.2 - c.1).getD 0

theorem boxSide_lower (coords : Coords) (i : ℕ) : boxSide coords (2 * i) = X i - C (corner coords i : ℝ) := by
  have hb : bound coords (2 * i) = corner coords i := by
    have hparity : 2 * i % 2 = 0 := by omega
    simp only [bound, corner, show 2 * i / 2 = i by omega, hparity, if_true]
  rw [boxSide, hb, boundSign, if_pos (by omega), show 2 * i / 2 = i by omega, Rat.cast_one, C_1, one_mul]

theorem boxSide_upper (coords : Coords) (i : ℕ) :
    boxSide coords (2 * i + 1) = C (corner coords i + width coords i : ℝ) - X i := by
  have hb : bound coords (2 * i + 1) = corner coords i + width coords i := by
    have hparity : (2 * i + 1) % 2 ≠ 0 := by omega
    simp only [bound, corner, width, show (2 * i + 1) / 2 = i by omega, hparity, if_false]
    cases coords[i]? <;> simp
  rw [boxSide, hb, boundSign, if_neg (by omega), show (2 * i + 1) / 2 = i by omega, Rat.cast_neg, Rat.cast_one, C_neg,
    C_1, neg_one_mul, neg_sub, Rat.cast_add]

/-- The points of a box by its lower corner and its widths. -/
theorem inBox_iff_corner {x : ℕ → ℝ} : InBox coords x ↔
    ∀ i < coords.length, (corner coords i : ℝ) ≤ x i ∧ x i ≤ corner coords i + width coords i := by
  have hside : ∀ i c, coords[i]? = some c → (corner coords i : ℝ) = c.1 ∧
      (corner coords i + width coords i : ℝ) = c.2 := by
    intro i c hc
    simp [corner, width, hc]
  constructor
  · intro h i hi
    obtain ⟨h1, h2⟩ := hside i _ (List.getElem?_eq_getElem hi)
    rw [h2, h1]
    exact h i _ (List.getElem?_eq_getElem hi)
  · intro h i c hc
    obtain ⟨h1, h2⟩ := hside i c hc
    have := h i (List.getElem?_eq_some_iff.1 hc).1
    rwa [h2, h1] at this

theorem width_nonneg (hvalid : ∀ c ∈ coords, c.1 ≤ c.2) (i : ℕ) : 0 ≤ (width coords i : ℝ) := by
  rw [Rat.cast_nonneg, width]
  cases hc : coords[i]? with
  | none => exact le_rfl
  | some c => exact sub_nonneg.2 (hvalid c (List.mem_of_getElem? hc))

/-- The variables of the polynomial are program variables. -/
theorem vars_map_prog (hp : WF (InProg n) 0 p) : ∀ i ∈ (map (algebraMap ℚ ℝ) p.toMv).vars, i ∈ p.toMv.vars ∧ i < n := by
  intro i hi
  have hi := vars_map p.toMv (algebraMap ℚ ℝ) hi
  obtain ⟨k, hk, rfl⟩ := hp.vars i hi
  exact ⟨hi, hk.2⟩

/-- Sides for the variables of the polynomial, no more than its degree, are among the products. -/
theorem sideProduct_of_sides (hp : WF (InProg n) 0 p) {d : ℤ} (hdeg : (p.toMv.totalDegree : ℤ) ≤ d) (α : Multiset ℕ)
    (hα : ∀ j ∈ α, ∃ i ∈ (map (algebraMap ℚ ℝ) p.toMv).vars, j = 2 * i ∨ j = 2 * i + 1)
    (hcard : α.card ≤ (map (algebraMap ℚ ℝ) p.toMv).totalDegree) : SideProduct n p d α := by
  refine sideProduct_of_vars hp (fun j hj => ?_) ?_
  · obtain ⟨i, hi, h⟩ := hα j hj
    rw [show j / 2 = i by omega]
    exact (vars_map_prog hp i hi).1
  · exact (Nat.cast_le.2 (hcard.trans (Finset.sup_mono (support_map_subset _ _)))).trans hdeg

theorem eval_map_prog (x : ℕ → ℝ) (p : Multinomial) : eval x (map (algebraMap ℚ ℝ) p.toMv) = aeval x p.toMv := by
  rw [eval_map, ← aeval_def]

theorem combines_of_linear (hp : WF (InProg n) 0 p) (hlin : p.toMv.totalDegree ≤ 1) {d : ℤ}
    (hdeg : (p.toMv.totalDegree : ℤ) ≤ d) (hvalid : ∀ c ∈ coords, c.1 ≤ c.2)
    (h : ∀ x, InBox coords x → 0 ≤ aeval x p.toMv) : Combines n p d coords := by
  refine inCone_of_linear ((Finset.sup_mono (support_map_subset _ _)).trans hlin)
    (fun i _ => boxSide_lower coords i) (fun i _ => boxSide_upper coords i) (fun i _ => width_nonneg hvalid i)
    (sideProduct_of_sides hp hdeg) fun x hx => ?_
  -- outside of the variables of the polynomial the point may as well be in the corner
  obtain ⟨y, hy⟩ : ∃ y : ℕ → ℝ, ∀ i,
      y i = if i ∈ (map (algebraMap ℚ ℝ) p.toMv).vars then x i else (corner coords i : ℝ) := ⟨_, fun _ => rfl⟩
  have hbox : InBox coords y := inBox_iff_corner.2 fun i _ => by
    rw [hy]
    split_ifs with hi
    · exact hx i hi
    · exact ⟨le_rfl, le_add_of_nonneg_right (width_nonneg hvalid i)⟩
  have heval : eval x (map (algebraMap ℚ ℝ) p.toMv) = eval y (map (algebraMap ℚ ℝ) p.toMv) :=
    eval₂Hom_congr' rfl (fun i hi _ => by rw [hy, if_pos hi]) rfl
  rw [heval, eval_map_prog]
  exact h y hbox

/-- On a box of a certain width, with its corner within a bound, the polynomial is a combination as soon
as it reaches `ε` anywhere on the box. -/
theorem exists_width_combines (hp : WF (InProg n) 0 p) {d : ℤ} (hdeg : (p.toMv.totalDegree : ℤ) ≤ d) (R : ℝ) {ε : ℝ}
    (hε : 0 < ε) : ∃ δ : ℝ, 0 < δ ∧ ∀ coords : Coords, coords.length = n → (∀ c ∈ coords, c.1 ≤ c.2) →
      (∀ c ∈ coords, |(c.1 : ℝ)| ≤ R ∧ (c.2 - c.1 : ℝ) ≤ δ) →
      (∃ x, InBox coords x ∧ ε ≤ aeval x p.toMv) → Combines n p d coords := by
  obtain ⟨δ, hδ, hsmall⟩ := exists_width_weight_le (map (algebraMap ℚ ℝ) p.toMv) (fun _ => max R 0) hε
  refine ⟨δ, hδ, fun coords hlen hvalid hsize ⟨x, hx, hval⟩ => ?_⟩
  refine inCone_of_weight_le (fun i _ => boxSide_lower coords i) (fun i _ => boxSide_upper coords i)
    (fun i _ => width_nonneg hvalid i) (sideProduct_of_sides hp hdeg) ?_
  refine hsmall _ _ x (fun i => ?_) (fun i hi => ⟨width_nonneg hvalid i, ?_⟩) (fun i hi => ?_) (by rwa [eval_map_prog])
  · rw [corner]
    cases hc : coords[i]? with
    | none => simp
    | some c => exact (hsize c (List.mem_of_getElem? hc)).1.trans (le_max_left _ _)
  · rw [width]
    cases hc : coords[i]? with
    | none => simpa using hδ.le
    | some c => simpa using (hsize c (List.mem_of_getElem? hc)).2
  · exact inBox_iff_corner.1 hx i (hlen ▸ (vars_map_prog hp i hi).2)

end Handelman

/-! ## The two solvers of a constraint -/

section

open Handelman

variable {w w' : World} {n : ℕ} {lo hi : ℕ → ℕ}

/-- The fuel is enough for the cores of a constraint. -/
def Fueled (n : ℕ) (lo hi : ℕ → ℕ) (fuel : ℕ) (c : Multinomial × ℤ) : Prop :=
  0 < fuel ∧ ∀ q, q = c.1 ∨ q = c.1.mulDouble (-1) → (boxCore n lo hi q c.2).maxDeg < fuel

theorem WithinDegree.fueled {fuel : ℕ} {c : Multinomial × ℤ} (h : WithinDegree n lo hi fuel c) :
    Fueled n lo hi fuel c := by
  refine ⟨?_, fun q hq => (h q hq).2⟩
  have := h c.1 (.inl rfl)
  omega

/-- The verdicts of the two solvers of a constraint on all boxes. -/
def SolversCombine (grb : LP → Bool) (idMap : ℕ → ℕ → ℕ) (n : ℕ) (lo hi : ℕ → ℕ) (c : Multinomial × ℤ)
    (sol : Solver × Solver) : Prop :=
  ∀ (sz : ℕ) (coords : Coords), coords.length = n →
    (substitute grb sol.1 sz idMap coords = true ↔ Combines n c.1 (boxCore n lo hi c.1 c.2).maxDeg coords) ∧
      (substitute grb sol.2 sz idMap coords = true ↔
        Combines n (c.1.mulDouble (-1)) (boxCore n lo hi (c.1.mulDouble (-1)) c.2).maxDeg coords)

theorem buildSolvers_combine {grb : LP → Bool} (hgrb : ∀ lp, grb lp = true ↔ lp.Feasible) {idMap : ℕ → ℕ → ℕ}
    (hid : NamesBounds idMap n lo hi) {fuel : ℕ} : ∀ {cs : List (Multinomial × ℤ)} {w w' : World}
    {sols : List (Solver × Solver)}, BoxSetup w n lo hi → (∀ c ∈ cs, WF (InProg n) 0 c.1 ∧ Fueled n lo hi fuel c) →
    buildSolvers n lo hi fuel cs w = .ok (sols, w') →
    List.Forall₂ (SolversCombine grb idMap n lo hi) cs sols
  | [], w, w', sols, _, _, hok => by
    cases hok
    exact .nil
  | (p, adeg) :: cs, w, w', sols, hs, hcs, hok => by
    rw [List.forall_mem_cons] at hcs
    obtain ⟨⟨hp, hfuel0, hfuel⟩, hcs⟩ := hcs
    obtain ⟨-, hwf⟩ := mulDouble_spec (-1) hp
    rw [buildSolvers] at hok
    obtain ⟨w₁, h1, hok⟩ := bind_ok hok
    obtain ⟨w₂, h2, hok⟩ := bind_ok hok
    obtain ⟨⟨sols', w₃⟩, h3, hok⟩ := bind_ok hok
    cases hok
    have hs₁ := hs.newSolver.solve hp h1
    have hs₂ := hs₁.newSolver.solve hwf h2
    refine .cons (fun sz coords hlen => ⟨?_, ?_⟩) (buildSolvers_combine hgrb hid hs₂ hcs h3)
    · exact hs.substitute_iff hgrb hid hlen hp hfuel0 (hfuel p (.inl rfl)) h1 sz
    · exact hs₁.substitute_iff hgrb hid hlen hwf hfuel0 (hfuel _ (.inr rfl)) h2 sz

/-- The polynomial of the negative solver. -/
theorem aeval_negated {p : Multinomial} (hp : WF (InProg n) 0 p) (x : ℕ → ℝ) :
    aeval x (p.mulDouble (-1)).toMv = -aeval x p.toMv := by
  rw [(mulDouble_spec (-1) hp).1, map_mul, aeval_C]
  simp

theorem totalDegree_negated {p : Multinomial} (hp : WF (InProg n) 0 p) :
    (p.mulDouble (-1)).toMv.totalDegree = p.toMv.totalDegree := by
  rw [(mulDouble_spec (-1) hp).1, map_neg, C_1, mul_neg_one, totalDegree_neg]

/-- The two solvers of a constraint answer with its sign on the whole box. -/
def SolversExact (grb : LP → Bool) (idMap : ℕ → ℕ → ℕ) (n : ℕ) (p : Multinomial) (sol : Solver × Solver) : Prop :=
  ∀ (sz : ℕ) (coords : Coords), coords.length = n → (∀ c ∈ coords, c.1 ≤ c.2) →
    (substitute grb sol.1 sz idMap coords = true ↔ ∀ x, InBox coords x → 0 ≤ aeval x p.toMv) ∧
      (substitute grb sol.2 sz idMap coords = true ↔ ∀ x, InBox coords x → aeval x p.toMv ≤ 0)

/-- Constraints of degree one are decided exactly. -/
theorem buildSolvers_exact (hs : BoxSetup w n lo hi) {grb : LP → Bool} (hgrb : ∀ lp, grb lp = true ↔ lp.Feasible)
    {idMap : ℕ → ℕ → ℕ} (hid : NamesBounds idMap n lo hi) {fuel : ℕ} {cs : List (Multinomial × ℤ)}
    (hcs : ∀ c ∈ cs, WF (InProg n) 0 c.1 ∧ WithinDegree n lo hi fuel c ∧ c.1.toMv.totalDegree ≤ 1)
    {sols : List (Solver × Solver)} (hok : buildSolvers n lo hi fuel cs w = .ok (sols, w')) :
    List.Forall₂ (fun c sol => SolversExact grb idMap n c.1 sol) cs sols := by
  have hsound := buildSolvers_sound hgrb hid hs (fun c hc => (hcs c hc).1) hok
  have hcombine := buildSolvers_combine hgrb hid hs (fun c hc => ⟨(hcs c hc).1, (hcs c hc).2.1.fueled⟩) hok
  rw [List.forall₂_iff_get] at hsound hcombine ⊢
  refine ⟨hsound.1, fun i h₁ h₂ sz coords hlen hvalid => ?_⟩
  obtain ⟨hp, hwithin, hlin⟩ := hcs _ (List.get_mem cs ⟨i, h₁⟩)
  obtain ⟨hneg, hwf⟩ := mulDouble_spec (-1) hp
  obtain ⟨hc₁, hc₂⟩ := hcombine.2 i h₁ h₂ sz coords hlen
  refine ⟨⟨fun h x hx => (hsound.2 i h₁ h₂ sz coords hlen x hx).1 h, fun h => hc₁.2 ?_⟩,
    ⟨fun h x hx => (hsound.2 i h₁ h₂ sz coords hlen x hx).2 h, fun h => hc₂.2 ?_⟩⟩
  · exact combines_of_linear hp hlin (hwithin _ (.inl rfl)).1 hvalid h
  · refine combines_of_linear hwf ((totalDegree_negated hp).trans_le hlin) ?_ hvalid fun x hx => ?_
    · rw [totalDegree_negated hp]
      exact (hwithin _ (.inr rfl)).1
    · rw [aeval_negated hp]
      exact neg_nonneg.2 (h x hx)

/-- On a box of sides at most `δ` and corners within `R` the positive solver of a constraint answers true if
the polynomial reaches `ε` anywhere, and the negative one if it falls to `-ε` anywhere. -/
def SolversDecideSmall (grb : LP → Bool) (idMap : ℕ → ℕ → ℕ) (n : ℕ) (R δ ε : ℝ) (p : Multinomial)
    (sol : Solver × Solver) : Prop :=
  ∀ (sz : ℕ) (coords : Coords), coords.length = n → (∀ c ∈ coords, c.1 ≤ c.2) →
    (∀ c ∈ coords, |(c.1 : ℝ)| ≤ R ∧ (c.2 - c.1 : ℝ) ≤ δ) →
    ((∃ x, InBox coords x ∧ ε ≤ aeval x p.toMv) → substitute grb sol.1 sz idMap coords = true) ∧
      ((∃ x, InBox coords x ∧ aeval x p.toMv ≤ -ε) → substitute grb sol.2 sz idMap coords = true)

/-- One width for every constraint. -/
theorem exists_width_forall {R ε : ℝ} (hε : 0 < ε) {fuel : ℕ} : ∀ {cs : List (Multinomial × ℤ)},
    (∀ c ∈ cs, WF (InProg n) 0 c.1 ∧ WithinDegree n lo hi fuel c) →
    ∃ δ : ℝ, 0 < δ ∧ ∀ c ∈ cs, ∀ q, q = c.1 ∨ q = c.1.mulDouble (-1) → ∀ coords : Coords, coords.length = n →
      (∀ e ∈ coords, e.1 ≤ e.2) → (∀ e ∈ coords, |(e.1 : ℝ)| ≤ R ∧ (e.2 - e.1 : ℝ) ≤ δ) →
      (∃ x, InBox coords x ∧ ε ≤ aeval x q.toMv) → Combines n q (boxCore n lo hi q c.2).maxDeg coords
  | [], _ => ⟨1, one_pos, by simp⟩
  | c :: cs, hcs => by
    rw [List.forall_mem_cons] at hcs
    obtain ⟨⟨hp, hwithin⟩, hcs⟩ := hcs
    obtain ⟨-, hwf⟩ := mulDouble_spec (-1) hp
    have hdeg := (hwithin _ (.inr rfl)).1
    rw [← totalDegree_negated hp] at hdeg
    obtain ⟨δ₁, h1, hpos⟩ := exists_width_combines hp (hwithin _ (.inl rfl)).1 R hε
    obtain ⟨δ₂, h2, hneg⟩ := exists_width_combines hwf hdeg R hε
    obtain ⟨δ₃, h3, hrest⟩ := exists_width_forall hε hcs
    refine ⟨min δ₁ (min δ₂ δ₃), lt_min h1 (lt_min h2 h3), List.forall_mem_cons.2 ⟨?_, ?_⟩⟩
    · rintro q (rfl | rfl) coords hlen hvalid hsize hx
      · exact hpos coords hlen hvalid (fun e he => ⟨(hsize e he).1, (hsize e he).2.trans (min_le_left _ _)⟩) hx
      · exact hneg coords hlen hvalid (fun e he => ⟨(hsize e he).1,
          (hsize e he).2.trans ((min_le_right _ _).trans (min_le_left _ _))⟩) hx
    · intro d hd q hq coords hlen hvalid hsize hx
      exact hrest d hd q hq coords hlen hvalid (fun e he => ⟨(hsize e he).1,
        (hsize e he).2.trans ((min_le_right _ _).trans (min_le_right _ _))⟩) hx

/-- **Small boxes are decided**: for every tolerance there is a width below which, on every box where a
constraint reaches the tolerance with either sign, the solver for this sign finds a certificate. -/
theorem small_boxes_decided (hs : BoxSetup w n lo hi) {grb : LP → Bool} (hgrb : ∀ lp, grb lp = true ↔ lp.Feasible)
    {idMap : ℕ → ℕ → ℕ} (hid : NamesBounds idMap n lo hi) {fuel : ℕ} {cs : List (Multinomial × ℤ)}
    (hcs : ∀ c ∈ cs, WF (InProg n) 0 c.1 ∧ WithinDegree n lo hi fuel c) {sols : List (Solver × Solver)}
    (hok : buildSolvers n lo hi fuel cs w = .ok (sols, w')) (R : ℝ) {ε : ℝ} (hε : 0 < ε) :
    ∃ δ : ℝ, 0 < δ ∧ List.Forall₂ (fun c sol => SolversDecideSmall grb idMap n R δ ε c.1 sol) cs sols := by
  have hcombine := buildSolvers_combine hgrb hid hs (fun c hc => ⟨(hcs c hc).1, (hcs c hc).2.fueled⟩) hok
  obtain ⟨δ, hδ, hwidth⟩ := exists_width_forall (R := R) hε hcs
  refine ⟨δ, hδ, ?_⟩
  rw [List.forall₂_iff_get] at hcombine ⊢
  refine ⟨hcombine.1, fun i h₁ h₂ sz coords hlen hvalid hsize => ?_⟩
  obtain ⟨hc₁, hc₂⟩ := hcombine.2 i h₁ h₂ sz coords hlen
  have hp := (hcs _ (List.get_mem cs ⟨i, h₁⟩)).1
  have hwidth := hwidth _ (List.get_mem cs ⟨i, h₁⟩)
  constructor
  · intro hx
    exact hc₁.2 (hwidth _ (.inl rfl) coords hlen hvalid hsize hx)
  · rintro ⟨x, hx, hval⟩
    refine hc₂.2 (hwidth _ (.inr rfl) coords hlen hvalid hsize ⟨x, hx, ?_⟩)
    rw [aeval_negated hp]
    exact le_neg_of_le_neg hval

/-- The constraint `x ≥ 0` has degree 1, the bound and one less than the fuel. -/
theorem driver_withinDegree : ∀ c ∈ [(Multinomial.var ⟨0, false⟩ true, (1 : ℤ))],
    WF (InProg 1) 0 c.1 ∧ WithinDegree 1 (fun _ => 1) (fun _ => 2) 2 c ∧ c.1.toMv.totalDegree ≤ 1 := by
  have hmax : ∀ q : Multinomial, (boxCore 1 (fun _ => 1) (fun _ => 2) q 1).maxDeg = 1 := fun _ => rfl
  refine List.forall_mem_singleton.2 ⟨wf_driverVar, fun q _ => ?_, ?_⟩ <;> rw [Multinomial.toMv_var, totalDegree_X]
  rw [hmax]
  decide

theorem small_boxes_decided_linear : ∃ (grb : LP → Bool) (sols : List (Solver × Solver)) (w' : World) (δ : ℝ),
    driverSolvers (.var ⟨0, false⟩ true) = .ok (sols, w') ∧ 0 < δ ∧
      List.Forall₂ (fun c sol => SolversDecideSmall grb (fun _ t => t + 1) 1 10 δ (1 / 100) c.1 sol)
        [(Multinomial.var ⟨0, false⟩ true, (1 : ℤ))] sols := by
  classical
  have hgrb : ∀ lp : LP, decide lp.Feasible = true ↔ lp.Feasible := fun lp => decide_eq_true_iff
  obtain ⟨sol, w', hr, -⟩ := exists_driverSolvers (.var ⟨0, false⟩ true) (driverLP 9)
    (fun sol sz => sol.1.lp sz (subMapFrom (fun _ t => t + 1) 0 [(1, 2)] [])) (by decide +kernel)
  obtain ⟨δ, hδ, hall⟩ := small_boxes_decided driverWorld_setup hgrb driver_namesBounds
    (fun c hc => ⟨(driver_withinDegree c hc).1, (driver_withinDegree c hc).2.1⟩) hr 10
    (ε := 1 / 100) (by norm_num)
  exact ⟨_, [sol], w', δ, hr, hδ, hall⟩

end

end GridSolve.Core
