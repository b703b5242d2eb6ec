/-
Soundness of a positive verdict. The drivers bound program variable `i` by two templates, with the
left-hand sides `x_i - lo_i` and `hi_i - x_i`, and `substitute` gives the templates the corners of
a box. A solution of the linear program then writes the right-hand side as a sum of non-negative
constants times products of factors that are non-negative on the box. Products of so many factors
that an exponent would be narrowed need more templates than there are indices, so no run gets that
far.
-/
import GridSolve.Core.Encoding
import GridSolve.Core.Gurobi
import GridSolve.Grid.Box

namespace GridSolve.Core

open MvPolynomial GridSolve.Poly GridSolve.Specialize GridSolve.Cone GridSolve.Grid
open GridSolve.Poly.Multinomial (WF Ordered progPoly mulDouble_spec toMv_congr bare_copy bare_setSave)

namespace Handelman

/-! ## The left-hand sides of a box -/

/-- `v[i] + v(t, i) * -1`. -/
def lowerTerm (i t : ℕ) : Multinomial :=
  (Multinomial.var ⟨i, false⟩ true).add ((Multinomial.var ⟨t, true⟩ true).mulDouble (-1))

/-- `v(t, n + i) + v[i] * -1`. -/
def upperTerm (i t : ℕ) : Multinomial :=
  (Multinomial.var ⟨t, true⟩ true).add ((Multinomial.var ⟨i, false⟩ true).mulDouble (-1))

/-- The left-hand sides for `n` program variables, `lo i` and `hi i` the templates of the bounds. -/
def addBox (n : ℕ) (lo hi : ℕ → ℕ) (h : Handelman) : Handelman :=
  (List.range n).foldl (fun h i => (h.addLhs (lowerTerm i (lo i))).addLhs (upperTerm i (hi i))) h

/-- The core of a driver: the box, the right-hand side `p` and `set_max_degree(adeg)`. -/
def boxCore (n : ℕ) (lo hi : ℕ → ℕ) (p : Multinomial) (adeg : ℤ) : Handelman :=
  ((new.addBox n lo hi).addRhs p).setMaxDegree adeg

/-- `a * x_i + b * t` as it is stored. -/
def boxTerm (i t : ℕ) (a b : ℚ) : Multinomial :=
  .node true ⟨i, false⟩ [(0, .node true ⟨t, true⟩ [(0, .const true 0), (1, .const true b)]), (1, .const true a)]

theorem mulDouble_var (k : Symbol) :
    (Multinomial.var k true).mulDouble (-1) = .node false k [(0, .const false 0), (1, .const false (-1))] := by
  simp [Multinomial.var, Multinomial.mulDouble, Multinomial.mulDoubleMp, Multinomial.simplify, Multinomial.isZero,
    List.lookup_cons]

theorem addDouble_zero_linear (s : Bool) (k : Symbol) {c : ℚ} (hc : c ≠ 0) :
    (Multinomial.node s k [(0, .const s 0), (1, .const s c)]).addDouble 0 =
      .node false k [(0, .const false 0), (1, .const false c)] := by
  cases s <;> simp [Multinomial.addDouble, Multinomial.addDoubleMp, Multinomial.simplify, Multinomial.isZero,
    Multinomial.copy, List.lookup_cons, hc]

theorem lowerTerm_stored {i t : ℕ} (h : i < t) :
    stored (lowerTerm i t) = boxTerm i t 1 (-1) := by
  -- the template comes later in the order, so it goes into the exponent-0 entry
  have hadd : (Multinomial.var ⟨i, false⟩ true).add
        (.node false ⟨t, true⟩ [(0, .const false 0), (1, .const false (-1))]) =
      .node false ⟨i, false⟩
        [(0, (Multinomial.node false ⟨t, true⟩ [(0, .const false 0), (1, .const false (-1))]).addDouble 0),
          (1, .const false 1)] :=
    (if_neg h.le.not_gt).trans (if_pos h)
  rw [lowerTerm, mulDouble_var, hadd, addDouble_zero_linear _ _ (by norm_num)]
  rfl

theorem upperTerm_stored {i t : ℕ} (h : i < t) :
    stored (upperTerm i t) = boxTerm i t (-1) 1 := by
  have hadd : (Multinomial.var ⟨t, true⟩ true).add
        (.node false ⟨i, false⟩ [(0, .const false 0), (1, .const false (-1))]) =
      .node false ⟨i, false⟩ [(0, (Multinomial.var ⟨t, true⟩ true).addDouble 0), (1, .const false (-1))] := if_pos h
  rw [upperTerm, mulDouble_var, hadd, Multinomial.var, addDouble_zero_linear _ _ one_ne_zero]
  rfl

theorem toMv_boxTerm (i t : ℕ) (a b : ℚ) : (boxTerm i t a b).toMv = C a * X i + C b * X t := by
  simp [boxTerm, Multinomial.toMv_node, Multinomial.toMvMp]; ring

theorem wf_boxTerm {S : Symbol → Prop} {i t : ℕ} (h : i < t) (hi : S ⟨i, false⟩) (ht : S ⟨t, true⟩) (a b : ℚ) :
    WF S 0 (boxTerm i t a b) := by
  refine .node (Nat.zero_le _) hi (by simp) rfl fun x hx => ?_
  simp only [List.mem_cons, List.not_mem_nil, or_false] at hx
  rcases hx with rfl | rfl
  · refine .node (Nat.succ_le_of_lt h) ht (by simp) rfl fun y hy => ?_
    simp only [List.mem_cons, List.not_mem_nil, or_false] at hy
    rcases hy with rfl | rfl <;> exact .const
  · exact .const

theorem getDegree_boxTerm (i t : ℕ) (a b : ℚ) : (boxTerm i t a b).getDegree false = 1 := by
  simp [boxTerm, Multinomial.getDegree, Multinomial.getDegreeMp]

theorem cmpPoly_boxTerm {ids : List ℕ} {i t : ℕ} {a b : ℚ} (ht : t ∉ ids) :
    (boxTerm i t a b).cmpPoly ids = true ↔ i ∈ ids := by
  simp [boxTerm, Multinomial.cmpPoly, Multinomial.cmpPolyMp, ht]

theorem degreeOf_boxTerm (i t : ℕ) (a b : ℚ) (k : ℕ) : (boxTerm i t a b).toMv.degreeOf k ≤ 1 := by
  rw [toMv_boxTerm]
  have hX : ∀ (c : ℚ) (j : ℕ), (C c * X j : MvPolynomial ℕ ℚ).degreeOf k ≤ 1 := fun c j => by
    refine (degreeOf_C_mul_le _ _ _).trans ?_
    rw [degreeOf_X]; split_ifs <;> omega
  exact (degreeOf_add_le _ _ _).trans (max_le (hX a i) (hX b t))

/-- The template of left-hand side `j`. -/
def boundId (lo hi : ℕ → ℕ) (j : ℕ) : ℕ := if j % 2 = 0 then lo (j / 2) else hi (j / 2)

/-- The sign of the program variable in left-hand side `j`. -/
def boundSign (j : ℕ) : ℚ := if j % 2 = 0 then 1 else -1

theorem lhs_addBox {n : ℕ} {lo hi : ℕ → ℕ} (h : ∀ i < n, i < lo i ∧ i < hi i) :
    (new.addBox n lo hi).lhs =
      (List.range (2 * n)).map fun j => boxTerm (j / 2) (boundId lo hi j) (boundSign j) (-boundSign j) := by
  induction n with
  | zero => rfl
  | succ n ih =>
    obtain ⟨h1, h2⟩ := h n (Nat.lt_succ_self n)
    have hstep : new.addBox (n + 1) lo hi
        = ((new.addBox n lo hi).addLhs (lowerTerm n (lo n))).addLhs (upperTerm n (hi n)) := by
      rw [addBox, List.range_succ, List.foldl_append]; rfl
    rw [hstep]
    simp only [addLhs, ih fun i hi => h i (Nat.lt_succ_of_lt hi), lowerTerm_stored h1, upperTerm_stored h2]
    rw [Nat.mul_succ, List.range_succ, List.range_succ, List.map_append, List.map_append]
    have e1 : 2 * n / 2 = n := by omega
    have e2 : (2 * n + 1) / 2 = n := by omega
    simp [boundId, boundSign, e1, e2]

/-! ## Too many factors need too many templates -/

theorem card_pairs (N : ℕ) : ((Finset.range (N + 1)).sigma fun s => Finset.HasAntidiagonal.antidiagonal s).card * 2
    = (N + 1) * (N + 2) := by
  simp only [Finset.card_sigma, Finset.Nat.card_antidiagonal]
  induction N with
  | zero => rfl
  | succ N ih => rw [Finset.sum_range_succ, add_mul, ih]; ring

/-- `a` factors `j` and `b` factors `j'`. -/
def twoFactors (j j' : ℕ) (x : Σ _ : ℕ, ℕ × ℕ) : Multiset ℕ :=
  Multiset.replicate x.2.1 j + Multiset.replicate x.2.2 j'

theorem twoFactors_inj {j j' : ℕ} (hne : j ≠ j') (N : ℕ) :
    Set.InjOn (twoFactors j j') ((Finset.range (N + 1)).sigma fun s => Finset.HasAntidiagonal.antidiagonal s) := by
  rintro ⟨s, a, b⟩ hx ⟨s', a', b'⟩ hy h
  have hs : a + b = s := by simpa using (Finset.mem_sigma.1 hx).2
  have hs' : a' + b' = s' := by simpa using (Finset.mem_sigma.1 hy).2
  have ha := congrArg (Multiset.count j) h
  have hb := congrArg (Multiset.count j') h
  simp only [twoFactors, Multiset.count_add, Multiset.count_replicate_self,
    Multiset.count_replicate, if_neg hne, if_neg hne.symm] at ha hb
  obtain rfl : a = a' := by omega
  obtain rfl : b = b' := by omega
  subst hs hs'
  rfl

/-- With two factors of degree one for every factor of a product, a product of `2^16` factors
comes with more products than there are template indices. -/
theorem card_le_of_room {h : Handelman} {ids : List ℕ} {fuel : ℕ} {α : Multiset ℕ}
    (hroom : (h.products ids fuel 0 0).length ≤ 2147483648) (hα : α ∈ h.products ids fuel 0 0)
    (hdeg : ∀ j < h.lhs.length, h.degAt j = 1)
    (htwo : ∀ j < h.lhs.length, (h.lhsAt j).cmpPoly ids = true →
      ∃ j' < h.lhs.length, j ≠ j' ∧ (h.lhsAt j').cmpPoly ids = true) : α.card ≤ 65535 := by
  by_contra hgt
  have hadm := admissible_of_mem hα
  have hne : α ≠ 0 := by rintro rfl; simp at hgt
  obtain ⟨j, hj⟩ := Multiset.exists_mem_of_ne_zero hne
  obtain ⟨-, hlen, hcmp⟩ := hadm.mem j hj
  obtain ⟨j', hlen', hjj', hcmp'⟩ := htwo j hlen hcmp
  have hmax : (α.card : ℤ) ≤ h.maxDeg := by
    have := hadm.deg.resolve_left hne
    rwa [Multiset.map_congr rfl fun i hi => hdeg i (hadm.mem i hi).2.1, Multiset.map_const', Multiset.sum_replicate,
      smul_eq_mul, mul_one, zero_add] at this
  obtain ⟨N, hN⟩ : ∃ N, N = 65536 := ⟨_, rfl⟩
  have hmem : ∀ x ∈ (Finset.range (N + 1)).sigma (fun s => Finset.HasAntidiagonal.antidiagonal s),
      twoFactors j j' x ∈ (h.products ids fuel 0 0).toFinset := by
    rintro ⟨s, a, b⟩ hx
    obtain ⟨h1, h2⟩ := Finset.mem_sigma.1 hx
    have hab : a + b = s := by simpa using h2
    have hs : s < N + 1 := Finset.mem_range.1 h1
    rw [List.mem_toFinset]
    refine mem_of_card_lt ⟨fun i hi => ?_, .inr ?_⟩ ?_
    · rcases Multiset.mem_add.1 hi with hi | hi
      · rw [Multiset.eq_of_mem_replicate hi]; exact ⟨Nat.zero_le _, hlen, hcmp⟩
      · rw [Multiset.eq_of_mem_replicate hi]; exact ⟨Nat.zero_le _, hlen', hcmp'⟩
    · simp only [twoFactors, Multiset.map_add, Multiset.map_replicate, Multiset.sum_add, Multiset.sum_replicate,
        hdeg j hlen, hdeg j' hlen', smul_eq_mul, mul_one]
      omega
    · have := card_lt_of_mem hα
      simp only [twoFactors, Multiset.card_add, Multiset.card_replicate]
      omega
  have hcard := (Finset.card_le_card_of_injOn _ hmem (twoFactors_inj hjj' N)).trans (List.toFinset_card_le _)
  have hpairs := card_pairs N
  rw [hN] at hpairs hcard
  omega

/-! ## The setting of the drivers -/

/-- The program variables are the first `n` symbols, and every one has two templates of its own,
created later, for its bounds. -/
structure BoxSetup (w : World) (n : ℕ) (lo hi : ℕ → ℕ) : Prop where
  synced : w.Synced
  lo_range : ∀ i < n, n ≤ lo i ∧ lo i < w.numSymbols
  hi_range : ∀ i < n, n ≤ hi i ∧ hi i < w.numSymbols
  lo_inj : ∀ i < n, ∀ j < n, lo i = lo j → i = j
  hi_inj : ∀ i < n, ∀ j < n, hi i = hi j → i = j
  lo_ne_hi : ∀ i < n, ∀ j < n, lo i ≠ hi j

/-- A program variable. -/
def InProg (n : ℕ) (k : Symbol) : Prop := k.isTempl = false ∧ k.id < n

/-- A program variable or the template of a bound. -/
def BoxSymbol (n : ℕ) (lo hi : ℕ → ℕ) (k : Symbol) : Prop :=
  InProg n k ∨ (k.isTempl = true ∧ ∃ j < 2 * n, k.id = boundId lo hi j)

section

variable {w w' : World} {n : ℕ} {lo hi : ℕ → ℕ} {p : Multinomial} {adeg : ℤ}

theorem BoxSetup.bound_range (hs : BoxSetup w n lo hi) {j : ℕ} (hj : j < 2 * n) :
    n ≤ boundId lo hi j ∧ boundId lo hi j < w.numSymbols := by
  unfold boundId
  split_ifs
  · exact hs.lo_range _ (by omega)
  · exact hs.hi_range _ (by omega)

theorem BoxSetup.le_size (hs : BoxSetup w n lo hi) : n ≤ w.numSymbols := by
  cases n with
  | zero => exact Nat.zero_le _
  | succ n => have := hs.lo_range 0 (by omega); omega

theorem BoxSetup.ordered (hs : BoxSetup w n lo hi) : Ordered (BoxSymbol n lo hi) n := by
  rintro k (⟨h1, h2⟩ | ⟨h1, j, hj, h2⟩)
  · exact ⟨fun h => by simp [h1] at h, fun h => absurd h (by omega)⟩
  · exact ⟨fun _ => by rw [h2]; exact (hs.bound_range hj).1, fun _ => h1⟩

theorem BoxSetup.id_lt (hs : BoxSetup w n lo hi) : ∀ k, BoxSymbol n lo hi k → k.id < w.numSymbols := by
  rintro k (⟨-, h2⟩ | ⟨-, j, hj, h2⟩)
  · exact lt_of_lt_of_le h2 hs.le_size
  · rw [h2]; exact (hs.bound_range hj).2

theorem setMaxDegree_lhs (adeg : ℤ) (h : Handelman) : (h.setMaxDegree adeg).lhs = h.lhs := by
  unfold setMaxDegree; split_ifs <;> rfl

theorem setMaxDegree_rhsArr (adeg : ℤ) (h : Handelman) : (h.setMaxDegree adeg).rhsArr = h.rhsArr := by
  unfold setMaxDegree; split_ifs <;> rfl

theorem addBox_rhsArr (n : ℕ) (lo hi : ℕ → ℕ) : (new.addBox n lo hi).rhsArr = [] := by
  induction n with
  | zero => rfl
  | succ n ih =>
    rw [addBox, List.range_succ, List.foldl_append]
    exact ih

theorem boxCore_rhsArr : (boxCore n lo hi p adeg).rhsArr = [stored p] := by
  rw [boxCore, setMaxDegree_rhsArr, addRhs, addBox_rhsArr, List.nil_append]

theorem boxCore_lhs : (boxCore n lo hi p adeg).lhs = (new.addBox n lo hi).lhs := by
  rw [boxCore, setMaxDegree_lhs]
  rfl

section

variable {h : Handelman} (hs : BoxSetup w n lo hi) (hl : h.lhs = (new.addBox n lo hi).lhs)

include hs hl

theorem BoxSetup.lhs_eq : h.lhs =
    (List.range (2 * n)).map fun j => boxTerm (j / 2) (boundId lo hi j) (boundSign j) (-boundSign j) := by
  rw [hl]
  exact lhs_addBox fun i hi' => ⟨hi'.trans_le (hs.lo_range i hi').1, hi'.trans_le (hs.hi_range i hi').1⟩

theorem BoxSetup.lhs_length : h.lhs.length = 2 * n := by
  rw [hs.lhs_eq hl, List.length_map, List.length_range]

theorem BoxSetup.lhsAt_eq {j : ℕ} (hj : j < 2 * n) :
    h.lhsAt j = boxTerm (j / 2) (boundId lo hi j) (boundSign j) (-boundSign j) := by
  rw [lhsAt, hs.lhs_eq hl, List.getD_eq_getElem?_getD, List.getElem?_map, List.getElem?_range hj]
  rfl

theorem BoxSetup.degAt_eq {j : ℕ} (hj : j < 2 * n) : h.makeDegArr.degAt j = 1 := by
  rw [degAt_makeDegArr, hs.lhsAt_eq hl hj, getDegree_boxTerm]

theorem BoxSetup.wf_lhsAt (j : ℕ) : WF (BoxSymbol n lo hi) 0 (h.lhsAt j) := by
  refine Handelman.wf_lhsAt (fun m hm => ?_) j
  rw [hs.lhs_eq hl] at hm
  obtain ⟨i, hi', rfl⟩ := List.mem_map.1 hm
  have hlt := List.mem_range.1 hi'
  have hb := hs.bound_range hlt
  exact wf_boxTerm (by omega) (.inl ⟨rfl, by simp only; omega⟩) (.inr ⟨rfl, i, hlt, rfl⟩) _ _

/-- A side of the box as a polynomial, for given values of the bounds. -/
theorem BoxSetup.progPoly_lhsAt (v : ℕ → ℝ) {j : ℕ} (hj : j < 2 * n) :
    progPoly n v (h.lhsAt j) = C (boundSign j : ℝ) * (X (j / 2) - C (v (boundId lo hi j))) := by
  rw [progPoly, hs.lhsAt_eq hl hj, toMv_boxTerm, map_add, map_mul, map_mul, specialize_C, specialize_C,
    specialize_X_neg (n ≤ ·) _ (by omega), specialize_X_pos (n ≤ ·) _ (hs.bound_range hj).1]
  simp only [eq_ratCast, map_neg]
  ring

/-- A left-hand side passes `cmp_poly` when its program variable is asked for. -/
theorem BoxSetup.cmpPoly_iff {ids : List ℕ} (hids : ∀ i ∈ ids, i < n) {j : ℕ} (hj : j < 2 * n) :
    (h.lhsAt j).cmpPoly ids = true ↔ j / 2 ∈ ids := by
  rw [hs.lhsAt_eq hl hj]
  exact cmpPoly_boxTerm fun hb => by have := hids _ hb; have := (hs.bound_range hj).1; omega

/-- No exponent is narrowed in a run that returns. -/
theorem BoxSetup.fitsExp {ids : List ℕ} (hids : ∀ i ∈ ids, i < n) {fuel : ℕ}
    (hroom : (h.makeDegArr.products ids fuel 0 0).length ≤ 2147483648) :
    ∀ α ∈ h.makeDegArr.products ids fuel 0 0, h.FitsExp α := by
  have hlen : h.makeDegArr.lhs.length = 2 * n := hs.lhs_length hl
  intro α hα i
  have hcard := card_le_of_room hroom hα (fun j hj => hs.degAt_eq hl (by omega)) fun j hj hc => by
      -- the other bound of the same variable
      have hj2 := (hs.cmpPoly_iff hl hids (by omega)).1 hc
      refine ⟨if j % 2 = 0 then j + 1 else j - 1, ?_, ?_, (hs.cmpPoly_iff hl hids ?_).2 ?_⟩ <;> split_ifs <;>
        first | omega | (rw [show (j + 1) / 2 = j / 2 by omega]; exact hj2) |
          (rw [show (j - 1) / 2 = j / 2 by omega]; exact hj2)
  have hone : ∀ d ∈ α.map fun j => (h.lhsAt j).toMv.degreeOf i, d ≤ 1 := fun d hd => by
    obtain ⟨j, hj, rfl⟩ := Multiset.mem_map.1 hd
    rw [hs.lhsAt_eq hl (by have := ((admissible_of_mem hα).mem j hj).2.1; omega)]
    exact degreeOf_boxTerm ..
  have := Multiset.sum_le_card_nsmul _ _ hone
  rw [Multiset.card_map, smul_eq_mul, mul_one] at this
  omega

end

theorem BoxSetup.boxCore_length (hs : BoxSetup w n lo hi) : (boxCore n lo hi p adeg).lhs.length = 2 * n :=
  hs.lhs_length boxCore_lhs

theorem BoxSetup.wf_lhs (hs : BoxSetup w n lo hi) (j : ℕ) :
    WF (BoxSymbol n lo hi) 0 ((boxCore n lo hi p adeg).lhsAt j) := hs.wf_lhsAt boxCore_lhs j

/-! ## Polynomials in the program variables -/

theorem bare_stored (p : Multinomial) : (stored p).bare = p.bare := by
  rw [stored, bare_setSave, bare_copy, bare_setSave]

theorem wf_stored {S : Symbol → Prop} {b : ℕ} (hp : WF S b p) : WF S b (stored p) := hp.congr (bare_stored p).symm

theorem retIdArr_lt (hp : WF (InProg n) 0 p) : ∀ i ∈ p.retIdArr, i < n := by
  intro i hi
  obtain ⟨k, hk, rfl⟩ := Multinomial.mem_retIdArr.1 hi
  exact (hp.symbols k hk).2

/-- A polynomial in the program variables is left as it is. -/
theorem progPoly_prog (hp : WF (InProg n) 0 p) (v : ℕ → ℝ) : progPoly n v p = map (algebraMap ℚ ℝ) p.toMv := by
  have hvars : ∀ i ∈ p.toMv.vars, ¬ n ≤ i := fun i hi => by
    obtain ⟨k, hk, rfl⟩ := hp.vars i hi
    exact not_le.2 hk.2
  have hmap : map (algebraMap ℚ ℝ) p.toMv = eval₂Hom (C.comp (algebraMap ℚ ℝ)) X p.toMv := by
    rw [coe_eval₂Hom, ← eval₂_map, eval₂_eta]
  unfold progPoly specialize
  rw [hmap]
  exact eval₂Hom_congr' rfl (fun i hi _ => if_neg (hvars i hi)) rfl

/-! ## The values of the bounds -/

theorem lookup_subMapFrom_of_ne {idMap : ℕ → ℕ → ℕ} {t : ℕ} : ∀ {coords : Coords} {i : ℕ} {m : SubMap},
    (∀ k, i ≤ k → k < i + coords.length → t ≠ idMap k 0 ∧ t ≠ idMap k 1) →
    (subMapFrom idMap i coords m).lookup t = m.lookup t
  | [], _, _, _ => rfl
  | c :: coords, i, m, h => by
    obtain ⟨h0, h1⟩ := h i le_rfl (by simp)
    rw [subMapFrom, lookup_subMapFrom_of_ne fun k h₁ h₂ => h k (by omega) (by simp only [List.length_cons]; omega),
      List.lookup_cons, List.lookup_cons, show (t == idMap i 1) = false by simpa using h1,
      show (t == idMap i 0) = false by simpa using h0]

/-- The bound of coordinate `k` is what its template gets, if no other template has its id. -/
theorem lookup_subMapFrom {idMap : ℕ → ℕ → ℕ} {side : ℕ} (hside : side ≤ 1) : ∀ {coords : Coords} {i k : ℕ}
    {m : SubMap} {c : ℚ × ℚ}, coords[k]? = some c →
    (∀ l s, i ≤ l → l < i + coords.length → s ≤ 1 → idMap (i + k) side = idMap l s → l = i + k ∧ s = side) →
    (subMapFrom idMap i coords m).lookup (idMap (i + k) side) = some (if side = 0 then c.1 else c.2)
  | [], _, _, _, _, hc, _ => by simp at hc
  | e :: coords, i, 0, m, c, hc, h => by
    simp only [List.getElem?_cons_zero, Option.some.injEq] at hc
    subst hc
    have hrest : ∀ k, i + 1 ≤ k → k < i + 1 + coords.length →
        idMap (i + 0) side ≠ idMap k 0 ∧ idMap (i + 0) side ≠ idMap k 1 := fun k h₁ h₂ =>
      ⟨fun he => by have := h k 0 (by omega) (by simp only [List.length_cons]; omega) (by omega) he; omega,
        fun he => by have := h k 1 (by omega) (by simp only [List.length_cons]; omega) le_rfl he; omega⟩
    rw [subMapFrom, lookup_subMapFrom_of_ne hrest, Nat.add_zero, List.lookup_cons, List.lookup_cons]
    rcases Nat.le_one_iff_eq_zero_or_eq_one.1 hside with rfl | rfl
    · have hne : (idMap i 0 == idMap i 1) = false := by
        rw [beq_eq_false_iff_ne]
        intro he
        have := h i 1 le_rfl (by simp) le_rfl he
        omega
      simp [hne]
    · simp
  | e :: coords, i, k + 1, m, c, hc, h => by
    rw [subMapFrom, show i + (k + 1) = i + 1 + k by omega]
    refine lookup_subMapFrom hside (by simpa using hc) fun l s h₁ h₂ hs he => ?_
    have := h l s (by omega) (by simp only [List.length_cons]; omega) hs (by rw [← he]; congr 1; omega)
    omega

variable {idMap : ℕ → ℕ → ℕ} {coords : Coords}

/-- `id_map` names the templates of the bounds. -/
def NamesBounds (idMap : ℕ → ℕ → ℕ) (n : ℕ) (lo hi : ℕ → ℕ) : Prop := ∀ i < n, idMap i 0 = lo i ∧ idMap i 1 = hi i

theorem BoxSetup.idMap_inj (hs : BoxSetup w n lo hi) (hid : NamesBounds idMap n lo hi) {k l s t : ℕ} (hk : k < n)
    (hl : l < n) (hs' : s ≤ 1) (ht : t ≤ 1) (h : idMap k s = idMap l t) : l = k ∧ t = s := by
  obtain ⟨k0, k1⟩ := hid k hk
  obtain ⟨l0, l1⟩ := hid l hl
  rcases Nat.le_one_iff_eq_zero_or_eq_one.1 hs' with rfl | rfl <;>
    rcases Nat.le_one_iff_eq_zero_or_eq_one.1 ht with rfl | rfl
  · rw [k0, l0] at h; exact ⟨(hs.lo_inj k hk l hl h).symm, rfl⟩
  · rw [k0, l1] at h; exact absurd h (hs.lo_ne_hi k hk l hl)
  · rw [k1, l0] at h; exact absurd h.symm (hs.lo_ne_hi l hl k hk)
  · rw [k1, l1] at h; exact ⟨(hs.hi_inj k hk l hl h).symm, rfl⟩

/-- The corner that left-hand side `j` compares with. -/
theorem BoxSetup.lookup_bound (hs : BoxSetup w n lo hi) (hid : NamesBounds idMap n lo hi) (hlen : coords.length = n)
    {j : ℕ} {c : ℚ × ℚ} (hj : j < 2 * n) (hc : coords[j / 2]? = some c) :
    (subMapFrom idMap 0 coords []).lookup (boundId lo hi j) = some (if j % 2 = 0 then c.1 else c.2) := by
  have hk : j / 2 < n := by omega
  have hb : boundId lo hi j = idMap (0 + j / 2) (j % 2) := by
    obtain ⟨h0, h1⟩ := hid _ hk
    unfold boundId
    rcases Nat.mod_two_eq_zero_or_one j with h | h <;> rw [h, Nat.zero_add]
    · rw [if_pos rfl, h0]
    · rw [if_neg one_ne_zero, h1]
  rw [hb]
  exact lookup_subMapFrom (by omega) hc fun l s _ hl hs' he =>
    hs.idMap_inj hid (by omega) (by omega) (by omega) hs' he

theorem BoxSetup.lookup_fresh (hs : BoxSetup w n lo hi) (hid : NamesBounds idMap n lo hi) (hlen : coords.length = n)
    {t : ℕ} (ht : w.numSymbols ≤ t) : (subMapFrom idMap 0 coords []).lookup t = none := by
  rw [lookup_subMapFrom_of_ne]
  · rfl
  · intro k _ hk
    obtain ⟨h0, h1⟩ := hid k (by omega)
    have := hs.lo_range k (by omega)
    have := hs.hi_range k (by omega)
    omega

/-- The unbound symbols of a row are the new templates. -/
theorem BoxSetup.unbound_iff (hs : BoxSetup w n lo hi) (hid : NamesBounds idMap n lo hi) (hlen : coords.length = n)
    {m : ℕ} {k : Symbol} (hk : grown (BoxSymbol n lo hi) w m k ∧ n ≤ k.id) :
    w.numSymbols ≤ k.id ↔ (subMapFrom idMap 0 coords []).lookup k.id = none := by
  refine ⟨hs.lookup_fresh hid hlen, fun hnone => ?_⟩
  obtain ⟨(⟨-, hlt⟩ | ⟨-, j, hj, he⟩) | ⟨-, hlo, -⟩, hn⟩ := hk
  · omega
  · have hc : coords[j / 2]? = some (coords.get ⟨j / 2, by omega⟩) := List.getElem?_eq_getElem (by omega)
    rw [he, hs.lookup_bound hid hlen hj hc] at hnone
    cases hnone
  · exact hlo

/-! ## Soundness -/

/-- The values of the templates make every left-hand side non-negative on the box. -/
theorem BoxSetup.lhs_nonneg (hs : BoxSetup w n lo hi) (hid : NamesBounds idMap n lo hi) (hlen : coords.length = n)
    (u : ℕ → ℝ) {x : ℕ → ℝ} (hx : InBox coords x) {j : ℕ} (hj : j < 2 * n) :
    0 ≤ aeval x (progPoly n ((subMapFrom idMap 0 coords []).value u) ((boxCore n lo hi p adeg).lhsAt j)) := by
  have hlt : j / 2 < coords.length := by omega
  obtain ⟨h1, h2⟩ := hx (j / 2) _ (List.getElem?_eq_getElem hlt)
  have hb := hs.lookup_bound hid hlen hj (List.getElem?_eq_getElem hlt)
  rw [hs.progPoly_lhsAt boxCore_lhs _ hj, map_mul, map_sub, aeval_C, aeval_C, aeval_X, SubMap.value, hb]
  simp only [Algebra.algebraMap_self, RingHom.id_apply, boundSign]
  split_ifs <;> push_cast <;> linarith

/-- The pass of `solve` over the right-hand side of a box is exact. -/
theorem BoxSetup.exact_pass (hs : BoxSetup w n lo hi) (hp : WF (InProg n) 0 p) {fuel : ℕ}
    (hok : (boxCore n lo hi p adeg).solve fuel w = .ok w') :
    ∃ ps toSolve, (boxCore n lo hi p adeg).Pass (BoxSymbol n lo hi) ps w (stored p) toSolve w' ∧
      toSolve.toMv = (boxCore n lo hi p adeg).templSum (ps.zipIdx w.numSymbols) - p.toMv ∧ ps.Nodup ∧
      (∀ α ∈ ps, ∀ j ∈ α, j < 2 * n) ∧
      ps = (boxCore n lo hi p adeg).makeDegArr.products (stored p).retIdArr fuel 0 0 := by
  have hrhs : WF (InProg n) 0 (stored p) := wf_stored hp
  have hbox : WF (BoxSymbol n lo hi) 0 (stored p) := hrhs.mono fun _ => .inl
  have hlhs : ∀ j, WF (BoxSymbol n lo hi) 0 ((boxCore n lo hi p adeg).makeDegArr.lhsAt j) := hs.wf_lhs
  rw [solve_singleton boxCore_rhsArr] at hok
  obtain ⟨toSolve, hpass⟩ := solveRhs_pass hs.synced hlhs hbox hok
  have hroom := hpass.room
  rw [hpass.size] at hroom
  have hval := hpass.exact hlhs hbox hs.id_lt (hs.fitsExp boxCore_lhs (retIdArr_lt hrhs) (by omega))
  rw [toMv_congr (bare_stored p)] at hval
  refine ⟨_, toSolve, ⟨hpass.size, hpass.synced, hpass.room, hpass.eq, hpass.ineq, hpass.wf, hpass.value⟩, hval,
    nodup_products fuel 0 0, fun α hα j hj => ?_, rfl⟩
  have := ((admissible_of_mem hα).mem j hj).2.1
  rwa [show (boxCore n lo hi p adeg).makeDegArr.lhs.length = 2 * n from hs.boxCore_length] at this

/-- The constraints of the pass are linear in the new templates and have no program variable. -/
theorem BoxSetup.rows_linear (hs : BoxSetup w n lo hi) (hp : WF (InProg n) 0 p) {ps : List (Multiset ℕ)}
    {toSolve : Multinomial}
    (hpass : (boxCore n lo hi p adeg).Pass (BoxSymbol n lo hi) ps w (stored p) toSolve w')
    (hval : toSolve.toMv = (boxCore n lo hi p adeg).templSum (ps.zipIdx w.numSymbols) - p.toMv) :
    ∀ a, a ∈ (added toSolve w.numSymbols ps.length).eq ∨ a ∈ (added toSolve w.numSymbols ps.length).ineq →
      WF (fun k => grown (BoxSymbol n lo hi) w ps.length k ∧ n ≤ k.id) 0 a ∧ AtMost (w.numSymbols ≤ ·) 1 a.toMv := by
  have hlin : AtMost (w.numSymbols ≤ ·) 1 toSolve.toMv := by
    rw [hval, sub_eq_add_neg]
    refine (atMost_templSum hs.wf_lhs hs.id_lt _).add ((atMost_of_vars fun i hi' => ?_).mono zero_le_one).neg
    obtain ⟨k, hk, rfl⟩ := hp.vars i hi'
    exact not_le.2 (hs.id_lt k (.inl hk))
  have hbare : ∀ b : Multinomial, b.bare = ((b.setSave true).copy).bare := fun b =>
    ((bare_copy _).trans (bare_setSave true b)).symm
  rintro a (ha | ha) <;> obtain ⟨b, hb, rfl⟩ := List.mem_map.1 ha <;> rw [toMv_stored]
  · exact ⟨(hpass.wf.reduce (ordered_grown hs.ordered hs.le_size) b hb).congr (hbare b),
      Multinomial.reduce_atMost hpass.wf hlin b hb⟩
  · obtain ⟨hlo, hhi⟩ := List.mem_range'_1.1 hb
    refine ⟨(Multinomial.wf_var ⟨.inr ⟨rfl, hlo, hhi⟩, hs.le_size.trans hlo⟩ (Nat.zero_le _) true).congr (hbare _), ?_⟩
    rw [templ, Multinomial.toMv_var]
    exact atMost_X_pos b

/-- Feasibility of all rows gives feasibility of the rows of the pass. -/
theorem Pass.feasible_added {h : Handelman} {S : Symbol → Prop} {ps : List (Multiset ℕ)} {rhs toSolve : Multinomial}
    (hpass : h.Pass S ps w rhs toSolve w') {sz : ℕ} {sub : SubMap} (hf : (w'.s.lp sz sub).Feasible) :
    ((added toSolve w.numSymbols ps.length).lp sz sub).Feasible := by
  obtain ⟨u, hu, hr⟩ := hf
  refine ⟨u, hu, fun r hr' => hr r ?_⟩
  rw [Solver.lp, hpass.eq, hpass.ineq]
  simp only [Solver.lp, List.map_append, List.flatMap_append, List.mem_append] at hr' ⊢
  exact hr'.imp .inr .inr

/-- What a solution of the program proves: the right-hand side is non-negative on the box. -/
theorem BoxSetup.nonneg_of_substitute (hs : BoxSetup w n lo hi) {grb : LP → Bool}
    (hgrb : ∀ lp, grb lp = true ↔ lp.Feasible) (hp : WF (InProg n) 0 p) {fuel sz : ℕ}
    (hok : (boxCore n lo hi p adeg).solve fuel w = .ok w') (hid : NamesBounds idMap n lo hi)
    (hlen : coords.length = n) (hsub : substitute grb w'.s sz idMap coords = true) {x : ℕ → ℝ}
    (hx : InBox coords x) : 0 ≤ aeval x p.toMv := by
  obtain ⟨ps, toSolve, hpass, hval, hn, hmem, -⟩ := hs.exact_pass hp hok
  obtain ⟨u, hsat⟩ := sat_of_feasible (fun k hk => hs.unbound_iff hid hlen hk) (hs.rows_linear hp hpass hval)
    (hpass.feasible_added ((hgrb _).1 hsub))
  -- the right-hand side is in the cone, and the cone is non-negative on the box
  obtain ⟨hpos, heq⟩ := (hpass.sat_iff hs.ordered hs.le_size (by rw [hval, toMv_congr (bare_stored p)]) _).1 hsat
  have hcone := (inCone_iff_listed (K := ℝ) (A := (· ∈ ps)) hn (fun _ => Iff.rfl) w.numSymbols).2 ⟨_, hpos, heq⟩
  have hnn := hcone.nonneg (aeval x : MvPolynomial ℕ ℝ →ₐ[ℝ] ℝ) fun α hα j hj =>
    hs.lhs_nonneg hid hlen u hx (hmem α hα j hj)
  rw [progPoly, aeval_specialize, toMv_congr (bare_stored p)] at hnn
  refine hnn.trans_eq (eval₂Hom_congr' rfl (fun i hi' _ => ?_) rfl)
  obtain ⟨k, hk, rfl⟩ := hp.vars i hi'
  exact if_neg (by have := hk.2; omega)

/-- **A positive verdict is sound**: when the linear program for a box is feasible, the
right-hand side `p` is non-negative at every point of the box; with the right-hand side `p * -1`,
`p` is at most zero. -/
theorem substitute_sound (hs : BoxSetup w n lo hi) {grb : LP → Bool} (hgrb : ∀ lp, grb lp = true ↔ lp.Feasible)
    (hp : WF (InProg n) 0 p) (hid : NamesBounds idMap n lo hi) (hlen : coords.length = n) (fuel sz : ℕ) :
    ((boxCore n lo hi p adeg).solve fuel w = .ok w' → substitute grb w'.s sz idMap coords = true →
      ∀ x, InBox coords x → 0 ≤ aeval x p.toMv) ∧
    ((boxCore n lo hi (p.mulDouble (-1)) adeg).solve fuel w = .ok w' → substitute grb w'.s sz idMap coords = true →
      ∀ x, InBox coords x → aeval x p.toMv ≤ 0) := by
  obtain ⟨hneg, hwf⟩ := mulDouble_spec (-1) hp
  refine ⟨fun hok hsub x hx => hs.nonneg_of_substitute hgrb hp hok hid hlen hsub hx, fun hok hsub x hx => ?_⟩
  have := hs.nonneg_of_substitute hgrb hwf hok hid hlen hsub hx
  rw [hneg, map_mul, aeval_C] at this
  simpa using this

end

/-- One program variable and the two templates of its bounds. -/
def driverWorld : World where
  numSymbols := 3
  v := { varArr := [.var ⟨0, false⟩ true, .var ⟨1, true⟩ true, .var ⟨2, true⟩ true],
         mp := [("t4_1", 2), ("t4_0", 1), ("var_0", 0)] }
  s := { eq := [], ineq := [] }

theorem driverWorld_setup : BoxSetup driverWorld 1 (fun _ => 1) (fun _ => 2) where
  synced := rfl
  lo_range := by decide
  hi_range := by decide
  lo_inj := by decide
  hi_inj := by decide
  lo_ne_hi := by decide

/-- The program for the right-hand side `x` and the box `[1, 2]`, over `n` variables. -/
def driverLP (n : ℕ) : LP where
  n := n
  rows := [.ge ⟨0, [(3, 1)]⟩, .ge ⟨0, [(4, 1)]⟩, .ge ⟨0, [(5, 1)]⟩,
    .ge ⟨0, [(5, 1), (4, 2), (3, -1)]⟩, .le ⟨0, [(5, 1), (4, 2), (3, -1)]⟩,
    .ge ⟨-1, [(4, -1), (3, 1)]⟩, .le ⟨-1, [(4, -1), (3, 1)]⟩]

/-- `x = 1 * (x - 1) + 0 * (2 - x) + 1`. -/
theorem driverLP_feasible (n : ℕ) : (driverLP n).Feasible := by
  refine ⟨fun i => if i = 4 then 0 else 1, fun i _ => by dsimp only; split_ifs <;> norm_num, fun r hr => ?_⟩
  simp only [driverLP, List.mem_cons, List.not_mem_nil, or_false] at hr
  rcases hr with rfl | rfl | rfl | rfl | rfl | rfl | rfl <;> norm_num [Row.Holds, LinExpr.eval]

theorem substitute_sound_driver : (0 : ℝ) ≤ aeval (fun _ => (3 / 2 : ℝ)) (Multinomial.var ⟨0, false⟩ true).toMv := by
  classical
  have hlp : ((boxCore 1 (fun _ => 1) (fun _ => 2) (.var ⟨0, false⟩ true) 1).solve 2 driverWorld).map
      (fun w => w.s.lp 6 (subMapFrom (fun _ s => s + 1) 0 [(1, 2)] [])) = .ok (driverLP 6) := by decide +kernel
  cases hr : (boxCore 1 (fun _ => 1) (fun _ => 2) (.var ⟨0, false⟩ true) 1).solve 2 driverWorld with
  | error e => rw [hr] at hlp; cases hlp
  | ok w' =>
    rw [hr] at hlp
    have hrows : w'.s.lp 6 (subMapFrom (fun _ s => s + 1) 0 [(1, 2)] []) = driverLP 6 := by injection hlp
    have hid : NamesBounds (fun _ s => s + 1) 1 (fun _ => 1) (fun _ => 2) := fun i _ => ⟨rfl, rfl⟩
    have hwf : WF (InProg 1) 0 (.var ⟨0, false⟩ true) :=
      Multinomial.wf_var (show InProg 1 ⟨0, false⟩ from ⟨rfl, Nat.zero_lt_one⟩) le_rfl true
    refine (substitute_sound driverWorld_setup (fun lp : LP => decide_eq_true_iff) hwf hid
      (show ([(1, 2)] : Coords).length = 1 from rfl) 2 6).1 hr ?_ _ ?_
    · rw [substitute, hrows]; exact decide_eq_true (driverLP_feasible 6)
    · intro i c hc
      rcases i with _ | i
      · simp only [List.getElem?_cons_zero, Option.some.injEq] at hc
        subst hc; norm_num
      · simp at hc

end Handelman

end GridSolve.Core
