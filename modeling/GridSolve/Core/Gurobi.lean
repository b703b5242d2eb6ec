/-
The linear program `solver::solve` gives Gurobi (`print_sym_GRB`, `eval_sym_GRB`) and
`bounding_box::substitute`, which asks for it with the corners of a box as values of the bound
templates. The printer drops the exponent of an unbound symbol and, below one, the further unbound
symbols; it is exact on polynomials whose monomials have at most one unbound symbol, to the first
power, and then a row says what the constraint says.
-/
import GridSolve.Core.Handelman
import Mathlib.Data.Real.Basic

namespace GridSolve.Core

open MvPolynomial GridSolve.Poly GridSolve.Specialize
open GridSolve.Poly.Multinomial (WF wf_node_iff)

/-! ## Linear programs -/

/-- `GRBLinExpr`: a constant and the terms, each a column and its coefficient. -/
structure LinExpr where
  const : ℚ
  terms : List (ℕ × ℚ)
  deriving DecidableEq, Repr

namespace LinExpr

def add (e f : LinExpr) : LinExpr := ⟨e.const + f.const, e.terms ++ f.terms⟩

/-- `operator*=(double)`. -/
def scale (c : ℚ) (e : LinExpr) : LinExpr := ⟨e.const * c, e.terms.map fun t => (t.1, t.2 * c)⟩

/-- The value at a point. -/
noncomputable def eval (u : ℕ → ℝ) (e : LinExpr) : ℝ := e.const + (e.terms.map fun t => (t.2 : ℝ) * u t.1).sum

@[simp] theorem eval_add (u : ℕ → ℝ) (e f : LinExpr) : (e.add f).eval u = e.eval u + f.eval u := by
  simp only [eval, add, Rat.cast_add, List.map_append, List.sum_append]; ring

@[simp] theorem eval_scale (u : ℕ → ℝ) (c : ℚ) (e : LinExpr) : (e.scale c).eval u = e.eval u * c := by
  simp only [eval, scale, Rat.cast_mul, add_mul, ← List.sum_map_mul_right, List.map_map]
  congr 2
  exact List.map_congr_left fun t _ => by simp only [Function.comp_apply, Rat.cast_mul]; ring

end LinExpr

/-- A constraint `e ≥ 0` or `e ≤ 0`. -/
inductive Row where
  | ge (e : LinExpr)
  | le (e : LinExpr)
  deriving DecidableEq, Repr

def Row.Holds (u : ℕ → ℝ) : Row → Prop
  | .ge e => 0 ≤ e.eval u
  | .le e => e.eval u ≤ 0

/-- A model: `n` columns with lower bound 0 and the rows. The objective is constant. -/
structure LP where
  n : ℕ
  rows : List Row
  deriving DecidableEq, Repr

def LP.Feasible (lp : LP) : Prop := ∃ u : ℕ → ℝ, (∀ i < lp.n, 0 ≤ u i) ∧ ∀ r ∈ lp.rows, r.Holds u

/-! ## Printing -/

/-- `std::map<int,double>`, the last assignment first. -/
abbrev SubMap := List (ℕ × ℚ)

/-- What one entry of a node adds to `eval_sym_GRB`, `temp` the value of its coefficient: an unbound
symbol counts as 1, whatever its exponent. -/
def evalEntry (sub : SubMap) (k : Symbol) (e : UInt16) (temp : ℚ) : ℚ :=
  if e = 0 then temp
  else match sub.lookup k.id with
    | none => temp
    | some v => temp * v ^ e.toNat

mutual

/-- `eval_sym_GRB`. -/
def evalSymGRB (sub : SubMap) : Multinomial → ℚ
  | .const _ c => c
  | .node _ k mp => evalSymGRBMp sub k mp

def evalSymGRBMp (sub : SubMap) (k : Symbol) : Entries → ℚ
  | [] => 0
  | (e, a) :: mp => evalEntry sub k e (evalSymGRB sub a) + evalSymGRBMp sub k mp

end

/-- What one entry adds to `print_sym_GRB`: an unbound symbol becomes its column, whatever its
exponent, and the coefficient is evaluated. -/
def printEntry (sub : SubMap) (k : Symbol) (e : UInt16) (temp : LinExpr) (val : ℚ) : LinExpr :=
  if e = 0 then temp
  else match sub.lookup k.id with
    | none => ⟨0, [(k.id, val)]⟩
    | some v => temp.scale (v ^ e.toNat)

mutual

/-- `print_sym_GRB`. -/
def printSymGRB (sub : SubMap) : Multinomial → LinExpr
  | .const _ c => ⟨c, []⟩
  | .node _ k mp => printSymGRBMp sub k mp

def printSymGRBMp (sub : SubMap) (k : Symbol) : Entries → LinExpr
  | [] => ⟨0, []⟩
  | (e, a) :: mp => (printEntry sub k e (printSymGRB sub a) (evalSymGRB sub a)).add (printSymGRBMp sub k mp)

end

/-- The model of `solver::solve(silent, sub_map, "GRB")` over `n` variables. -/
def Solver.lp (s : Solver) (n : ℕ) (sub : SubMap) : LP where
  n := n
  rows := s.ineq.map (fun a => .ge (printSymGRB sub a)) ++
    s.eq.flatMap fun a => [.ge (printSymGRB sub a), .le (printSymGRB sub a)]

/-- The values `bounding_box::substitute` assigns, `idMap i 0` and `idMap i 1` the templates of the
bounds of coordinate `i`. -/
def subMapFrom (idMap : ℕ → ℕ → ℕ) : ℕ → List (ℚ × ℚ) → SubMap → SubMap
  | _, [], m => m
  | i, c :: coords, m => subMapFrom idMap (i + 1) coords ((idMap i 1, c.2) :: (idMap i 0, c.1) :: m)

/-- `bounding_box::substitute(s, id_map, 0)`, `grb` telling whether Gurobi reports `OPTIMAL`. -/
def substitute (grb : LP → Bool) (s : Solver) (n : ℕ) (idMap : ℕ → ℕ → ℕ) (coords : List (ℚ × ℚ)) : Bool :=
  grb (s.lp n (subMapFrom idMap 0 coords []))

/-! ## The rows say what the constraints say -/

/-- The values of all symbols: the bound ones from the map, the others from the columns. -/
noncomputable def SubMap.value (sub : SubMap) (u : ℕ → ℝ) (i : ℕ) : ℝ :=
  match sub.lookup i with
  | none => u i
  | some v => v

variable {S : Symbol → Prop} {T : ℕ → Prop} [DecidablePred T] {sub : SubMap}

/-- A map whose entries each give what they should. -/
theorem evalSymGRBMp_eq (k : Symbol) (x : ℕ → ℝ) : ∀ {mp : Entries},
    (∀ y ∈ mp, (evalEntry sub k y.1 (evalSymGRB sub y.2) : ℝ) = x k.id ^ y.1.toNat * aeval x y.2.toMv) →
    (evalSymGRBMp sub k mp : ℝ) = aeval x (Multinomial.toMvMp k.id mp)
  | [], _ => by simp [evalSymGRBMp, Multinomial.toMvMp]
  | y :: mp, h => by
    rw [evalSymGRBMp, Multinomial.toMvMp, Rat.cast_add, h y (List.mem_cons_self ..),
      evalSymGRBMp_eq k x fun z hz => h z (List.mem_cons_of_mem _ hz)]
    simp

theorem printSymGRBMp_eq (k : Symbol) (u x : ℕ → ℝ) : ∀ {mp : Entries},
    (∀ y ∈ mp, (printEntry sub k y.1 (printSymGRB sub y.2) (evalSymGRB sub y.2)).eval u
      = x k.id ^ y.1.toNat * aeval x y.2.toMv) →
    (printSymGRBMp sub k mp).eval u = aeval x (Multinomial.toMvMp k.id mp)
  | [], _ => by simp [printSymGRBMp, Multinomial.toMvMp, LinExpr.eval]
  | y :: mp, h => by
    rw [printSymGRBMp, Multinomial.toMvMp, LinExpr.eval_add, h y (List.mem_cons_self ..),
      printSymGRBMp_eq k u x fun z hz => h z (List.mem_cons_of_mem _ hz)]
    simp

/-- `eval_sym_GRB` is exact where no unbound symbol occurs. -/
theorem evalSymGRB_eq (hT : ∀ k, S k → (T k.id ↔ sub.lookup k.id = none)) (u : ℕ → ℝ) {b : ℕ} {m : Multinomial}
    (hm : WF S b m) (h0 : AtMost T 0 m.toMv) : (evalSymGRB sub m : ℝ) = aeval (sub.value u) m.toMv := by
  induction m generalizing b with
  | const s c => simp [evalSymGRB]
  | node s k mp ih =>
    obtain ⟨-, hk, -, -, h5⟩ := wf_node_iff.1 hm
    rw [evalSymGRB, Multinomial.toMv_node]
    refine evalSymGRBMp_eq k _ fun y hy => ?_
    have hkid := ih y hy (h5 y hy) (hm.atMost_kid h0 hy)
    unfold evalEntry
    split_ifs with he
    · simp [he, hkid]
    · cases hl : sub.lookup k.id with
      | some v => simp only [SubMap.value, hl, Rat.cast_mul, Rat.cast_pow, hkid]; ring
      | none =>
        -- a positive power of an unbound symbol has the coefficient 0
        have hzero : y.2.toMv = 0 := by
          ext d
          by_contra hd
          have := hm.degIn_kid h0 hy hd
          rw [if_pos ((hT k hk).2 hl)] at this
          exact he (UInt16.toNat_inj.1 (by simpa using Nat.le_zero.1 (le_of_add_le_right this)))
        simp only [hkid, hzero, map_zero, mul_zero]

/-- `print_sym_GRB` is exact where every monomial has at most one unbound symbol, to the first
power. -/
theorem printSymGRB_eq (hT : ∀ k, S k → (T k.id ↔ sub.lookup k.id = none)) (u : ℕ → ℝ) {b : ℕ} {m : Multinomial}
    (hm : WF S b m) (h1 : AtMost T 1 m.toMv) : (printSymGRB sub m).eval u = aeval (sub.value u) m.toMv := by
  induction m generalizing b with
  | const s c => simp [printSymGRB, LinExpr.eval]
  | node s k mp ih =>
    obtain ⟨-, hk, -, -, h5⟩ := wf_node_iff.1 hm
    rw [printSymGRB, Multinomial.toMv_node]
    refine printSymGRBMp_eq k u _ fun y hy => ?_
    have hkid := ih y hy (h5 y hy) (hm.atMost_kid h1 hy)
    unfold printEntry
    split_ifs with he
    · simp [he, hkid]
    · cases hl : sub.lookup k.id with
      | some v => simp only [SubMap.value, hl, LinExpr.eval_scale, Rat.cast_pow, hkid]; ring
      | none =>
        have hpos : 0 < y.1.toNat := by
          by_contra h0
          exact he (UInt16.toNat_inj.1 (by simpa using h0))
        have hdeg : ∀ d, coeff d y.2.toMv ≠ 0 → degIn T d = 0 ∧ y.1.toNat = 1 := fun d hd => by
          have := hm.degIn_kid h1 hy hd
          rw [if_pos ((hT k hk).2 hl)] at this
          omega
        have heval := evalSymGRB_eq hT u (h5 y hy) fun d hd => (hdeg d hd).1.le
        have hval : sub.value u k.id = u k.id := by simp only [SubMap.value, hl]
        by_cases hzero : y.2.toMv = 0
        · simp [LinExpr.eval, heval, hzero]
        · obtain ⟨d, hd⟩ := ne_zero_iff.1 hzero
          simp [LinExpr.eval, heval, (hdeg d hd).2, hval, mul_comm]

/-- The rows of the linear program say what the constraints say, with the bound values put in. -/
theorem rows_hold_iff {s : Solver} {n : ℕ} (hT : ∀ k, S k → (T k.id ↔ sub.lookup k.id = none))
    (hwf : ∀ a, a ∈ s.eq ∨ a ∈ s.ineq → WF S 0 a ∧ AtMost T 1 a.toMv) (u : ℕ → ℝ) :
    (∀ r ∈ (s.lp n sub).rows, r.Holds u) ↔
      (∀ a ∈ s.eq, aeval (sub.value u) a.toMv = 0) ∧ ∀ a ∈ s.ineq, 0 ≤ aeval (sub.value u) a.toMv := by
  have hrow : ∀ a, a ∈ s.eq ∨ a ∈ s.ineq → (printSymGRB sub a).eval u = aeval (sub.value u) a.toMv :=
    fun a ha => printSymGRB_eq hT u (hwf a ha).1 (hwf a ha).2
  simp only [Solver.lp, List.forall_mem_append, List.forall_mem_map, List.forall_mem_flatMap, List.forall_mem_cons,
    List.not_mem_nil, false_imp_iff, implies_true, and_true, Row.Holds]
  rw [and_comm]
  refine and_congr (forall₂_congr fun a ha => ?_) (forall₂_congr fun a ha => ?_)
  · rw [hrow a (.inl ha)]
    exact ⟨fun h => le_antisymm h.2 h.1, fun h => ⟨h.ge, h.le⟩⟩
  · rw [hrow a (.inr ha)]

/-- A solution of the linear program, with the bound templates, satisfies the constraints. -/
theorem sat_of_feasible {s : Solver} {n : ℕ} (hT : ∀ k, S k → (T k.id ↔ sub.lookup k.id = none))
    (hwf : ∀ a, a ∈ s.eq ∨ a ∈ s.ineq → WF S 0 a ∧ AtMost T 1 a.toMv) (hf : (s.lp n sub).Feasible) :
    ∃ u : ℕ → ℝ, (∀ a ∈ s.eq, aeval (sub.value u) a.toMv = 0) ∧ ∀ a ∈ s.ineq, 0 ≤ aeval (sub.value u) a.toMv := by
  obtain ⟨u, -, hrows⟩ := hf
  exact ⟨u, (rows_hold_iff hT hwf u).1 hrows⟩

end GridSolve.Core
