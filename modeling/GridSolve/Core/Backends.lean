/-
The two branches of `solver::solve`, z3 and Gurobi, on the constraints that `handelman_core::solve`
leaves. These are linear in the additive templates, every additive template that occurs has its
inequality, and `sub_map` binds all other symbols; so the rows and lower bounds that Gurobi gets
and the formulas that z3 gets have the same solutions, as long as `std::to_string` loses nothing.
Narrowed exponents do not matter here: narrowing makes no template appear twice in a monomial.
-/
import GridSolve.Core.Encoding
import GridSolve.Core.Translation

namespace GridSolve.Core

open MvPolynomial GridSolve.Poly GridSolve.Specialize Handelman
open GridSolve.Poly.Multinomial (WF toMv_var)
open GridSolve.Trace (bind_ok)

/-! ## The formulas for z3 -/

/-- A constraint `t == 0` or `t >= 0` on a term. -/
inductive Formula
  | eq (t : Term)
  | ge (t : Term)
  deriving DecidableEq, Repr

def Formula.Holds (u : ℕ → ℝ) : Formula → Prop
  | .eq t => t.eval u = 0
  | .ge t => 0 ≤ t.eval u

/-- What `solver::solve(silent, sub_map, "z3")` adds to the solver; `mod_constraints` are none. -/
def Solver.formulas (s : Solver) (sub : SubMap) : List Formula :=
  s.eq.map (fun a => .eq (printSymWith (some sub) a)) ++ s.ineq.map fun a => .ge (printSymWith (some sub) a)

/-- The symbol occurs in a constraint. -/
def Solver.Mentions (s : Solver) (t : ℕ) : Prop := ∃ a, (a ∈ s.eq ∨ a ∈ s.ineq) ∧ ∃ k ∈ a.symbols, k.id = t

theorem valueIn_some (sub : SubMap) (u : ℕ → ℝ) : valueIn (some sub) u = sub.value u := by
  funext i
  rfl

theorem formulas_hold_iff {s : Solver} {sub : SubMap}
    (hexact : ∀ a, a ∈ s.eq ∨ a ∈ s.ineq → PrintsExactly (some sub) a) (u : ℕ → ℝ) :
    (∀ f ∈ s.formulas sub, f.Holds u) ↔
      (∀ a ∈ s.eq, aeval (sub.value u) a.toMv = 0) ∧ ∀ a ∈ s.ineq, 0 ≤ aeval (sub.value u) a.toMv := by
  have heval : ∀ a, a ∈ s.eq ∨ a ∈ s.ineq → (printSymWith (some sub) a).eval u = aeval (sub.value u) a.toMv :=
    fun a ha => by rw [eval_printSymWith (some sub) u (hexact a ha), valueIn_some]
  simp only [Solver.formulas, List.forall_mem_append, List.forall_mem_map, Formula.Holds]
  exact and_congr (forall₂_congr fun a ha => by rw [heval a (.inl ha)])
    (forall₂_congr fun a ha => by rw [heval a (.inr ha)])

/-! ## The constraints that `solve` leaves -/

/-- The states of a solver that starts empty and is filled by calls of `solve(3, ..)`, over symbols
`S`; the symbols from `n₀` on are additive templates. -/
inductive Built (S : Symbol → Prop) (n₀ : ℕ) : World → Prop
  | new {w : World} : w.Synced → n₀ ≤ w.numSymbols → w.s = ⟨[], []⟩ → Built S n₀ w
  | solve {w w' : World} {h : Handelman} {fuel : ℕ} : Built S n₀ w → (∀ p ∈ h.lhs, WF S 0 p) →
    (∀ p ∈ h.rhsArr, WF S 0 p) → h.solve fuel w = .ok w' → Built S n₀ w'

/-- A symbol of `S` or an additive template. -/
def OrAdditive (S : Symbol → Prop) (n₀ : ℕ) (w : World) (k : Symbol) : Prop :=
  S k ∨ (k.isTempl = true ∧ n₀ ≤ k.id ∧ k.id < w.numSymbols)

/-- The constraints are linear in the additive templates, each of which has its inequality. -/
structure Additive (S : Symbol → Prop) (n₀ : ℕ) (w : World) : Prop where
  synced : w.Synced
  le : n₀ ≤ w.numSymbols
  wf : ∀ a, a ∈ w.s.eq ∨ a ∈ w.s.ineq → WF (OrAdditive S n₀ w) 0 a
  linear : ∀ a, a ∈ w.s.eq ∨ a ∈ w.s.ineq → AtMost (n₀ ≤ ·) 1 a.toMv
  bounded : ∀ t, w.s.Mentions t → n₀ ≤ t → ∃ c ∈ w.s.ineq, c.toMv = X t

section

variable {S : Symbol → Prop} {n₀ : ℕ} {w w' : World} {h : Handelman}

/-- The constraints of one pass. -/
theorem wf_added {n : ℕ} {toSolve : Multinomial} (hwf : WF (grown S w n) 0 toSolve)
    (hlin : AtMost (n₀ ≤ ·) 1 toSolve.toMv) {a : Multinomial}
    (ha : a ∈ (added toSolve w.numSymbols n).eq ∨ a ∈ (added toSolve w.numSymbols n).ineq) :
    WF (grown S w n) 0 a ∧ AtMost (n₀ ≤ ·) 1 a.toMv := by
  have hbare : ∀ b : Multinomial, b.bare = ((b.setSave true).copy).bare := fun b =>
    ((Multinomial.bare_copy _).trans (Multinomial.bare_setSave true b)).symm
  rcases ha with ha | ha <;> obtain ⟨b, hb, rfl⟩ := List.mem_map.1 ha <;> rw [toMv_stored]
  · exact ⟨(hwf.of_reduce b hb).congr (hbare b), Multinomial.reduce_atMost hwf hlin b hb⟩
  · obtain ⟨hlo, hhi⟩ := List.mem_range'_1.1 hb
    refine ⟨(Multinomial.wf_var (.inr ⟨rfl, hlo, hhi⟩) (Nat.zero_le _) true).congr (hbare _), ?_⟩
    rw [templ, toMv_var]
    exact atMost_X_pos b

/-- One right-hand side. -/
theorem Additive.pass (ha : Additive S n₀ w) (hS : ∀ k, S k → k.id < n₀) (hlhs : ∀ j, WF S 0 (h.lhsAt j))
    {ps : List (Multiset ℕ)} {rhs toSolve : Multinomial} (hrhs : WF S 0 rhs) (hp : h.Pass S ps w rhs toSolve w') :
    Additive S n₀ w' := by
  have hlin : AtMost (n₀ ≤ ·) 1 toSolve.toMv := by
    refine atMost_of_wrap16 hp.wf.small.1 hp.value ?_
    rw [sub_eq_add_neg]
    refine (atMost_templSum hlhs hS _).add ((atMost_of_vars fun i hi => ?_).mono zero_le_one).neg
    obtain ⟨k, hk, rfl⟩ := hrhs.vars i hi
    exact not_le.2 (hS k hk)
  have hsize := hp.size
  have hle := ha.le
  have hold : ∀ k, OrAdditive S n₀ w k → OrAdditive S n₀ w' k := fun k hk =>
    hk.imp_right fun hk => ⟨hk.1, hk.2.1, by omega⟩
  have hnew : ∀ k, grown S w ps.length k → OrAdditive S n₀ w' k := fun k hk =>
    hk.imp_right fun hk => ⟨hk.1, by omega, by omega⟩
  -- a constraint is an old one or one of this pass
  have hsplit : ∀ a, a ∈ w'.s.eq ∨ a ∈ w'.s.ineq → (a ∈ w.s.eq ∨ a ∈ w.s.ineq) ∨
      a ∈ (added toSolve w.numSymbols ps.length).eq ∨ a ∈ (added toSolve w.numSymbols ps.length).ineq := by
    intro a hmem
    rw [hp.eq, hp.ineq, List.mem_append, List.mem_append] at hmem
    tauto
  refine ⟨hp.synced, by omega, fun a hmem => ?_, fun a hmem => ?_, ?_⟩
  · rcases hsplit a hmem with hmem | hmem
    · exact (ha.wf a hmem).mono hold
    · exact (wf_added hp.wf hlin hmem).1.mono hnew
  · rcases hsplit a hmem with hmem | hmem
    · exact ha.linear a hmem
    · exact (wf_added hp.wf hlin hmem).2
  · rintro t ⟨a, hmem, k, hk, rfl⟩ ht
    rw [hp.ineq]
    rcases hsplit a hmem with hmem | hmem
    · obtain ⟨c, hc, hx⟩ := ha.bounded _ ⟨a, hmem, k, hk, rfl⟩ ht
      exact ⟨c, List.mem_append_left _ hc, hx⟩
    · -- the templates of this pass are those from `numSymbols` on
      rcases (wf_added hp.wf hlin hmem).1.symbols k hk with hkS | ⟨-, hlo, hhi⟩
      · exact absurd ht (not_le.2 (hS k hkS))
      · refine ⟨_, List.mem_append_right _ (List.mem_map.2 ⟨k.id, List.mem_range'_1.2 ⟨hlo, hhi⟩, rfl⟩), ?_⟩
        rw [toMv_stored, templ, toMv_var]

theorem Additive.foldlM (hS : ∀ k, S k → k.id < n₀) (hlhs : ∀ j, WF S 0 (h.lhsAt j)) {fuel : ℕ} :
    ∀ {rhsArr : List Multinomial} {w : World}, Additive S n₀ w → (∀ p ∈ rhsArr, WF S 0 p) →
      rhsArr.foldlM (h.solveRhs fuel) w = .ok w' → Additive S n₀ w'
  | [], w, ha, _, hok => by cases hok; exact ha
  | rhs :: rhsArr, w, ha, hrhs, hok => by
    rw [List.forall_mem_cons] at hrhs
    rw [List.foldlM_cons] at hok
    obtain ⟨w₁, hok₁, hok⟩ := bind_ok hok
    obtain ⟨toSolve, hp⟩ := solveRhs_pass ha.synced hlhs hrhs.1 hok₁
    exact Additive.foldlM hS hlhs (ha.pass hS hlhs hrhs.1 hp) hrhs.2 hok

/-- A call of `solve`. -/
theorem Additive.solve (ha : Additive S n₀ w) (hS : ∀ k, S k → k.id < n₀) (hlhs : ∀ p ∈ h.lhs, WF S 0 p)
    (hrhs : ∀ p ∈ h.rhsArr, WF S 0 p) {fuel : ℕ} (hok : h.solve fuel w = .ok w') : Additive S n₀ w' :=
  Additive.foldlM hS (wf_lhsAt (h := h.makeDegArr) hlhs) ha hrhs hok

theorem Built.additive (hS : ∀ k, S k → k.id < n₀) (hb : Built S n₀ w) : Additive S n₀ w := by
  induction hb with
  | new hsync hle hs =>
    refine ⟨hsync, hle, ?_, ?_, ?_⟩ <;> simp [hs, Solver.Mentions]
  | solve _ hlhs hrhs hok ih => exact ih.solve hS hlhs hrhs hok

/-- **The back ends are given the same problem**: values of the additive templates that occur
satisfy the rows for Gurobi and its lower bounds exactly when they satisfy the formulas for z3, and
a row denotes its polynomial, with the bound values, if every monomial has at most one unbound
symbol, to the first power. -/
theorem backends_agree (hb : Built S n₀ w) (hS : ∀ k, S k → k.id < n₀) {sub : SubMap}
    (hbound : ∀ k, S k → sub.lookup k.id ≠ none)
    (hfree : ∀ t, n₀ ≤ t → t < w.numSymbols → sub.lookup t = none)
    (hexact : ∀ a, a ∈ w.s.eq ∨ a ∈ w.s.ineq → PrintsExactly (some sub) a) (n : ℕ) (u : ℕ → ℝ) :
    (((∀ r ∈ (w.s.lp n sub).rows, r.Holds u) ∧ ∀ t, w.s.Mentions t → sub.lookup t = none → 0 ≤ u t) ↔
      ∀ f ∈ w.s.formulas sub, f.Holds u) ∧
    ∀ (S' : Symbol → Prop) (b : ℕ) (m : Multinomial), WF S' b m → AtMost (fun i => sub.lookup i = none) 1 m.toMv →
      (printSymGRB sub m).eval u = aeval (sub.value u) m.toMv := by
  have ha := hb.additive hS
  have hT : ∀ k, OrAdditive S n₀ w k → (n₀ ≤ k.id ↔ sub.lookup k.id = none) := by
    rintro k (hk | ⟨-, hlo, hhi⟩)
    · exact iff_of_false (not_le.2 (hS k hk)) (hbound k hk)
    · exact iff_of_true hlo (hfree _ hlo hhi)
  refine ⟨?_, fun S' b m hm hlin => printSymGRB_eq (fun k _ => Iff.rfl) u hm hlin⟩
  rw [rows_hold_iff hT (fun a hmem => ⟨ha.wf a hmem, ha.linear a hmem⟩) u, formulas_hold_iff hexact u]
  refine ⟨fun h => h.1, fun h => ⟨h, fun t ht hnone => ?_⟩⟩
  -- the inequality of the template gives its lower bound
  have hadd : n₀ ≤ t := by
    obtain ⟨a, hmem, k, hk, rfl⟩ := ht
    exact (hT k ((ha.wf a hmem).symbols k hk)).2 hnone
  obtain ⟨c, hc, hx⟩ := ha.bounded t ht hadd
  have hnn := h.2 c hc
  rw [hx, aeval_X, SubMap.value, hnone] at hnn
  exact hnn

end

/-- The constraints that `solve` leaves for `linearCore`. -/
def linearConstraints : Solver where
  eq := [.node false ⟨2, true⟩ [(0, .const false 0), (1, .const false 1)],
    .node false ⟨1, true⟩ [(0, .const false (-1)), (1, .const false 1)]]
  ineq := [.var ⟨1, true⟩ false, .var ⟨2, true⟩ false]

theorem linearConstraints_printsExactly {a : Multinomial} (ha : a ∈ linearConstraints.eq ∨ a ∈ linearConstraints.ineq) :
    PrintsExactly (some [(0, 5)]) a := by
  have hmem : a ∈ linearConstraints.eq ++ linearConstraints.ineq := List.mem_append.2 ha
  have hcoeffs : ∀ a ∈ linearConstraints.eq ++ linearConstraints.ineq, ∀ c ∈ a.coeffs, sixDecimals c = true := by
    decide +kernel
  have hunbound : ∀ a ∈ linearConstraints.eq ++ linearConstraints.ineq, a.exponents 0 = [] := by decide +kernel
  have hnone : ∀ i v, boundTo (some [(0, 5)]) i = some v → a.exponents i = [] := by
    intro i v hv
    by_cases hi : i = 0
    · rw [hi, hunbound a hmem]
    · rw [boundTo, Option.bind_some, List.lookup_cons, beq_false_of_ne hi] at hv
      cases hv
  refine ⟨hcoeffs a hmem, fun i v hv e he => ?_, fun i v hv e he => ?_⟩ <;>
    exact absurd (hnone i v hv ▸ he) List.not_mem_nil

theorem backends_agree_linear : ∃ w', linearCore.solve 2 oneVar = .ok w' ∧
    ∀ f ∈ w'.s.formulas [(0, 5)], f.Holds fun i => if i = 1 then 1 else 0 := by
  have hs : (linearCore.solve 2 oneVar).map (·.s) = .ok linearConstraints := by decide +kernel
  cases hr : linearCore.solve 2 oneVar with
  | error e => rw [hr] at hs; cases hs
  | ok w' =>
    rw [hr] at hs
    have hcons : w'.s = linearConstraints := by injection hs
    have hb : Built (· = ⟨0, false⟩) 1 w' :=
      .solve (.new (show oneVar.Synced from rfl) le_rfl rfl)
      (List.forall_mem_singleton.2 (wf_power (by decide))) (List.forall_mem_singleton.2 (wf_power (by decide))) hr
    refine ⟨w', rfl, (backends_agree hb (by rintro k rfl; decide) (by rintro k rfl; decide) (fun t ht _ => ?_)
      (fun a ha => ?_) 3 _).1.1 ⟨?_, fun t _ _ => ?_⟩⟩
    · rw [List.lookup_cons, beq_false_of_ne (by omega)]
      rfl
    · rw [hcons] at ha
      exact linearConstraints_printsExactly ha
    · rw [hcons]
      simp [Solver.lp, linearConstraints, printSymGRB, printSymGRBMp, printEntry, evalSymGRB,
        Multinomial.var, Row.Holds, LinExpr.eval, LinExpr.add, List.lookup_cons]
    · split_ifs <;> norm_num

end GridSolve.Core
