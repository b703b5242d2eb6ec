/-
`solver::inc_solve` (`solver.hpp`) with `get_vars` (`solver.cpp`): the constraints are first solved
with every template pinned to 0, and each unsat core frees templates. z3 is a parameter that answers
`sat` with a model or `unsat` with an unsatisfiable core of the tracked constraints. A core without
pins frees the templates of its constraints only, so the loop can go round for ever; and the loop
ends without a check when the last template has been freed, whatever the verdict would be.
-/
import GridSolve.Core.Backends

namespace GridSolve.Core

open MvPolynomial GridSolve.Poly
open GridSolve.Poly.Multinomial (toMv_var)

/-! ## The code -/

/-- The name of a tracked constraint: `"e"` or `"p"` with an index. -/
inductive Track
  | e (i : ℕ)
  | p (i : ℕ)
  deriving DecidableEq, Repr

/-- What z3 answers to a check. -/
inductive Answer
  | sat (model : ℕ → ℝ)
  | unsat (core : List Track)
  | unknown

/-- What `inc_solve` or `solve` reports: `Satisfiable` with a model, or not. -/
inductive Report
  | satisfiable (model : ℕ → ℝ)
  | nothing

/-- `get_vars`: the constants `var_i`. A numeral has the name `Real`, in which no number is found. -/
def Term.getVars : Term → List ℕ
  | .val _ => []
  | .const i => [i]
  | .add s t => s.getVars ++ t.getVars
  | .sub s t => s.getVars ++ t.getVars
  | .mul s t => s.getVars ++ t.getVars
  | .pw t _ => t.getVars

def Formula.getVars : Formula → List ℕ
  | .eq t => t.getVars
  | .ge t => t.getVars

/-- `cons_variable`: a pin for every template. -/
def Vars.consVariable (v : Vars) : List Formula :=
  ((List.range v.varArr.length).filter v.isTempl).map fun i => .eq (.const i)

/-- `cons_fixed`. -/
def Solver.consFixed (s : Solver) : List Formula :=
  s.eq.map (fun a => .eq (printSym a)) ++ s.ineq.map fun a => .ge (printSym a)

/-- `is_free` and `N_free`. -/
structure Pins where
  isFree : List Bool
  nFree : ℕ
  deriving DecidableEq, Repr

/-- `if(!is_free[i])` with its body. -/
def Pins.release (i : ℕ) (st : Pins) : Pins :=
  if st.isFree[i]? = some false then ⟨st.isFree.set i true, st.nFree + 1⟩ else st

/-- The loop over `get_vars`, with `is_free[var-n+N_tot]`; an index outside the vector has no meaning. -/
def Pins.releaseVars (n nTot : ℕ) (vars : List ℕ) (st : Pins) : Pins :=
  vars.foldl (fun st var => if n ≤ var + nTot then st.release (var + nTot - n) else st) st

/-- The loop over the core. -/
def Pins.releaseCore (fixed : List Formula) (n nTot : ℕ) (core : List Track) (st : Pins) : Pins :=
  core.foldl (fun st name =>
    match name with
    | .p i => st.release i
    | .e i => st.releaseVars n nTot ((fixed[i]?.map Formula.getVars).getD [])) st

/-- The constraints of a check: all fixed ones, and the pins that are not free. -/
def tracked (fixed pinned : List Formula) (isFree : List Bool) : List (Track × Formula) :=
  fixed.mapIdx (fun i f => (.e i, f)) ++ (List.range isFree.length).filterMap fun i =>
    if isFree[i]? = some false then pinned[i]?.map fun f => (.p i, f) else none

/-- The loop of `inc_solve`, `check k` what z3 answers to the `k`-th check. -/
def incLoop (check : ℕ → List (Track × Formula) → Answer) (fixed pinned : List Formula) (n : ℕ) :
    ℕ → ℕ → Pins → Option Report
  | 0, _, _ => none
  | fuel + 1, k, st =>
    if st.nFree < pinned.length then
      match check k (tracked fixed pinned st.isFree) with
      | .sat model => some (.satisfiable model)
      | .unsat core => incLoop check fixed pinned n fuel (k + 1) (st.releaseCore fixed n pinned.length core)
      | .unknown => incLoop check fixed pinned n fuel (k + 1) st
    else some .nothing

/-- All templates pinned. -/
def Pins.start (nTot : ℕ) : Pins := ⟨List.replicate nTot false, 0⟩

/-- `inc_solve`. -/
def incSolve (check : ℕ → List (Track × Formula) → Answer) (v : Vars) (s : Solver) (fuel : ℕ) : Option Report :=
  incLoop check s.consFixed v.consVariable v.varArr.length fuel 0 (.start v.consVariable.length)

/-- `solve(silent, "z3")` without `mod_constraints`: one check of the constraints. -/
def solveZ3 (check : ℕ → List (Track × Formula) → Answer) (s : Solver) : Report :=
  match check 0 (tracked s.consFixed [] []) with
  | .sat model => .satisfiable model
  | .unsat _ => .nothing
  | .unknown => .nothing

/-! ## z3 -/

/-- The constraints with these names are unsatisfiable. -/
def IsCore (cs : List (Track × Formula)) (core : List Track) : Prop :=
  (∀ l ∈ core, ∃ f, (l, f) ∈ cs) ∧ ¬ ∃ x, ∀ c ∈ cs, c.1 ∈ core → c.2.Holds x

/-- Every check is answered with `sat`, or with `unsat` and an unsatisfiable core. -/
structure CoresValid (check : ℕ → List (Track × Formula) → Answer) : Prop where
  known : ∀ k cs, check k cs ≠ .unknown
  core : ∀ k cs core, check k cs = .unsat core → IsCore cs core

/-- In addition the models are right. -/
structure Z3Sound (check : ℕ → List (Track × Formula) → Answer) : Prop extends CoresValid check where
  model : ∀ k cs x, check k cs = .sat x → ∀ c ∈ cs, c.2.Holds x

open Classical in
/-- A z3 that answers with the given core whenever it is one, and otherwise with all constraints. -/
noncomputable def stubborn (core : List Track) (_k : ℕ) (cs : List (Track × Formula)) : Answer :=
  if IsCore cs core then .unsat core
  else if h : ∃ x, ∀ c ∈ cs, c.2.Holds x then .sat h.choose
  else .unsat (cs.map Prod.fst)

theorem stubborn_of_isCore {core : List Track} {cs : List (Track × Formula)} (h : IsCore cs core) (k : ℕ) :
    stubborn core k cs = .unsat core := if_pos h

/-- All constraints are a core when there is no solution. -/
theorem isCore_all {cs : List (Track × Formula)} (h : ¬ ∃ x, ∀ c ∈ cs, c.2.Holds x) : IsCore cs (cs.map Prod.fst) := by
  refine ⟨fun l hl => ?_, ?_⟩
  · obtain ⟨c, hc, rfl⟩ := List.mem_map.1 hl
    exact ⟨c.2, hc⟩
  · rintro ⟨x, hx⟩
    exact h ⟨x, fun c hc => hx c hc (List.mem_map_of_mem hc)⟩

theorem stubborn_sound (core : List Track) : Z3Sound (stubborn core) := by
  refine ⟨⟨fun k cs => ?_, fun k cs core' h => ?_⟩, fun k cs x h => ?_⟩
  · unfold stubborn
    split_ifs <;> exact nofun
  · unfold stubborn at h
    split_ifs at h with hcore hsat
    · cases h
      exact hcore
    · cases h
      exact isCore_all hsat
  · unfold stubborn at h
    split_ifs at h with hcore hsat
    cases h
    exact hsat.choose_spec

/-! ## Freeing templates -/

namespace Pins

/-- The templates that are free. -/
def free (st : Pins) : Finset ℕ := (Finset.range st.isFree.length).filter fun i => st.isFree[i]? = some true

/-- `N_free` counts them. -/
structure Counted (nTot : ℕ) (st : Pins) : Prop where
  length_eq : st.isFree.length = nTot
  nFree_eq : st.nFree = st.free.card

variable {nTot : ℕ} {st : Pins}

theorem mem_free {i : ℕ} : i ∈ st.free ↔ st.isFree[i]? = some true := by
  simp only [free, Finset.mem_filter, Finset.mem_range, and_iff_right_iff_imp]
  exact fun h => (List.getElem?_eq_some_iff.1 h).1

theorem Counted.notMem_free (h : st.Counted nTot) {i : ℕ} (hi : i < nTot) :
    i ∉ st.free ↔ st.isFree[i]? = some false := by
  obtain ⟨b, hb⟩ : ∃ b, st.isFree[i]? = some b := ⟨_, List.getElem?_eq_getElem (hi.trans_eq h.length_eq.symm)⟩
  rw [mem_free, hb]
  cases b <;> simp

theorem Counted.free_subset (h : st.Counted nTot) : st.free ⊆ Finset.range nTot := by
  rw [← h.length_eq]
  exact Finset.filter_subset _ _

/-- The loop goes on as long as some template is pinned. -/
theorem Counted.lt_iff (h : st.Counted nTot) : st.nFree < nTot ↔ ∃ i < nTot, i ∉ st.free := by
  rw [h.nFree_eq]
  constructor
  · intro hlt
    obtain ⟨i, hi, hni⟩ := Finset.exists_mem_notMem_of_card_lt_card (hlt.trans_eq (Finset.card_range nTot).symm)
    exact ⟨i, Finset.mem_range.1 hi, hni⟩
  · rintro ⟨i, hi, hni⟩
    refine (Finset.card_lt_card ⟨h.free_subset, fun hsub => hni (hsub (Finset.mem_range.2 hi))⟩).trans_eq ?_
    exact Finset.card_range nTot

theorem getElem?_start {i : ℕ} (h : i < nTot) : (start nTot).isFree[i]? = some false := by
  simp [start, h]

theorem free_start (nTot : ℕ) : (start nTot).free = ∅ := by
  rw [Finset.eq_empty_iff_forall_notMem]
  intro i
  rw [mem_free]
  simp [start, List.getElem?_replicate]

theorem counted_start (nTot : ℕ) : (start nTot).Counted nTot :=
  ⟨List.length_replicate, by rw [free_start]; rfl⟩

/-- One template freed. -/
theorem Counted.release (h : st.Counted nTot) (i : ℕ) :
    (st.release i).Counted nTot ∧ ∀ j, j ∈ (st.release i).free ↔ j ∈ st.free ∨ j < nTot ∧ j = i := by
  by_cases hi : st.isFree[i]? = some false
  · have hlt : i < st.isFree.length := (List.getElem?_eq_some_iff.1 hi).1
    have hmem : ∀ j, j ∈ (st.release i).free ↔ j ∈ st.free ∨ j < nTot ∧ j = i := by
      intro j
      rw [mem_free, mem_free, Pins.release, if_pos hi]
      by_cases hj : j = i
      · subst hj
        rw [h.length_eq] at hlt
        simp [h.length_eq, hlt]
      · simp [List.getElem?_set_ne (Ne.symm hj), hj]
    refine ⟨⟨?_, ?_⟩, hmem⟩
    · rw [Pins.release, if_pos hi, List.length_set, h.length_eq]
    · have hins : (st.release i).free = insert i st.free := by
        ext j
        rw [hmem, Finset.mem_insert, or_comm]
        refine or_congr_left (and_iff_right_of_imp ?_)
        rintro rfl
        exact hlt.trans_eq h.length_eq
      have hni : i ∉ st.free := by rw [mem_free, hi]; simp
      rw [hins, Finset.card_insert_of_notMem hni, ← h.nFree_eq, Pins.release, if_pos hi]
  · rw [Pins.release, if_neg hi]
    refine ⟨h, fun j => (or_iff_left_of_imp ?_).symm⟩
    rintro ⟨hj, rfl⟩
    by_contra hnj
    exact hi ((h.notMem_free hj).1 hnj)

/-- The templates of a list of constants freed. -/
theorem Counted.releaseVars (n : ℕ) : ∀ (vars : List ℕ) {st : Pins}, st.Counted nTot →
    (st.releaseVars n nTot vars).Counted nTot ∧
      ∀ j, j ∈ (st.releaseVars n nTot vars).free ↔ j ∈ st.free ∨ j < nTot ∧ ∃ var ∈ vars, n + j = var + nTot
  | [], st, h => ⟨h, fun j => by simp [Pins.releaseVars]⟩
  | var :: vars, st, h => by
    have hcons : st.releaseVars n nTot (var :: vars) =
        (if n ≤ var + nTot then st.release (var + nTot - n) else st).releaseVars n nTot vars := rfl
    rw [hcons]
    by_cases hn : n ≤ var + nTot
    · obtain ⟨h1, h2⟩ := h.release (var + nTot - n)
      obtain ⟨h3, h4⟩ := Counted.releaseVars n vars h1
      rw [if_pos hn]
      refine ⟨h3, fun j => ?_⟩
      have hidx : j = var + nTot - n ↔ n + j = var + nTot := by omega
      rw [h4, h2, hidx, List.exists_mem_cons_iff]
      tauto
    · obtain ⟨h3, h4⟩ := Counted.releaseVars n vars h
      rw [if_neg hn]
      refine ⟨h3, fun j => ?_⟩
      have hidx : ¬ n + j = var + nTot := by omega
      rw [h4, List.exists_mem_cons_iff]
      tauto

/-- What a core frees: the pins in it, and the templates of the constraints in it. -/
def Named (fixed : List Formula) (n nTot : ℕ) (core : List Track) (j : ℕ) : Prop :=
  .p j ∈ core ∨ ∃ i f, .e i ∈ core ∧ fixed[i]? = some f ∧ ∃ var ∈ f.getVars, n + j = var + nTot

theorem Counted.releaseCore (fixed : List Formula) (n : ℕ) : ∀ (core : List Track) {st : Pins}, st.Counted nTot →
    (st.releaseCore fixed n nTot core).Counted nTot ∧
      ∀ j, j ∈ (st.releaseCore fixed n nTot core).free ↔ j ∈ st.free ∨ j < nTot ∧ Named fixed n nTot core j
  | [], st, h => ⟨h, fun j => by simp [Pins.releaseCore, Named]⟩
  | .p i :: core, st, h => by
    obtain ⟨h1, h2⟩ := h.release i
    obtain ⟨h3, h4⟩ := Counted.releaseCore fixed n core h1
    refine ⟨h3, fun j => (h4 j).trans ?_⟩
    rw [h2]
    simp only [Named, List.mem_cons, Track.p.injEq, reduceCtorEq, false_or]
    tauto
  | .e i :: core, st, h => by
    obtain ⟨h1, h2⟩ := h.releaseVars n ((fixed[i]?.map Formula.getVars).getD [])
    obtain ⟨h3, h4⟩ := Counted.releaseCore fixed n core h1
    refine ⟨h3, fun j => (h4 j).trans ?_⟩
    have hvars : (∃ var ∈ (fixed[i]?.map Formula.getVars).getD [], n + j = var + nTot) ↔
        ∃ f, fixed[i]? = some f ∧ ∃ var ∈ f.getVars, n + j = var + nTot := by
      cases fixed[i]? <;> simp
    rw [h2, hvars]
    simp only [Named, List.mem_cons, Track.e.injEq, reduceCtorEq, false_or]
    constructor
    · rintro ((hj | ⟨hlt, f, hf, hvar⟩) | ⟨hlt, hp | ⟨i', f, hi', hf, hvar⟩⟩)
      · exact .inl hj
      · exact .inr ⟨hlt, .inr ⟨i, f, .inl rfl, hf, hvar⟩⟩
      · exact .inr ⟨hlt, .inl hp⟩
      · exact .inr ⟨hlt, .inr ⟨i', f, .inr hi', hf, hvar⟩⟩
    · rintro (hj | ⟨hlt, hp | ⟨i', f, rfl | hi', hf, hvar⟩⟩)
      · exact .inl (.inl hj)
      · exact .inr ⟨hlt, .inl hp⟩
      · exact .inl (.inr ⟨hlt, f, hf, hvar⟩)
      · exact .inr ⟨hlt, .inr ⟨i', f, hi', hf, hvar⟩⟩

end Pins

/-! ## The tracked constraints -/

theorem mem_tracked_e {fixed pinned : List Formula} {isFree : List Bool} {i : ℕ} {f : Formula} :
    (.e i, f) ∈ tracked fixed pinned isFree ↔ fixed[i]? = some f := by
  simp only [tracked, List.mem_append, List.mem_mapIdx, List.mem_filterMap, Prod.mk.injEq, Track.e.injEq]
  constructor
  · rintro (⟨j, hj, rfl, rfl⟩ | ⟨j, -, hj⟩)
    · exact List.getElem?_eq_getElem hj
    · split_ifs at hj
      obtain ⟨g, -, hg⟩ := Option.map_eq_some_iff.1 hj
      cases hg
  · intro h
    obtain ⟨hi, rfl⟩ := List.getElem?_eq_some_iff.1 h
    exact .inl ⟨i, hi, rfl, rfl⟩

theorem mem_tracked_p {fixed pinned : List Formula} {isFree : List Bool} {i : ℕ} {f : Formula} :
    (.p i, f) ∈ tracked fixed pinned isFree ↔ isFree[i]? = some false ∧ pinned[i]? = some f := by
  simp only [tracked, List.mem_append, List.mem_mapIdx, List.mem_filterMap, List.mem_range, Prod.mk.injEq,
    reduceCtorEq, false_and, exists_false, false_or]
  constructor
  · rintro ⟨j, -, hj⟩
    split_ifs at hj with hfree
    obtain ⟨g, hg, heq⟩ := Option.map_eq_some_iff.1 hj
    cases heq
    exact ⟨hfree, hg⟩
  · rintro ⟨hfree, hf⟩
    exact ⟨i, (List.getElem?_eq_some_iff.1 hfree).1, by rw [if_pos hfree, hf, Option.map_some]⟩

/-- A point satisfies the tracked constraints. -/
theorem holds_tracked_iff {fixed pinned : List Formula} {isFree : List Bool} {x : ℕ → ℝ} :
    (∀ c ∈ tracked fixed pinned isFree, c.2.Holds x) ↔ (∀ f ∈ fixed, f.Holds x) ∧
      ∀ (i : ℕ) f, isFree[i]? = some false → pinned[i]? = some f → f.Holds x := by
  constructor
  · intro h
    refine ⟨fun f hf => ?_, fun i f hi hf => h (.p i, f) (mem_tracked_p.2 ⟨hi, hf⟩)⟩
    obtain ⟨i, hi, rfl⟩ := List.getElem_of_mem hf
    exact h (.e i, _) (mem_tracked_e.2 (List.getElem?_eq_getElem hi))
  · rintro ⟨h1, h2⟩ ⟨l, f⟩ hc
    cases l with
    | e i => exact h1 f (List.mem_of_getElem? (mem_tracked_e.1 hc))
    | p i =>
      obtain ⟨hi, hf⟩ := mem_tracked_p.1 hc
      exact h2 i f hi hf

/-- At the start all pins are tracked. -/
theorem holds_tracked_start_iff {fixed pinned : List Formula} {x : ℕ → ℝ} :
    (∀ c ∈ tracked fixed pinned (Pins.start pinned.length).isFree, c.2.Holds x) ↔ ∀ f ∈ fixed ++ pinned, f.Holds x := by
  rw [holds_tracked_iff, List.forall_mem_append]
  refine and_congr_right fun _ => ⟨fun h f hf => ?_, fun h i f _ hf => h f (List.mem_of_getElem? hf)⟩
  obtain ⟨i, hi, rfl⟩ := List.getElem_of_mem hf
  exact h i _ (Pins.getElem?_start hi) (List.getElem?_eq_getElem hi)

/-! ## Termination -/

/-- The template symbols are those from `m` on. -/
structure Vars.TemplatesLast (v : Vars) (m : ℕ) : Prop where
  le : m ≤ v.varArr.length
  isTempl_iff : ∀ i < v.varArr.length, v.isTempl i = true ↔ m ≤ i

theorem Vars.TemplatesLast.consVariable_eq {v : Vars} {m : ℕ} (h : v.TemplatesLast m) :
    v.consVariable = (List.range' m (v.varArr.length - m)).map fun i => .eq (.const i) := by
  have hle := h.le
  have hsplit : List.range v.varArr.length = List.range m ++ List.range' m (v.varArr.length - m) := by
    rw [List.range_eq_range', List.range_eq_range', ← Nat.add_sub_of_le hle, ← List.range'_append_1]
    simp
  have hlow : (List.range m).filter v.isTempl = [] := by
    rw [List.filter_eq_nil_iff]
    intro i hi
    have hlt := List.mem_range.1 hi
    rw [h.isTempl_iff i (by omega)]
    omega
  have hhigh : (List.range' m (v.varArr.length - m)).filter v.isTempl = List.range' m (v.varArr.length - m) := by
    rw [List.filter_eq_self]
    intro i hi
    obtain ⟨hlo, hhi⟩ := List.mem_range'_1.1 hi
    exact (h.isTempl_iff i (by omega)).2 hlo
  rw [Vars.consVariable, hsplit, List.filter_append, hlow, hhigh, List.nil_append]

theorem Vars.TemplatesLast.length_consVariable {v : Vars} {m : ℕ} (h : v.TemplatesLast m) :
    v.consVariable.length = v.varArr.length - m := by
  rw [h.consVariable_eq, List.length_map, List.length_range']

section

variable {check : ℕ → List (Track × Formula) → Answer} {fixed pinned : List Formula} {n : ℕ}

/-- Every set of the constraints without a solution has all the templates. -/
def Covering (fixed : List Formula) (n nTot : ℕ) : Prop :=
  ∀ fs ⊆ fixed, (¬ ∃ x, ∀ f ∈ fs, f.Holds x) → ∀ j < nTot, ∃ f ∈ fs, ∃ var ∈ f.getVars, n + j = var + nTot

/-- The constraints of a core. -/
def coreFormulas (fixed : List Formula) (core : List Track) : List Formula :=
  core.filterMap fun l =>
    match l with
    | .e i => fixed[i]?
    | .p _ => none

theorem mem_coreFormulas {core : List Track} {f : Formula} :
    f ∈ coreFormulas fixed core ↔ ∃ i, .e i ∈ core ∧ fixed[i]? = some f := by
  rw [coreFormulas, List.mem_filterMap]
  constructor
  · rintro ⟨_ | _, hl, hf⟩
    · exact ⟨_, hl, hf⟩
    · cases hf
  · rintro ⟨i, hi, hf⟩
    exact ⟨.e i, hi, hf⟩

/-- A core frees a template that was pinned. -/
theorem exists_freed {st : Pins} (hst : st.Counted pinned.length) (hlt : st.nFree < pinned.length)
    (hcov : Covering fixed n pinned.length) {core : List Track} (hcore : IsCore (tracked fixed pinned st.isFree) core) :
    ∃ j < pinned.length, j ∉ st.free ∧ Pins.Named fixed n pinned.length core j := by
  by_cases hp : ∃ i, .p i ∈ core
  · -- only pins that are not free are tracked
    obtain ⟨i, hi⟩ := hp
    obtain ⟨f, hf⟩ := hcore.1 _ hi
    obtain ⟨hfree, hpin⟩ := mem_tracked_p.1 hf
    have hlen := (List.getElem?_eq_some_iff.1 hpin).1
    exact ⟨i, hlen, (hst.notMem_free hlen).2 hfree, .inl hi⟩
  · -- without pins the constraints of the core have all the templates
    obtain ⟨j, hj, hnj⟩ := hst.lt_iff.1 hlt
    have hsub : coreFormulas fixed core ⊆ fixed := by
      intro f hf
      obtain ⟨i, -, hfi⟩ := mem_coreFormulas.1 hf
      exact List.mem_of_getElem? hfi
    have hunsat : ¬ ∃ x, ∀ f ∈ coreFormulas fixed core, f.Holds x := by
      rintro ⟨x, hx⟩
      refine hcore.2 ⟨x, ?_⟩
      rintro ⟨l, f⟩ hc hl
      cases l with
      | p i => exact absurd ⟨i, hl⟩ hp
      | e i => exact hx f (mem_coreFormulas.2 ⟨i, hl, mem_tracked_e.1 hc⟩)
    obtain ⟨f, hf, hvar⟩ := hcov _ hsub hunsat j hj
    obtain ⟨i, hi, hfi⟩ := mem_coreFormulas.1 hf
    exact ⟨j, hj, hnj, .inr ⟨i, f, hi, hfi, hvar⟩⟩

/-- One more check than templates that are pinned is enough. -/
theorem incLoop_ends (hcheck : CoresValid check) (hcov : Covering fixed n pinned.length) : ∀ (fuel k : ℕ) {st : Pins},
    st.Counted pinned.length → pinned.length < st.nFree + fuel → ∃ r, incLoop check fixed pinned n fuel k st = some r
  | 0, k, st, hst, hfuel => by
    have hle := Finset.card_le_card hst.free_subset
    rw [← hst.nFree_eq, Finset.card_range] at hle
    omega
  | fuel + 1, k, st, hst, hfuel => by
    rw [incLoop]
    split_ifs with hlt
    · cases hans : check k (tracked fixed pinned st.isFree) with
      | sat model => exact ⟨_, rfl⟩
      | unknown => exact absurd hans (hcheck.known k _)
      | unsat core =>
        obtain ⟨j, hj, hnj, hnamed⟩ := exists_freed hst hlt hcov (hcheck.core k _ core hans)
        obtain ⟨hst', hfree⟩ := hst.releaseCore fixed n core
        apply incLoop_ends hcheck hcov fuel (k + 1) hst'
        -- a template more is free
        have hmore : st.nFree < (st.releaseCore fixed n pinned.length core).nFree := by
          rw [hst.nFree_eq, hst'.nFree_eq]
          refine Finset.card_lt_card ⟨fun i hi => (hfree i).2 (.inl hi), fun hsub => hnj (hsub ?_)⟩
          exact (hfree j).2 (.inr ⟨hj, hnamed⟩)
        omega
    · exact ⟨_, rfl⟩

/-- The names of the constraints `fs`. -/
def namesOf (fixed fs : List Formula) : List Track :=
  ((List.range fixed.length).filter fun i => ∃ f ∈ fs, fixed[i]? = some f).map .e

theorem mem_namesOf {fs : List Formula} {l : Track} :
    l ∈ namesOf fixed fs ↔ ∃ i, l = .e i ∧ ∃ f ∈ fs, fixed[i]? = some f := by
  simp only [namesOf, List.mem_map, List.mem_filter, List.mem_range, decide_eq_true_eq]
  constructor
  · rintro ⟨i, ⟨-, hf⟩, rfl⟩
    exact ⟨i, rfl, hf⟩
  · rintro ⟨i, rfl, f, hf, hfi⟩
    exact ⟨i, ⟨(List.getElem?_eq_some_iff.1 hfi).1, f, hf, hfi⟩, rfl⟩

/-- Constraints without a solution are a core of every check. -/
theorem isCore_namesOf {fs : List Formula} (hsub : fs ⊆ fixed) (hunsat : ¬ ∃ x, ∀ f ∈ fs, f.Holds x)
    (isFree : List Bool) : IsCore (tracked fixed pinned isFree) (namesOf fixed fs) := by
  constructor
  · intro l hl
    obtain ⟨i, rfl, f, -, hf⟩ := mem_namesOf.1 hl
    exact ⟨f, mem_tracked_e.2 hf⟩
  · rintro ⟨x, hx⟩
    refine hunsat ⟨x, fun f hf => ?_⟩
    obtain ⟨i, hi, rfl⟩ := List.getElem_of_mem (hsub hf)
    have hget := List.getElem?_eq_getElem hi
    exact hx (.e i, _) (mem_tracked_e.2 hget) (mem_namesOf.2 ⟨i, rfl, _, hf, hget⟩)

/-- When z3 keeps answering with constraints that lack a template, that template stays pinned and the
loop does not end. -/
theorem incLoop_diverges {fs : List Formula} (hsub : fs ⊆ fixed) (hunsat : ¬ ∃ x, ∀ f ∈ fs, f.Holds x) {j : ℕ}
    (hj : j < pinned.length) (hlack : ¬ ∃ f ∈ fs, ∃ var ∈ f.getVars, n + j = var + pinned.length) :
    ∀ (fuel k : ℕ) {st : Pins}, st.Counted pinned.length → j ∉ st.free →
      incLoop (stubborn (namesOf fixed fs)) fixed pinned n fuel k st = none
  | 0, _, _, _, _ => rfl
  | fuel + 1, k, st, hst, hnj => by
    rw [incLoop, if_pos (hst.lt_iff.2 ⟨j, hj, hnj⟩), stubborn_of_isCore (isCore_namesOf hsub hunsat st.isFree)]
    obtain ⟨hst', hfree⟩ := hst.releaseCore fixed n (namesOf fixed fs)
    apply incLoop_diverges hsub hunsat hj hlack fuel (k + 1) hst'
    rw [hfree]
    rintro (h | ⟨-, h | ⟨i, f, hi, hf, hvar⟩⟩)
    · exact hnj h
    · obtain ⟨i, hi, -⟩ := mem_namesOf.1 h
      cases hi
    · obtain ⟨i', hi', f', hf', hfi⟩ := mem_namesOf.1 hi
      cases hi'
      rw [hf, Option.some.injEq] at hfi
      subst hfi
      exact hlack ⟨f, hf', hvar⟩

end

/-- The index of a template among the pins. -/
theorem covering_iff {v : Vars} {m : ℕ} (hv : v.TemplatesLast m) (fixed : List Formula) :
    Covering fixed v.varArr.length v.consVariable.length ↔
      ∀ fs ⊆ fixed, (¬ ∃ x, ∀ f ∈ fs, f.Holds x) → ∀ i, m ≤ i → i < v.varArr.length → ∃ f ∈ fs, i ∈ f.getVars := by
  have hle := hv.le
  have hlen := hv.length_consVariable
  refine forall₂_congr fun fs _ => forall_congr' fun _ => ⟨fun h i hi hi' => ?_, fun h j hj => ?_⟩
  · obtain ⟨f, hf, var, hvar, heq⟩ := h (i - m) (by omega)
    obtain rfl : var = i := by omega
    exact ⟨f, hf, hvar⟩
  · obtain ⟨f, hf, hvar⟩ := h (m + j) (by omega) (by omega)
    exact ⟨f, hf, m + j, hvar, by omega⟩

/-- **The loop of `inc_solve` ends** for every z3 with valid cores exactly when every set of the
constraints that has no solution mentions every template. -/
theorem incSolve_ends_iff {v : Vars} {m : ℕ} (hv : v.TemplatesLast m) (s : Solver) :
    (∀ check, CoresValid check → ∃ fuel r, incSolve check v s fuel = some r) ↔
      ∀ fs ⊆ s.consFixed, (¬ ∃ x, ∀ f ∈ fs, f.Holds x) →
        ∀ i, m ≤ i → i < v.varArr.length → ∃ f ∈ fs, i ∈ f.getVars := by
  rw [← covering_iff hv]
  constructor
  · intro h fs hsub hunsat j hj
    by_contra hlack
    obtain ⟨fuel, r, hr⟩ := h _ (stubborn_sound (namesOf s.consFixed fs)).toCoresValid
    rw [incSolve, incLoop_diverges hsub hunsat hj hlack fuel 0 (Pins.counted_start _)
      (by rw [Pins.free_start]; exact Finset.notMem_empty j)] at hr
    cases hr
  · intro hcov check hcheck
    exact ⟨v.consVariable.length + 1, incLoop_ends hcheck hcov _ 0 (Pins.counted_start _) (by simp [Pins.start])⟩

/-- A template. -/
def oneTemplate : Vars := ⟨[.var ⟨0, true⟩ true], []⟩

/-- Two templates. -/
def twoTemplates : Vars := ⟨[.var ⟨0, true⟩ true, .var ⟨1, true⟩ true], []⟩

/-- The first template less 1. -/
def lessOne : Multinomial := .node false ⟨0, true⟩ [(0, .const false (-1)), (1, .const false 1)]

theorem oneTemplate_last : oneTemplate.TemplatesLast 0 := ⟨Nat.zero_le _, by decide⟩

theorem twoTemplates_last : twoTemplates.TemplatesLast 0 := ⟨Nat.zero_le _, by decide⟩

theorem printsExactly_lessOne : printsExactly lessOne = true := by decide +kernel

theorem printsExactly_var (k : Symbol) (save : Bool) : printsExactly (.var k save) = true := by
  have h0 : toStringVal 0 = 0 := by decide +kernel
  have h1 : toStringVal 1 = 1 := by decide +kernel
  simp [Multinomial.var, printsExactly, printsExactlyMp, h0, h1]

theorem holds_lessOne_iff (x : ℕ → ℝ) : (Formula.eq (printSym lessOne)).Holds x ↔ x 0 = 1 := by
  have hmv : lessOne.toMv = X 0 - 1 := by
    have hexp : UInt16.toNat 1 = 1 := rfl
    rw [lessOne, Multinomial.toMv_node]
    simp only [Multinomial.toMvMp, Multinomial.toMv_const, hexp, UInt16.toNat_zero, C_neg, C_1]
    ring
  rw [Formula.Holds, eval_printSym x printsExactly_lessOne, hmv, map_sub, aeval_X, map_one, sub_eq_zero]

theorem holds_var_iff (k : Symbol) (save : Bool) (x : ℕ → ℝ) :
    (Formula.eq (printSym (.var k save))).Holds x ↔ x k.id = 0 := by
  rw [Formula.Holds, eval_printSym x (printsExactly_var k save), toMv_var, aeval_X]

/-- Constraints with a solution. -/
theorem incSolve_ends_iff_lessOne : oneTemplate.TemplatesLast 0 ∧
    ∀ check, CoresValid check → ∃ fuel r, incSolve check oneTemplate ⟨[lessOne], []⟩ fuel = some r := by
  refine ⟨oneTemplate_last, (incSolve_ends_iff oneTemplate_last _).2 fun fs hsub hunsat => ?_⟩
  refine absurd ⟨fun _ => 1, fun f hf => ?_⟩ hunsat
  rw [List.mem_singleton.1 (hsub hf)]
  exact (holds_lessOne_iff _).2 rfl

/-- The first template is 0, and it is 1. -/
def zeroAndOne : Solver := ⟨[.var ⟨0, true⟩ false, lessOne], []⟩

theorem zeroAndOne_unsat : ¬ ∃ x, ∀ f ∈ zeroAndOne.consFixed, f.Holds x := by
  rintro ⟨x, hx⟩
  have h0 := (holds_var_iff _ _ _).1 (hx _ List.mem_cons_self)
  have h1 := (holds_lessOne_iff _).1 (hx _ (List.mem_cons_of_mem _ List.mem_cons_self))
  rw [h0] at h1
  exact zero_ne_one h1

/-- The second of two templates is never freed. -/
theorem incSolve_diverges : twoTemplates.TemplatesLast 0 ∧
    ∃ check, CoresValid check ∧ ∀ fuel, incSolve check twoTemplates zeroAndOne fuel = none := by
  refine ⟨twoTemplates_last, stubborn (namesOf zeroAndOne.consFixed zeroAndOne.consFixed),
    (stubborn_sound _).toCoresValid, fun fuel => ?_⟩
  apply incLoop_diverges (List.Subset.refl _) zeroAndOne_unsat (j := 1) (by decide) (by decide +kernel) fuel 0
    (Pins.counted_start _)
  rw [Pins.free_start]
  exact Finset.notMem_empty 1

/-! ## The verdict -/

/-- The value of a term depends on the constants in it. -/
theorem Term.eval_congr {x y : ℕ → ℝ} : ∀ {t : Term}, (∀ i ∈ t.getVars, x i = y i) → t.eval x = t.eval y
  | .val _, _ => rfl
  | .const i, h => h i List.mem_cons_self
  | .add s t, h => by
    rw [Term.getVars, List.forall_mem_append] at h
    rw [Term.eval, Term.eval, Term.eval_congr h.1, Term.eval_congr h.2]
  | .sub s t, h => by
    rw [Term.getVars, List.forall_mem_append] at h
    rw [Term.eval, Term.eval, Term.eval_congr h.1, Term.eval_congr h.2]
  | .mul s t, h => by
    rw [Term.getVars, List.forall_mem_append] at h
    rw [Term.eval, Term.eval, Term.eval_congr h.1, Term.eval_congr h.2]
  | .pw t k, h => by
    simp only [Term.eval, Term.eval_congr (t := t) h]

theorem Formula.holds_congr {x y : ℕ → ℝ} {f : Formula} (h : ∀ i ∈ f.getVars, x i = y i) : f.Holds x ↔ f.Holds y := by
  cases f with
  | eq t => rw [Formula.Holds, Formula.Holds, Term.eval_congr h]
  | ge t => rw [Formula.Holds, Formula.Holds, Term.eval_congr h]

theorem getVars_printSymMp {k : Symbol} {P : ℕ → Prop} (hk : P k.id) : ∀ {mp : Entries} {ans : Term},
    (∀ i ∈ ans.getVars, P i) → (∀ y ∈ mp, ∀ i ∈ (printSym y.2).getVars, P i) → ∀ i ∈ (printSymMp k ans mp).getVars, P i
  | [], _, hans, _ => hans
  | (e, a) :: mp, ans, hans, h => by
    rw [List.forall_mem_cons] at h
    rw [printSymMp]
    refine getVars_printSymMp hk ?_ h.2
    rw [Term.getVars, List.forall_mem_append]
    refine ⟨hans, ?_⟩
    split_ifs
    · exact h.1
    · rw [Term.getVars, List.forall_mem_append]
      exact ⟨List.forall_mem_singleton.2 hk, h.1⟩

/-- The constants of a printed polynomial are its symbols. -/
theorem getVars_printSym {P : ℕ → Prop} {a : Multinomial} (h : ∀ k ∈ a.symbols, P k.id) :
    ∀ i ∈ (printSym a).getVars, P i := by
  induction a with
  | const s c => simp [printSym, realVal, Term.getVars]
  | node s k mp ih =>
    rw [Multinomial.symbols, List.forall_mem_cons] at h
    rw [printSym]
    refine getVars_printSymMp h.1 (by simp [Term.getVars]) fun y hy => ih y hy fun k' hk' => ?_
    exact h.2 k' (by rw [Multinomial.symbolsMp_eq]; exact List.mem_flatMap.2 ⟨y, hy, hk'⟩)

section

variable {check : ℕ → List (Track × Formula) → Answer} {fixed pinned : List Formula} {n : ℕ}

/-- A model that is reported satisfies the constraints. -/
theorem holds_of_incLoop (hcheck : Z3Sound check) : ∀ (fuel k : ℕ) {st : Pins} {x : ℕ → ℝ},
    incLoop check fixed pinned n fuel k st = some (.satisfiable x) → ∀ f ∈ fixed, f.Holds x
  | 0, _, _, _, h => nomatch h
  | fuel + 1, k, st, x, h => by
    rw [incLoop] at h
    split_ifs at h with hlt
    · cases hans : check k (tracked fixed pinned st.isFree) with
      | sat model =>
        rw [hans] at h
        cases h
        exact (holds_tracked_iff.1 (hcheck.model k _ _ hans)).1
      | unsat core =>
        rw [hans] at h
        exact holds_of_incLoop hcheck fuel (k + 1) h
      | unknown => exact absurd hans (hcheck.known k _)
    · cases h

/-- When all templates can be 0 the first check is answered with `sat`. -/
theorem exists_satisfiable_of_start (hcheck : Z3Sound check) (hpos : 0 < pinned.length) {x : ℕ → ℝ}
    (hx : ∀ f ∈ fixed ++ pinned, f.Holds x) {fuel : ℕ} {r : Report}
    (h : incLoop check fixed pinned n fuel 0 (.start pinned.length) = some r) : ∃ y, r = .satisfiable y := by
  cases fuel with
  | zero => cases h
  | succ fuel =>
    rw [incLoop, if_pos (show (Pins.start pinned.length).nFree < pinned.length from hpos)] at h
    cases hans : check 0 (tracked fixed pinned (Pins.start pinned.length).isFree) with
    | sat model =>
      rw [hans] at h
      exact ⟨model, (Option.some.inj h).symm⟩
    | unsat core =>
      exact absurd ⟨x, fun c hc _ => holds_tracked_start_iff.2 hx c hc⟩ (hcheck.core 0 _ core hans).2
    | unknown => exact absurd hans (hcheck.known 0 _)

/-- The answer of a z3 whose cores are all constraints. -/
theorem stubborn_nil {cs : List (Track × Formula)} (h : ¬ ∃ x, ∀ c ∈ cs, c.2.Holds x) (k : ℕ) :
    stubborn [] k cs = .unsat (cs.map Prod.fst) := by
  have hnil : ¬ IsCore cs [] := fun hcore => hcore.2 ⟨fun _ => 0, fun c _ hc => absurd hc List.not_mem_nil⟩
  rw [stubborn, if_neg hnil, dif_neg h]

/-- A core of all constraints frees all templates, and nothing is reported. -/
theorem incLoop_eq_nothing (hunsat : ¬ ∃ x, ∀ f ∈ fixed ++ pinned, f.Holds x) :
    incLoop (stubborn []) fixed pinned n 2 0 (.start pinned.length) = some .nothing := by
  rw [incLoop]
  split_ifs with hpos
  · rw [stubborn_nil fun ⟨x, hx⟩ => hunsat ⟨x, holds_tracked_start_iff.1 hx⟩]
    obtain ⟨hst, hfree⟩ := (Pins.counted_start pinned.length).releaseCore fixed n
      ((tracked fixed pinned (Pins.start pinned.length).isFree).map Prod.fst)
    refine if_neg fun hlt => ?_
    obtain ⟨j, hj, hnj⟩ := hst.lt_iff.1 hlt
    have hpin : (.p j, pinned.get ⟨j, hj⟩) ∈ tracked fixed pinned (Pins.start pinned.length).isFree :=
      mem_tracked_p.2 ⟨Pins.getElem?_start hj, List.getElem?_eq_getElem hj⟩
    exact hnj ((hfree j).2 (.inr ⟨hj, .inl (List.mem_map.2 ⟨_, hpin, rfl⟩)⟩))
  · rfl

/-- With cores of all constraints the loop ends at the second check at the latest. -/
theorem exists_incLoop (fixed pinned : List Formula) (n : ℕ) :
    ∃ r, incLoop (stubborn []) fixed pinned n 2 0 (.start pinned.length) = some r := by
  by_cases hsat : ∃ x, ∀ f ∈ fixed ++ pinned, f.Holds x
  · obtain ⟨x, hx⟩ := hsat
    rw [incLoop]
    split_ifs with hpos
    · cases hans : stubborn [] 0 (tracked fixed pinned (Pins.start pinned.length).isFree) with
      | sat model => exact ⟨_, rfl⟩
      | unsat core =>
        exact absurd ⟨x, fun c hc _ => holds_tracked_start_iff.2 hx c hc⟩ ((stubborn_sound []).core 0 _ core hans).2
      | unknown => exact absurd hans ((stubborn_sound []).known 0 _)
    · exact ⟨_, rfl⟩
  · exact ⟨_, incLoop_eq_nothing hsat⟩

end

/-- The constraints are over the templates. -/
def Solver.OverTemplates (s : Solver) (v : Vars) (m : ℕ) : Prop :=
  ∀ a, a ∈ s.eq ∨ a ∈ s.ineq → ∀ k ∈ a.symbols, m ≤ k.id ∧ k.id < v.varArr.length

theorem Solver.OverTemplates.getVars {s : Solver} {v : Vars} {m : ℕ} (h : s.OverTemplates v m) {f : Formula}
    (hf : f ∈ s.consFixed) : ∀ i ∈ f.getVars, m ≤ i ∧ i < v.varArr.length := by
  rw [Solver.consFixed, List.mem_append, List.mem_map, List.mem_map] at hf
  rcases hf with ⟨a, ha, rfl⟩ | ⟨a, ha, rfl⟩
  · exact getVars_printSym (P := fun i => m ≤ i ∧ i < v.varArr.length) (h a (.inl ha))
  · exact getVars_printSym (P := fun i => m ≤ i ∧ i < v.varArr.length) (h a (.inr ha))

/-- The constraints have a solution with all templates pinned exactly when 0 is one. -/
theorem exists_pinned_iff {v : Vars} {s : Solver} {m : ℕ} (hv : v.TemplatesLast m) (hs : s.OverTemplates v m) :
    (∃ x, ∀ f ∈ s.consFixed ++ v.consVariable, f.Holds x) ↔ ∀ f ∈ s.consFixed, f.Holds fun _ => 0 := by
  have hpins : ∀ x, (∀ f ∈ v.consVariable, f.Holds x) ↔ ∀ i, m ≤ i → i < v.varArr.length → x i = 0 := by
    intro x
    have hle := hv.le
    rw [hv.consVariable_eq, List.forall_mem_map]
    simp only [List.mem_range'_1, and_imp]
    refine forall₂_congr fun i hi => ?_
    rw [Nat.add_sub_cancel' hle]
    rfl
  constructor
  · rintro ⟨x, hx⟩ f hf
    rw [List.forall_mem_append, hpins] at hx
    refine (Formula.holds_congr fun i hi => ?_).1 (hx.1 f hf)
    obtain ⟨h1, h2⟩ := hs.getVars hf i hi
    exact hx.2 i h1 h2
  · intro h
    exact ⟨fun _ => 0, List.forall_mem_append.2 ⟨h, (hpins _).2 fun _ _ _ => rfl⟩⟩

/-- Printed exactly, the formulas are the constraints on the polynomials. -/
theorem consFixed_holds_iff {s : Solver} (hexact : ∀ a, a ∈ s.eq ∨ a ∈ s.ineq → printsExactly a = true) (x : ℕ → ℝ) :
    (∀ f ∈ s.consFixed, f.Holds x) ↔ s.Sat x := by
  simp only [Solver.Sat, Solver.consFixed, List.forall_mem_append, List.forall_mem_map, Formula.Holds]
  exact and_congr (forall₂_congr fun a ha => by rw [eval_printSym x (hexact a (.inl ha))])
    (forall₂_congr fun a ha => by rw [eval_printSym x (hexact a (.inr ha))])

/-- `solve` reports a model exactly when there is one. -/
theorem solveZ3_iff {check : ℕ → List (Track × Formula) → Answer} (hcheck : Z3Sound check) (s : Solver) :
    (∃ x, solveZ3 check s = .satisfiable x) ↔ ∃ x, ∀ f ∈ s.consFixed, f.Holds x := by
  have hcs : ∀ x, (∀ c ∈ tracked s.consFixed [] [], c.2.Holds x) ↔ ∀ f ∈ s.consFixed, f.Holds x := fun x => by
    rw [holds_tracked_iff]
    simp
  unfold solveZ3
  cases hans : check 0 (tracked s.consFixed [] []) with
  | sat model => exact iff_of_true ⟨model, rfl⟩ ⟨model, (hcs model).1 (hcheck.model 0 _ _ hans)⟩
  | unsat core =>
    refine iff_of_false (by rintro ⟨x, hx⟩; cases hx) ?_
    rintro ⟨x, hx⟩
    exact (hcheck.core 0 _ core hans).2 ⟨x, fun c hc _ => (hcs x).2 hx c hc⟩
  | unknown => exact absurd hans (hcheck.known 0 _)

/-- The verdict is that of `solve` exactly when the constraints have no solution, or there are templates and all of
them can be 0. -/
theorem incSolve_agrees_iff {v : Vars} {s : Solver} {m : ℕ} (hv : v.TemplatesLast m) (hs : s.OverTemplates v m) :
    (∀ check, Z3Sound check → ∀ fuel r, incSolve check v s fuel = some r →
        ((∃ x, r = .satisfiable x) ↔ ∃ x, solveZ3 check s = .satisfiable x)) ↔
      (¬ ∃ x, ∀ f ∈ s.consFixed, f.Holds x) ∨ m < v.varArr.length ∧ ∀ f ∈ s.consFixed, f.Holds fun _ => 0 := by
  have hlen := hv.length_consVariable
  constructor
  · intro h
    by_contra hno
    rw [not_or, not_not] at hno
    have hz3 := stubborn_sound []
    -- nothing is reported although there is a solution
    have hnothing : incSolve (stubborn []) v s 2 = some .nothing := by
      by_cases hm : m < v.varArr.length
      · exact incLoop_eq_nothing fun hx => hno.2 ⟨hm, (exists_pinned_iff hv hs).1 hx⟩
      · exact if_neg (by rw [hlen]; omega)
    obtain ⟨x, hx⟩ := (h _ hz3 2 _ hnothing).2 ((solveZ3_iff hz3 s).2 hno.1)
    cases hx
  · intro hcond check hcheck fuel r hr
    rw [solveZ3_iff hcheck]
    rcases hcond with hunsat | ⟨hm, hzero⟩
    · refine iff_of_false ?_ hunsat
      rintro ⟨x, rfl⟩
      exact hunsat ⟨x, holds_of_incLoop hcheck fuel 0 hr⟩
    · obtain ⟨x, hx⟩ := (exists_pinned_iff hv hs).2 hzero
      exact iff_of_true (exists_satisfiable_of_start hcheck (by omega) hx hr) ⟨_, hzero⟩

/-- **The verdict of `inc_solve`**, whenever it finishes and for every sound z3, is that on the polynomials and
agrees with `solve`, exactly when printing the coefficients does not change whether there is a solution and, if
there is one, there are templates and all of them can be 0. -/
theorem incSolve_verdict_iff {v : Vars} {s : Solver} {m : ℕ} (hv : v.TemplatesLast m) (hs : s.OverTemplates v m) :
    (∀ check, Z3Sound check → ∀ fuel r, incSolve check v s fuel = some r →
        ((∃ x, r = .satisfiable x) ↔ ∃ x, s.Sat x) ∧
          ((∃ x, r = .satisfiable x) ↔ ∃ x, solveZ3 check s = .satisfiable x)) ↔
      ((∃ x, ∀ f ∈ s.consFixed, f.Holds x) ↔ ∃ x, s.Sat x) ∧
        ((¬ ∃ x, ∀ f ∈ s.consFixed, f.Holds x) ∨ m < v.varArr.length ∧ ∀ f ∈ s.consFixed, f.Holds fun _ => 0) := by
  constructor
  · intro h
    obtain ⟨r, hr⟩ := exists_incLoop s.consFixed v.consVariable v.varArr.length
    obtain ⟨hpoly, hagrees⟩ := h _ (stubborn_sound []) 2 r hr
    refine ⟨?_, (incSolve_agrees_iff hv hs).1 fun check hcheck fuel r hr => (h check hcheck fuel r hr).2⟩
    rw [← hpoly, hagrees, solveZ3_iff (stubborn_sound [])]
  · rintro ⟨hprint, hcond⟩ check hcheck fuel r hr
    have hagrees := (incSolve_agrees_iff hv hs).2 hcond check hcheck fuel r hr
    exact ⟨by rw [hagrees, solveZ3_iff hcheck, hprint], hagrees⟩

/-- The template is 0. -/
def zeroOnly : Solver := ⟨[.var ⟨0, true⟩ false], []⟩

/-- All templates can be 0: the first check reports it. -/
theorem incSolve_verdict_iff_zero : oneTemplate.TemplatesLast 0 ∧
    ∀ check, Z3Sound check → ∀ fuel r, incSolve check oneTemplate zeroOnly fuel = some r →
      ((∃ x, r = .satisfiable x) ↔ ∃ x, zeroOnly.Sat x) ∧
        ((∃ x, r = .satisfiable x) ↔ ∃ x, solveZ3 check zeroOnly = .satisfiable x) := by
  have hmem : ∀ a, a ∈ zeroOnly.eq ∨ a ∈ zeroOnly.ineq → a = .var ⟨0, true⟩ false := by
    intro a ha
    simpa [zeroOnly] using ha
  have hover : zeroOnly.OverTemplates oneTemplate 0 := by
    intro a ha k hk
    rw [hmem a ha] at hk
    exact ⟨Nat.zero_le _, (show ∀ k ∈ (Multinomial.var ⟨0, true⟩ false).symbols, k.id < 1 by decide) k hk⟩
  have hzero : ∀ f ∈ zeroOnly.consFixed, f.Holds fun _ => 0 := by
    intro f hf
    rw [List.mem_singleton.1 hf]
    exact (holds_var_iff _ _ _).2 rfl
  refine ⟨oneTemplate_last, (incSolve_verdict_iff oneTemplate_last hover).2 ⟨?_, .inr ⟨by decide, hzero⟩⟩⟩
  refine exists_congr fun x => consFixed_holds_iff (fun a ha => ?_) x
  rw [hmem a ha]
  exact printsExactly_var _ _

/-- The template must be 1. A core of both constraints frees it, and the loop ends without a report. -/
theorem incSolve_misses : oneTemplate.TemplatesLast 0 ∧ (∃ x : ℕ → ℝ, aeval x lessOne.toMv = 0) ∧
    ∃ check, Z3Sound check ∧ incSolve check oneTemplate ⟨[lessOne], []⟩ 2 = some .nothing := by
  refine ⟨oneTemplate_last, ⟨fun _ => 1, ?_⟩, _, stubborn_sound [], incLoop_eq_nothing ?_⟩
  · rw [← eval_printSym _ printsExactly_lessOne]
    exact (holds_lessOne_iff _).2 rfl
  · rintro ⟨x, hx⟩
    rw [List.forall_mem_append] at hx
    have h1 := (holds_lessOne_iff x).1 (hx.1 _ List.mem_cons_self)
    have h0 : x 0 = 0 := hx.2 _ (show Formula.eq (.const 0) ∈ oneTemplate.consVariable by decide)
    rw [h0] at h1
    exact zero_ne_one h1

end GridSolve.Core
