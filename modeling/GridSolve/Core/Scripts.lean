/-
What a driver does before it calls `solve`, on memory: it makes its variables, writes polynomials with the
operators, keeps some of them in saved `expr`s and hands others to `add_lhs` and `add_rhs`
(`handelman_core.cpp`, `expr.cpp`, `vars.hpp`). The operators take operands apart that are not saved; still
no such script ever touches what has been deleted, and the two arrays of the core point to the trees
that the model on values has.
-/
import GridSolve.Core.Handelman
import GridSolve.Poly.MemoryProduct

namespace GridSolve.Core

open GridSolve.Poly GridSolve.Heap GridSolve.Poly.Mem
open GridSolve.Poly.Multinomial (Tidy)

/-! ## Scripts -/

/-- A polynomial over `k` saved multinomials, as a driver writes it. -/
inductive PolyTerm (k : ℕ)
  | var (i : Fin k)
  | addDouble (t : PolyTerm k) (c : ℚ)
  | mulDouble (t : PolyTerm k) (c : ℚ)
  | add (t u : PolyTerm k)
  | mul (t u : PolyTerm k)
  | pow (t : PolyTerm k) (e : UInt16)

/-- The statements of a driver; `letSave` is an `expr` that is assigned and saved, and may be used from then on. -/
inductive Script : ℕ → Type
  | done {k : ℕ} : Script k
  | letSave {k : ℕ} (t : PolyTerm k) (rest : Script (k + 1)) : Script k
  | addLhs {k : ℕ} (t : PolyTerm k) (rest : Script k) : Script k
  | addRhs {k : ℕ} (t : PolyTerm k) (rest : Script k) : Script k

namespace PolyTerm

variable {k : ℕ}

/-- The tree that the operators on values give. -/
def value (ms : Fin k → Multinomial) : PolyTerm k → Multinomial
  | .var i => ms i
  | .addDouble t c => (t.value ms).addDouble c
  | .mulDouble t c => (t.value ms).mulDouble c
  | .add t u => (t.value ms).add (u.value ms)
  | .mul t u => (t.value ms).mul (u.value ms)
  | .pow t e => (t.value ms).pow e

/-- The calls of the operators, on the objects at `vs`. -/
def eval (n : ℕ) (vs : Fin k → Addr) : PolyTerm k → Prog Cell Addr
  | .var i => pure (vs i)
  | .addDouble t c => do
    let p ← t.eval n vs
    Mem.addDouble n p c
  | .mulDouble t c => do
    let p ← t.eval n vs
    Mem.mulDouble n p c
  | .add t u => do
    let p ← t.eval n vs
    let q ← u.eval n vs
    Mem.add n p q
  | .mul t u => do
    let p ← t.eval n vs
    let q ← u.eval n vs
    Mem.mul n p q
  | .pow t e => do
    let p ← t.eval n vs
    Mem.pow n p e

end PolyTerm

/-- `lhs` and `rhs_arr`, the pointers of `class handelman_core`. -/
structure CorePtrs where
  lhs : List Addr
  rhsArr : List Addr

/-- The saved copy that `add_lhs` and `add_rhs` make first: `*t = e` for a new saved `t`, with `e` saved. -/
def savedCopy (n : ℕ) (p : Addr) : Prog Cell Addr := do
  setSave n p true
  let t ← Mem.new 0 true
  assign n t p
  pure t

/-- `add_lhs`, up to the `push_back`. -/
def keepLhs (n : ℕ) (p : Addr) : Prog Cell Addr := do
  let e ← getObj p
  let t ← savedCopy n p
  setSave n p e.save
  setSave n t true
  pure t

/-- `add_rhs`, up to the `push_back`; the operand gets its flag back at the end. -/
def keepRhs (n : ℕ) (p : Addr) : Prog Cell Addr := do
  let e ← getObj p
  let t ← savedCopy n p
  setSave n t true
  setSave n p e.save
  pure t

namespace Script

/-- The arrays of the core on values. -/
def value : {k : ℕ} → Script k → (Fin k → Multinomial) → Handelman → Handelman
  | _, .done, _, h => h
  | _, .letSave t rest, ms, h => rest.value (Fin.snoc ms ((t.value ms).copy.setSave true)) h
  | _, .addLhs t rest, ms, h => rest.value ms (h.addLhs (t.value ms))
  | _, .addRhs t rest, ms, h => rest.value ms (h.addRhs (t.value ms))

/-- The statements on memory. -/
def run (n : ℕ) : {k : ℕ} → Script k → (Fin k → Addr) → CorePtrs → Prog Cell CorePtrs
  | _, .done, _, core => pure core
  | _, .letSave t rest, vs, core => do
    let p ← t.eval n vs
    let m ← copyOf n p
    setSave n m true
    rest.run n (Fin.snoc vs m) core
  | _, .addLhs t rest, vs, core => do
    let p ← t.eval n vs
    let q ← keepLhs n p
    rest.run n vs { core with lhs := core.lhs ++ [q] }
  | _, .addRhs t rest, vs, core => do
    let p ← t.eval n vs
    let q ← keepRhs n p
    rest.run n vs { core with rhsArr := core.rhsArr ++ [q] }

end Script

/-- `multinomial(symbol*, bool)`. -/
def newVar (k : Symbol) (save : Bool) : Prog Cell Addr := do
  let c₁ ← Mem.new 1 save
  let c₀ ← Mem.new 0 save
  alloc (.obj ⟨some k, [(0, c₀), (1, c₁)], save⟩)

/-- The variables of a driver. -/
def newVars : {k : ℕ} → (Fin k → Symbol) → Prog Cell (Fin k → Addr)
  | 0, _ => pure Fin.elim0
  | k + 1, syms => do
    let vs ← newVars (Fin.init syms)
    let p ← newVar (syms (Fin.last k)) true
    pure (Fin.snoc vs p)

/-- A driver: its variables, then its statements. -/
def driver {k : ℕ} (n : ℕ) (syms : Fin k → Symbol) (script : Script k) : Prog Cell CorePtrs := do
  let vs ← newVars syms
  script.run n vs ⟨[], []⟩

/-! ## Evaluation -/

variable {S l : Cells Cell} {k : ℕ} {s : Bool} {p : Addr} {m : Multinomial}

/-- Whether the object that a term gives is one of the saved ones. -/
def PolyTerm.isSaved : PolyTerm k → Bool
  | .var _ => true
  | _ => false

/-- The saved multinomials that a script may use. -/
def Scope (S : Cells Cell) (ms : Fin k → Multinomial) (vs : Fin k → Addr) : Prop := ∀ i, Operand S true (ms i) (vs i) 0

theorem PolyTerm.eval_spec {ms : Fin k → Multinomial} {vs : Fin k → Addr} (h : Scope S ms vs) :
    ∀ t : PolyTerm k, Triple S 0 (fun n => t.eval n vs) fun r l => Operand S t.isSaved (t.value ms) r l
  | .var i => triple_pure (h i)
  | .addDouble t c => (eval_spec h t).bind fun p l hp =>
    (addDouble_spec hp c).mono fun _ _ hr => .owned (hp.tidy.addDouble c) hr
  | .mulDouble t c => (eval_spec h t).bind fun p l hp =>
    (mulDouble_spec hp c).mono fun _ _ hr => .owned (hp.tidy.mulDouble c) hr
  | .pow t e => (eval_spec h t).bind fun p l hp => (pow_spec hp e).mono fun _ _ hr => .owned (tidy_pow hp.tidy e) hr
  | .add t u => by
    refine (eval_spec h t).bind fun p lp hp => triple_of_eq (0 + lp) (zero_add lp).symm ?_
    refine (eval_spec h u).call fun q lq hq => triple_of_eq (lp + lq) (add_comm ..) ?_
    exact (add_spec hp hq).mono fun _ _ hr => .owned (hp.tidy.add hq.tidy) hr
  | .mul t u => by
    refine (eval_spec h t).bind fun p lp hp => triple_of_eq (0 + lp) (zero_add lp).symm ?_
    refine (eval_spec h u).call fun q lq hq => triple_of_eq (lp + lq) (add_comm ..) ?_
    exact (mul_spec hp hq).mono fun _ _ hr => .owned (hp.tidy.mul hq.tidy) hr

/-! ## Keeping a copy -/

/-- An operand while it is marked as saved. -/
inductive Marked (S : Cells Cell) : Bool → Multinomial → Addr → Cells Cell → Prop
  | saved {m : Multinomial} {p : Addr} (h : Operand S true m p 0) : Marked S true m p 0
  | owned {m : Multinomial} {p : Addr} {l : Cells Cell} (tidy : Tidy false m) (rep : Rep (m.setSave true) p l) :
      Marked S false m p l

theorem savedCopy_spec (h : Operand S s m p l) : Triple S l (fun n => savedCopy n p) fun t l' =>
    ∃ lt lp, l' = lt + lp ∧ Rep (m.setSave true).copy t lt ∧ Marked S s m p lp := by
  cases h with
  | saved ht hr hle =>
    refine (setSave_saved (.saved ht hr hle)).bind ?_
    rintro _ _ rfl
    rw [Multinomial.setSave_self ht]
    refine triple_new fun t d => triple_of_eq (objAt t ⟨none, [(0, d)], true⟩ + numAt d 0) (by rw [add_zero]) ?_
    refine (assign_saved ht hr hle (.const true 0 t d)).bind fun _ lt hcopy => ?_
    exact triple_pure ⟨lt, 0, (add_zero lt).symm, hcopy, .saved (.saved ht hr hle)⟩
  | owned ht hr =>
    refine (setSave_spec hr true).bind fun _ lp hp => triple_new fun t d => ?_
    -- the operand is only read while it is copied
    have hassign := (assign_saved (ht.setSave true) hp (Multiset.le_add_left lp S) (.const true 0 t d)).share
    refine triple_of_eq _ (add_assoc ..).symm (hassign.bind ?_)
    rintro _ _ ⟨lt, rfl, hcopy⟩
    exact triple_pure ⟨lt, lp, rfl, hcopy, .owned ht hp⟩

theorem Marked.restore (h : Marked S s m p l) : Triple S l (fun n => setSave n p s) fun _ l' => Operand S s m p l' := by
  cases h with
  | saved h =>
    refine (setSave_saved h).mono ?_
    rintro _ _ rfl
    exact h
  | owned ht hr =>
    refine (setSave_spec hr false).mono fun _ l' hl' => ?_
    rw [Multinomial.setSave_setSave ht] at hl'
    exact .owned ht hl'

theorem keepLhs_spec (h : Operand S s m p l) : Triple S l (fun n => keepLhs n p) fun t l' =>
    ∃ lt lp, l' = lt + lp ∧ Rep (Handelman.stored m) t lt ∧ Operand S s m p lp := by
  obtain ⟨o, hobj, hsave⟩ := h.mem_save
  refine triple_getObj hobj ((savedCopy_spec h).bind ?_)
  rintro t _ ⟨lt, lp, rfl, ht, hp⟩
  rw [hsave]
  refine triple_of_eq _ (add_comm ..) (hp.restore.call fun _ lp hp => triple_of_eq _ (add_comm ..) ?_)
  refine (setSave_spec ht true).call fun _ lt ht => ?_
  exact triple_pure ⟨lt, lp, rfl, ht, hp⟩

theorem keepRhs_spec (h : Operand S s m p l) : Triple S l (fun n => keepRhs n p) fun t l' =>
    ∃ lt lp, l' = lt + lp ∧ Rep (Handelman.stored m) t lt ∧ Operand S s m p lp := by
  obtain ⟨o, hobj, hsave⟩ := h.mem_save
  refine triple_getObj hobj ((savedCopy_spec h).bind ?_)
  rintro t _ ⟨lt, lp, rfl, ht, hp⟩
  refine (setSave_spec ht true).call fun _ lt ht => triple_of_eq _ (add_comm ..) ?_
  rw [hsave]
  refine hp.restore.call fun _ lp hp => triple_of_eq _ (add_comm ..) ?_
  exact triple_pure ⟨lt, lp, rfl, ht, hp⟩

/-! ## Whole scripts -/

/-- An array of pointers to trees, each in cells of its own. -/
inductive StoredAll : List Multinomial → List Addr → Cells Cell → Prop
  | nil : StoredAll [] [] 0
  | cons {m : Multinomial} {p : Addr} {l r : Cells Cell} {ms : List Multinomial} {ps : List Addr} (head : Rep m p l)
      (tail : StoredAll ms ps r) : StoredAll (m :: ms) (p :: ps) (l + r)

/-- `push_back`. -/
theorem StoredAll.concat {ms : List Multinomial} {ps : List Addr} {r : Cells Cell} (h : StoredAll ms ps r)
    (hm : Rep m p l) : StoredAll (ms ++ [m]) (ps ++ [p]) (r + l) := by
  induction h with
  | nil =>
    rw [add_comm]
    exact .cons hm .nil
  | cons head _ ih =>
    rw [add_assoc]
    exact .cons head ih

/-- The pointers of the core and what the model on values has. -/
def CoreStored (h : Handelman) (core : CorePtrs) (l : Cells Cell) : Prop :=
  ∃ ll lr, l = ll + lr ∧ StoredAll h.lhs core.lhs ll ∧ StoredAll h.rhsArr core.rhsArr lr

theorem CoreStored.addLhs {h : Handelman} {core : CorePtrs} {lm : Cells Cell} (hc : CoreStored h core l)
    (hm : Rep (Handelman.stored m) p lm) : CoreStored (h.addLhs m) { core with lhs := core.lhs ++ [p] } (l + lm) := by
  obtain ⟨ll, lr, rfl, hl, hr⟩ := hc
  exact ⟨ll + lm, lr, by abel, hl.concat hm, hr⟩

theorem CoreStored.addRhs {h : Handelman} {core : CorePtrs} {lm : Cells Cell} (hc : CoreStored h core l)
    (hm : Rep (Handelman.stored m) p lm) :
    CoreStored (h.addRhs m) { core with rhsArr := core.rhsArr ++ [p] } (l + lm) := by
  obtain ⟨ll, lr, rfl, hl, hr⟩ := hc
  exact ⟨ll, lr + lm, by abel, hl, hr.concat hm⟩

theorem Scope.share {ms : Fin k → Multinomial} {vs : Fin k → Addr} (h : Scope S ms vs) (T : Cells Cell) :
    Scope (S + T) ms vs :=
  fun i => (h i).share T

/-- One more saved multinomial. -/
theorem Scope.snoc {ms : Fin k → Multinomial} {vs : Fin k → Addr} (h : Scope S ms vs) (hm : Operand S true m p 0) :
    Scope S (Fin.snoc ms m) (Fin.snoc vs p) := by
  intro i
  induction i using Fin.lastCases with
  | last => simpa using hm
  | cast i => simpa using h i

theorem Script.run_spec {k : ℕ} (script : Script k) :
    ∀ {S l : Cells Cell} {ms : Fin k → Multinomial} {vs : Fin k → Addr} {h : Handelman} {core : CorePtrs},
      Scope S ms vs → CoreStored h core l →
    Triple S l (fun n => script.run n vs core) fun core' l' => CoreStored (script.value ms h) core' l' := by
  induction script with
  | done => exact fun _ hcore => triple_pure hcore
  | letSave t rest ih =>
    intro S l ms vs h core hscope hcore
    refine triple_of_eq _ (zero_add l).symm ((t.eval_spec hscope).call fun p lp hp => ?_)
    refine (copyOf_spec hp).call fun q lq hq => (setSave_spec hq true).call fun _ lq hq => triple_of_eq _
      (add_comm ..) ?_
    -- the new multinomial is shared from here on
    have hoperand : Operand (S + lq) true ((t.value ms).copy.setSave true) q 0 :=
      .saved (hp.tidy.copy.setSave true) hq (Multiset.le_add_left ..)
    refine Triple.post_forget ((ih ((hscope.share lq).snoc hoperand) hcore).share.mono ?_)
    rintro _ _ ⟨l', rfl, hl'⟩
    exact ⟨lq, l', rfl, hl'⟩
  | addLhs t rest ih =>
    intro S l ms vs h core hscope hcore
    refine triple_of_eq _ (zero_add l).symm ((t.eval_spec hscope).call fun p lp hp => (keepLhs_spec hp).call ?_)
    rintro q _ ⟨lq, lp, rfl, hq, -⟩
    refine triple_of_eq (l + lq + lp) (by abel) ((ih hscope (hcore.addLhs hq)).forget lp)
  | addRhs t rest ih =>
    intro S l ms vs h core hscope hcore
    refine triple_of_eq _ (zero_add l).symm ((t.eval_spec hscope).call fun p lp hp => (keepRhs_spec hp).call ?_)
    rintro q _ ⟨lq, lp, rfl, hq, -⟩
    refine triple_of_eq (l + lq + lp) (by abel) ((ih hscope (hcore.addRhs hq)).forget lp)

theorem newVar_spec (x : Symbol) (s : Bool) : Triple S 0 (fun _ => newVar x s) fun p l => Rep (.var x s) p l := by
  refine triple_new fun c₁ d₁ => triple_new fun c₀ d₀ => ?_
  have halloc := @triple_alloc Cell Addr S
    (objAt c₀ ⟨none, [(0, d₀)], s⟩ + (numAt d₀ 0 + (objAt c₁ ⟨none, [(0, d₁)], s⟩ + (numAt d₁ 1 + 0))))
    (.obj ⟨some x, [(0, c₀), (1, c₁)], s⟩) (fun p l => Rep (.var x s) p l) (fun _ p => pure p) fun p => triple_pure ?_
  · simpa using halloc
  · have hrep := Rep.node s x p [(0, ⟨.const s 0, c₀, objAt c₀ ⟨none, [(0, d₀)], s⟩ + numAt d₀ 0⟩),
      (1, ⟨.const s 1, c₁, objAt c₁ ⟨none, [(0, d₁)], s⟩ + numAt d₁ 1⟩)]
      (holds_cons (.const ..) (holds_cons (.const ..) fun _ h => absurd h List.not_mem_nil))
    simp only [cells_cons, cells_nil, add_assoc] at hrep
    exact hrep

/-- The variables are saved and in cells of their own. -/
theorem newVars_spec : ∀ {k : ℕ} (syms : Fin k → Symbol), Triple 0 0 (fun _ => newVars syms) fun vs l =>
    Scope l (fun i => .var (syms i) true) vs
  | 0, _ => triple_pure fun i => i.elim0
  | k + 1, syms => by
    refine (newVars_spec (Fin.init syms)).bind fun vs l hscope => triple_of_eq _ (zero_add l).symm ?_
    refine (newVar_spec (syms (Fin.last k)) true).call fun p lp hp => triple_pure ?_
    have hlast : Operand (l + lp) true (.var (syms (Fin.last k)) true) p 0 :=
      .saved (Multinomial.tidy_var _ _) hp (Multiset.le_add_left ..)
    have hvars : (fun i => Multinomial.var (syms i) true) =
        Fin.snoc (fun i => .var (Fin.init syms i) true) (.var (syms (Fin.last k)) true) := (Fin.snoc_init_self _).symm
    rw [add_comm lp l, hvars]
    exact (hscope.share lp).snoc hlast

theorem driver_spec (syms : Fin k → Symbol) (script : Script k) :
    Triple 0 0 (fun n => driver n syms script) fun core l =>
    CoreStored (script.value (fun i => .var (syms i) true) .new) core l := by
  refine (newVars_spec syms).bind fun vs lv hscope => ?_
  have hcore : CoreStored Handelman.new ⟨[], []⟩ 0 := ⟨0, 0, rfl, .nil, .nil⟩
  have hrun := script.run_spec (S := 0 + lv) (by rwa [zero_add]) hcore
  refine triple_of_eq _ (zero_add lv).symm (Triple.post_forget (hrun.share.mono ?_))
  rintro _ _ ⟨l, rfl, hl⟩
  exact ⟨lv, l, rfl, hl⟩

/-- **A driver never touches deleted memory**: whatever polynomials it writes over its variables and saved expressions,
with enough fuel its statements return, and `lhs` and `rhs_arr` then point to separate trees, those of the model
on values. -/
theorem driver_stores (syms : Fin k → Symbol) (script : Script k) :
    ∃ N core mem, (∀ n ≥ N, driver n syms script Memory.empty = some (core, mem)) ∧
      ∃ l, Own mem l ∧ CoreStored (script.value (fun i => .var (syms i) true) .new) core l := by
  have hempty : Own (Memory.empty : Memory Cell) (0 + 0 + 0) :=
    ⟨Multiset.nodup_zero, fun _ h => absurd h (Multiset.notMem_zero _)⟩
  obtain ⟨core, mem, l, N, hrun, hown, hcore⟩ := driver_spec syms script Memory.empty 0 hempty
  rw [add_zero, add_zero] at hown
  exact ⟨N, core, mem, hrun, l, hown, hcore⟩

end GridSolve.Core
