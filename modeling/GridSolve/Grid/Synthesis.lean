/-
The synthesis problem that `sl_parser::make_test_case` writes (`parser.hpp`). The last constraint is
to say that the outputs are lexicographically at most the functions to be synthesised. Its text is
read as an s-expression: with one output and no `-0.0` it is a formula, with more outputs the
comparisons of earlier ones lack a parenthesis each.
-/
import GridSolve.Grid.Ll
import GridSolve.Grid.SmtPrint

namespace GridSolve.Grid

open GridSolve.Text GridSolve.Poly GridSolve.Core GridSolve.Sexpr GridSolve.Rounding MvPolynomial

open GridSolve.Poly.Multinomial (WF wf_node_iff mapCoeffs)

/-! ## The code -/

/-- `to_string_smt(int)`. -/
def toStringSmt (z : ℤ) : List Char :=
  if 0 ≤ z then natText z.toNat else "( - ".toList ++ natText (-1 * z).toNat ++ " )".toList

/-- `to_string_smt(double)`, which converts to `int`. -/
def toStringSmtDouble (q : ℚ) : List Char :=
  if 0 ≤ q then natText ⌊q⌋.toNat else "( - ".toList ++ natText ⌊-1 * q⌋.toNat ++ " )".toList

/-- `bounding_box::smt_code`; a box has at least `idx` coordinates. -/
def BoundingBox.smtCode (idx : ℕ) (b : BoundingBox) : List Char :=
  "( and ".toList ++ ((List.range idx).flatMap fun i =>
    let c := b.coords.getD i (0, 0)
    "( and (<= ".toList ++ toStringSmt ⌈c.1⌉ ++ " x".toList ++ natText i ++ ") (>= ".toList ++ toStringSmt ⌊c.2⌋ ++
      " x".toList ++ natText i ++ ") ) ".toList) ++ " )".toList

/-- `ll::smt_code`. -/
def Ll.smtCode (idx : ℕ) (l : Ll) : List Char :=
  "( or ".toList ++ l.boxes.flatMap (BoundingBox.smtCode idx) ++ " )".toList

/-- The output variables: the indices from `idx` on that are no templates. -/
def outputs (v : Vars) (idx : ℕ) : List ℕ := (List.range' idx (v.varArr.length - idx)).filter fun i => !v.isTempl i

/-- `var_dep`. -/
def varDep (idx : ℕ) : List Char := (List.range idx).flatMap fun i => "(x".toList ++ toStringSmt i ++ " Int) ".toList

/-- `arg_dep`. -/
def argDep (idx : ℕ) : List Char := (List.range idx).flatMap fun i => "x".toList ++ toStringSmt i ++ " ".toList

/-- The call of a function to be synthesised. -/
def callText (idx i : ℕ) : List Char := "( f".toList ++ toStringSmt i ++ " ".toList ++ argDep idx ++ ")".toList

/-- What is written for an output, `trExpr` the comparisons of the outputs before. -/
def disjunctText (idx : ℕ) (trExpr : List Char) (i : ℕ) : List Char :=
  "(and ".toList ++ trExpr ++ "(<= x".toList ++ toStringSmt idx ++ " ".toList ++ callText idx i ++ " ) )\n".toList

/-- What is added to `tr_expr` for an output. -/
def equalText (idx i : ℕ) : List Char := "(= x".toList ++ toStringSmt idx ++ " ".toList ++ callText idx i

/-- The loop over the outputs. -/
def disjuncts (idx : ℕ) (trExpr : List Char) : List ℕ → List Char
  | [] => []
  | i :: is => disjunctText idx trExpr i ++ disjuncts idx (trExpr ++ equalText idx i) is

/-- The last constraint. -/
def lastConstraint (eCheck : List Signed) (v : Vars) (idx : ℕ) : List Char :=
  "(constraint (=> (and ".toList ++
    (eCheck.flatMap fun e => "(<= 0 ".toList ++ smtPrint (varDep idx) false idx e.neg e.tree ++ " ) ".toList) ++
    ") (or (<= 1 0) ".toList ++ disjuncts idx [] (outputs v idx) ++ ") ) )\n".toList

/-- `make_test_case`: what is in the file. There is none if an output has no coordinate. -/
def makeTestCase (eCheck : List Signed) (coords : Coords) (v : Vars) (idx : ℕ) (frags : Ll) :
    Option (List Char) := do
  let outs ← (outputs v idx).mapM fun i => coords[i]?.map fun c => (i, c)
  return "(set-logic NIA)\n".toList ++
    ((List.range idx).flatMap fun i => "(declare-var x".toList ++ toStringSmt i ++ " Int)\n".toList) ++
    "(assume ".toList ++ frags.smtCode idx ++ " )\n".toList ++
    (outs.flatMap fun o => "(declare-var x".toList ++ toStringSmt o.1 ++ " Int)\n".toList ++
      "(assume (and (<= ".toList ++ toStringSmtDouble o.2.1 ++ " x".toList ++ toStringSmt o.1 ++ ") (<= x".toList ++
      toStringSmt o.1 ++ " ".toList ++ toStringSmtDouble o.2.2 ++ ") ) )\n".toList) ++
    (outs.flatMap fun o => "(synth-fun f".toList ++ toStringSmt o.1 ++ " (".toList ++ varDep idx ++
      ") Int)\n".toList) ++
    (eCheck.flatMap fun e => "(constraint (<= 0 ".toList ++ smtPrint (argDep idx) true idx e.neg e.tree ++
      " ) )\n".toList) ++
    (outs.flatMap fun o => "(constraint (and (<= ".toList ++ toStringSmtDouble o.2.1 ++ " ".toList ++
      callText idx o.1 ++ " ) (<= ".toList ++ callText idx o.1 ++ " ".toList ++ toStringSmtDouble o.2.2 ++
      ") ) ) \n".toList) ++
    lastConstraint eCheck v idx ++ "(check-synth)\n".toList

/-- The constraint is the last of the file. -/
theorem makeTestCase_ends {eCheck : List Signed} {coords : Coords} {v : Vars} {idx : ℕ} {frags : Ll}
    {file : List Char} (h : makeTestCase eCheck coords v idx frags = some file) :
    ∃ before, file = before ++ lastConstraint eCheck v idx ++ "(check-synth)\n".toList := by
  unfold makeTestCase at h
  obtain ⟨outs, -, h⟩ := Option.bind_eq_some_iff.1 h
  exact ⟨_, (Option.some.inj h).symm⟩

/-! ## Meaning -/

/-- An argument of a function on the integers. -/
def asInt (q : ℚ) : Option ℤ := if q.den = 1 then some q.num else none

/-- The variables `x0`, `x1`, ... and the functions `f0`, `f1`, .... -/
def interp (x : ℕ → ℤ) (f : ℕ → List ℤ → ℤ) (name : List Char) (args : List ℚ) : Option ℚ :=
  match name with
  | [] => none
  | c :: ds =>
    if ds = [] ∨ ds.all Char.isDigit = false then none
    else if c = 'x' ∧ args = [] then some (x (val ds) : ℚ)
    else if c = 'f' then (args.mapM asInt).map fun zs => (f (val ds) zs : ℚ)
    else none

/-- All polynomials are non-negative at the point. -/
def AllNonneg (es : List Multinomial) (x : ℕ → ℤ) : Prop := ∀ e ∈ es, 0 ≤ eval (fun i => (x i : ℚ)) e.toMv

/-- The outputs are lexicographically at most the functions at the inputs. -/
def LexAtMost (outs : List ℕ) (inputs : List ℤ) (x : ℕ → ℤ) (f : ℕ → List ℤ → ℤ) : Prop :=
  ∃ before i after, outs = before ++ i :: after ∧ (∀ k ∈ before, x k = f k inputs) ∧ x i ≤ f i inputs

/-! ## Names -/

theorem mapM_asInt : ∀ zs : List ℤ, (zs.map fun z : ℤ => (z : ℚ)).mapM asInt = some zs
  | [] => rfl
  | z :: zs => by
    have hz : asInt z = some z := by simp [asInt]
    rw [List.map_cons, List.mapM_cons, hz, mapM_asInt zs]
    rfl

section Names

variable (x : ℕ → ℤ) (f : ℕ → List ℤ → ℤ)

theorem interp_var (i : ℕ) : interp x f ('x' :: natText i) [] = some (x i : ℚ) := by
  have hdigits : (natText i).all Char.isDigit = true := List.all_eq_true.2 (isDigit_natText i)
  unfold interp
  simp [natText_ne_nil, hdigits, val_natText]

theorem interp_fun (i : ℕ) (zs : List ℤ) :
    interp x f ('f' :: natText i) (zs.map fun z : ℤ => (z : ℚ)) = some (f i zs : ℚ) := by
  have hdigits : (natText i).all Char.isDigit = true := List.all_eq_true.2 (isDigit_natText i)
  unfold interp
  simp only [natText_ne_nil, hdigits, Bool.true_eq_false, or_self, if_false]
  rw [if_neg fun h => absurd h.1 (by decide), if_pos trivial, mapM_asInt, Option.map_some, val_natText]

end Names

/-! ## Terms and formulas -/

/-- A point and functions. -/
abbrev Assignment := (ℕ → ℤ) × (ℕ → List ℤ → ℤ)

/-- The text is an expression with the value, if there is one. -/
abbrev Denotes (t : List Char) (g : Assignment → Option ℚ) : Prop := IsTerm (fun p : Assignment => interp p.1 p.2) t g

/-- The text is a sequence of expressions with the values. -/
abbrev DenotesAll (t : List Char) (gs : List (Assignment → Option ℚ)) : Prop :=
  AreTerms (fun p : Assignment => interp p.1 p.2) t gs

/-- The text is a sequence of formulas with the truth values. -/
abbrev Asserts (t : List Char) (ps : List (Assignment → Option Bool)) : Prop :=
  AreFormulas (fun p : Assignment => interp p.1 p.2) t ps

theorem denotes_var (i : ℕ) : Denotes ('x' :: natText i) fun p => some (p.1 i : ℚ) :=
  isTerm_name (List.cons_ne_nil _ _) (isAtomChar_name (by decide) i) (number_name rfl i) fun p => interp_var p.1 p.2 i

theorem zeroUnknown_interp : ZeroUnknown fun p : Assignment => interp p.1 p.2 := fun _ => rfl

variable {S : Symbol → Prop}

/-- The text of a polynomial has its value, the coefficients rounded to six decimals. -/
theorem denotes_smtPrint (varDep : List Char) (idx : ℕ) {b : ℕ} {m : Multinomial} (hm : WF S b m) (neg : SignBits) :
    Denotes (smtPrint varDep false idx neg m) fun p => textValue (fun i => (p.1 i : ℚ)) neg m := by
  rw [smtPrint_eq]
  exact isTerm_printNamed zeroUnknown_interp (x := fun (p : Assignment) i => (p.1 i : ℚ))
    (fun k => denotes_var k.id) hm neg

/-! ## The last constraint -/

theorem toStringSmt_natCast (i : ℕ) : toStringSmt i = natText i := by
  unfold toStringSmt
  rw [if_pos (Int.natCast_nonneg i), Int.toNat_natCast]

/-- The inputs as arguments. -/
theorem denotesAll_argDep (idx : ℕ) :
    DenotesAll (argDep idx) ((List.range idx).map fun i p => some (p.1 i : ℚ)) := by
  unfold argDep
  generalize List.range idx = is
  induction is with
  | nil => exact areTerms_nil
  | cons i is ih =>
    have h := (denotes_var i).all.append ih
    simpa [toStringSmt_natCast] using h

theorem collect_inputs (p : Assignment) : ∀ is : List ℕ,
    collect (is.map fun i (p : Assignment) => some (p.1 i : ℚ)) p = some ((is.map p.1).map fun z : ℤ => (z : ℚ))
  | [] => rfl
  | i :: is => by simp [collect_inputs p is]

/-- The call of a function at the inputs. -/
theorem denotes_callText (idx i : ℕ) :
    Denotes (callText idx i) fun p => some (p.2 i ((List.range idx).map p.1) : ℚ) := by
  have h := (denotesAll_argDep idx).call ('f' :: natText i) reads_space (List.cons_ne_nil _ _)
    (isAtomChar_name (by decide) i) (g := fun p => some (p.2 i ((List.range idx).map p.1) : ℚ)) fun p => by
      rw [collect_inputs, Option.bind_some, ← interp_fun p.1 p.2 i]
      unfold operate
      simp
  unfold callText
  simpa [toStringSmt_natCast] using h

/-- The polynomial of a constraint, in which the functions at the inputs stand for the symbols from `idx` on. -/
theorem denotes_smtPrint_calls (idx : ℕ) {b : ℕ} {m : Multinomial} (hm : WF S b m) (neg : SignBits) :
    Denotes (smtPrint (argDep idx) true idx neg m) fun p =>
      textValue (fun k => if idx ≤ k then (p.2 k ((List.range idx).map p.1) : ℚ) else p.1 k) neg m := by
  have hname : ∀ k, Denotes (symTemp (argDep idx) true idx k)
      fun p => some (if idx ≤ k.id then (p.2 k.id ((List.range idx).map p.1) : ℚ) else p.1 k.id) := fun k => by
    unfold symTemp
    by_cases hk : idx ≤ k.id
    · have hcall := denotes_callText idx k.id
      unfold callText at hcall
      rw [toStringSmt_natCast] at hcall
      simpa [hk] using hcall
    · simpa [hk] using denotes_var k.id
  rw [smtPrint_eq]
  exact isTerm_printNamed zeroUnknown_interp (x := fun (p : Assignment) k =>
    if idx ≤ k then (p.2 k ((List.range idx).map p.1) : ℚ) else p.1 k) hname hm neg

/-- The premise of a polynomial: with its coefficients as they are printed, it is non-negative. -/
noncomputable def premise (e : Signed) (p : Assignment) : Option Bool :=
  (textValue (fun i => (p.1 i : ℚ)) e.neg e.tree).map fun q => decide (0 ≤ q)

theorem asserts_premises (varDep : List Char) (idx : ℕ) : ∀ {es : List Signed} (_ : ∀ e ∈ es, ∃ S b, WF S b e.tree),
    Asserts (es.flatMap fun e => "(<= 0 ".toList ++ smtPrint varDep false idx e.neg e.tree ++ " ) ".toList)
      (es.map premise)
  | [], _ => areFormulas_nil
  | e :: es, h => by
    obtain ⟨⟨S, b, he⟩, hes⟩ := List.forall_mem_cons.1 h
    have hzero : Denotes "0".toList fun _ => some 0 :=
      isTerm_number (by decide) (isAtomChar_of_all (by decide)) (by decide +kernel)
    have hle := (hzero.all.append (denotes_smtPrint varDep idx he e.neg).spaced.all).le.all
    have hall := hle.append (asserts_premises varDep idx hes)
    have hpremise : premise e = fun p =>
        (textValue (fun i => (p.1 i : ℚ)) e.neg e.tree).map fun q => decide (0 ≤ q) := rfl
    simpa [hpremise] using hall

/-- All premises have truth values if no constant is `-0.0`. -/
theorem collect_premises (p : Assignment) : ∀ es : List Signed, collect (es.map premise) p =
    if es.any fun e => hasNegativeZero e.neg e.tree then none
    else some (es.map fun e => decide (0 ≤ printedValue (fun i => (p.1 i : ℚ)) e.tree))
  | [] => rfl
  | e :: es => by
    rw [List.map_cons, collect_cons, collect_premises p es, List.any_cons]
    unfold premise textValue
    cases hasNegativeZero e.neg e.tree <;> cases es.any fun e => hasNegativeZero e.neg e.tree <;> simp

/-- The disjunct of a single output. -/
theorem isFormula_disjunct (idx i : ℕ) :
    IsFormula (fun p : Assignment => interp p.1 p.2) (disjuncts idx [] [i])
      fun p => some (decide (p.1 idx ≤ p.2 i ((List.range idx).map p.1))) := by
  have hle := ((denotes_var idx).all.append (denotes_callText idx i).spaced.all).le.spaced
  have htext : disjuncts idx [] [i] = "(and ".toList ++ ("(<= ".toList ++ ('x' :: natText idx ++
      ' ' :: (callText idx i ++ [' ']) ++ [')']) ++ [' '] ++ [')']) ++ ['\n'] := by
    rw [disjuncts, disjuncts]
    unfold disjunctText
    simp [toStringSmt_natCast]
  rw [htext]
  simpa using hle.all.and.newline

/-- The implication of the constraint. -/
theorem collect_constraint (p : Assignment) (es : List Signed) (b : Bool) :
    (((collect (es.map premise) p).map fun bs => bs.all id).bind fun a => (some b).map fun b => !a || b) =
      if es.any fun e => hasNegativeZero e.neg e.tree then none
      else some (!(es.map fun e => decide (0 ≤ printedValue (fun i => (p.1 i : ℚ)) e.tree)).all id || b) := by
  rw [collect_premises]
  split_ifs <;> rfl

section Constraint

variable {eCheck : List Signed} {v : Vars} {idx : ℕ}

/-- With one output the constraint is an expression. It is a formula if no constant is `-0.0`. -/
theorem exists_formula (hwf : ∀ e ∈ eCheck, ∃ S b, WF S b e.tree) {i : ℕ} (hout : outputs v idx = [i]) :
    ∃ φ, read (lastConstraint eCheck v idx) = some [.list [.atom "constraint".toList, φ]] ∧
      ∀ x f, ∃ b,
        φ.holds (interp x f) = (if eCheck.any fun e => hasNegativeZero e.neg e.tree then none else some b) ∧
          (b = true ↔ (AllNonneg (eCheck.map fun e => mapCoeffs toStringVal e.tree) x →
            x idx ≤ f i ((List.range idx).map x))) := by
  have hone : Denotes "1".toList fun _ => some 1 :=
    isTerm_number (by decide) (isAtomChar_of_all (by decide)) (by decide +kernel)
  have hzero : Denotes "0".toList fun _ => some 0 :=
    isTerm_number (by decide) (isAtomChar_of_all (by decide)) (by decide +kernel)
  have hand := (asserts_premises (varDep idx) idx hwf).and
  have hor := ((hone.all.append hzero.all).le.all.append (isFormula_disjunct idx i).all).or
  obtain ⟨φ, hφ, hval⟩ := (hand.all.append hor.spaced.all).imp.spaced
  have hword : Yields "constraint".toList [.atom "constraint".toList] :=
    yields_atom (by decide) (isAtomChar_of_all (by decide))
  have hread := (hword.space.append_yields hφ).paren.yields.newline.yields.read
  refine ⟨φ, ?_, fun x f => ⟨_, (hval (x, f)).trans (collect_constraint (x, f) eCheck _), ?_⟩⟩
  · rw [List.singleton_append] at hread
    rw [← hread]
    unfold lastConstraint
    rw [hout]
    simp
  · have hpremises : (eCheck.map fun e => decide (0 ≤ printedValue (fun i => (x i : ℚ)) e.tree)).all id = true ↔
        AllNonneg (eCheck.map fun e => mapCoeffs toStringVal e.tree) x := by
      unfold AllNonneg
      rw [List.all_map, List.all_eq_true, List.forall_mem_map]
      simp only [Function.comp_apply, id_eq, decide_eq_true_eq]
      rfl
    have hfalse : ((1 : ℚ) ≤ 0) = False := by norm_num
    rw [imp_iff_not_or, ← hpremises]
    simp [hfalse, ← Bool.not_eq_true]

/-- The comparison of an earlier output lacks a closing parenthesis, and a disjunct has those of its `tr_expr`. -/
theorem count_texts (idx i : ℕ) (trExpr : List Char) :
    (equalText idx i).count '(' = (equalText idx i).count ')' + 1 ∧
      (disjunctText idx trExpr i).count ')' + trExpr.count '(' =
        (disjunctText idx trExpr i).count '(' + trExpr.count ')' := by
  obtain ⟨_, hcall, -⟩ := denotes_callText idx i
  obtain ⟨_, hvar, -⟩ := denotes_var idx
  have h1 := hcall.count
  have h2 : (natText idx).count ')' = (natText idx).count '(' := by simpa using hvar.count
  unfold equalText disjunctText
  simp only [toStringSmt_natCast, List.count_append, h1, h2]
  have hlits : ("(= x".toList.count '(' = 1 ∧ "(= x".toList.count ')' = 0) ∧
      ("(and ".toList.count '(' = 1 ∧ "(and ".toList.count ')' = 0) ∧
      ("(<= x".toList.count '(' = 1 ∧ "(<= x".toList.count ')' = 0) ∧
      (" ) )\n".toList.count '(' = 0 ∧ " ) )\n".toList.count ')' = 2) ∧
          (" ".toList.count '(' = 0 ∧ " ".toList.count ')' = 0) := by
    decide
  omega

theorem count_disjuncts (idx : ℕ) : ∀ (is : List ℕ) (trExpr : List Char) (_ : trExpr.count ')' ≤ trExpr.count '('),
    (disjuncts idx trExpr is).count ')' ≤ (disjuncts idx trExpr is).count '(' ∧
      (trExpr.count ')' < trExpr.count '(' → is ≠ [] →
        (disjuncts idx trExpr is).count ')' < (disjuncts idx trExpr is).count '(')
  | [], _, _ => ⟨le_rfl, fun _ h => absurd rfl h⟩
  | i :: is, trExpr, h => by
    obtain ⟨h1, h2⟩ := count_texts idx i trExpr
    have ih := (count_disjuncts idx is (trExpr ++ equalText idx i)
      (by rw [List.count_append, List.count_append]; omega)).1
    rw [disjuncts, List.count_append, List.count_append]
    exact ⟨by omega, fun _ _ => by omega⟩

/-- With more than one output there are more opening parentheses than closing ones. -/
theorem read_lastConstraint_eq_none (hwf : ∀ e ∈ eCheck, ∃ S b, WF S b e.tree) {i j : ℕ} {is : List ℕ}
    (hout : outputs v idx = i :: j :: is) : read (lastConstraint eCheck v idx) = none := by
  obtain ⟨_, hpremises, -⟩ := asserts_premises (varDep idx) idx hwf
  have h0 := hpremises.count
  obtain ⟨h1, h2⟩ := count_texts idx i []
  have h3 : ([] ++ equalText idx i).count ')' < ([] ++ equalText idx i).count '(' := by
    rw [List.nil_append]
    omega
  have h4 := (count_disjuncts idx (j :: is) _ h3.le).2 h3 (List.cons_ne_nil j is)
  refine Option.eq_none_iff_forall_ne_some.2 fun xs hread => ?_
  have hcount := count_of_read hread
  unfold lastConstraint at hcount
  rw [hout, disjuncts] at hcount
  simp only [List.count_append, h0] at hcount
  have hlits : ("(constraint (=> (and ".toList.count '(' = 3 ∧ "(constraint (=> (and ".toList.count ')' = 0) ∧
      (") (or (<= 1 0) ".toList.count '(' = 2 ∧ ") (or (<= 1 0) ".toList.count ')' = 2) ∧
      (") ) )\n".toList.count '(' = 0 ∧ ") ) )\n".toList.count ')' = 3) := by
    decide
  simp only [List.count_nil] at h2
  omega

end Constraint

/-- Two implications bound the same numbers. -/
theorem imp_le_congr_iff {P Q : Prop} {a b : ℤ} : (∀ c : ℤ, (P → a ≤ c) ↔ (Q → b ≤ c)) ↔ (P ↔ Q) ∧ (Q → a = b) := by
  constructor
  · intro h
    have hPQ : P ↔ Q := by
      by_cases hP : P <;> by_cases hQ : Q
      · exact iff_of_true hP hQ
      · have := (h (a - 1)).2 (fun hq => absurd hq hQ) hP
        omega
      · have := (h (b - 1)).1 (fun hp => absurd hp hP) hQ
        omega
      · exact iff_of_false hP hQ
    refine ⟨hPQ, fun hQ => le_antisymm ?_ ?_⟩
    · exact (h b).2 (fun _ => le_rfl) (hPQ.2 hQ)
    · exact (h a).1 (fun _ => le_rfl) hQ
  · rintro ⟨hPQ, hab⟩ c
    rw [hPQ]
    exact forall_congr' fun hQ => by rw [hab hQ]

theorem lexAtMost_singleton {i : ℕ} {inputs : List ℤ} {x : ℕ → ℤ} {f : ℕ → List ℤ → ℤ} :
    LexAtMost [i] inputs x f ↔ x i ≤ f i inputs := by
  constructor
  · rintro ⟨before, k, after, h, -, hle⟩
    obtain ⟨rfl, rfl, rfl⟩ : before = [] ∧ k = i ∧ after = [] := by
      rcases before with _ | ⟨j, before⟩ <;> simp_all
    exact hle
  · exact fun h => ⟨[], i, [], rfl, List.forall_mem_nil _, h⟩

/-- **The last constraint** asks for the lexicographically greatest output exactly when there is one output, no
constant of the polynomials is `-0.0`, the variable at `idx` has the value of the output, and printing with six
decimals does not change where the polynomials are non-negative. -/
theorem last_constraint_lexAtMost_iff {eCheck : List Signed} {v : Vars} {idx : ℕ}
    (hwf : ∀ e ∈ eCheck, ∃ S b, WF S b e.tree) (hout : outputs v idx ≠ []) :
    (∃ φ, read (lastConstraint eCheck v idx) = some [.list [.atom "constraint".toList, φ]] ∧
      ∀ x f, ∃ b, φ.holds (interp x f) = some b ∧ (b = true ↔ (AllNonneg (eCheck.map Signed.tree) x →
        LexAtMost (outputs v idx) ((List.range idx).map x) x f))) ↔
      ∃ i, outputs v idx = [i] ∧ (∀ e ∈ eCheck, hasNegativeZero e.neg e.tree = false) ∧
        ∀ x, (AllNonneg (eCheck.map fun e => mapCoeffs toStringVal e.tree) x ↔ AllNonneg (eCheck.map Signed.tree) x) ∧
          (AllNonneg (eCheck.map Signed.tree) x → x idx = x i) := by
  match hcases : outputs v idx, hout with
  | [i], _ =>
    obtain ⟨φ, hread, hφ⟩ := exists_formula hwf hcases
    simp only [lexAtMost_singleton, ← imp_le_congr_iff]
    constructor
    · rintro ⟨φ', hread', hφ'⟩
      obtain rfl : φ = φ' := by
        rw [hread] at hread'
        cases hread'
        rfl
      have hzero : ∀ e ∈ eCheck, hasNegativeZero e.neg e.tree = false := by
        obtain ⟨b, hb, -⟩ := hφ (fun _ => 0) fun _ _ => 0
        obtain ⟨b', hb', -⟩ := hφ' (fun _ => 0) fun _ _ => 0
        by_contra hneg
        rw [hb, if_pos (by simpa using hneg)] at hb'
        cases hb'
      refine ⟨i, rfl, hzero, fun x c => ?_⟩
      obtain ⟨b, hb, hiff⟩ := hφ x fun _ _ => c
      obtain ⟨b', hb', hiff'⟩ := hφ' x fun _ _ => c
      rw [hb, if_neg (by simpa using hzero), Option.some.injEq] at hb'
      rw [← hiff, hb', hiff']
    · rintro ⟨k, hk, hzero, h⟩
      cases hk
      refine ⟨φ, hread, fun x f => ?_⟩
      obtain ⟨b, hb, hiff⟩ := hφ x f
      exact ⟨b, hb.trans (if_neg (by simpa using hzero)), hiff.trans (h x _)⟩
  | i :: j :: is, _ =>
    -- a parenthesis is missing
    rw [read_lastConstraint_eq_none hwf hcases]
    refine iff_of_false ?_ ?_
    · rintro ⟨φ, h, _⟩
      cases h
    · rintro ⟨k, h, _⟩
      cases h

/-- Variables without templates. -/
def plainVars (n : ℕ) : Vars := { varArr := (List.range n).map fun i => .var ⟨i, false⟩ true, mp := [] }

/-- `x0 - x1`, with the zero of `x1 * -1`, or a zero without the sign bit. -/
def difference (neg : Bool) : Signed where
  tree := .node true ⟨0, false⟩
    [(0, .node true ⟨1, false⟩ [(0, .const true 0), (1, .const true (-1))]), (1, .const true 1)]
  neg path := neg && path = [0, 0]

/-- One input and one output. -/
theorem last_constraint_lexAtMost_difference :
    ∃ φ, read (lastConstraint [difference false] (plainVars 2) 1) = some [.list [.atom "constraint".toList, φ]] ∧
      ∀ x f, ∃ b, φ.holds (interp x f) = some b ∧ (b = true ↔ (AllNonneg [(difference false).tree] x →
        LexAtMost (outputs (plainVars 2) 1) ((List.range 1).map x) x f)) := by
  have hwf : WF (fun _ => True) 0 (difference false).tree :=
    .node le_rfl trivial (by decide) rfl (by simp [Multinomial.WF.const, wf_node_iff])
  have houts : outputs (plainVars 2) 1 = [1] := by decide +kernel
  have hexact : mapCoeffs toStringVal (difference false).tree = (difference false).tree := by decide +kernel
  refine (last_constraint_lexAtMost_iff (List.forall_mem_singleton.2 ⟨_, _, hwf⟩) (by rw [houts]; decide)).2
    ⟨1, houts, by decide, fun x => ?_⟩
  rw [List.map_singleton, hexact]
  exact ⟨Iff.rfl, fun _ => rfl⟩

/-- Two outputs. -/
theorem last_constraint_unbalanced : outputs (plainVars 4) 2 = [2, 3] ∧
    ¬ ∃ φ, read (lastConstraint [⟨.var ⟨2, false⟩ true, fun _ => false⟩] (plainVars 4) 2) =
        some [.list [.atom "constraint".toList, φ]] ∧
      ∀ x f, ∃ b, φ.holds (interp x f) = some b ∧
        (b = true ↔ (AllNonneg [.var ⟨2, false⟩ true] x →
          LexAtMost (outputs (plainVars 4) 2) ((List.range 2).map x) x f)) := by
  have hread : (read (lastConstraint [⟨.var ⟨2, false⟩ true, fun _ => false⟩] (plainVars 4) 2)).isNone = true := by
    decide +kernel
  refine ⟨by decide +kernel, ?_⟩
  rintro ⟨φ, h, -⟩
  rw [h] at hread
  cases hread

end GridSolve.Grid
