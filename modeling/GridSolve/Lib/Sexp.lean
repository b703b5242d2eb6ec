/-
S-expressions in text: a reader that keeps the atom in hand and a stack of open lists, rules for
what a text built from pieces reads as, and the count of parentheses, which decides against a text
that is not balanced. The arithmetic and logical operators have their usual meaning, with any
number of arguments for sums, products, conjunctions and disjunctions.
-/
import GridSolve.Lib.Text

namespace GridSolve.Sexpr

open GridSolve.Text

/-- An s-expression. -/
inductive Sexp
  | atom (text : List Char)
  | list (items : List Sexp)

/-! ## Reading -/

/-- The reader: the atom in hand, the items of the innermost open list, those of the lists around it. -/
structure State where
  cur : List Char
  top : List Sexp
  stack : List (List Sexp)

/-- The atom in hand ends. -/
def State.flush (s : State) : State := if s.cur = [] then s else ⟨[], s.top ++ [.atom s.cur], s.stack⟩

/-- A list ends; there is no result if none is open. -/
def State.close (s : State) : Option State :=
  match s.stack with
  | [] => none
  | up :: stack => some ⟨[], up ++ [.list s.top], stack⟩

def State.step (s : State) (c : Char) : Option State :=
  if c = '(' then some ⟨[], [], s.flush.top :: s.flush.stack⟩
  else if c = ')' then s.flush.close
  else if c = ' ' ∨ c = '\n' then some s.flush
  else some { s with cur := s.cur ++ [c] }

def run (cs : List Char) (s : State) : Option State := cs.foldlM State.step s

/-- The expressions of a text, if it is well-parenthesised. -/
def read (cs : List Char) : Option (List Sexp) :=
  (run cs ⟨[], [], []⟩).bind fun s => if s.stack = [] then some s.flush.top else none

/-! ## Texts that are read piece by piece -/

/-- After the text, and the end of its last atom, the expressions have been read. -/
def Yields (t : List Char) (xs : List Sexp) : Prop :=
  ∀ top stack, ∃ s, run t ⟨[], top, stack⟩ = some s ∧ s.flush = ⟨[], top ++ xs, stack⟩

/-- The text ends behind its last atom. -/
def Reads (t : List Char) (xs : List Sexp) : Prop :=
  ∀ top stack, run t ⟨[], top, stack⟩ = some ⟨[], top ++ xs, stack⟩

/-- A character that atoms are made of. -/
def IsAtomChar (c : Char) : Prop := c ≠ '(' ∧ c ≠ ')' ∧ c ≠ ' ' ∧ c ≠ '\n'

instance decidableIsAtomChar : DecidablePred IsAtomChar := fun c =>
  inferInstanceAs (Decidable (c ≠ '(' ∧ c ≠ ')' ∧ c ≠ ' ' ∧ c ≠ '\n'))

/-- The characters of a word, checked one after the other. -/
theorem isAtomChar_of_all {a : List Char} (h : (a.all fun c => decide (IsAtomChar c)) = true) : ∀ c ∈ a, IsAtomChar c :=
  fun c hc => of_decide_eq_true (List.all_eq_true.1 h c hc)

theorem run_append (t u : List Char) (s : State) : run (t ++ u) s = (run t s).bind (run u) := List.foldlM_append

@[simp] theorem run_nil (s : State) : run [] s = some s := rfl

theorem run_cons (c : Char) (t : List Char) (s : State) : run (c :: t) s = (s.step c).bind (run t) := List.foldlM_cons

@[simp] theorem flush_nil (top : List Sexp) (stack : List (List Sexp)) :
    State.flush ⟨[], top, stack⟩ = ⟨[], top, stack⟩ := rfl

section Rules

variable {t u : List Char} {xs ys : List Sexp}

theorem Reads.yields (h : Reads t xs) : Yields t xs := fun top stack => ⟨_, h top stack, rfl⟩

theorem reads_nil : Reads [] [] := fun top stack => by rw [run_nil, List.append_nil]

theorem reads_space : Reads [' '] [] := fun top stack => by rw [List.append_nil]; rfl

theorem Reads.append_yields (ht : Reads t xs) (hu : Yields u ys) : Yields (t ++ u) (xs ++ ys) := by
  intro top stack
  obtain ⟨s, hs, hflush⟩ := hu (top ++ xs) stack
  refine ⟨s, ?_, by rw [hflush, List.append_assoc]⟩
  rw [run_append, ht, Option.bind_some, hs]

theorem Yields.blank (h : Yields t xs) {c : Char} (hc : c = ' ' ∨ c = '\n') : Reads (t ++ [c]) xs := by
  intro top stack
  obtain ⟨s, hs, hflush⟩ := h top stack
  have hstep : s.step c = some s.flush := by rcases hc with rfl | rfl <;> rfl
  rw [run_append, hs, Option.bind_some, run_cons, hstep, Option.bind_some, run_nil, hflush]

theorem Yields.space (h : Yields t xs) : Reads (t ++ [' ']) xs := h.blank (.inl rfl)

theorem Yields.newline (h : Yields t xs) : Reads (t ++ ['\n']) xs := h.blank (.inr rfl)

/-- A list between parentheses. -/
theorem Yields.paren (h : Yields t xs) : Reads ('(' :: (t ++ [')'])) [.list xs] := by
  intro top stack
  obtain ⟨s, hs, hflush⟩ := h [] (top :: stack)
  have hopen : State.step ⟨[], top, stack⟩ '(' = some ⟨[], [], top :: stack⟩ := rfl
  have hstep : s.step ')' = s.flush.close := rfl
  rw [run_cons, hopen, Option.bind_some, run_append, hs, Option.bind_some, run_cons, hstep, hflush]
  rfl

theorem run_atom : ∀ {a : List Char} (_ : ∀ c ∈ a, IsAtomChar c) (s : State),
    run a s = some { s with cur := s.cur ++ a }
  | [], _, s => by rw [run_nil, List.append_nil]
  | c :: a, h, s => by
    obtain ⟨⟨h1, h2, h3, h4⟩, ha⟩ := List.forall_mem_cons.1 h
    have hstep : s.step c = some { s with cur := s.cur ++ [c] } := by
      unfold State.step
      rw [if_neg h1, if_neg h2, if_neg (not_or.2 ⟨h3, h4⟩)]
    rw [run_cons, hstep, Option.bind_some, run_atom ha]
    simp only [List.append_assoc, List.singleton_append]

theorem yields_atom {a : List Char} (hne : a ≠ []) (h : ∀ c ∈ a, IsAtomChar c) : Yields a [.atom a] := by
  intro top stack
  refine ⟨_, run_atom h _, ?_⟩
  unfold State.flush
  rw [List.nil_append, if_neg hne]

theorem stack_flush (s : State) : s.flush.stack = s.stack := by
  unfold State.flush
  split_ifs <;> rfl

/-- The end of the text ends its last atom. -/
theorem Yields.read (h : Yields t xs) : read t = some xs := by
  obtain ⟨s, hrun, hflush⟩ := h [] []
  have hstack : s.stack = [] := by rw [← stack_flush, hflush]
  unfold Sexpr.read
  rw [hrun, Option.bind_some, if_pos hstack, hflush, List.nil_append]

/-! ## Parentheses -/

/-- The stack grows with an opening parenthesis and shrinks with a closing one. -/
theorem run_count : ∀ {t : List Char} {s s' : State} (_ : run t s = some s'),
    s'.stack.length + t.count ')' = s.stack.length + t.count '('
  | [], s, s', h => by cases h; rfl
  | c :: t, s, s', h => by
    rw [run_cons, Option.bind_eq_some_iff] at h
    obtain ⟨r, hstep, hrun⟩ := h
    have ih := run_count hrun
    rw [List.count_cons, List.count_cons]
    unfold State.step at hstep
    split_ifs at hstep with h1 h2 h3
    · cases hstep
      subst h1
      simp only [List.length_cons, stack_flush] at ih
      simp
      omega
    · subst h2
      unfold State.close at hstep
      rw [stack_flush] at hstep
      cases hs : s.stack with
      | nil => rw [hs] at hstep; cases hstep
      | cons up stack =>
        rw [hs] at hstep
        cases hstep
        simp at ih ⊢
        omega
    · cases hstep
      rw [stack_flush] at ih
      simp [h1, h2, ih]
    · cases hstep
      simp at ih
      simp [h1, h2, ih]

theorem count_of_read (h : read t = some xs) : t.count ')' = t.count '(' := by
  obtain ⟨s, hrun, hs⟩ := Option.bind_eq_some_iff.1 h
  have hcount := run_count hrun
  split_ifs at hs with hstack
  rw [hstack] at hcount
  simpa using hcount

theorem Yields.count (h : Yields t xs) : t.count ')' = t.count '(' := by
  obtain ⟨s, hrun, hflush⟩ := h [] []
  have hcount := run_count hrun
  rw [← stack_flush, hflush] at hcount
  simpa using hcount

end Rules

/-! ## Meaning -/

/-- A number without a sign: digits, possibly a point and more digits. -/
def number (a : List Char) : Option ℚ :=
  let whole := a.takeWhile Char.isDigit
  if whole = [] then none
  else match a.dropWhile Char.isDigit with
    | [] => some (val whole)
    | c :: frac =>
      if c = '.' ∧ frac ≠ [] ∧ frac.all Char.isDigit then some (val (whole ++ frac) / 10 ^ frac.length) else none

/-- An operator on numbers; `fn` are the other functions, constants among them. -/
def operate (fn : List Char → List ℚ → Option ℚ) (op : List Char) (vs : List ℚ) : Option ℚ :=
  if op = ['+'] then some vs.sum
  else if op = ['*'] then some vs.prod
  else if op = ['-'] then match vs with
    | [v] => some (-v)
    | _ => none
  else fn op vs

theorem operate_mul (fn : List Char → List ℚ → Option ℚ) (vs : List ℚ) : operate fn ['*'] vs = some vs.prod := rfl

theorem operate_neg (fn : List Char → List ℚ → Option ℚ) (v : ℚ) : operate fn ['-'] [v] = some (-v) := rfl

mutual

/-- The value of a term. -/
def Sexp.value (fn : List Char → List ℚ → Option ℚ) : Sexp → Option ℚ
  | .atom a => (number a).or (fn a [])
  | .list [] => none
  | .list (.list _ :: _) => none
  | .list (.atom op :: args) => (Sexp.values fn args).bind (operate fn op)

def Sexp.values (fn : List Char → List ℚ → Option ℚ) : List Sexp → Option (List ℚ)
  | [] => some []
  | x :: xs => do
    let v ← Sexp.value fn x
    let vs ← Sexp.values fn xs
    return v :: vs

end

/-- A term without a value leaves the list without values. -/
theorem Sexp.values_eq (fn : List Char → List ℚ → Option ℚ) : ∀ xs : List Sexp,
    Sexp.values fn xs = xs.mapM (Sexp.value fn)
  | [] => rfl
  | x :: xs => by rw [Sexp.values, Sexp.values_eq fn xs, List.mapM_cons]

/-! ## Terms under several interpretations -/

/-- The values of several functions at a point, if all have one. -/
def collect {ι α : Type*} (gs : List (ι → Option α)) (i : ι) : Option (List α) := gs.mapM fun g => g i

@[simp] theorem collect_nil {ι α : Type*} (i : ι) : collect ([] : List (ι → Option α)) i = some [] := rfl

@[simp] theorem collect_cons {ι α : Type*} (g : ι → Option α) (gs : List (ι → Option α)) (i : ι) :
    collect (g :: gs) i = (g i).bind fun v => (collect gs i).map (v :: ·) := by
  unfold collect
  rw [List.mapM_cons]
  cases g i with
  | none => rfl
  | some v => cases gs.mapM fun g => g i <;> rfl

theorem collect_append {ι α : Type*} (gs hs : List (ι → Option α)) (i : ι) :
    collect (gs ++ hs) i = (do return (← collect gs i) ++ (← collect hs i)) := List.mapM_append

theorem collect_replicate {ι α : Type*} (g : ι → α) (i : ι) : ∀ n : ℕ,
    collect (List.replicate n fun i => some (g i)) i = some (List.replicate n (g i))
  | 0 => rfl
  | n + 1 => by simp [List.replicate_succ, collect_replicate g i n]

/-- The text is one expression. Under the interpretation `fn i` it has the value `g i`, or is no term if there is
none. -/
def IsTerm {ι : Type*} (fn : ι → List Char → List ℚ → Option ℚ) (t : List Char) (g : ι → Option ℚ) : Prop :=
  ∃ e : Sexp, Yields t [e] ∧ ∀ i, e.value (fn i) = g i

/-- The text is a sequence of expressions with these values. -/
def AreTerms {ι : Type*} (fn : ι → List Char → List ℚ → Option ℚ) (t : List Char) (gs : List (ι → Option ℚ)) : Prop :=
  ∃ es : List Sexp, Yields t es ∧ ∀ i, Sexp.values (fn i) es = collect gs i

section Terms

variable {ι : Type*} {fn : ι → List Char → List ℚ → Option ℚ} {t u : List Char} {g : ι → Option ℚ}
  {gs hs : List (ι → Option ℚ)}

theorem areTerms_nil : AreTerms fn [] [] := ⟨[], reads_nil.yields, fun _ => rfl⟩

theorem IsTerm.all (ht : IsTerm fn t g) : AreTerms fn t [g] := by
  obtain ⟨e, he, hval⟩ := ht
  refine ⟨[e], he, fun i => ?_⟩
  simp [Sexp.values_eq, hval]

theorem AreTerms.append (ht : AreTerms fn t gs) (hu : AreTerms fn u hs) : AreTerms fn (t ++ ' ' :: u) (gs ++ hs) := by
  obtain ⟨es, hes, hval⟩ := ht
  obtain ⟨es', hes', hval'⟩ := hu
  refine ⟨es ++ es', ?_, fun i => ?_⟩
  · rw [show t ++ ' ' :: u = (t ++ [' ']) ++ u by simp]
    exact hes.space.append_yields hes'
  · have h := hval i
    have h' := hval' i
    rw [Sexp.values_eq] at h h' ⊢
    rw [List.mapM_append, h, h', collect_append]

theorem IsTerm.spaced (ht : IsTerm fn t g) : IsTerm fn (t ++ [' ']) g := by
  obtain ⟨e, he, hval⟩ := ht
  exact ⟨e, he.space.yields, hval⟩

/-- A term with a blank behind, several times. -/
theorem IsTerm.replicate (ht : IsTerm fn t g) :
    ∀ n : ℕ, AreTerms fn (List.replicate n (t ++ [' '])).flatten (List.replicate n g)
  | 0 => areTerms_nil
  | n + 1 => by
    have h := ht.all.append (ht.replicate n)
    simpa [List.replicate_succ] using h

/-- An operator before its arguments, in parentheses; there may be a blank in front of it. -/
theorem AreTerms.call {pad : List Char} (op : List Char) (hpad : Reads pad []) (hne : op ≠ [])
    (hop : ∀ c ∈ op, IsAtomChar c) (ht : AreTerms fn t gs) (hval : ∀ i, (collect gs i).bind (operate (fn i) op) = g i) :
    IsTerm fn ('(' :: (pad ++ (op ++ ' ' :: t) ++ [')'])) g := by
  obtain ⟨es, hes, hvals⟩ := ht
  refine ⟨.list (.atom op :: es), ?_, fun i => by rw [Sexp.value, hvals, hval]⟩
  rw [show op ++ ' ' :: t = (op ++ [' ']) ++ t by simp]
  exact (hpad.append_yields ((yields_atom hne hop).space.append_yields hes)).paren.yields

/-- A number is the same under every interpretation. -/
theorem isTerm_number {a : List Char} {q : ℚ} (hne : a ≠ []) (ha : ∀ c ∈ a, IsAtomChar c) (hnum : number a = some q) :
    IsTerm fn a fun _ => some q :=
  ⟨.atom a, yields_atom hne ha, fun i => by rw [Sexp.value, hnum]; rfl⟩

/-- A name is an atom that is no number. -/
theorem isTerm_name {a : List Char} (hne : a ≠ []) (ha : ∀ c ∈ a, IsAtomChar c) (hnum : number a = none)
    (hval : ∀ i, fn i a [] = g i) : IsTerm fn a g :=
  ⟨.atom a, yields_atom hne ha, fun i => by rw [Sexp.value, hnum, Option.none_or, hval]⟩

end Terms

/-- A comparison of two numbers. -/
def comparison (op : List Char) : List ℚ → Option Bool
  | [v, w] => if op = ['<', '='] then some (decide (v ≤ w)) else if op = ['='] then some (decide (v = w)) else none
  | _ => none

/-- A connective. -/
def connect (op : List Char) (bs : List Bool) : Option Bool :=
  if op = ['a', 'n', 'd'] then some (bs.all id)
  else if op = ['o', 'r'] then some (bs.any id)
  else if op = ['=', '>'] then match bs with
    | [a, b] => some (!a || b)
    | _ => none
  else none

theorem connect_imp (a b : Bool) : connect ['=', '>'] [a, b] = some (!a || b) := rfl

mutual

/-- The truth of a formula. -/
def Sexp.holds (fn : List Char → List ℚ → Option ℚ) : Sexp → Option Bool
  | .atom _ => none
  | .list [] => none
  | .list (.list _ :: _) => none
  | .list (.atom op :: args) =>
    if op = ['<', '='] ∨ op = ['='] then (Sexp.values fn args).bind (comparison op)
    else (Sexp.holdsEach fn args).bind (connect op)

def Sexp.holdsEach (fn : List Char → List ℚ → Option ℚ) : List Sexp → Option (List Bool)
  | [] => some []
  | x :: xs => do
    let b ← Sexp.holds fn x
    let bs ← Sexp.holdsEach fn xs
    return b :: bs

end

theorem Sexp.holdsEach_eq (fn : List Char → List ℚ → Option ℚ) : ∀ xs : List Sexp,
    Sexp.holdsEach fn xs = xs.mapM (Sexp.holds fn)
  | [] => rfl
  | x :: xs => by rw [Sexp.holdsEach, Sexp.holdsEach_eq fn xs, List.mapM_cons]

/-! ## Formulas under several interpretations -/

/-- The text is one expression. Under the interpretation `fn i` it is a formula with the truth value `p i`, or none
if there is none. -/
def IsFormula {ι : Type*} (fn : ι → List Char → List ℚ → Option ℚ) (t : List Char) (p : ι → Option Bool) : Prop :=
  ∃ e : Sexp, Yields t [e] ∧ ∀ i, e.holds (fn i) = p i

/-- The text is a sequence of expressions with these truth values. -/
def AreFormulas {ι : Type*} (fn : ι → List Char → List ℚ → Option ℚ) (t : List Char) (ps : List (ι → Option Bool)) :
    Prop :=
  ∃ es : List Sexp, Yields t es ∧ ∀ i, Sexp.holdsEach (fn i) es = collect ps i

section Formulas

variable {ι : Type*} {fn : ι → List Char → List ℚ → Option ℚ} {t u : List Char} {g h : ι → Option ℚ}
  {p q : ι → Option Bool} {ps qs : List (ι → Option Bool)}

theorem areFormulas_nil : AreFormulas fn [] [] := ⟨[], reads_nil.yields, fun _ => rfl⟩

theorem IsFormula.all (ht : IsFormula fn t p) : AreFormulas fn t [p] := by
  obtain ⟨e, he, hval⟩ := ht
  refine ⟨[e], he, fun i => ?_⟩
  simp [Sexp.holdsEach_eq, hval]

theorem AreFormulas.append (ht : AreFormulas fn t ps) (hu : AreFormulas fn u qs) :
    AreFormulas fn (t ++ ' ' :: u) (ps ++ qs) := by
  obtain ⟨es, hes, hval⟩ := ht
  obtain ⟨es', hes', hval'⟩ := hu
  refine ⟨es ++ es', ?_, fun i => ?_⟩
  · rw [show t ++ ' ' :: u = (t ++ [' ']) ++ u by simp]
    exact hes.space.append_yields hes'
  · have h := hval i
    have h' := hval' i
    rw [Sexp.holdsEach_eq] at h h' ⊢
    rw [List.mapM_append, h, h', collect_append]

theorem IsFormula.spaced (ht : IsFormula fn t p) : IsFormula fn (t ++ [' ']) p := by
  obtain ⟨e, he, hval⟩ := ht
  exact ⟨e, he.space.yields, hval⟩

theorem IsFormula.newline (ht : IsFormula fn t p) : IsFormula fn (t ++ ['\n']) p := by
  obtain ⟨e, he, hval⟩ := ht
  exact ⟨e, he.newline.yields, hval⟩

/-- A connective before its arguments, in parentheses. -/
theorem AreFormulas.connect (ht : AreFormulas fn t ps) (op : List Char) (hne : op ≠ []) (hop : ∀ c ∈ op, IsAtomChar c)
    (hcompare : ¬ (op = ['<', '='] ∨ op = ['=']))
    (hval : ∀ i, (collect ps i).bind (Sexpr.connect op) = p i) :
    IsFormula fn ('(' :: ((op ++ ' ' :: t) ++ [')'])) p := by
  obtain ⟨es, hes, hvals⟩ := ht
  refine ⟨.list (.atom op :: es), ?_, fun i => by rw [Sexp.holds, if_neg hcompare, hvals, hval]⟩
  rw [show op ++ ' ' :: t = (op ++ [' ']) ++ t by simp]
  exact ((yields_atom hne hop).space.append_yields hes).paren.yields

theorem AreFormulas.and (ht : AreFormulas fn t ps) :
    IsFormula fn ("(and ".toList ++ (t ++ [')'])) fun i => (collect ps i).map fun bs => bs.all id := by
  have h := ht.connect ['a', 'n', 'd'] (List.cons_ne_nil _ _) (isAtomChar_of_all (by decide)) (by decide)
    (p := fun i => (collect ps i).map fun bs => bs.all id) fun i => (Option.map_eq_bind).symm
  simpa using h

theorem AreFormulas.or (ht : AreFormulas fn t ps) :
    IsFormula fn ("(or ".toList ++ (t ++ [')'])) fun i => (collect ps i).map fun bs => bs.any id := by
  have h := ht.connect ['o', 'r'] (List.cons_ne_nil _ _) (isAtomChar_of_all (by decide)) (by decide)
    (p := fun i => (collect ps i).map fun bs => bs.any id) fun i => (Option.map_eq_bind).symm
  simpa using h

theorem AreFormulas.imp (ht : AreFormulas fn t [p, q]) :
    IsFormula fn ("(=> ".toList ++ (t ++ [')'])) fun i => (p i).bind fun a => (q i).map fun b => !a || b := by
  have h := ht.connect ['=', '>'] (List.cons_ne_nil _ _) (isAtomChar_of_all (by decide)) (by decide)
    (p := fun i => (p i).bind fun a => (q i).map fun b => !a || b) fun i => by
      cases hp : p i <;> cases hq : q i <;> simp [hp, hq, connect_imp]
  simpa using h

/-- A comparison in parentheses. -/
theorem AreTerms.le (ht : AreTerms fn t [g, h]) :
    IsFormula fn ("(<= ".toList ++ (t ++ [')'])) fun i => (g i).bind fun v => (h i).map fun w => decide (v ≤ w) := by
  obtain ⟨es, hes, hvals⟩ := ht
  refine ⟨.list (.atom "<=".toList :: es), ?_, fun i => ?_⟩
  · have hop : Yields "<=".toList [.atom "<=".toList] := yields_atom (by decide) (isAtomChar_of_all (by decide))
    have h := (hop.space.append_yields hes).paren.yields
    simpa using h
  · rw [Sexp.holds, if_pos (.inl rfl), hvals]
    cases hg : g i <;> cases hh : h i <;> simp [hg, hh, comparison]

end Formulas

end GridSolve.Sexpr
