/-
`multinomial::smt_print` (`polynomial.cpp`): a polynomial as an SMT-LIB term, with function calls in
place of the symbols from an index on. Whatever the names of the symbols are, the text is a term
with the value of the polynomial, unless a constant is `-0.0`, whose text is no numeral. A call is one
name for the reader: the arguments are any text.
-/
import GridSolve.Core.Translation
import GridSolve.Lib.Sexp

namespace GridSolve.Grid

open GridSolve.Text GridSolve.Poly GridSolve.Core GridSolve.Sexpr GridSolve.Rounding MvPolynomial

open GridSolve.Poly.Multinomial (WF wf_node_iff mapCoeffs coeffs)

/-! ## The code -/

/-- The digits that `std::to_string` writes for a `double` that is not negative. -/
def fixedText (c : ℚ) : List Char :=
  let n := (roundEven (c * 1000000)).toNat
  natText (n / 1000000) ++ '.' :: padded 6 n

/-- `std::to_string` of a `double` with its sign bit, which a zero can have too. -/
def signedText (negative : Bool) (c : ℚ) : List Char := if negative then '-' :: fixedText |c| else fixedText |c|

/-- Which zeros of a tree are `-0.0`: the sign bit of the constant that a path of exponents leads to. -/
abbrev SignBits := List UInt16 → Bool

/-- The sign bits below an entry. -/
def SignBits.below (neg : SignBits) (e : UInt16) : SignBits := fun path => neg (e :: path)

/-- A polynomial as it is stored, with the sign bits of its zeros. -/
structure Signed where
  tree : Multinomial
  neg : SignBits

/-- `sym_temp` of `smt_print`: a symbol, or the function for it. -/
def symTemp (varDep : List Char) (funNames : Bool) (idx : ℕ) (k : Symbol) : List Char :=
  if funNames && idx ≤ k.id then "( f".toList ++ natText k.id ++ " ".toList ++ varDep ++ ")".toList
  else 'x' :: natText k.id

/-- `sym` of `smt_print`: a power of the symbol. -/
def powText (symTemp : List Char) (e : UInt16) : List Char :=
  if e = 1 then symTemp
  else if e = 0 then "1".toList
  else "( * ".toList ++ (List.replicate e.toNat (symTemp ++ " ".toList)).flatten ++ ")".toList

/-- A constant, `neg` its sign bit if it is zero: `-0.0 >= 0` holds. -/
def constText (neg : Bool) (c : ℚ) : List Char :=
  if 0 ≤ c then signedText (neg && c = 0) c else "( - ".toList ++ signedText false (-1 * c) ++ ")".toList

/-- A sum of `n` entries; the operator is left out if there is only one. -/
def sumText (n : ℕ) (entries : List Char) : List Char :=
  if 1 < n then "(+ ".toList ++ entries ++ ")".toList else entries

/-- An entry: the power of the symbol times the coefficient. -/
def entryText (sym temp : List Char) : List Char := "(* ".toList ++ sym ++ " ".toList ++ temp ++ ") ".toList

mutual

/-- `multinomial::smt_print`. -/
def smtPrint (varDep : List Char) (funNames : Bool) (idx : ℕ) : SignBits → Multinomial → List Char
  | neg, .const _ c => constText (neg []) c
  | neg, .node _ k mp => sumText mp.length (smtPrintMp varDep funNames idx k neg mp)

/-- The loop over the entries. -/
def smtPrintMp (varDep : List Char) (funNames : Bool) (idx : ℕ) (k : Symbol) : SignBits → Entries → List Char
  | _, [] => []
  | neg, (e, a) :: mp =>
    entryText (powText (symTemp varDep funNames idx k) e) (smtPrint varDep funNames idx (neg.below e) a) ++
      smtPrintMp varDep funNames idx k neg mp

end

/-- `smt_print` with any `int` for the index: an id is a `uint32_t`, so that the comparison with it converts
the index to `unsigned`. -/
def smtPrintInt (varDep : List Char) (funNames : Bool) (idx : ℤ) (neg : SignBits) (m : Multinomial) : List Char :=
  smtPrint varDep funNames (idx % 4294967296).toNat neg m

mutual

/-- A constant of the tree is `-0.0`. -/
def hasNegativeZero : SignBits → Multinomial → Bool
  | neg, .const _ c => neg [] && c = 0
  | neg, .node _ _ mp => hasNegativeZeroMp neg mp

def hasNegativeZeroMp : SignBits → Entries → Bool
  | _, [] => false
  | neg, (e, a) :: mp => hasNegativeZero (neg.below e) a || hasNegativeZeroMp neg mp

end

/-! ## Numbers and names -/

theorem number_fixedText {c : ℚ} (h : 0 ≤ c) : number (fixedText c) = some (toStringVal c) := by
  have hround : 0 ≤ roundEven (c * 1000000) := (Int.floor_nonneg.2 (by positivity)).trans (floor_le_roundEven _)
  obtain ⟨n, hn⟩ := Int.eq_ofNat_of_zero_le hround
  have htext : fixedText c = natText (n / 1000000) ++ '.' :: padded 6 n := by
    unfold fixedText
    rw [hn]
    rfl
  obtain ⟨h1, h2⟩ := takeWhile_digits (isDigit_natText (n / 1000000)) ('.' :: padded 6 n) rfl
  have hne : padded 6 n ≠ [] := List.length_pos_iff.1 (by rw [length_padded]; norm_num)
  have hdigits : (padded 6 n).all Char.isDigit = true := List.all_eq_true.2 (isDigit_padded 6 n)
  have hval : val (natText (n / 1000000) ++ padded 6 n) = n := by
    have hwhole : valFrom 0 (natText (n / 1000000)) = n / 1000000 := val_natText _
    unfold val
    rw [valFrom_append, hwhole, valFrom_padded]
    exact Nat.div_add_mod' n 1000000
  unfold number
  simp only [htext, h1, h2, natText_ne_nil, if_false]
  rw [if_pos ⟨trivial, hne, hdigits⟩, hval, length_padded, toStringVal_eq, hn]
  norm_num

/-- A text of digits and a point. -/
theorem mem_fixedText {c : ℚ} {d : Char} (h : d ∈ fixedText c) : d.isDigit = true ∨ d = '.' := by
  unfold fixedText at h
  rcases List.mem_append.1 h with hd | hd
  · exact .inl (isDigit_natText _ d hd)
  rcases List.mem_cons.1 hd with hd | hd
  · exact .inr hd
  · exact .inl (isDigit_padded _ _ d hd)

theorem mem_signedText {negative : Bool} {c : ℚ} {d : Char} (h : d ∈ signedText negative c) :
    d.isDigit = true ∨ d = '.' ∨ d = '-' := by
  unfold signedText at h
  split_ifs at h
  · rcases List.mem_cons.1 h with rfl | hd
    · exact .inr (.inr rfl)
    · exact (mem_fixedText hd).imp_right .inl
  · exact (mem_fixedText h).imp_right .inl

theorem fixedText_ne_nil (c : ℚ) : fixedText c ≠ [] := by simp [fixedText]

theorem isAtomChar_digit {c : Char} (h : c.isDigit = true) : IsAtomChar c :=
  ⟨ne_of_isDigit h rfl, ne_of_isDigit h rfl, ne_of_isDigit h rfl, ne_of_isDigit h rfl⟩

theorem isAtomChar_fixedText {c : ℚ} : ∀ d ∈ fixedText c, IsAtomChar d := fun d hd => by
  rcases mem_fixedText hd with hd | rfl
  · exact isAtomChar_digit hd
  · decide

/-- A name: a letter and a number. -/
theorem isAtomChar_name {c : Char} (hc : IsAtomChar c) (i : ℕ) : ∀ d ∈ c :: natText i, IsAtomChar d :=
  List.forall_mem_cons.2 ⟨hc, fun d hd => isAtomChar_digit (isDigit_natText i d hd)⟩

theorem number_name {c : Char} (hc : c.isDigit = false) (i : ℕ) : number (c :: natText i) = none := by
  unfold number
  simp [hc]

/-! ## The value of the text -/

mutual

/-- The text for any names of the symbols. -/
def printNamed (nm : Symbol → List Char) : SignBits → Multinomial → List Char
  | neg, .const _ c => constText (neg []) c
  | neg, .node _ k mp => sumText mp.length (printNamedMp nm k neg mp)

def printNamedMp (nm : Symbol → List Char) (k : Symbol) : SignBits → Entries → List Char
  | _, [] => []
  | neg, (e, a) :: mp => entryText (powText (nm k) e) (printNamed nm (neg.below e) a) ++ printNamedMp nm k neg mp

end

theorem smtPrint_eq (varDep : List Char) (funNames : Bool) (idx : ℕ) (neg : SignBits) (m : Multinomial) :
    smtPrint varDep funNames idx neg m = printNamed (symTemp varDep funNames idx) neg m := by
  have hentries (k : Symbol) (neg : SignBits) : ∀ {mp : Entries}
      (_ : ∀ y ∈ mp, ∀ neg, smtPrint varDep funNames idx neg y.2 = printNamed (symTemp varDep funNames idx) neg y.2),
      smtPrintMp varDep funNames idx k neg mp = printNamedMp (symTemp varDep funNames idx) k neg mp := by
    intro mp
    induction mp with
    | nil => exact fun _ => rfl
    | cons y mp ih =>
      intro h
      obtain ⟨hy, hmp⟩ := List.forall_mem_cons.1 h
      rw [smtPrintMp, printNamedMp, hy, ih hmp]
  induction m generalizing neg with
  | const s c => rw [smtPrint, printNamed]
  | node s k mp ih => rw [smtPrint, printNamed, hentries k neg ih]

section Value

variable {ι : Type*} {fn : ι → List Char → List ℚ → Option ℚ} {t u : List Char} {g : ι → ℚ} {h : ι → Option ℚ}

/-- The text of `-0.0` is an atom that is no number, a name that no interpretation knows. -/
def ZeroUnknown (fn : ι → List Char → List ℚ → Option ℚ) : Prop := ∀ i, fn i "-0.000000".toList [] = none

theorem isTerm_constText (hfn : ZeroUnknown fn) (neg : Bool) (c : ℚ) :
    IsTerm fn (constText neg c) fun _ => if neg && c = 0 then none else some (toStringVal c) := by
  have hatom : ∀ {c : ℚ}, 0 ≤ c → IsTerm fn (signedText false c) fun _ => some (toStringVal c) := fun {c} hc => by
    unfold signedText
    rw [if_neg Bool.false_ne_true, abs_of_nonneg hc]
    exact isTerm_number (fixedText_ne_nil c) isAtomChar_fixedText (number_fixedText hc)
  unfold constText
  by_cases hzero : (neg && c = 0) = true
  · obtain ⟨-, rfl⟩ : neg = true ∧ c = 0 := by simpa using hzero
    have htext : signedText true 0 = "-0.000000".toList := by decide +kernel
    rw [if_pos le_rfl, hzero, htext]
    exact isTerm_name (by decide) (isAtomChar_of_all (by decide)) (by decide +kernel) hfn
  simp only [Bool.not_eq_true _ ▸ hzero, Bool.false_eq_true, if_false]
  split_ifs with hc
  · exact hatom hc
  · have hneg : 0 ≤ -1 * c := by linarith [not_le.1 hc]
    have h := (hatom hneg).all.call ['-'] reads_space (by decide) (isAtomChar_of_all (by decide))
      (g := fun _ => some (toStringVal c)) fun i => by simp [operate_neg, toStringVal_neg]
    simpa using h

theorem isTerm_powText (ht : IsTerm fn t fun i => some (g i)) (e : UInt16) :
    IsTerm fn (powText t e) fun i => some (g i ^ e.toNat) := by
  unfold powText
  split_ifs with h1 h0
  · subst h1
    simpa using ht
  · subst h0
    have hone : IsTerm fn "1".toList fun _ => some 1 :=
      isTerm_number (by decide) (isAtomChar_of_all (by decide)) (by decide +kernel)
    simpa using hone
  · have h := (ht.replicate e.toNat).call ['*'] reads_space (by decide) (isAtomChar_of_all (by decide))
      (g := fun i => some (g i ^ e.toNat)) fun i => by
        rw [collect_replicate, Option.bind_some, operate_mul, List.prod_replicate]
    simpa using h

/-- The product in an entry. -/
theorem isTerm_entry (ht : IsTerm fn t fun i => some (g i)) (hu : IsTerm fn u h) :
    IsTerm fn ("(* ".toList ++ t ++ " ".toList ++ u ++ ")".toList) fun i => (h i).map (g i * ·) := by
  have hcall := (ht.all.append hu.all).call ['*'] reads_nil (by decide) (isAtomChar_of_all (by decide))
    (g := fun i => (h i).map (g i * ·)) fun i => by
      cases hi : h i <;> simp [hi, operate_mul]
  simpa using hcall

/-- The value of a polynomial whose coefficients are printed with six decimals. -/
noncomputable def printedValue (x : ℕ → ℚ) (m : Multinomial) : ℚ := eval x (m.mapCoeffs toStringVal).toMv

theorem printedValue_node (x : ℕ → ℚ) (s : Bool) (k : Symbol) (mp : Entries) :
    printedValue x (.node s k mp) = (mp.map fun y => x k.id ^ y.1.toNat * printedValue x y.2).sum := by
  rw [printedValue, mapCoeffs, Multinomial.toMv_node]
  induction mp with
  | nil => simp [Multinomial.mapCoeffsMp, Multinomial.toMvMp]
  | cons y mp ih =>
    rw [Multinomial.mapCoeffsMp, Multinomial.toMvMp, map_add, ih, List.map_cons, List.sum_cons]
    simp [printedValue]

/-- The value of the text, if it is a term. -/
noncomputable def textValue (x : ℕ → ℚ) (neg : SignBits) (m : Multinomial) : Option ℚ :=
  if hasNegativeZero neg m then none else some (printedValue x m)

/-- The value of the text of an entry. -/
noncomputable def entryValue (x : ℕ → ℚ) (neg : SignBits) (k : Symbol) (y : UInt16 × Multinomial) : Option ℚ :=
  (textValue x (neg.below y.1) y.2).map (x k.id ^ y.1.toNat * ·)

/-- The entries have values if none of them has a `-0.0`. -/
theorem collect_entries (x : ι → ℕ → ℚ) (neg : SignBits) (k : Symbol) (i : ι) : ∀ mp : Entries,
    collect (mp.map fun y i => entryValue (x i) neg k y) i =
      if hasNegativeZeroMp neg mp then none else some (mp.map fun y => x i k.id ^ y.1.toNat * printedValue (x i) y.2)
  | [] => rfl
  | (e, a) :: mp => by
    rw [List.map_cons, collect_cons, collect_entries x neg k i mp, hasNegativeZeroMp]
    unfold entryValue textValue
    cases hasNegativeZero (neg.below e) a <;> cases hasNegativeZeroMp neg mp <;> simp

variable {S : Symbol → Prop} {nm : Symbol → List Char} {x : ι → ℕ → ℚ}

/-- The entries of a node, each with a blank behind. -/
theorem areTerms_entries (neg : SignBits) (k : Symbol) (hk : IsTerm fn (nm k) fun i => some (x i k.id)) :
    ∀ {mp : Entries} (_ : ∀ y ∈ mp, ∀ neg, IsTerm fn (printNamed nm neg y.2) fun i => textValue (x i) neg y.2),
      AreTerms fn (printNamedMp nm k neg mp) (mp.map fun y i => entryValue (x i) neg k y)
  | [], _ => areTerms_nil
  | (e, a) :: mp, h => by
    obtain ⟨ha, hmp⟩ := List.forall_mem_cons.1 h
    have hall := (isTerm_entry (isTerm_powText hk e) (ha (neg.below e))).all.append (areTerms_entries neg k hk hmp)
    rw [printNamedMp]
    unfold entryText
    simpa [entryValue] using hall

/-- If every name has a value, the text has that of the polynomial at the values of the names, unless a `-0.0` makes
it no term. -/
theorem isTerm_printNamed (hfn : ZeroUnknown fn) (hnm : ∀ k, IsTerm fn (nm k) fun i => some (x i k.id)) {b : ℕ}
    {m : Multinomial} (hm : WF S b m) (neg : SignBits) :
    IsTerm fn (printNamed nm neg m) fun i => textValue (x i) neg m := by
  induction hm generalizing neg with
  | const =>
    rw [printNamed]
    simpa [textValue, hasNegativeZero, printedValue, mapCoeffs] using isTerm_constText hfn (neg []) _
  | @node b s k mp _ _ _ hzero _ ih =>
    have hentries := areTerms_entries neg k (hnm k) ih
    rw [printNamed]
    unfold sumText
    split_ifs with hlen
    · have h := hentries.call ['+'] reads_nil (by decide) (isAtomChar_of_all (by decide))
        (g := fun i => textValue (x i) neg (.node s k mp)) fun i => by
          rw [collect_entries, textValue, hasNegativeZero, printedValue_node]
          split_ifs <;> rfl
      simpa using h
    · -- a single entry is printed without the sum
      obtain ⟨⟨e, a⟩, rfl⟩ : ∃ y, mp = [y] := by
        cases mp with
        | nil => cases hzero
        | cons y mp => exact ⟨y, by cases mp with | nil => rfl | cons z mp => simp at hlen⟩
      have h := (isTerm_entry (isTerm_powText (hnm k) e) (ih _ List.mem_cons_self (neg.below e))).spaced
      have hvalue : ∀ i, textValue (x i) neg (.node s k [(e, a)]) =
          (textValue (x i) (neg.below e) a).map (x i k.id ^ e.toNat * ·) := fun i => by
        unfold textValue
        rw [printedValue_node, hasNegativeZero, hasNegativeZeroMp, hasNegativeZeroMp, Bool.or_false]
        split_ifs <;> simp
      simp only [hvalue]
      rw [printNamedMp, printNamedMp]
      unfold entryText
      simpa using h

end Value

/-! ## Calls as names -/

/-- A call of a function with the arguments `args`, where the text begins with one: its name, and how much of the
call follows the first character. -/
def callAt (args : List Char) : List Char → Option (List Char × ℕ)
  | '(' :: ' ' :: 'f' :: t =>
    let ds := t.takeWhile Char.isDigit
    if ds ≠ [] ∧ (' ' :: args ++ [')']) <+: t.dropWhile Char.isDigit then some ('f' :: ds, ds.length + args.length + 4)
    else none
  | _ => none

/-- The terms of a text in which `(f_k args)` is one name. -/
def readTerm (args t : List Char) : Option (List Sexp) := read (replaceFrom (callAt args) 0 t)

/-- The names: `x_k` is read as `v k`, the call of `f_k` as `w k`. -/
def smtSymbols (v w : ℕ → ℚ) (name : List Char) (args : List ℚ) : Option ℚ :=
  match name with
  | [] => none
  | c :: ds =>
    if args ≠ [] ∨ ds = [] ∨ ds.all Char.isDigit = false then none
    else if c = 'x' then some (v (val ds))
    else if c = 'f' then some (w (val ds))
    else none

/-- The name that is left of `sym_temp`. -/
def symName (funNames : Bool) (idx : ℕ) (k : Symbol) : List Char :=
  (if funNames && idx ≤ k.id then 'f' else 'x') :: natText k.id

section Calls

variable {args : List Char}

theorem callAt_of_ne {c : Char} (hc : c ≠ '(') (rest : List Char) : callAt args (c :: rest) = none := by
  unfold callAt
  split
  · exact absurd (List.cons.inj ‹_›).1 hc
  · rfl

theorem replaces_plain {t : List Char} (h : '(' ∉ t) : Replaces (callAt args) t t :=
  replaces_self fun _ hc rest => callAt_of_ne (ne_of_mem_of_not_mem hc h) rest

theorem replaces_blank : Replaces (callAt args) " ".toList " ".toList := replaces_plain (by simp)

theorem replaces_close : Replaces (callAt args) ")".toList ")".toList := replaces_plain (by simp)

/-- An operator that opens a term; no call begins so. -/
theorem replaces_opening (t : List Char) (h : '(' ∉ t) (hcall : ∀ rest, callAt args ('(' :: (t ++ rest)) = none) :
    Replaces (callAt args) ('(' :: t) ('(' :: t) :=
  (replaces_plain h).cons hcall

theorem replaces_call (args : List Char) (i : ℕ) :
    Replaces (callAt args) ("( f".toList ++ natText i ++ " ".toList ++ args ++ ")".toList) ('f' :: natText i) := by
  have htext : "( f".toList ++ natText i ++ " ".toList ++ args ++ ")".toList =
      '(' :: (' ' :: 'f' :: (natText i ++ (' ' :: args ++ [')']))) := by simp
  rw [htext]
  refine replaces_token fun rest => ?_
  obtain ⟨h1, h2⟩ := takeWhile_digits (isDigit_natText i) ((' ' :: args ++ [')']) ++ rest) rfl
  rw [List.cons_append, List.cons_append, List.append_assoc, callAt]
  simp only [h1, h2]
  rw [if_pos ⟨natText_ne_nil i, _, rfl⟩]
  simp only [List.length_cons, List.length_append, List.length_nil]
  congr 2

theorem replaces_symTemp (args : List Char) (funNames : Bool) (idx : ℕ) (k : Symbol) :
    Replaces (callAt args) (symTemp args funNames idx k) (symName funNames idx k) := by
  unfold symTemp symName
  split_ifs with h
  · exact replaces_call args k.id
  · refine replaces_plain (List.not_mem_cons_of_ne_of_not_mem (by simp) fun hmem => ?_)
    exact ne_of_isDigit (isDigit_natText _ _ hmem) rfl rfl

theorem replaces_constText (neg : Bool) (c : ℚ) : Replaces (callAt args) (constText neg c) (constText neg c) := by
  have hfixed (neg : Bool) (c : ℚ) : Replaces (callAt args) (signedText neg c) (signedText neg c) :=
    replaces_plain fun hmem => by
      rcases mem_signedText hmem with hd | hd | hd
      · exact ne_of_isDigit hd rfl rfl
      · exact absurd hd (by simp)
      · exact absurd hd (by simp)
  unfold constText
  split_ifs
  · exact hfixed _ c
  · have hminus : Replaces (callAt args) "( - ".toList "( - ".toList :=
      replaces_opening [' ', '-', ' '] (by simp) fun _ => rfl
    exact (hminus.append (hfixed _ _)).append replaces_close

variable {t u t' u' : List Char}

theorem replaces_powText (h : Replaces (callAt args) t u) (e : UInt16) :
    Replaces (callAt args) (powText t e) (powText u e) := by
  have htimes : Replaces (callAt args) "( * ".toList "( * ".toList :=
    replaces_opening [' ', '*', ' '] (by simp) fun _ => rfl
  unfold powText
  split_ifs
  · exact h
  · exact replaces_plain (by simp)
  · exact (htimes.append ((h.append replaces_blank).flatten _)).append replaces_close

theorem replaces_entryText (h : Replaces (callAt args) t u) (h' : Replaces (callAt args) t' u') :
    Replaces (callAt args) (entryText t t') (entryText u u') := by
  have htimes : Replaces (callAt args) "(* ".toList "(* ".toList :=
    replaces_opening ['*', ' '] (by simp) fun _ => rfl
  exact (((htimes.append h).append replaces_blank).append h').append (replaces_plain (by simp))

theorem replaces_sumText (n : ℕ) (h : Replaces (callAt args) t u) :
    Replaces (callAt args) (sumText n t) (sumText n u) := by
  have hplus : Replaces (callAt args) "(+ ".toList "(+ ".toList :=
    replaces_opening ['+', ' '] (by simp) fun _ => rfl
  unfold sumText
  split_ifs
  · exact (hplus.append h).append replaces_close
  · exact h

/-- With the calls replaced by names the polynomial is printed with these. -/
theorem replaces_printNamed {nm nm' : Symbol → List Char} (h : ∀ k, Replaces (callAt args) (nm k) (nm' k))
    (neg : SignBits) (m : Multinomial) : Replaces (callAt args) (printNamed nm neg m) (printNamed nm' neg m) := by
  have hentries (k : Symbol) (neg : SignBits) : ∀ {mp : Entries}
      (_ : ∀ y ∈ mp, ∀ neg, Replaces (callAt args) (printNamed nm neg y.2) (printNamed nm' neg y.2)),
      Replaces (callAt args) (printNamedMp nm k neg mp) (printNamedMp nm' k neg mp) := by
    intro mp
    induction mp with
    | nil => exact fun _ => replaces_nil
    | cons y mp ih =>
      intro hall
      obtain ⟨hy, hmp⟩ := List.forall_mem_cons.1 hall
      rw [printNamedMp, printNamedMp]
      exact (replaces_entryText (replaces_powText (h k) y.1) (hy (neg.below y.1))).append (ih hmp)
  induction m generalizing neg with
  | const s c => exact replaces_constText (neg []) c
  | node s k mp ih =>
    rw [printNamed, printNamed]
    exact replaces_sumText mp.length (hentries k neg ih)

end Calls

/-! ## The value with functions -/

theorem smtSymbols_name (v w : ℕ → ℚ) (p : Bool) (i : ℕ) :
    smtSymbols v w ((if p then 'f' else 'x') :: natText i) [] = some (if p then w i else v i) := by
  have hdigits : (natText i).all Char.isDigit = true := List.all_eq_true.2 (isDigit_natText i)
  unfold smtSymbols
  simp only [hdigits, natText_ne_nil, val_natText]
  cases p <;> rfl

theorem isTerm_symName (funNames : Bool) (idx : ℕ) (k : Symbol) :
    IsTerm (fun p : (ℕ → ℚ) × (ℕ → ℚ) => smtSymbols p.1 p.2) (symName funNames idx k)
      fun p => some (if funNames && idx ≤ k.id then p.2 k.id else p.1 k.id) := by
  have hatom : IsAtomChar (if funNames && idx ≤ k.id then 'f' else 'x') := by split_ifs <;> decide
  have hletter : (if funNames && idx ≤ k.id then 'f' else 'x').isDigit = false := by split_ifs <;> rfl
  exact isTerm_name (List.cons_ne_nil _ _) (isAtomChar_name hatom k.id) (number_name hletter k.id)
    fun p => smtSymbols_name p.1 p.2 _ k.id

variable {S : Symbol → Prop} {b : ℕ} {m : Multinomial}

/-- The text is one expression. It is a term if no constant is `-0.0`, and its value is then that of the polynomial
with functions for the symbols from `idx` on. -/
theorem readTerm_smtPrint (args : List Char) (funNames : Bool) (idx : ℕ) (hm : WF S b m) (neg : SignBits) :
    ∃ e : Sexp, readTerm args (smtPrint args funNames idx neg m) = some [e] ∧ ∀ v w, e.value (smtSymbols v w) =
      textValue (fun k => if funNames && idx ≤ k then w k else v k) neg m := by
  have hzero : ZeroUnknown fun p : (ℕ → ℚ) × (ℕ → ℚ) => smtSymbols p.1 p.2 := fun _ => rfl
  obtain ⟨e, he, hval⟩ := isTerm_printNamed hzero (isTerm_symName funNames idx)
    (x := fun (p : (ℕ → ℚ) × (ℕ → ℚ)) k => if funNames && idx ≤ k then p.2 k else p.1 k) hm neg
  refine ⟨e, ?_, fun v w => hval (v, w)⟩
  unfold readTerm
  rw [smtPrint_eq, (replaces_printNamed (replaces_symTemp args funNames idx) neg m).replaceFrom, he.read]

/-- Integers are printed as they are. -/
theorem printedValue_of_int (hint : ∀ c ∈ m.coeffs, ∃ z : ℤ, c = z) (x : ℕ → ℚ) : printedValue x m = eval x m.toMv := by
  have hfixed : ∀ c ∈ m.coeffs, toStringVal c = c := fun c hc => by
    obtain ⟨z, rfl⟩ := hint c hc
    exact toStringVal_intCast z
  rw [printedValue, Multinomial.mapCoeffs_eq_self hfixed]

/-- **`smt_print`** writes one expression. It is a term that means the polynomial, with functions for the symbols
from `idx` on, exactly when no constant is `-0.0` and no functions are asked for, the index is not negative, or every
symbol is beyond the index as an `unsigned`. -/
theorem smtPrint_means_iff (hm : WF S b m) (hint : ∀ c ∈ m.coeffs, ∃ z : ℤ, c = z) (neg : SignBits) (args : List Char)
    (funNames : Bool) (idx : ℤ) (hidx : -2147483648 ≤ idx ∧ idx ≤ 2147483647) :
    ∃ e : Sexp, readTerm args (smtPrintInt args funNames idx neg m) = some [e] ∧
      ((∀ v w : ℕ → ℚ, e.value (smtSymbols v w) =
        some (eval (fun k : ℕ => if funNames = true ∧ idx ≤ k then w k else v k) m.toMv)) ↔
      hasNegativeZero neg m = false ∧
        (funNames = false ∨ 0 ≤ idx ∨ ∀ k ∈ m.toMv.vars, 4294967296 + idx ≤ (k : ℤ))) := by
  obtain ⟨e, hread, hval⟩ := readTerm_smtPrint args funNames (idx % 4294967296).toNat hm neg
  refine ⟨e, hread, ?_⟩
  simp only [hval]
  unfold textValue
  cases hneg : hasNegativeZero neg m with
  | true => simp
  | false =>
    simp only [Bool.false_eq_true, if_false, printedValue_of_int hint, Option.some.injEq, true_and]
    cases funNames with
    | false => simp
    | true =>
      rcases le_or_gt 0 idx with h0 | hlt
      · have hsame : ∀ k : ℕ, (idx % 4294967296).toNat ≤ k ↔ idx ≤ (k : ℤ) := fun k => by omega
        simp [hsame, h0]
      · have hall : ∀ k : ℕ, idx ≤ (k : ℤ) := fun k => by omega
        have hunsigned : ∀ k : ℕ, (idx % 4294967296).toNat ≤ k ↔ 4294967296 + idx ≤ (k : ℤ) := fun k => by omega
        simp only [hall, hunsigned, Bool.true_and, decide_eq_true_eq, and_self, if_true, Bool.true_eq_false,
          hlt.not_ge, false_or]
        exact Specialize.eval_ite_eq_iff

/-- `60 - 4 x1² - 4 x0`. -/
def concave : Multinomial :=
  .node true ⟨0, false⟩ [(0, .node true ⟨1, false⟩ [(0, .const true 60), (2, .const true (-4))]), (1, .const true (-4))]

/-- `x0` is an input, `x1` the result of a function. No constant is zero, whatever the sign bits. -/
theorem smtPrint_means_iff_concave : ∃ e : Sexp,
    readTerm "x0 ".toList (smtPrintInt "x0 ".toList true 1 (fun _ => true) concave) = some [e] ∧ ∀ v w : ℕ → ℚ,
      e.value (smtSymbols v w) =
        some (eval (fun k : ℕ => if true = true ∧ (1 : ℤ) ≤ k then w k else v k) concave.toMv) := by
  have hwf : WF (fun _ => True) 0 concave :=
    .node le_rfl trivial (by decide) rfl (by simp [Multinomial.WF.const, wf_node_iff])
  have hint : ∀ c ∈ concave.coeffs, ∃ z : ℤ, c = z := by
    have hden : ∀ c ∈ concave.coeffs, c.den = 1 := by decide
    exact fun c hc => ⟨c.num, ((Rat.den_eq_one_iff c).1 (hden c hc)).symm⟩
  obtain ⟨e, hread, hiff⟩ := smtPrint_means_iff hwf hint (fun _ => true) "x0 ".toList true 1 (by omega)
  exact ⟨e, hread, hiff.2 ⟨by decide, .inr (.inl one_pos.le)⟩⟩

/-- With the index `-1` the symbol `x0` is printed as itself, although all symbols are to be functions. -/
theorem smtPrint_negative_index : ¬ ∃ e : Sexp,
    readTerm [] (smtPrintInt [] true (-1) (fun _ => false) (.var ⟨0, false⟩ true)) = some [e] ∧ ∀ v w : ℕ → ℚ,
      e.value (smtSymbols v w) = some (eval (fun k : ℕ => if true = true ∧ (-1 : ℤ) ≤ k then w k else v k)
        (Multinomial.var ⟨0, false⟩ true).toMv) := by
  rintro ⟨e, hread, h⟩
  have hzero : ((readTerm [] (smtPrintInt [] true (-1) (fun _ => false) (.var ⟨0, false⟩ true))).map fun es =>
      es.map (Sexp.value (smtSymbols 0 1))) = some [some 0] := by
    decide +kernel
  rw [hread, Option.map_some, List.map_singleton, h 0 1] at hzero
  simp [Multinomial.toMv_var] at hzero

/-- A variable times `-1`: the constant of the product is `0 * -1`. -/
example : smtPrint [] false 0 (fun path => path = [0])
    (.node true ⟨0, false⟩ [(0, .const true 0), (1, .const true (-1))]) =
      "(+ (* 1 -0.000000) (* x0 ( - 1.000000)) )".toList := by decide +kernel

end GridSolve.Grid
