/-
Numbers and lines in text files. Decimal digits of natural numbers and integers as programs write
them, the readers that take a number from the front of a text or from a whole field, and the
lines of a file. What is written is read back as it was.
-/
import Mathlib.Data.Nat.Digits.Defs
import Mathlib.Tactic

namespace GridSolve.Text

/-! ## Digits -/

/-- The value of a digit. -/
def digitVal (c : Char) : ℕ := c.toNat - 48

/-- The value of a run of digits after the value `v`. -/
def valFrom (v : ℕ) (cs : List Char) : ℕ := cs.foldl (fun v c => 10 * v + digitVal c) v

/-- The value of a run of digits. -/
def val (cs : List Char) : ℕ := valFrom 0 cs

/-- The last `k` digits of a number, zeros included. -/
def padded : ℕ → ℕ → List Char
  | 0, _ => []
  | k + 1, n => padded k (n / 10) ++ [Nat.digitChar (n % 10)]

/-- A natural number as it is printed. -/
def natText (n : ℕ) : List Char := Nat.toDigits 10 n

/-- An integer as it is printed. -/
def intText (z : ℤ) : List Char := if z < 0 then '-' :: natText z.natAbs else natText z.natAbs

theorem digitChar_spec {d : ℕ} (h : d < 10) : (Nat.digitChar d).isDigit = true ∧ digitVal (Nat.digitChar d) = d := by
  interval_cases d <;> decide

@[simp] theorem length_padded : ∀ k n, (padded k n).length = k
  | 0, _ => rfl
  | k + 1, n => by rw [padded, List.length_append, length_padded k, List.length_singleton]

theorem isDigit_padded : ∀ (k n : ℕ), ∀ c ∈ padded k n, c.isDigit = true
  | 0, _, _, h => absurd h List.not_mem_nil
  | k + 1, n, c, h => by
    rcases List.mem_append.1 h with h | h
    · exact isDigit_padded k _ c h
    · rw [List.mem_singleton.1 h]
      exact (digitChar_spec (Nat.mod_lt n (by norm_num))).1

theorem valFrom_append (v : ℕ) (cs ds : List Char) : valFrom v (cs ++ ds) = valFrom (valFrom v cs) ds :=
  List.foldl_append

theorem valFrom_padded : ∀ (k v n : ℕ), valFrom v (padded k n) = v * 10 ^ k + n % 10 ^ k
  | 0, v, n => by simp [padded, valFrom, Nat.mod_one]
  | k + 1, v, n => by
    have hdigit := (digitChar_spec (Nat.mod_lt n (by norm_num : 10 > 0))).2
    have hmod : n % 10 ^ (k + 1) = 10 * (n / 10 % 10 ^ k) + n % 10 := by
      rw [pow_succ, mul_comm (10 ^ k) 10, Nat.mod_mul, add_comm]
    rw [padded, valFrom_append, valFrom_padded k, hmod]
    simp only [valFrom, List.foldl_cons, List.foldl_nil, hdigit]
    ring

theorem val_padded (k n : ℕ) : val (padded k n) = n % 10 ^ k := by rw [val, valFrom_padded, zero_mul, zero_add]

theorem padded_zero : ∀ k, padded k 0 = List.replicate k '0'
  | 0 => rfl
  | k + 1 => by
    rw [padded, Nat.zero_div, padded_zero k, Nat.zero_mod, List.replicate_succ']
    rfl

/-- A printed number is its last digits, as many as it has. -/
theorem exists_natText (n : ℕ) : ∃ k, 0 < k ∧ n < 10 ^ k ∧ natText n = padded k n := by
  have hcore : ∀ (fuel n : ℕ) (ds : List Char), n < fuel →
      ∃ k, 0 < k ∧ n < 10 ^ k ∧ Nat.toDigitsCore 10 fuel n ds = padded k n ++ ds := by
    intro fuel
    induction fuel with
    | zero => exact fun n ds h => absurd h (Nat.not_lt_zero n)
    | succ fuel ih =>
      intro n ds h
      rw [Nat.toDigitsCore]
      by_cases hn : n / 10 = 0
      · rw [if_pos hn]
        refine ⟨1, Nat.zero_lt_one, by omega, ?_⟩
        rw [padded, padded, List.nil_append]
        rfl
      · rw [if_neg hn]
        obtain ⟨k, hk, hlt, heq⟩ := ih (n / 10) (Nat.digitChar (n % 10) :: ds) (by omega)
        refine ⟨k + 1, Nat.succ_pos k, ?_, ?_⟩
        · rw [pow_succ]
          omega
        · rw [heq, padded, List.append_assoc]
          rfl
  obtain ⟨k, hk, hlt, heq⟩ := hcore (n + 1) n [] (Nat.lt_succ_self n)
  exact ⟨k, hk, hlt, by rw [natText, Nat.toDigits, heq, List.append_nil]⟩

theorem isDigit_natText (n : ℕ) : ∀ c ∈ natText n, c.isDigit = true := by
  obtain ⟨k, -, -, h⟩ := exists_natText n
  rw [h]
  exact isDigit_padded k n

theorem natText_ne_nil (n : ℕ) : natText n ≠ [] := by
  obtain ⟨k, hk, -, h⟩ := exists_natText n
  rw [h, ← List.length_pos_iff, length_padded]
  exact hk

theorem val_natText (n : ℕ) : val (natText n) = n := by
  obtain ⟨k, -, hlt, h⟩ := exists_natText n
  rw [h, val_padded, Nat.mod_eq_of_lt hlt]

/-! ## Readers -/

/-- What follows begins with no digit. -/
def NoDigit : List Char → Prop
  | [] => True
  | c :: _ => c.isDigit = false

theorem takeWhile_digits {ds : List Char} (hds : ∀ c ∈ ds, c.isDigit = true) (rest : List Char) (hrest : NoDigit rest) :
    (ds ++ rest).takeWhile Char.isDigit = ds ∧ (ds ++ rest).dropWhile Char.isDigit = rest := by
  have hstop : rest.takeWhile Char.isDigit = [] ∧ rest.dropWhile Char.isDigit = rest := by
    cases rest with
    | nil => exact ⟨rfl, rfl⟩
    | cons c rest =>
      have hc : c.isDigit = false := hrest
      simp [hc]
  rw [List.takeWhile_append_of_pos hds, List.dropWhile_append_of_pos hds, hstop.1, hstop.2, List.append_nil]
  exact ⟨rfl, rfl⟩

/-- The sign in front of a number, and what follows it. -/
def sign : List Char → Bool × List Char
  | '-' :: cs => (true, cs)
  | '+' :: cs => (false, cs)
  | cs => (false, cs)

theorem sign_digit {c : Char} (h : c.isDigit = true) (cs : List Char) : sign (c :: cs) = (false, c :: cs) := by
  unfold sign
  split
  · rename_i heq
    cases heq
    cases h
  · rename_i heq
    cases heq
    cases h
  · rfl

/-- An integer at the front of a text, as `strtol` reads it: at least one digit, and anything after. -/
def readInt (cs : List Char) : Option ℤ :=
  let s := sign cs
  let ds := s.2.takeWhile Char.isDigit
  if ds.isEmpty then none else some (if s.1 then -(val ds : ℤ) else val ds)

/-- An integer that is a whole text: a sign and digits. -/
def parseInt (cs : List Char) : Option ℤ :=
  let s := sign cs
  if s.2.isEmpty || !s.2.all Char.isDigit then none else some (if s.1 then -(val s.2 : ℤ) else val s.2)

theorem sign_intText (z : ℤ) : sign (intText z) = (decide (z < 0), natText z.natAbs) := by
  unfold intText
  split_ifs with h
  · rw [decide_eq_true h]
    rfl
  · rw [decide_eq_false h]
    cases hn : natText z.natAbs with
    | nil => exact absurd hn (natText_ne_nil _)
    | cons c cs => exact sign_digit (isDigit_natText z.natAbs c (by rw [hn]; exact List.mem_cons_self)) cs

theorem signed_natAbs (z : ℤ) : (if decide (z < 0) then -(z.natAbs : ℤ) else z.natAbs) = z := by
  by_cases h : z < 0
  · rw [decide_eq_true h, if_pos rfl]
    omega
  · rw [decide_eq_false h, if_neg Bool.false_ne_true]
    omega

theorem readInt_intText (z : ℤ) : readInt (intText z) = some z := by
  have htake : (natText z.natAbs).takeWhile Char.isDigit = natText z.natAbs := by
    simpa using (takeWhile_digits (isDigit_natText z.natAbs) [] trivial).1
  have hne : (natText z.natAbs).isEmpty = false := List.isEmpty_eq_false_iff.2 (natText_ne_nil _)
  simp only [readInt, sign_intText, htake, hne, Bool.false_eq_true, if_false, val_natText]
  rw [signed_natAbs]

/-- The text of digits has no other character. -/
theorem ne_of_isDigit {c d : Char} (hc : c.isDigit = true) (hd : d.isDigit = false) : c ≠ d := by
  rintro rfl
  rw [hc] at hd
  cases hd

theorem notMem_intText {d : Char} (hd : d.isDigit = false) (hminus : d ≠ '-') (z : ℤ) : d ∉ intText z := by
  have hdigits : d ∉ natText z.natAbs := fun h => ne_of_isDigit (isDigit_natText _ d h) hd rfl
  unfold intText
  split_ifs
  · exact fun h => (List.mem_cons.1 h).elim hminus hdigits
  · exact hdigits

theorem intText_ne_nil (z : ℤ) : intText z ≠ [] := by
  unfold intText
  split_ifs
  · exact List.cons_ne_nil _ _
  · exact natText_ne_nil _

/-! ## Lines -/

/-- The lines of a file; the last one may be without its end. -/
def lines (cs : List Char) : List (List Char) :=
  if (cs.splitOn '\n').getLast? = some [] then (cs.splitOn '\n').dropLast else cs.splitOn '\n'

/-- Lines written one after the other. -/
def unlines (ls : List (List Char)) : List Char := ls.flatMap fun l => l ++ ['\n']

theorem intercalate_concat_nil (ls : List (List Char)) : ['\n'].intercalate (ls ++ [[]]) = unlines ls := by
  unfold unlines
  induction ls with
  | nil => rfl
  | cons l ls ih =>
    rw [List.flatMap_cons, ← ih]
    cases ls <;> simp [List.intercalate, List.intersperse]

theorem lines_unlines {ls : List (List Char)} (h : ∀ l ∈ ls, '\n' ∉ l) : lines (unlines ls) = ls := by
  have hsplit : (unlines ls).splitOn '\n' = ls ++ [[]] := by
    rw [← intercalate_concat_nil]
    refine List.splitOn_intercalate '\n' (fun l hl => ?_) (by simp)
    rcases List.mem_append.1 hl with hl | hl
    · exact h l hl
    · rw [List.mem_singleton.1 hl]
      exact List.not_mem_nil
  unfold lines
  rw [hsplit, List.getLast?_concat, if_pos rfl, List.dropLast_concat]

/-! ## Tokens -/

section Tokens

variable {α : Type*} {tok : List α → Option (List α × ℕ)} {c : α} {t t' u u' : List α}

/-- The text with its tokens replaced, behind the first `n` characters. Where `tok` finds a token,
it gives what to put there and how long the token is without its first character. -/
def replaceFrom (tok : List α → Option (List α × ℕ)) : ℕ → List α → List α
  | _, [] => []
  | n + 1, _ :: t => replaceFrom tok n t
  | 0, c :: t =>
    match tok (c :: t) with
    | none => c :: replaceFrom tok 0 t
    | some (u, n) => u ++ replaceFrom tok n t

theorem replaceFrom_skip (rest : List α) : ∀ t : List α, replaceFrom tok t.length (t ++ rest) = replaceFrom tok 0 rest
  | [] => rfl
  | c :: t => by rw [List.length_cons, List.cons_append, replaceFrom, replaceFrom_skip rest t]

/-- The tokens of `t` end in it, and `u` is `t` with them replaced. -/
def Replaces (tok : List α → Option (List α × ℕ)) (t u : List α) : Prop :=
  ∀ rest, replaceFrom tok 0 (t ++ rest) = u ++ replaceFrom tok 0 rest

theorem replaces_nil : Replaces tok [] [] := fun _ => rfl

theorem Replaces.append (h : Replaces tok t u) (h' : Replaces tok t' u') : Replaces tok (t ++ t') (u ++ u') := by
  intro rest
  rw [List.append_assoc, h, h', List.append_assoc]

theorem Replaces.flatten (h : Replaces tok t u) (n : ℕ) :
    Replaces tok (List.replicate n t).flatten (List.replicate n u).flatten := by
  induction n with
  | zero => exact replaces_nil
  | succ n ih =>
    rw [List.replicate_succ, List.replicate_succ, List.flatten_cons, List.flatten_cons]
    exact h.append ih

/-- No token begins here. -/
theorem Replaces.cons (h : Replaces tok t u) (hc : ∀ rest, tok (c :: (t ++ rest)) = none) :
    Replaces tok (c :: t) (c :: u) := by
  intro rest
  rw [List.cons_append, replaceFrom, hc, List.cons_append, h]

theorem replaces_self : ∀ {t : List α} (_ : ∀ c ∈ t, ∀ rest, tok (c :: rest) = none), Replaces tok t t
  | [], _ => replaces_nil
  | _ :: _, h => (replaces_self fun c hc => h c (List.mem_cons_of_mem _ hc)).cons fun _ => h _ List.mem_cons_self _

theorem replaces_token (h : ∀ rest, tok (c :: (t ++ rest)) = some (u, t.length)) : Replaces tok (c :: t) u := by
  intro rest
  rw [List.cons_append, replaceFrom, h]
  exact congrArg (u ++ ·) (replaceFrom_skip rest t)

theorem Replaces.replaceFrom (h : Replaces tok t u) : replaceFrom tok 0 t = u := by
  have := h []
  rwa [List.append_nil, Text.replaceFrom, List.append_nil] at this

end Tokens

end GridSolve.Text
