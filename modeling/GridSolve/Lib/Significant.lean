/-
Numbers with six significant digits, as `operator<<` prints a `double`: the value is rounded to six
digits and written with a fixed point for exponents from -4 to 5 and with an exponent otherwise, in
both cases without zeros at the end. Reading the text gives the rounded value. The rounding is
monotone and leaves integers of at most six digits as they are.
-/
import GridSolve.Lib.Text
import GridSolve.Lib.Rounding
import Mathlib.Data.Int.Log
import Mathlib.Data.Rat.Floor

namespace GridSolve.Significant

open GridSolve.Text GridSolve.Rounding

/-! ## The rounded value -/

/-- The exponent of the first digit. -/
def exponent (q : ℚ) : ℤ := Int.log 10 q

/-- A positive number as an integer of six digits, or seven when all digits are carried over. -/
def scaled (q : ℚ) : ℤ := roundEven (q * 10 ^ (5 - exponent q))

/-- A positive number rounded to six digits. -/
def roundPos (q : ℚ) : ℚ := scaled q * 10 ^ (exponent q - 5)

/-- A number rounded to six digits. -/
def sig6 (q : ℚ) : ℚ := if q < 0 then -roundPos (-q) else if q = 0 then 0 else roundPos q

/-! ## The text -/

/-- The six digits of a positive number and the exponent of the first. -/
def digits (q : ℚ) : ℕ × ℤ :=
  if scaled q = 1000000 then (100000, exponent q + 1) else ((scaled q).toNat, exponent q)

/-- The digits without the zeros at the end. -/
def trim (cs : List Char) : List Char := (cs.reverse.dropWhile (· == '0')).reverse

/-- The digits before and after the point, which is left out when nothing follows. -/
def pointText (whole frac : List Char) : List Char := if (trim frac).isEmpty then whole else whole ++ '.' :: trim frac

/-- The exponent with its sign and at least two digits. -/
def expText (x : ℤ) : List Char :=
  'e' :: (if x < 0 then '-' else '+') :: if x.natAbs < 10 then padded 2 x.natAbs else natText x.natAbs

/-- A positive number as it is printed. -/
def posText (q : ℚ) : List Char :=
  let d := digits q
  if d.2 < -4 ∨ 6 ≤ d.2 then pointText (padded 1 (d.1 / 100000)) (padded 5 d.1) ++ expText d.2
  else pointText (padded (d.2.toNat + 1) (d.1 / 10 ^ (5 - d.2).toNat)) (padded (5 - d.2).toNat d.1)

/-- `operator<<` on a `double`. -/
def doubleText (q : ℚ) : List Char := if q < 0 then '-' :: posText (-q) else if q = 0 then ['0'] else posText q

/-! ## Reading -/

/-- The exponent at the front of a text, 0 if there is none. -/
def readExp : List Char → ℤ
  | 'e' :: cs => (readInt cs).getD 0
  | _ => 0

/-- The digits after a point, and what follows them. -/
def readFrac : List Char → List Char × List Char
  | '.' :: cs => (cs.takeWhile Char.isDigit, cs.dropWhile Char.isDigit)
  | cs => ([], cs)

/-- `stod` on a decimal number: at least one digit, and anything after the number. -/
def stod (cs : List Char) : Option ℚ :=
  let s := sign cs
  let whole := s.2.takeWhile Char.isDigit
  let frac := readFrac (s.2.dropWhile Char.isDigit)
  if whole.isEmpty && frac.1.isEmpty then none
  else
    let v : ℚ := (val (whole ++ frac.1) : ℚ) / 10 ^ frac.1.length * 10 ^ readExp frac.2
    some (if s.1 then -v else v)

/-! ## The size of the digits -/

theorem exponent_spec {q : ℚ} (h : 0 < q) : (10 : ℚ) ^ exponent q ≤ q ∧ q < 10 ^ (exponent q + 1) := by
  have h1 := Int.zpow_log_le_self (b := 10) (by norm_num) h
  have h2 := Int.lt_zpow_succ_log_self (b := 10) (by norm_num) q
  unfold exponent
  exact ⟨by exact_mod_cast h1, by exact_mod_cast h2⟩

theorem zpow_ten_pos (k : ℤ) : (0 : ℚ) < 10 ^ k := zpow_pos (by norm_num) k

theorem zpow_ten_add (j k : ℤ) : (10 : ℚ) ^ (j + k) = 10 ^ j * 10 ^ k := zpow_add₀ (by norm_num) j k

/-- Between 10^5 and 10^6. -/
theorem scaled_bounds {q : ℚ} (h : 0 < q) : 100000 ≤ scaled q ∧ scaled q ≤ 1000000 := by
  obtain ⟨h1, h2⟩ := exponent_spec h
  have hp := zpow_ten_pos (5 - exponent q)
  have hlo : ((100000 : ℤ) : ℚ) ≤ q * 10 ^ (5 - exponent q) := by
    calc ((100000 : ℤ) : ℚ) = 10 ^ (exponent q + (5 - exponent q)) := by
          rw [show exponent q + (5 - exponent q) = 5 by ring]; norm_num
      _ = 10 ^ exponent q * 10 ^ (5 - exponent q) := zpow_ten_add _ _
      _ ≤ q * 10 ^ (5 - exponent q) := mul_le_mul_of_nonneg_right h1 hp.le
  have hhi : q * 10 ^ (5 - exponent q) ≤ ((1000000 : ℤ) : ℚ) := by
    calc q * 10 ^ (5 - exponent q) ≤ 10 ^ (exponent q + 1) * 10 ^ (5 - exponent q) :=
          mul_le_mul_of_nonneg_right h2.le hp.le
      _ = 10 ^ (exponent q + 1 + (5 - exponent q)) := (zpow_ten_add _ _).symm
      _ = ((1000000 : ℤ) : ℚ) := by rw [show exponent q + 1 + (5 - exponent q) = 6 by ring]; norm_num
  have := roundEven_mono hlo
  have := roundEven_mono hhi
  rw [roundEven_intCast] at *
  exact ⟨‹_›, ‹_›⟩

theorem digits_spec {q : ℚ} (h : 0 < q) : 100000 ≤ (digits q).1 ∧ (digits q).1 < 1000000 ∧
    ((digits q).1 : ℚ) * 10 ^ ((digits q).2 - 5) = roundPos q := by
  obtain ⟨h1, h2⟩ := scaled_bounds h
  unfold digits roundPos
  split_ifs with heq
  · refine ⟨le_rfl, by norm_num, ?_⟩
    rw [heq, show exponent q + 1 - 5 = 1 + (exponent q - 5) by ring, zpow_ten_add]
    push_cast
    ring
  · have hcast : (((scaled q).toNat : ℤ) : ℚ) = scaled q := by rw [Int.toNat_of_nonneg (by omega)]
    refine ⟨by omega, by omega, ?_⟩
    rw [← hcast]
    rfl

/-! ## What is printed is read back -/

theorem trim_concat_zero (cs : List Char) : trim (cs ++ ['0']) = trim cs := by simp [trim]

theorem trim_spec (cs : List Char) : ∃ k, cs = trim cs ++ List.replicate k '0' := by
  induction cs using List.reverseRecOn with
  | nil => exact ⟨0, rfl⟩
  | append_singleton cs c ih =>
    by_cases hc : c = '0'
    · subst hc
      obtain ⟨k, hk⟩ := ih
      rw [trim_concat_zero]
      refine ⟨k + 1, ?_⟩
      conv_lhs => rw [hk]
      rw [List.replicate_succ', List.append_assoc]
    · refine ⟨0, ?_⟩
      have hbeq : (c == '0') = false := beq_false_of_ne hc
      simp [trim, hbeq]

/-- Zeros at the end of the fraction do not count. -/
theorem val_trim (whole frac : List Char) :
    (val (whole ++ trim frac) : ℚ) / 10 ^ (trim frac).length = val (whole ++ frac) / 10 ^ frac.length := by
  obtain ⟨k, hk⟩ := trim_spec frac
  have hval : val (whole ++ frac) = val (whole ++ trim frac) * 10 ^ k := by
    conv_lhs => rw [hk]
    rw [← List.append_assoc, val, valFrom_append, ← padded_zero, valFrom_padded, Nat.zero_mod, add_zero]
    rfl
  have hlen : frac.length = (trim frac).length + k := by
    conv_lhs => rw [hk]
    rw [List.length_append, List.length_replicate]
  have hpow : (10 : ℚ) ^ k ≠ 0 := by positivity
  rw [hval, hlen, pow_add]
  push_cast
  rw [mul_div_mul_right _ _ hpow]

theorem isDigit_trim {cs : List Char} (h : ∀ c ∈ cs, c.isDigit = true) : ∀ c ∈ trim cs, c.isDigit = true := by
  obtain ⟨k, hk⟩ := trim_spec cs
  intro c hc
  exact h c (by rw [hk]; exact List.mem_append_left _ hc)

/-- A tail that is no part of the digits before it. -/
structure Tail (rest : List Char) : Prop where
  noDigit : NoDigit rest
  noPoint : ∀ cs, rest ≠ '.' :: cs

theorem readFrac_of_noPoint {rest : List Char} (h : ∀ cs, rest ≠ '.' :: cs) : readFrac rest = ([], rest) := by
  unfold readFrac
  split
  · rename_i cs
    exact absurd rfl (h cs)
  · rfl

/-- Reading a number with a point, possibly with an exponent behind it. -/
theorem stod_pointText (whole frac : List Char) {rest : List Char} (hne : whole ≠ [])
    (hwhole : ∀ c ∈ whole, c.isDigit = true) (hfrac : ∀ c ∈ frac, c.isDigit = true) (hrest : Tail rest) :
    stod (pointText whole frac ++ rest) = some ((val (whole ++ frac) : ℚ) / 10 ^ frac.length * 10 ^ readExp rest) ∧
      stod ('-' :: (pointText whole frac ++ rest)) =
        some (-((val (whole ++ frac) : ℚ) / 10 ^ frac.length * 10 ^ readExp rest)) := by
  have hsign : sign (pointText whole frac ++ rest) = (false, pointText whole frac ++ rest) := by
    obtain ⟨c, cs, rfl⟩ := List.exists_cons_of_ne_nil hne
    have hc := hwhole c List.mem_cons_self
    unfold pointText
    split_ifs <;> exact sign_digit hc _
  have hminus : sign ('-' :: (pointText whole frac ++ rest)) = (true, pointText whole frac ++ rest) := rfl
  have hempty : whole.isEmpty = false := List.isEmpty_eq_false_iff.2 hne
  -- the digits before the point, those after it, and the rest
  have hparts : (pointText whole frac ++ rest).takeWhile Char.isDigit = whole ∧
      readFrac ((pointText whole frac ++ rest).dropWhile Char.isDigit) = (trim frac, rest) := by
    unfold pointText
    split_ifs with ht
    · obtain ⟨h1, h2⟩ := takeWhile_digits hwhole rest hrest.noDigit
      rw [h1, h2, readFrac_of_noPoint hrest.noPoint, List.isEmpty_iff.1 ht]
      exact ⟨rfl, rfl⟩
    · obtain ⟨h1, h2⟩ := takeWhile_digits hwhole ('.' :: (trim frac ++ rest)) rfl
      obtain ⟨h3, h4⟩ := takeWhile_digits (isDigit_trim hfrac) rest hrest.noDigit
      rw [List.append_assoc, List.cons_append, h1, h2, readFrac, h3, h4]
      exact ⟨rfl, rfl⟩
  simp only [stod, hsign, hminus, hparts.1, hparts.2, hempty, Bool.false_and, Bool.false_eq_true, if_false,
    if_true, val_trim]
  exact ⟨trivial, trivial⟩

theorem val_split {a b m : ℕ} (h : m < 10 ^ (a + b)) : val (padded a (m / 10 ^ b) ++ padded b m) = m := by
  have hlt : m / 10 ^ b < 10 ^ a := by
    rw [Nat.div_lt_iff_lt_mul (by positivity), ← pow_add]
    exact h
  rw [val, valFrom_append, valFrom_padded, valFrom_padded, zero_mul, zero_add, Nat.mod_eq_of_lt hlt]
  exact Nat.div_add_mod' m (10 ^ b)

theorem readExp_expText (x : ℤ) : readExp (expText x) = x := by
  have hdigits : ∀ ds : List Char, ds ≠ [] → (∀ c ∈ ds, c.isDigit = true) → val ds = x.natAbs →
      readExp ('e' :: (if x < 0 then '-' else '+') :: ds) = x := by
    intro ds hne hds hval
    have hsign : sign ((if x < 0 then '-' else '+') :: ds) = (decide (x < 0), ds) := by
      split_ifs with h
      · rw [decide_eq_true h]; rfl
      · rw [decide_eq_false h]; rfl
    have htake : ds.takeWhile Char.isDigit = ds := by simpa using (takeWhile_digits hds [] trivial).1
    simp only [readExp, readInt, hsign, htake, List.isEmpty_eq_false_iff.2 hne, Bool.false_eq_true, if_false, hval,
      Option.getD_some]
    exact signed_natAbs x
  unfold expText
  by_cases h : x.natAbs < 10
  · rw [if_pos h]
    refine hdigits _ (by simp [padded]) (isDigit_padded 2 _) ?_
    rw [val_padded]
    omega
  · rw [if_neg h]
    exact hdigits _ (natText_ne_nil _) (isDigit_natText _) (val_natText _)

theorem tail_nil : Tail [] := ⟨trivial, nofun⟩

theorem tail_expText (x : ℤ) : Tail (expText x) := ⟨rfl, fun cs h => by cases h⟩

/-- The text of a positive number, with and without a minus sign in front. -/
theorem stod_posText {q : ℚ} (h : 0 < q) :
    stod (posText q) = some (roundPos q) ∧ stod ('-' :: posText q) = some (-roundPos q) := by
  obtain ⟨-, hlt, hval⟩ := digits_spec h
  unfold posText
  simp only
  split_ifs with hexp
  · have hread := stod_pointText (padded 1 ((digits q).1 / 100000)) (padded 5 (digits q).1)
      (by simp [padded]) (isDigit_padded _ _) (isDigit_padded _ _) (tail_expText (digits q).2)
    have hv : (val (padded 1 ((digits q).1 / 100000) ++ padded 5 (digits q).1) : ℚ) /
        10 ^ (padded 5 (digits q).1).length * 10 ^ readExp (expText (digits q).2) = roundPos q := by
      rw [show (100000 : ℕ) = 10 ^ 5 by norm_num, val_split (by norm_num; exact hlt), length_padded, readExp_expText,
        ← hval, zpow_sub₀ (by norm_num)]
      norm_cast
      ring
    rwa [hv] at hread
  · obtain ⟨h1, h2⟩ : -4 ≤ (digits q).2 ∧ (digits q).2 < 6 := by omega
    have hread := stod_pointText (padded ((digits q).2.toNat + 1) ((digits q).1 / 10 ^ (5 - (digits q).2).toNat))
      (padded (5 - (digits q).2).toNat (digits q).1) (by simp [padded]) (isDigit_padded _ _) (isDigit_padded _ _)
      tail_nil
    have hroom : (digits q).1 < 10 ^ ((digits q).2.toNat + 1 + (5 - (digits q).2).toNat) :=
      hlt.trans_le (le_trans (by norm_num) (Nat.pow_le_pow_right (by norm_num) (show 6 ≤ _ by omega)))
    have hv : (val (padded ((digits q).2.toNat + 1) ((digits q).1 / 10 ^ (5 - (digits q).2).toNat) ++
        padded (5 - (digits q).2).toNat (digits q).1) : ℚ) /
        10 ^ (padded (5 - (digits q).2).toNat (digits q).1).length * 10 ^ readExp [] = roundPos q := by
      rw [val_split hroom, length_padded, ← hval, show readExp [] = 0 from rfl, zpow_zero, mul_one, ← zpow_natCast,
        Int.toNat_of_nonneg (by omega), div_eq_mul_inv, ← zpow_neg, neg_sub]
    rwa [hv, List.append_nil] at hread

/-- **A printed number is read as its rounded value.** -/
theorem stod_doubleText (q : ℚ) : stod (doubleText q) = some (sig6 q) := by
  unfold doubleText sig6
  split_ifs with hneg hzero
  · exact (stod_posText (neg_pos.2 hneg)).2
  · decide +kernel
  · exact (stod_posText (lt_of_le_of_ne (not_lt.1 hneg) (Ne.symm hzero))).1

/-! ## Monotonicity -/

theorem sig6_of_pos {q : ℚ} (h : 0 < q) : sig6 q = roundPos q := by rw [sig6, if_neg h.not_gt, if_neg h.ne']

theorem sig6_of_neg {q : ℚ} (h : q < 0) : sig6 q = -roundPos (-q) := by rw [sig6, if_pos h]

@[simp] theorem sig6_zero : sig6 0 = 0 := by rw [sig6, if_neg (lt_irrefl 0), if_pos rfl]

/-- The exponent of a positive integer of at most six digits, and its six digits. -/
theorem scaled_natCast {n : ℕ} (h0 : 0 < n) (hn : n < 1000000) : 0 ≤ exponent n ∧ exponent n ≤ 5 ∧
    scaled n = n * 10 ^ (5 - exponent n).toNat ∧ n < 10 ^ ((exponent n).toNat + 1) := by
  have hpos : (0 : ℚ) < n := by exact_mod_cast h0
  obtain ⟨h1, h2⟩ := exponent_spec hpos
  have hlo : 0 ≤ exponent n := by
    by_contra hlt
    have : (10 : ℚ) ^ (exponent n + 1) ≤ 10 ^ (0 : ℤ) := zpow_le_zpow_right₀ (by norm_num) (by omega)
    have hone : (1 : ℚ) ≤ n := by exact_mod_cast h0
    rw [zpow_zero] at this
    linarith
  have hhi : exponent n ≤ 5 := by
    by_contra hgt
    have : (10 : ℚ) ^ (6 : ℤ) ≤ 10 ^ exponent n := zpow_le_zpow_right₀ (by norm_num) (by omega)
    have hlt : (n : ℚ) < 1000000 := by exact_mod_cast hn
    norm_num at this
    linarith
  refine ⟨hlo, hhi, ?_, ?_⟩
  · have hint : (n : ℚ) * 10 ^ (5 - exponent n) = ((n * 10 ^ (5 - exponent n).toNat : ℤ) : ℚ) := by
      rw [← Int.toNat_of_nonneg (show 0 ≤ 5 - exponent n by omega), zpow_natCast]
      push_cast
      rw [Int.toNat_of_nonneg (show 0 ≤ 5 - exponent n by omega)]
    rw [scaled, hint, roundEven_intCast]
  · rw [← Int.toNat_of_nonneg hlo,
      show ((exponent n).toNat : ℤ) + 1 = (((exponent n).toNat + 1 : ℕ) : ℤ) by push_cast; rfl, zpow_natCast] at h2
    exact_mod_cast h2

theorem roundPos_natCast {n : ℕ} (h0 : 0 < n) (hn : n < 1000000) : roundPos n = n := by
  obtain ⟨-, hhi, hscaled, -⟩ := scaled_natCast h0 hn
  rw [roundPos, hscaled]
  push_cast
  rw [← zpow_natCast, Int.toNat_of_nonneg (by omega), mul_assoc, ← zpow_ten_add,
    show 5 - exponent (n : ℚ) + (exponent n - 5) = 0 by ring, zpow_zero, mul_one]

/-- Integers of at most six digits are not changed. -/
theorem sig6_intCast {z : ℤ} (h : |z| < 1000000) : sig6 z = z := by
  rw [Int.abs_eq_natAbs] at h
  rcases lt_trichotomy z 0 with hz | rfl | hz
  · have hcast : (-(z : ℚ)) = (z.natAbs : ℚ) := by
      rw [← Int.cast_natCast, Int.ofNat_natAbs_of_nonpos hz.le, Int.cast_neg]
    rw [sig6_of_neg (by exact_mod_cast hz), hcast, roundPos_natCast (by omega) (by omega), ← hcast, neg_neg]
  · rw [Int.cast_zero, sig6_zero]
  · have hcast : (z : ℚ) = (z.natAbs : ℚ) := by
      rw [← Int.cast_natCast, Int.natAbs_of_nonneg hz.le]
    rw [sig6_of_pos (by exact_mod_cast hz), hcast, roundPos_natCast (by omega) (by omega)]

theorem padded_mod : ∀ (k n : ℕ), padded k (n % 10 ^ k) = padded k n
  | 0, _ => rfl
  | k + 1, n => by
    have h1 : n % 10 ^ (k + 1) / 10 = n / 10 % 10 ^ k := by rw [pow_succ, mul_comm, Nat.mod_mul_right_div_self]
    have h2 : n % 10 ^ (k + 1) % 10 = n % 10 := Nat.mod_mod_of_dvd n (dvd_pow_self 10 (Nat.succ_ne_zero k))
    rw [padded, padded, h1, h2, padded_mod k]

theorem trim_replicate (k : ℕ) : trim (List.replicate k '0') = [] := by simp [trim]

/-- A positive integer of at most six digits is printed as its digits. -/
theorem posText_natCast {n : ℕ} (h0 : 0 < n) (hn : n < 1000000) : ∃ k, 0 < k ∧ n < 10 ^ k ∧ posText n = padded k n := by
  obtain ⟨hlo, hhi, hscaled, hlt⟩ := scaled_natCast h0 hn
  have hsum : (exponent n).toNat + 1 + (5 - exponent n).toNat = 6 := by omega
  have hsmall : n * 10 ^ (5 - exponent n).toNat < 1000000 := by
    calc n * 10 ^ (5 - exponent (n : ℚ)).toNat
        < 10 ^ ((exponent (n : ℚ)).toNat + 1) * 10 ^ (5 - exponent (n : ℚ)).toNat :=
          Nat.mul_lt_mul_of_pos_right hlt (by positivity)
      _ = 1000000 := by rw [← pow_add, hsum]; norm_num
  have hdigits : digits n = (n * 10 ^ (5 - exponent n).toNat, exponent n) := by
    have hcast : scaled n = ((n * 10 ^ (5 - exponent n).toNat : ℕ) : ℤ) := by rw [hscaled]; push_cast; rfl
    rw [digits, hcast, if_neg (by omega), Int.toNat_natCast]
  refine ⟨(exponent n).toNat + 1, Nat.succ_pos _, hlt, ?_⟩
  have hzero : padded (5 - exponent n).toNat (n * 10 ^ (5 - exponent n).toNat) =
      List.replicate (5 - exponent n).toNat '0' := by
    rw [← padded_mod, Nat.mul_mod_left, padded_zero]
  unfold posText
  simp only [hdigits]
  rw [if_neg (by omega), pointText, hzero, trim_replicate, Nat.mul_div_cancel _ (by positivity)]
  rfl

/-- A number of more than six digits before the point is printed with an exponent. -/
theorem mem_posText_of_le {q : ℚ} (h : 1000000 ≤ q) : 'e' ∈ posText q := by
  have hexp : 6 ≤ exponent q := by
    have := Int.log_mono_right (b := 10) (by norm_num : (0 : ℚ) < 1000000) h
    have h6 : Int.log 10 (1000000 : ℚ) = 6 := by decide +kernel
    rwa [h6] at this
  have hdigits : 6 ≤ (digits q).2 := by
    unfold digits
    split_ifs
    · exact hexp.trans (by simp)
    · exact hexp
  unfold posText
  simp only
  rw [if_pos (.inr hdigits)]
  exact List.mem_append_right _ List.mem_cons_self

/-! ## Characters -/

/-- The characters of a number. -/
def IsNumChar (c : Char) : Prop := c.isDigit = true ∨ c ∈ ['-', '+', '.', 'e']

theorem isNumChar_pointText {whole frac : List Char} (hwhole : ∀ c ∈ whole, c.isDigit = true)
    (hfrac : ∀ c ∈ frac, c.isDigit = true) : ∀ c ∈ pointText whole frac, IsNumChar c := by
  unfold pointText
  split_ifs
  · exact fun c hc => .inl (hwhole c hc)
  · intro c hc
    rcases List.mem_append.1 hc with hc | hc
    · exact .inl (hwhole c hc)
    · rcases List.mem_cons.1 hc with rfl | hc
      · exact .inr (by decide)
      · exact .inl (isDigit_trim hfrac c hc)

theorem isNumChar_expText (x : ℤ) : ∀ c ∈ expText x, IsNumChar c := by
  intro c hc
  unfold expText at hc
  rcases List.mem_cons.1 hc with rfl | hc
  · exact .inr (by decide)
  · rcases List.mem_cons.1 hc with rfl | hc
    · split_ifs
      · exact .inr (by decide)
      · exact .inr (by decide)
    · split_ifs at hc
      · exact .inl (isDigit_padded _ _ c hc)
      · exact .inl (isDigit_natText _ c hc)

theorem isNumChar_posText (q : ℚ) : ∀ c ∈ posText q, IsNumChar c := by
  unfold posText
  simp only
  split_ifs
  · intro c hc
    rcases List.mem_append.1 hc with hc | hc
    · exact isNumChar_pointText (isDigit_padded _ _) (isDigit_padded _ _) c hc
    · exact isNumChar_expText _ c hc
  · exact isNumChar_pointText (isDigit_padded _ _) (isDigit_padded _ _)

theorem isNumChar_doubleText (q : ℚ) : ∀ c ∈ doubleText q, IsNumChar c := by
  unfold doubleText
  split_ifs
  · intro c hc
    rcases List.mem_cons.1 hc with rfl | hc
    · exact .inr (by decide)
    · exact isNumChar_posText _ c hc
  · intro c hc
    rw [List.mem_singleton.1 hc]
    exact .inl (by decide)
  · exact isNumChar_posText q

theorem notMem_doubleText {c : Char} (h1 : c.isDigit = false) (h2 : c ∉ ['-', '+', '.', 'e']) (q : ℚ) :
    c ∉ doubleText q := by
  intro hc
  rcases isNumChar_doubleText q c hc with h | h
  · rw [h1] at h
    cases h
  · exact h2 h

theorem posText_cons (q : ℚ) : ∃ c cs, posText q = c :: cs ∧ c.isDigit = true := by
  have hpoint : ∀ (k n : ℕ) (frac rest : List Char), ∃ c cs, pointText (padded (k + 1) n) frac ++ rest = c :: cs ∧
      c.isDigit = true := by
    intro k n frac rest
    obtain ⟨c, cs, hcs⟩ := List.exists_cons_of_ne_nil (show padded (k + 1) n ≠ [] by simp [padded])
    have hc : c.isDigit = true := isDigit_padded _ _ c (by rw [hcs]; exact List.mem_cons_self)
    unfold pointText
    rw [hcs]
    split_ifs <;> exact ⟨c, _, rfl, hc⟩
  unfold posText
  simp only
  split_ifs
  · exact hpoint 0 _ _ _
  · have := hpoint (digits q).2.toNat ((digits q).1 / 10 ^ (5 - (digits q).2).toNat)
      (padded (5 - (digits q).2).toNat (digits q).1) []
    rwa [List.append_nil] at this

theorem doubleText_ne_nil (q : ℚ) : doubleText q ≠ [] := by
  unfold doubleText
  split_ifs
  · exact List.cons_ne_nil _ _
  · exact List.cons_ne_nil _ _
  · obtain ⟨c, cs, h, -⟩ := posText_cons q
    rw [h]
    exact List.cons_ne_nil _ _

/-! ## Integers that are printed with `operator<<` and read as integers -/

/-- The digits of a positive integer, with the sign `neg` in front. -/
theorem parse_posText {n : ℕ} (h0 : 0 < n) {cs : List Char} (neg : Bool) (hsign : sign cs = (neg, posText n)) :
    parseInt cs = if n < 1000000 then some (if neg then -(n : ℤ) else n) else none := by
  simp only [parseInt, hsign]
  by_cases hn : n < 1000000
  · obtain ⟨k, hk, hlt, htext⟩ := posText_natCast h0 hn
    have hne : (padded k n).isEmpty = false := by
      rw [List.isEmpty_eq_false_iff, ← List.length_pos_iff, length_padded]
      exact hk
    have hall : (padded k n).all Char.isDigit = true := List.all_eq_true.2 (isDigit_padded k n)
    rw [if_pos hn, htext, hne, hall, if_neg (by decide), val_padded, Nat.mod_eq_of_lt hlt]
  · -- the text has an exponent
    have he := mem_posText_of_le (q := n) (by exact_mod_cast not_lt.1 hn)
    have hall : (posText (n : ℚ)).all Char.isDigit = false := List.all_eq_false.2 ⟨_, he, by decide⟩
    rw [if_neg hn, hall, Bool.not_false, Bool.or_true, if_pos rfl]

/-- An integer is read back from the text of the `double` exactly when it has at most six digits. -/
theorem parseInt_doubleText (z : ℤ) : parseInt (doubleText z) = if |z| < 1000000 then some z else none := by
  have hsize : |z| < 1000000 ↔ z.natAbs < 1000000 := by rw [Int.abs_eq_natAbs]; omega
  simp only [hsize]
  rcases lt_trichotomy z 0 with hz | rfl | hz
  · have hcast : (-(z : ℚ)) = (z.natAbs : ℚ) := by
      rw [← Int.cast_natCast, Int.ofNat_natAbs_of_nonpos hz.le, Int.cast_neg]
    rw [doubleText, if_pos (by exact_mod_cast hz), hcast,
      parse_posText (show 0 < z.natAbs by omega) true rfl, if_pos rfl, Int.ofNat_natAbs_of_nonpos hz.le, neg_neg]
  · decide +kernel
  · have hcast : (z : ℚ) = (z.natAbs : ℚ) := by
      rw [← Int.cast_natCast, Int.natAbs_of_nonneg hz.le]
    have hsign : sign (posText (z.natAbs : ℚ)) = (false, posText (z.natAbs : ℚ)) := by
      obtain ⟨c, cs, h, hc⟩ := posText_cons (z.natAbs : ℚ)
      rw [h]
      exact sign_digit hc cs
    rw [doubleText, if_neg (by exact_mod_cast hz.not_gt), if_neg (by exact_mod_cast hz.ne'), hcast,
      parse_posText (show 0 < z.natAbs by omega) false hsign, if_neg Bool.false_ne_true, Int.natAbs_of_nonneg hz.le]

end GridSolve.Significant
