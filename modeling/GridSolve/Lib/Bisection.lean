/-
Repeated bisection of an interval of an ordered field. A word of bits names the interval that is
left after taking, bit by bit, the lower or the upper half; longer words name smaller intervals.
-/
import Mathlib.Algebra.Order.Field.Basic
import Mathlib.Data.List.Infix
import Mathlib.Tactic

namespace GridSolve.Bisection

variable {K : Type*} [Field K]

/-- The upper half of an interval, or the lower. -/
def half (upper : Bool) (e : K × K) : K × K :=
  if upper then ((e.1 + e.2) / 2, e.2) else (e.1, (e.1 + e.2) / 2)

/-- The interval that a word names. -/
def sub (e : K × K) (s : List Bool) : K × K := s.foldl (fun e d => half d e) e

@[simp] theorem sub_nil (e : K × K) : sub e [] = e := rfl

@[simp] theorem sub_cons (e : K × K) (d : Bool) (s : List Bool) : sub e (d :: s) = sub (half d e) s := rfl

theorem sub_append (e : K × K) (s t : List Bool) : sub e (s ++ t) = sub (sub e s) t := List.foldl_append

/-- Two intervals that are the halves of one interval of the bisection of `e`. -/
def Twins (e c c' : K × K) : Prop := ∃ s d, c = sub e (s ++ [d]) ∧ c' = sub e (s ++ [!d])

variable [LinearOrder K] [IsStrictOrderedRing K]

theorem width_half (d : Bool) (e : K × K) : (half d e).2 - (half d e).1 = (e.2 - e.1) / 2 := by
  cases d <;> simp only [half, Bool.false_eq_true, if_true, if_false] <;> ring

theorem width_sub : ∀ (s : List Bool) (e : K × K), (sub e s).2 - (sub e s).1 = (e.2 - e.1) / 2 ^ s.length
  | [], e => by simp
  | d :: s, e => by rw [sub_cons, width_sub s, width_half, List.length_cons, pow_succ', div_div]

theorem half_lt {e : K × K} (h : e.1 < e.2) (d : Bool) : (half d e).1 < (half d e).2 := by
  cases d <;> simp only [half] <;> simp <;> linarith

theorem half_within {e : K × K} (h : e.1 < e.2) (d : Bool) : e.1 ≤ (half d e).1 ∧ (half d e).2 ≤ e.2 := by
  cases d <;> simp only [half] <;> simp <;> linarith

theorem sub_lt : ∀ (s : List Bool) {e : K × K}, e.1 < e.2 → (sub e s).1 < (sub e s).2
  | [], _, h => h
  | d :: s, _, h => sub_lt s (half_lt h d)

theorem sub_within : ∀ (s : List Bool) {e : K × K}, e.1 < e.2 → e.1 ≤ (sub e s).1 ∧ (sub e s).2 ≤ e.2
  | [], _, _ => ⟨le_rfl, le_rfl⟩
  | d :: s, e, h => by
    obtain ⟨h1, h2⟩ := half_within h d
    obtain ⟨h3, h4⟩ := sub_within s (half_lt h d)
    exact ⟨h1.trans h3, h4.trans h2⟩

/-- A longer word names a smaller interval. -/
theorem sub_within_of_isPrefix {s t : List Bool} (hst : s <+: t) {e : K × K} (h : e.1 < e.2) :
    (sub e s).1 ≤ (sub e t).1 ∧ (sub e t).2 ≤ (sub e s).2 := by
  obtain ⟨u, rfl⟩ := hst
  rw [sub_append]
  exact sub_within u (sub_lt s h)

/-- Words of which neither begins the other name intervals that are apart. -/
theorem sub_apart : ∀ {s t : List Bool} {e : K × K}, e.1 < e.2 → ¬ s <+: t → ¬ t <+: s →
    (sub e s).2 ≤ (sub e t).1 ∨ (sub e t).2 ≤ (sub e s).1
  | [], _, _, _, h, _ => absurd List.nil_prefix h
  | _ :: _, [], _, _, _, h => absurd List.nil_prefix h
  | d :: s, d' :: t, e, he, h, h' => by
    rw [sub_cons, sub_cons]
    by_cases hd : d = d'
    · subst hd
      rw [List.cons_prefix_cons] at h h'
      exact sub_apart (half_lt he d) (fun hst => h ⟨rfl, hst⟩) fun hts => h' ⟨rfl, hts⟩
    · -- different halves, with the middle between them
      have hs := sub_within s (half_lt he d)
      have ht := sub_within t (half_lt he d')
      cases d <;> cases d' <;> simp only [half, Bool.false_eq_true, if_true, if_false] at hs ht hd ⊢
      · exact absurd trivial hd
      · exact .inl (hs.2.trans ht.1)
      · exact .inr (ht.2.trans hs.1)
      · exact absurd trivial hd

/-- Intervals that overlap have words of which one begins the other. -/
theorem comparable_of_overlap {s t : List Bool} {e : K × K} (he : e.1 < e.2) (h1 : (sub e s).1 < (sub e t).2)
    (h2 : (sub e t).1 < (sub e s).2) : s <+: t ∨ t <+: s := by
  by_contra hno
  rw [not_or] at hno
  rcases sub_apart he hno.1 hno.2 with h | h
  · exact absurd h2 (not_lt.2 h)
  · exact absurd h1 (not_lt.2 h)

/-- Intervals are as wide as their words are short. -/
theorem length_le_of_width {s t : List Bool} {e : K × K} (he : e.1 < e.2)
    (h : (sub e t).2 - (sub e t).1 ≤ (sub e s).2 - (sub e s).1) : s.length ≤ t.length := by
  rw [width_sub, width_sub, div_le_div_iff_of_pos_left (sub_pos.2 he) (by positivity) (by positivity)] at h
  exact (pow_le_pow_iff_right₀ one_lt_two).1 h

/-- An interval has one word. -/
theorem sub_injective {e : K × K} (he : e.1 < e.2) {s t : List Bool} (h : sub e s = sub e t) : s = t := by
  have hlen : s.length = t.length := le_antisymm (length_le_of_width he (by rw [h])) (length_le_of_width he (by rw [h]))
  have hlt := sub_lt t he
  rcases comparable_of_overlap (s := s) (t := t) he (by rwa [h]) (by rwa [h]) with hpre | hpre
  · exact hpre.eq_of_length hlen
  · exact (hpre.eq_of_length hlen.symm).symm

/-- An interval is the half of one interval only. -/
theorem Twins.eq {e c' : K × K} (he : e.1 < e.2) {s : List Bool} {d : Bool} (h : Twins e (sub e (s ++ [d])) c') :
    c' = sub e (s ++ [!d]) := by
  obtain ⟨t, d', ht, rfl⟩ := h
  obtain ⟨rfl, hd⟩ := List.append_inj' (sub_injective he ht) rfl
  rw [List.singleton_inj.1 hd]

end GridSolve.Bisection
