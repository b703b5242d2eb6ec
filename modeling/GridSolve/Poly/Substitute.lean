/-
`multinomial::substitute`, and the laws of the operators in its terms: on well-formed trees the
value of a sum is the sum of the values, and so for constants and for products whose exponents fit
in 16 bits. The flags of the operands are arbitrary, so both paths of every operator are meant. The
coefficients `reduce` extracts are read off the values in the same way.
-/
import Mathlib.Algebra.MvPolynomial.Funext
import GridSolve.Poly.Reduce

namespace GridSolve.Poly

open MvPolynomial GridSolve.Wrap GridSolve.Specialize

namespace Multinomial

mutual

/-- `substitute`, without a result where it reads `vals` past the end. -/
def substitute (vals : List ℚ) : Multinomial → Option ℚ
  | .const _ c => some c
  | .node _ k mp => substituteMp vals k 0 mp

/-- The loop over the entries, `ans` the sum so far. -/
def substituteMp (vals : List ℚ) (k : Symbol) (ans : ℚ) : Entries → Option ℚ
  | [] => some ans
  | (e, m) :: mp => do
    let x ← vals[k.id]?
    let temp ← substitute vals m
    substituteMp vals k (ans + x ^ e.toNat * temp) mp

end

mutual

/-- The exponents of the symbol with id `i`. -/
def exponents (i : ℕ) : Multinomial → List UInt16
  | .const _ _ => []
  | .node _ k mp => exponentsMp i k mp

def exponentsMp (i : ℕ) (k : Symbol) : Entries → List UInt16
  | [] => []
  | (e, m) :: mp => (if k.id = i then [e] else []) ++ exponents i m ++ exponentsMp i k mp

end

variable {S : Symbol → Prop} {b : ℕ} {vals : List ℚ}

/-! ## Values -/

/-- The values as a function on the ids. -/
def assignment (vals : List ℚ) (i : ℕ) : ℚ := vals.getD i 0

theorem substituteMp_eq {k : Symbol} (hk : k.id < vals.length) : ∀ {mp : Entries} (ans : ℚ),
    (∀ x ∈ mp, x.2.substitute vals = some (aeval (assignment vals) x.2.toMv)) →
    substituteMp vals k ans mp = some (ans + aeval (assignment vals) (toMvMp k.id mp))
  | [], ans, _ => by simp [substituteMp, toMvMp]
  | (e, m) :: mp, ans, h => by
    rw [List.forall_mem_cons] at h
    have hval : vals[k.id]? = some (assignment vals k.id) := by
      rw [assignment, List.getD_eq_getElem?_getD, List.getElem?_eq_getElem hk, Option.getD_some]
    simp only [substituteMp, hval, h.1, Option.bind_eq_bind, Option.bind_some]
    rw [substituteMp_eq hk _ h.2, toMvMp]
    simp [add_assoc]

/-- The value is the one of the polynomial, wherever there are values for the symbols. -/
theorem substitute_of_symbols {m : Multinomial} (hlen : ∀ k ∈ m.symbols, k.id < vals.length) :
    m.substitute vals = some (aeval (assignment vals) m.toMv) := by
  induction m with
  | const s c => simp [substitute]
  | node s k mp ih =>
    have hkids : ∀ x ∈ mp, x.2.substitute vals = some (aeval (assignment vals) x.2.toMv) := fun x hx =>
      ih x hx fun l hl => hlen l (mem_symbols_node.2 (.inr ⟨x, hx, hl⟩))
    rw [substitute, substituteMp_eq (hlen k (mem_symbols_node.2 (.inl rfl))) 0 hkids, zero_add, toMv_node]

theorem substitute_eq (hlen : ∀ k, S k → k.id < vals.length) {m : Multinomial} (hm : WF S b m) :
    m.substitute vals = some (aeval (assignment vals) m.toMv) :=
  substitute_of_symbols fun k hk => hlen k (hm.symbols k hk)

/-- The value depends on the symbols of the tree only. -/
theorem aeval_congr_symbols {x y : ℕ → ℚ} {m : Multinomial} (h : ∀ k ∈ m.symbols, x k.id = y k.id) :
    aeval x m.toMv = aeval y m.toMv := by
  refine eval₂Hom_congr' rfl (fun i hi _ => ?_) rfl
  obtain ⟨k, hk, rfl⟩ := exists_symbol_of_vars i hi
  exact h k hk

/-! ## Degrees -/

theorem exponents_of_mem {i : ℕ} {k : Symbol} : ∀ {mp : Entries} {x : UInt16 × Multinomial}, x ∈ mp →
    (k.id = i → x.1 ∈ exponentsMp i k mp) ∧ ∀ e ∈ exponents i x.2, e ∈ exponentsMp i k mp
  | (e, m) :: mp, x, hx => by
    rw [exponentsMp]
    rcases List.mem_cons.1 hx with rfl | hx
    · exact ⟨fun hk => by simp [hk], fun e he => by simp [he]⟩
    · obtain ⟨h1, h2⟩ := exponents_of_mem (i := i) (k := k) hx
      exact ⟨fun hk => List.mem_append_right _ (h1 hk), fun e he => List.mem_append_right _ (h2 e he)⟩

theorem degreeOf_listSum_le {i n : ℕ} : ∀ {l : List (MvPolynomial ℕ ℚ)}, (∀ p ∈ l, p.degreeOf i ≤ n) →
    l.sum.degreeOf i ≤ n
  | [], _ => by simp
  | p :: l, h => by
    rw [List.forall_mem_cons] at h
    rw [List.sum_cons]
    exact (degreeOf_add_le i p l.sum).trans (max_le h.1 (degreeOf_listSum_le h.2))

/-- A bound on the exponents of a symbol bounds the degree in it. -/
theorem degreeOf_le_of_exponents {i n : ℕ} {m : Multinomial} (hm : WF S b m) (h : ∀ e ∈ m.exponents i, e.toNat ≤ n) :
    m.toMv.degreeOf i ≤ n := by
  induction m generalizing b with
  | const s c => simp [degreeOf_C]
  | node s k mp ih =>
    obtain ⟨-, -, -, -, hkids⟩ := wf_node_iff.1 hm
    rw [toMv_node, toMvMp_eq_sum]
    refine degreeOf_listSum_le fun p hp => ?_
    obtain ⟨x, hx, rfl⟩ := List.mem_map.1 hp
    obtain ⟨hkey, hkid⟩ := exponents_of_mem (i := i) (k := k) hx
    refine (degreeOf_mul_le i _ _).trans ?_
    by_cases hi : k.id = i
    · -- the symbol does not occur again below
      subst hi
      rw [(hkids x hx).small.2 k.id (Nat.lt_succ_self _), degreeOf_X_self_pow]
      exact h _ (hkey rfl)
    · rw [degreeOf_X_pow_of_ne _ (Ne.symm hi), Nat.zero_add]
      exact ih x hx (hkids x hx) fun e he => h e (hkid e he)

/-- No sum of an exponent of `p` and one of `q`, of the same symbol, leaves 16 bits. -/
def ExponentsFit (p q : Multinomial) : Prop :=
  ∀ i, ∀ e ∈ p.exponents i, ∀ f ∈ q.exponents i, e.toNat + f.toNat ≤ 65535

/-- A product is exact when the degrees fit. -/
theorem toMv_mul_of_degreeOf {p q : Multinomial} (hp : WF S b p) (hq : WF S b q)
    (hfit : ∀ i, p.toMv.degreeOf i + q.toMv.degreeOf i ≤ 65535) : (p.mul q).toMv = p.toMv * q.toMv := by
  refine wrap16_inj (hp.mul hq).small.1 (fun i => ?_) (wrap16_mul hp hq)
  have := degreeOf_mul_le i p.toMv q.toMv
  have := hfit i
  omega

/-- A product whose exponents fit is exact. -/
theorem toMv_mul {p q : Multinomial} (hp : WF S b p) (hq : WF S b q) (hfit : ExponentsFit p q) :
    (p.mul q).toMv = p.toMv * q.toMv := by
  refine toMv_mul_of_degreeOf hp hq fun i => ?_
  have hpq : ∀ f ∈ q.exponents i, f.toNat ≤ 65535 - p.toMv.degreeOf i := by
    intro f hf
    have := degreeOf_le_of_exponents (n := 65535 - f.toNat) hp fun e he => by have := hfit i e he f hf; omega
    have := f.toNat_lt
    omega
  have hdeg := degreeOf_le_of_exponents hq hpq
  have hlt := hp.small.1 i
  omega

/-! ## The laws -/

/-- **Arithmetic is a homomorphism**: the operators keep trees well formed, and `substitute` of a
result is the result of the operation on the values. For a product the exponents of each symbol
must fit. -/
theorem operators_substitute {p q : Multinomial} (hp : WF S b p) (hq : WF S b q) (c : ℚ) :
    (WF S b (p.add q) ∧ WF S b (p.addDouble c) ∧ WF S b (p.mulDouble c) ∧
      (ExponentsFit p q → WF S b (p.mul q))) ∧
    ∀ vals : List ℚ, (∀ k, S k → k.id < vals.length) →
      ∃ x y, p.substitute vals = some x ∧ q.substitute vals = some y ∧
        (p.add q).substitute vals = some (x + y) ∧ (p.addDouble c).substitute vals = some (x + c) ∧
        (p.mulDouble c).substitute vals = some (x * c) ∧
        (ExponentsFit p q → (p.mul q).substitute vals = some (x * y)) := by
  obtain ⟨hadd, hwadd⟩ := addDouble_spec c hp
  obtain ⟨hmul, hwmul⟩ := mulDouble_spec c hp
  refine ⟨⟨hp.add hq, hwadd, hwmul, fun _ => hp.mul hq⟩, fun vals hlen => ?_⟩
  refine ⟨_, _, substitute_eq hlen hp, substitute_eq hlen hq, ?_, ?_, ?_, fun hfit => ?_⟩
  · rw [substitute_eq hlen (hp.add hq), toMv_add hp hq, map_add]
  · rw [substitute_eq hlen hwadd, hadd, map_add, aeval_C]; rfl
  · rw [substitute_eq hlen hwmul, hmul, map_mul, aeval_C]; rfl
  · rw [substitute_eq hlen (hp.mul hq), toMv_mul hp hq hfit, map_mul]

/-- `x + y` and `y`, unsaved and saved, at `x = 2`, `y = 3`. -/
theorem operators_substitute_sum :
    ((var ⟨0, false⟩ false).add (var ⟨1, false⟩ false)).substitute [2, 3] = some 5 ∧
    (((var ⟨0, false⟩ false).add (var ⟨1, false⟩ false)).mul (var ⟨1, false⟩ true)).substitute [2, 3] = some 15 := by
  have hwf : ∀ (s : Bool) (i : ℕ), i < 2 → WF (fun k => k.id < 2) 0 (var ⟨i, false⟩ s) := fun s i hi =>
    wf_var hi (Nat.zero_le _) s
  have hsum := operators_substitute (hwf false 0 (by decide)) (hwf false 1 (by decide)) 0
  obtain ⟨x, y, hx, hy, hxy, -⟩ := hsum.2 [2, 3] fun k hk => hk
  have hx2 : x = 2 := Option.some.inj (hx.symm.trans (by decide +kernel))
  have hy3 : y = 3 := Option.some.inj (hy.symm.trans (by decide +kernel))
  subst hx2 hy3
  have hmul := operators_substitute hsum.1.1 (hwf true 1 (by decide)) 0
  obtain ⟨u, v, hu, hv, -, -, -, huv⟩ := hmul.2 [2, 3] fun k hk => hk
  have hu5 : u = 5 := Option.some.inj (hu.symm.trans (hxy.trans (by norm_num)))
  have hv3 : v = 3 := Option.some.inj (hv.symm.trans (by decide +kernel))
  subst hu5 hv3
  refine ⟨hxy.trans (by norm_num), (huv fun i e he f hf => ?_).trans (by norm_num)⟩
  have hadd : (var ⟨0, false⟩ false).add (var ⟨1, false⟩ false) =
      .node false ⟨0, false⟩ [(0, var ⟨1, false⟩ false), (1, .const false 1)] := by decide +kernel
  have hf1 : f = 0 ∨ f = 1 := by
    simp only [var, exponents, exponentsMp] at hf
    split_ifs at hf with hi
    · simpa using hf
    · simp at hf
  have he1 : e = 0 ∨ e = 1 := by
    rw [hadd] at he
    simp only [var, exponents, exponentsMp] at he
    split_ifs at he <;> simp at he <;> tauto
  rcases hf1 with rfl | rfl <;> rcases he1 with rfl | rfl <;> decide

/-! ## Coefficients -/

/-- The list holds a value for every symbol of the tree, for a template the one that `t` gives. -/
def Completes (m : Multinomial) (t : ℕ → ℚ) (vals : List ℚ) : Prop :=
  ∀ k ∈ m.symbols, k.id < vals.length ∧ (k.isTempl = true → assignment vals k.id = t k.id)

/-- Every function on the ids is a list of values, as far as the symbols of a tree go. -/
theorem exists_assignment (m : Multinomial) (x : ℕ → ℚ) :
    ∃ vals : List ℚ, ∀ k ∈ m.symbols, k.id < vals.length ∧ assignment vals k.id = x k.id := by
  classical
  let bound := m.symbols.toFinset.sup fun k => k.id + 1
  refine ⟨(List.range bound).map x, fun k hk => ?_⟩
  have hlt : k.id < bound :=
    Finset.le_sup (f := fun k : Symbol => k.id + 1) (List.mem_toFinset.2 hk)
  refine ⟨by simpa using hlt, ?_⟩
  rw [assignment, List.getD_eq_getElem?_getD, List.getElem?_map, List.getElem?_range hlt]
  rfl

/-- Where every template has a larger id than every other symbol, one bound tells them apart. -/
theorem exists_ordered {m : Multinomial}
    (h : ∀ k ∈ m.symbols, ∀ l ∈ m.symbols, k.isTempl = true → l.isTempl = false → l.id < k.id) :
    ∃ N, Ordered (· ∈ m.symbols) N := by
  classical
  -- the bound is the first id after those of the program symbols
  let prog := m.symbols.toFinset.filter fun k => k.isTempl = false
  refine ⟨prog.sup fun k => k.id + 1, fun k hk => ⟨fun ht => ?_, fun hN => ?_⟩⟩
  · refine Finset.sup_le fun l hl => ?_
    obtain ⟨hl, hlt⟩ := Finset.mem_filter.1 hl
    exact h k hk l (List.mem_toFinset.1 hl) ht hlt
  · by_contra ht
    have hkp : k ∈ prog := Finset.mem_filter.2 ⟨List.mem_toFinset.2 hk, by simpa using ht⟩
    have hle : k.id + 1 ≤ prog.sup fun k => k.id + 1 := Finset.le_sup (f := fun k : Symbol => k.id + 1) hkp
    omega

/-- A polynomial vanishes at every completion of the template values exactly when what they leave
of it is the zero polynomial. -/
theorem progPoly_eq_zero_iff_substitute {N : ℕ} {m : Multinomial} (hN : Ordered (· ∈ m.symbols) N) (t : ℕ → ℚ) :
    progPoly N t m = 0 ↔ ∀ vals, Completes m t vals → m.substitute vals = some 0 := by
  have hpoint : ∀ x : ℕ → ℚ, aeval x (progPoly N t m) = aeval (fun i => if N ≤ i then t i else x i) m.toMv :=
    fun x => aeval_specialize (N ≤ ·) t x m.toMv
  constructor
  · intro h0 vals hvals
    rw [substitute_of_symbols fun k hk => (hvals k hk).1]
    have hval := hpoint (assignment vals)
    rw [h0, map_zero] at hval
    rw [hval]
    congr 1
    refine aeval_congr_symbols fun k hk => ?_
    by_cases hle : N ≤ k.id
    · rw [if_pos hle, (hvals k hk).2 ((hN k hk).2 hle)]
    · rw [if_neg hle]
  · intro h
    refine MvPolynomial.funext fun x => ?_
    obtain ⟨vals, hvals⟩ := exists_assignment m fun i => if N ≤ i then t i else x i
    have hcongr := aeval_congr_symbols (y := fun i => if N ≤ i then t i else x i) fun k hk => (hvals k hk).2
    have hsub := h vals fun k hk => ⟨(hvals k hk).1, fun ht => by rw [(hvals k hk).2, if_pos ((hN k hk).1 ht)]⟩
    rw [substitute_of_symbols fun k hk => (hvals k hk).1, hcongr, ← hpoint] at hsub
    rw [map_zero]
    exact Option.some.inj hsub

/-- **Coefficient extraction**: for given template values a polynomial vanishes at all values of
the program symbols exactly when everything `reduce` returns does, and that has templates only. -/
theorem reduce_extracts {p : Multinomial} (h : Increasing b p)
    (hlater : ∀ k ∈ p.symbols, ∀ l ∈ p.symbols, k.isTempl = true → l.isTempl = false → l.id < k.id) (t : ℕ → ℚ) :
    ((∀ vals, Completes p t vals → p.substitute vals = some 0) ↔
      ∀ a ∈ p.reduce, ∀ vals, Completes a t vals → a.substitute vals = some 0) ∧
    ∀ a ∈ p.reduce, ∀ k ∈ a.symbols, k.isTempl = true := by
  obtain ⟨N, hN⟩ := exists_ordered hlater
  have htempl : ∀ a ∈ p.reduce, ∀ k ∈ a.symbols, k.isTempl = true := fun a ha k hk =>
    (hN k (h.reduce_templ hN (fun _ hl => hl) a ha k hk).1).2 (h.reduce_templ hN (fun _ hl => hl) a ha k hk).2
  refine ⟨?_, htempl⟩
  rw [← progPoly_eq_zero_iff_substitute hN, h.progPoly_eq_zero_iff hN (fun _ hl => hl)]
  refine forall₂_congr fun a ha => ⟨fun h0 vals hvals => ?_, fun h0 => ?_⟩
  · rw [substitute_of_symbols fun k hk => (hvals k hk).1,
      aeval_congr_symbols fun k hk => (hvals k hk).2 (htempl a ha k hk), h0]
  · obtain ⟨vals, hvals⟩ := exists_assignment a t
    have hsub := h0 vals fun k hk => ⟨(hvals k hk).1, fun _ => (hvals k hk).2⟩
    rw [substitute_of_symbols fun k hk => (hvals k hk).1, aeval_congr_symbols fun k hk => (hvals k hk).2] at hsub
    exact Option.some.inj hsub

/-- `t * x + t`, with `t` a template: both coefficients are `t`, and at `t = 0` the polynomial vanishes. -/
theorem reduce_extracts_scaled :
    (∀ vals, Completes (node false ⟨0, false⟩ [(0, var ⟨1, true⟩ false), (1, var ⟨1, true⟩ false)]) 0 vals →
      (node false ⟨0, false⟩ [(0, var ⟨1, true⟩ false), (1, var ⟨1, true⟩ false)]).substitute vals = some 0) ∧
    ∀ a ∈ (node false ⟨0, false⟩ [(0, var ⟨1, true⟩ false), (1, var ⟨1, true⟩ false)]).reduce,
      ∀ k ∈ a.symbols, k.isTempl = true := by
  have hwf : WF (fun _ => True) 1 (var ⟨1, true⟩ false) := wf_var trivial (by decide) false
  have hkids : ∀ x ∈ ([(0, var ⟨1, true⟩ false), (1, var ⟨1, true⟩ false)] : Entries), Increasing 1 x.2 := by
    intro x hx
    rcases List.mem_cons.1 hx with rfl | hx
    · exact hwf.increasing
    · rw [List.mem_singleton.1 hx]
      exact hwf.increasing
  have hinc : Increasing 0 (node false ⟨0, false⟩ [(0, var ⟨1, true⟩ false), (1, var ⟨1, true⟩ false)]) :=
    .node (Nat.zero_le _) (by decide) hkids
  obtain ⟨hzero, htempl⟩ := reduce_extracts hinc (by decide) 0
  refine ⟨hzero.2 fun a ha vals hvals => ?_, htempl⟩
  have ha : a = var ⟨1, true⟩ false := by simpa [reduce, reduceMp, var] using ha
  subst ha
  have hvar := hvals ⟨1, true⟩ (by simp [var, symbols])
  rw [substitute_of_symbols fun k hk => (hvals k hk).1, toMv_var, aeval_X, hvar.2 rfl]
  rfl

end Multinomial

end GridSolve.Poly
