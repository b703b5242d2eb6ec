/-
Multiplication. `operator*` adds exponents as `int`s and narrows the sum to the `uint16_t` key, so
the product of two trees denotes the product of their polynomials with every exponent reduced
modulo `2^16`: it is exact in the ring `wrap16` maps to, and exact outright when no exponent of the
true product reaches `2^16`.
-/
import GridSolve.Poly.Arith
import Mathlib.Data.UInt

namespace GridSolve.Poly

open MvPolynomial GridSolve.Wrap

/-! ## Sixteen-bit exponents -/

/-- Narrowing to `uint16_t`. -/
def narrow : ℕ →+ UInt16 where
  toFun := UInt16.ofNat
  map_zero' := rfl
  map_add' := UInt16.ofNat_add

theorem narrow_toNat (e : UInt16) : narrow e.toNat = e := UInt16.ofNat_toNat

theorem le_of_narrow_eq {a b : ℕ} (ha : a < 65536) (h : narrow a = narrow b) : a ≤ b := by
  have := congrArg UInt16.toNat h
  simp only [narrow, AddMonoidHom.coe_mk, ZeroHom.coe_mk, UInt16.toNat_ofNat'] at this
  omega

theorem narrow_injOn : Set.InjOn narrow {n | n < 65536} := fun _ ha _ hb h =>
  le_antisymm (le_of_narrow_eq ha h) (le_of_narrow_eq hb h.symm)

/-- Polynomials with their exponents narrowed. -/
noncomputable def wrap16 : MvPolynomial ℕ ℚ →+* WPoly ℕ ℚ UInt16 := wrap narrow

theorem wrap16_inj {p q : MvPolynomial ℕ ℚ} (hp : Small 65536 p) (hq : Small 65536 q)
    (h : wrap16 p = wrap16 q) : p = q := wrap_injOn narrow narrow_injOn hp hq h

theorem wrap16_X_add (i : ℕ) (a b : UInt16) :
    wrap16 (X i ^ (a + b).toNat) = wrap16 (X i ^ a.toNat) * wrap16 (X i ^ b.toNat) := by
  rw [← map_mul, ← pow_add]
  exact wrap_X_pow_congr narrow i (by rw [narrow_toNat, map_add, narrow_toNat, narrow_toNat])

namespace Multinomial

variable {S : Symbol → Prop}

/-- A symbol occurs once on a path, so no exponent of a well-formed tree exceeds its key. -/
theorem WF.small {b : ℕ} {m : Multinomial} (h : WF S b m) :
    Small 65536 m.toMv ∧ ∀ i < b, m.toMv.degreeOf i = 0 := by
  induction h with
  | const => exact ⟨fun i => by simp [degreeOf_C], fun i _ => by simp [degreeOf_C]⟩
  | @node b s k mp h1 _ h3 h4 _ ih =>
    rw [toMv_node, toMvMp_eq_sum]
    have hterm : ∀ x ∈ mp, ∀ i, (X k.id ^ x.1.toNat * x.2.toMv : MvPolynomial ℕ ℚ).degreeOf i ≤
        if i = k.id then x.1.toNat else x.2.toMv.degreeOf i := by
      intro x hx i
      refine (degreeOf_mul_le i _ _).trans ?_
      by_cases hi : i = k.id
      · subst hi
        rw [(ih x hx).2 k.id (Nat.lt_succ_self _), degreeOf_X_self_pow]; simp
      · rw [degreeOf_X_pow_of_ne _ hi]; simp [hi]
    constructor
    · refine Small.listSum (by norm_num) fun p hp => ?_
      obtain ⟨x, hx, rfl⟩ := List.mem_map.1 hp
      intro i
      refine (hterm x hx i).trans_lt ?_
      split_ifs
      · exact x.1.toNat_lt
      · exact (ih x hx).1 i
    · intro i hi
      rw [← Nat.lt_one_iff]
      have hs : ∀ l : List (MvPolynomial ℕ ℚ), (∀ p ∈ l, p.degreeOf i = 0) → l.sum.degreeOf i < 1 := by
        intro l hl
        induction l with
        | nil => simp
        | cons p l ihl =>
          rw [List.sum_cons]
          exact (degreeOf_add_le i p l.sum).trans_lt (max_lt (by rw [hl p (List.mem_cons_self ..)]; norm_num)
            (ihl fun q hq => hl q (List.mem_cons_of_mem _ hq)))
      refine hs _ fun p hp => ?_
      obtain ⟨x, hx, rfl⟩ := List.mem_map.1 hp
      have := hterm x hx i
      rw [if_neg (by omega), (ih x hx).2 i (by omega)] at this
      omega

/-! ## Loops with a last iteration -/

theorem mem_mapLast {α β : Type} {f : Bool → α → β} : ∀ {l : List α} {y : β}, y ∈ mapLast f l →
    ∃ last, ∃ x ∈ l, y = f last x
  | [], y, h => by simp [mapLast] at h
  | [x], y, h => by simp only [mapLast, List.mem_singleton] at h; exact ⟨true, x, by simp, h⟩
  | x :: z :: l, y, h => by
    simp only [mapLast, List.mem_cons] at h
    rcases h with rfl | h
    · exact ⟨false, x, by simp, rfl⟩
    · obtain ⟨last, u, hu, rfl⟩ := mem_mapLast (l := z :: l) h
      exact ⟨last, u, List.mem_cons_of_mem _ hu, rfl⟩

/-- A value that does not depend on the flag of the iteration. -/
theorem map_mapLast {α β γ : Type} {f : Bool → α → β} {h : β → γ} {g : α → γ} : ∀ {l : List α},
    (∀ last, ∀ x ∈ l, h (f last x) = g x) → (mapLast f l).map h = l.map g
  | [], _ => rfl
  | [x], H => by simp [mapLast, H true x (by simp)]
  | x :: z :: l, H => by
    rw [mapLast, List.map_cons, H false x (by simp),
      map_mapLast (l := z :: l) fun last u hu => H last u (List.mem_cons_of_mem _ hu)]
    rfl

/-! ## The double loop -/

theorem accumulate_spec (i : ℕ) {b : ℕ} {ans : Entries} {k : UInt16} {prod : Multinomial}
    (hn : (ans.map Prod.fst).Nodup) (ha : ∀ x ∈ ans, WF S b x.2) (hp : WF S b prod) :
    toMvMp i (accumulate ans k prod) = toMvMp i ans + X i ^ k.toNat * prod.toMv ∧
      ((accumulate ans k prod).map Prod.fst).Nodup ∧ ∀ x ∈ accumulate ans k prod, WF S b x.2 := by
  unfold accumulate
  cases h : ans.lookup k with
  | none =>
    have hperm := Entries.perm_put_of_none h prod
    refine ⟨?_, Entries.keys_put_nodup hn k prod, fun x hx => ?_⟩
    · rw [toMvMp_perm i hperm, toMvMp, add_comm]
    · rcases Entries.mem_put hx with rfl | hx
      · exact hp
      · exact ha x hx
  | some u =>
    have hu := ha _ (mem_of_lookup h)
    have hn' := Entries.keys_put_nodup hn k (u.add prod)
    refine ⟨?_, hn', fun x hx => ?_⟩
    · have hc : ∀ e, coef (ans.put k (u.add prod)) e = coef ans e + if e = k then prod.toMv else 0 := by
        intro e
        unfold coef
        rw [Entries.lookup_put hn]
        by_cases he : e = k
        · subst he; simp [h, toMv_add hu hp]
        · simp [he]
      rw [toMvMp_eq_coef i hn', toMvMp_eq_coef i hn]
      simp only [hc, mul_add, Finset.sum_add_distrib, mul_ite, mul_zero, Finset.sum_ite_eq', Finset.mem_univ,
        if_true]
    · rcases Entries.mem_put hx with rfl | hx
      · exact hu.add hp
      · exact ha x hx

theorem accumulate_foldl (i : ℕ) {b : ℕ} : ∀ (l ans : Entries), (ans.map Prod.fst).Nodup →
    (∀ x ∈ ans, WF S b x.2) → (∀ x ∈ l, WF S b x.2) →
    toMvMp i (l.foldl (fun ans x => accumulate ans x.1 x.2) ans) = toMvMp i ans + toMvMp i l ∧
      ((l.foldl (fun ans x => accumulate ans x.1 x.2) ans).map Prod.fst).Nodup ∧
      ∀ x ∈ l.foldl (fun ans x => accumulate ans x.1 x.2) ans, WF S b x.2
  | [], ans, hn, ha, _ => ⟨by simp [toMvMp], hn, ha⟩
  | x :: l, ans, hn, ha, hl => by
    obtain ⟨e1, e2, e3⟩ := accumulate_spec i (k := x.1) hn ha (hl x (List.mem_cons_self ..))
    obtain ⟨f1, f2, f3⟩ := accumulate_foldl i l _ e2 e3 fun y hy => hl y (List.mem_cons_of_mem _ hy)
    exact ⟨by rw [List.foldl_cons, f1, e1, toMvMp, add_assoc], f2, f3⟩

/-- A tree with the flags of a node changed is a node of the same symbol. -/
theorem node_of_bare {m : Multinomial} {s : Bool} {k : Symbol} {mp : Entries} (h : m.bare = (node s k mp).bare) :
    m = node m.save k m.mp := by
  cases m with
  | const s' c => simp [bare] at h
  | node s' k' mp' =>
    simp only [bare, node.injEq, true_and] at h
    rw [h.1]; rfl

theorem wrap16_toMvMp (i : ℕ) (mp : Entries) :
    wrap16 (toMvMp i mp) = (mp.map fun x => wrap16 (X i ^ x.1.toNat) * wrap16 x.2.toMv).sum := by
  rw [toMvMp_eq_sum, map_list_sum, List.map_map]
  congr 1
  exact List.map_congr_left fun x _ => by simp

/-- One operand times every entry of the other node. -/
theorem mulEach_spec (times : Bool → Multinomial → Multinomial) {b : ℕ} {s : Bool} {k : Symbol} {mp : Entries}
    {Q : WPoly ℕ ℚ UInt16} (h : WF S b (.node s k mp))
    (htimes : ∀ last, ∀ x ∈ mp, wrap16 (times last x.2).toMv = wrap16 x.2.toMv * Q ∧
      WF S (k.id + 1) (times last x.2)) :
    wrap16 (simplify (node false k (mapLast (fun last a => (a.1, times last a.2)) mp))).toMv
        = wrap16 (node s k mp).toMv * Q ∧
      WF S b (simplify (node false k (mapLast (fun last a => (a.1, times last a.2)) mp))) := by
  obtain ⟨h1, h2, h3, h4, h5⟩ := wf_node_iff.1 h
  constructor
  · rw [toMv_simplify, toMv_node, toMv_node, wrap16_toMvMp, wrap16_toMvMp, ← List.sum_map_mul_right]
    congr 1
    refine map_mapLast fun last x hx => ?_
    simp only
    rw [(htimes last x hx).1, mul_assoc]
  · refine wf_simplify h1 h2 ?_ fun x hx => ?_
    · have hk : (mapLast (fun last (a : UInt16 × Multinomial) => (a.1, times last a.2)) mp).map Prod.fst
          = mp.map Prod.fst := map_mapLast fun _ _ _ => rfl
      rw [hk]; exact h3
    · obtain ⟨last, y, hy, rfl⟩ := mem_mapLast hx
      exact (htimes last y hy).2

theorem crossMp_spec (times : Multinomial → Multinomial → Multinomial) (sp : Bool) (mp : Entries) {i b : ℕ}
    {q : Multinomial} {k : Symbol} {sq : Bool} {mq : Entries} (hq : q = .node sq k mq) (hk : k.id = i)
    (htimes : ∀ x ∈ mp, ∀ x' q' : Multinomial, ∀ y, x'.bare = x.2.bare → q'.bare = q.bare → y ∈ q'.mp →
      wrap16 (times x' y.2).toMv = wrap16 x.2.toMv * wrap16 y.2.toMv ∧ WF S b (times x' y.2)) :
    wrap16 (toMvMp i (crossMp times sp mp q)) = wrap16 (toMvMp i mp) * wrap16 q.toMv ∧
      ∀ x ∈ crossMp times sp mp q, WF S b x.2 := by
  have hheld : ∀ lasta, wrap16 (toMvMp i (held q.save mp.length lasta q).mp) = wrap16 q.toMv := by
    intro lasta
    have hb := bare_held q.save mp.length lasta q
    have := node_of_bare (hb.trans (by rw [hq]))
    rw [← toMv_congr hb, this, toMv_node, hk]; rfl
  constructor
  · unfold crossMp
    rw [wrap16_toMvMp, List.map_flatten, List.sum_flatten, List.map_map, wrap16_toMvMp i mp,
      ← List.sum_map_mul_right]
    congr 1
    refine map_mapLast fun lasta x hx => ?_
    rw [← hheld lasta, wrap16_toMvMp, ← List.sum_map_mul_left]
    simp only [Function.comp_apply]
    congr 1
    refine map_mapLast fun lastb y hy => ?_
    simp only
    rw [(htimes x hx _ _ y (bare_held _ _ _ _) (bare_held _ _ _ _) hy).1, wrap16_X_add]
    ring
  · intro z hz
    obtain ⟨l, hl, hz⟩ := List.mem_flatten.1 hz
    obtain ⟨lasta, x, hx, rfl⟩ := mem_mapLast hl
    obtain ⟨lastb, y, hy, rfl⟩ := mem_mapLast hz
    exact (htimes x hx _ _ y (bare_held _ _ _ _) (bare_held _ _ _ _) hy).2

/-! ## Multiplication -/

theorem mulFuel_spec : ∀ (n : ℕ) {b : ℕ} {p q : Multinomial}, p.size + q.size ≤ n → WF S b p → WF S b q →
    wrap16 (mulFuel n p q).toMv = wrap16 p.toMv * wrap16 q.toMv ∧ WF S b (mulFuel n p q)
  | 0, b, p, q, hn, _, _ => by cases p <;> simp [size] at hn
  | n + 1, b, .const s c, q, hn, hp, hq => by
    obtain ⟨h1, h2⟩ := mulDouble_spec c hq
    simp only [mulFuel]
    exact ⟨by rw [h1, toMv_const, map_mul, mul_comm], h2⟩
  | n + 1, b, .node s k mp, .const s' c, hn, hp, hq => by
    obtain ⟨h1, h2⟩ := mulDouble_spec c hp
    simp only [mulFuel]
    exact ⟨by rw [h1, toMv_const, map_mul], h2⟩
  | n + 1, b, .node sp k mp, .node sq l mq, hn, hp, hq => by
    obtain ⟨p1, p2, p3, p4, p5⟩ := wf_node_iff.1 hp
    obtain ⟨q1, q2, q3, q4, q5⟩ := wf_node_iff.1 hq
    simp only [size] at hn
    simp only [mulFuel]
    split_ifs with h1 h2
    · obtain ⟨e1, e2⟩ := mulEach_spec (fun last a => mulFuel n a (held sp mq.length last (.node sp k mp))) hq
        fun last x hx => by
          have hb := bare_held sp mq.length last (node sp k mp)
          have := mulFuel_spec n (by have := size_mem hx; rw [size_congr hb]; simp only [size]; omega) (q5 x hx)
            ((.node h1 p2 p3 p4 p5 : WF S (l.id + 1) (.node sp k mp)).congr hb.symm)
          rwa [toMv_congr hb] at this
      exact ⟨by rw [e1, mul_comm], e2⟩
    · exact mulEach_spec (fun last a => mulFuel n a (held sq mp.length last (.node sq l mq))) hp
        fun last x hx => by
          have hb := bare_held sq mp.length last (node sq l mq)
          have := mulFuel_spec n (by have := size_mem hx; rw [size_congr hb]; simp only [size]; omega) (p5 x hx)
            ((.node h2 q2 q3 q4 q5 : WF S (k.id + 1) (.node sq l mq)).congr hb.symm)
          rwa [toMv_congr hb] at this
    · have hkl : k.id = l.id := by omega
      obtain ⟨e1, e2⟩ := crossMp_spec (S := S) (b := k.id + 1) (mulFuel n) sp mp
          (q := .node sq l mq) rfl hkl.symm fun x hx x' q' y hx' hq' hy => by
          have hsz : q'.size = (node sq l mq).size := size_congr hq'
          have hwf : WF S b q' := hq.congr hq'.symm
          rw [node_of_bare hq'] at hsz hwf
          simp only [size] at hsz
          obtain ⟨-, -, -, -, w5⟩ := wf_node_iff.1 hwf
          have := mulFuel_spec n (by have := size_mem hx; have := size_mem hy; rw [size_congr hx']; omega)
            ((p5 x hx).congr hx'.symm) (hkl ▸ w5 y hy)
          rwa [toMv_congr hx'] at this
      obtain ⟨f1, f2, f3⟩ := accumulate_foldl k.id (crossMp (mulFuel n) sp mp (.node sq l mq)) [] (by simp)
        (by simp) e2
      refine ⟨?_, wf_simplify p1 p2 f2 f3⟩
      rw [toMv_simplify, toMv_node, f1, toMvMp, zero_add, e1, toMv_node sp]

/-- The product of two trees, its exponents narrowed. -/
theorem wrap16_mul {b : ℕ} {p q : Multinomial} (hp : WF S b p) (hq : WF S b q) :
    wrap16 (p.mul q).toMv = wrap16 (p.toMv * q.toMv) := by
  rw [mul, (mulFuel_spec _ le_rfl hp hq).1, map_mul]

theorem WF.mul {b : ℕ} {p q : Multinomial} (hp : WF S b p) (hq : WF S b q) : WF S b (p.mul q) :=
  (mulFuel_spec _ le_rfl hp hq).2

end Multinomial

end GridSolve.Poly
