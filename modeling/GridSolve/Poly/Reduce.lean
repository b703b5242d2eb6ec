/-
`reduce`, `ret_id_arr` and `cmp_poly` on well-formed trees. When every template has a larger id
than every program symbol, templates lie below program symbols in the tree, and the list `reduce`
returns consists of the coefficients of the monomials in the program symbols: a polynomial vanishes
for given template values exactly when every element of the list does.
-/
import GridSolve.Poly.Product
import GridSolve.Lib.Specialize

namespace GridSolve.Poly

open MvPolynomial GridSolve.Specialize GridSolve.Wrap

/-- Narrowing exponents lowers no degree below a bound that the narrowed polynomial breaks. -/
theorem atMost_of_wrap16 {T : ℕ → Prop} [DecidablePred T] {n : ℕ} {p q : MvPolynomial ℕ ℚ} (hp : Small 65536 p)
    (h : wrap16 p = wrap16 q) (hq : AtMost T n q) : AtMost T n p := by
  intro d hd
  obtain ⟨d', hd', hle⟩ := exists_le_of_wrap_eq narrow (fun a ha b hab => le_of_narrow_eq ha hab) hp h hd
  exact (degIn_mono T hle).trans (hq d' hd')

namespace Multinomial

variable {S : Symbol → Prop}

/-! ## Increasing ids -/

/-- The part of `WF` that does not need the exponent-0 entries: the ids increase along every path, from `b` on, and
the keys of every map are distinct. -/
inductive Increasing : ℕ → Multinomial → Prop
  | const {b : ℕ} {s : Bool} {c : ℚ} : Increasing b (.const s c)
  | node {b : ℕ} {s : Bool} {k : Symbol} {mp : Entries} (low : b ≤ k.id) (nodup : (mp.map Prod.fst).Nodup)
      (kids : ∀ x ∈ mp, Increasing (k.id + 1) x.2) : Increasing b (.node s k mp)

theorem increasing_node_iff {b : ℕ} {s : Bool} {k : Symbol} {mp : Entries} : Increasing b (.node s k mp) ↔
    b ≤ k.id ∧ (mp.map Prod.fst).Nodup ∧ ∀ x ∈ mp, Increasing (k.id + 1) x.2 := by
  constructor
  · rintro (_ | ⟨h1, h2, h3⟩)
    exact ⟨h1, h2, h3⟩
  · rintro ⟨h1, h2, h3⟩
    exact .node h1 h2 h3

theorem WF.increasing {b : ℕ} {m : Multinomial} (h : WF S b m) : Increasing b m := by
  induction h with
  | const => exact .const
  | node h1 _ h3 _ _ ih => exact .node h1 h3 ih

theorem mem_symbols_node {s : Bool} {k l : Symbol} {mp : Entries} :
    l ∈ (node s k mp).symbols ↔ l = k ∨ ∃ x ∈ mp, l ∈ x.2.symbols := by
  rw [symbols, symbolsMp_eq, List.mem_cons, List.mem_flatMap]

theorem Increasing.le_id {b : ℕ} {m : Multinomial} (h : Increasing b m) : ∀ k ∈ m.symbols, b ≤ k.id := by
  induction h with
  | const =>
    intro k hk
    cases hk
  | node h1 _ _ ih =>
    intro l hl
    rcases mem_symbols_node.1 hl with rfl | ⟨x, hx, hl⟩
    · exact h1
    · have := ih x hx l hl
      omega

theorem mem_vars_listSum {i : ℕ} : ∀ {l : List (MvPolynomial ℕ ℚ)}, i ∈ l.sum.vars → ∃ p ∈ l, i ∈ p.vars
  | [], h => by simp at h
  | p :: l, h => by
    classical
    rw [List.sum_cons] at h
    rcases Finset.mem_union.1 (vars_add_subset _ _ h) with h | h
    · exact ⟨p, List.mem_cons_self, h⟩
    · obtain ⟨q, hq, hi⟩ := mem_vars_listSum h
      exact ⟨q, List.mem_cons_of_mem p hq, hi⟩

/-- The variables of the denotation are ids of symbols of the tree. -/
theorem exists_symbol_of_vars {m : Multinomial} : ∀ i ∈ m.toMv.vars, ∃ k ∈ m.symbols, k.id = i := by
  classical
  induction m with
  | const s c =>
    intro i hi
    simp at hi
  | node s k mp ih =>
    intro i hi
    rw [toMv_node, toMvMp_eq_sum] at hi
    obtain ⟨p, hp, hi⟩ := mem_vars_listSum hi
    obtain ⟨x, hx, rfl⟩ := List.mem_map.1 hp
    rcases Finset.mem_union.1 (vars_mul _ _ hi) with hi | hi
    · have hki := vars_pow _ _ hi
      rw [vars_X, Finset.mem_singleton] at hki
      exact ⟨k, mem_symbols_node.2 (.inl rfl), hki.symm⟩
    · obtain ⟨l, hl, rfl⟩ := ih x hx i hi
      exact ⟨l, mem_symbols_node.2 (.inr ⟨x, hx, hl⟩), rfl⟩

/-- An id below all those of the tree does not occur in the denotation. -/
theorem Increasing.degreeOf_eq_zero {b i : ℕ} {m : Multinomial} (h : Increasing b m) (hi : i < b) :
    m.toMv.degreeOf i = 0 := by
  by_contra hne
  obtain ⟨k, hk, rfl⟩ := exists_symbol_of_vars i (mem_vars_iff_degreeOf_ne_zero.2 hne)
  exact absurd (h.le_id k hk) (not_le.2 hi)

theorem Increasing.kids_free {b : ℕ} {s : Bool} {k : Symbol} {mp : Entries} (h : Increasing b (.node s k mp)) :
    ∀ x ∈ mp, x.2.toMv.degreeOf k.id = 0 := fun x hx =>
  ((increasing_node_iff.1 h).2.2 x hx).degreeOf_eq_zero (Nat.lt_succ_self _)

/-! ## Coefficients of a node -/

/-- The entries of a map with their coefficients read as polynomials. -/
noncomputable def powersMp (mp : Entries) : List (ℕ × MvPolynomial ℕ ℚ) := mp.map fun x => (x.1.toNat, x.2.toMv)

theorem toMv_node_byPowers (s : Bool) (k : Symbol) (mp : Entries) :
    (node s k mp).toMv = byPowers k.id (powersMp mp) := by
  rw [toMv_node, toMvMp_eq_sum, byPowers, powersMp, List.map_map]; rfl

theorem toNat_nodup {α : Type*} {mp : Entries} (f : Multinomial → α) (h : (mp.map Prod.fst).Nodup) :
    ((mp.map fun x => (x.1.toNat, f x.2)).map Prod.fst).Nodup := by
  have : ((mp.map fun x => (x.1.toNat, f x.2)).map Prod.fst) = (mp.map Prod.fst).map UInt16.toNat := by simp
  rw [this]
  exact h.map fun _ _ h => UInt16.toNat_inj.1 h

theorem WF.kids_free {b : ℕ} {s : Bool} {k : Symbol} {mp : Entries} (h : WF S b (.node s k mp)) :
    ∀ x ∈ mp, x.2.toMv.degreeOf k.id = 0 := h.increasing.kids_free

/-- An entry of a node has the degree of the node, less what the symbol of the node contributes. -/
theorem WF.degIn_kid {b n : ℕ} {s : Bool} {k : Symbol} {mp : Entries} {T : ℕ → Prop} [DecidablePred T]
    (h : WF S b (.node s k mp)) (hT : AtMost T n (Multinomial.node s k mp).toMv) {x : UInt16 × Multinomial}
    (hx : x ∈ mp) {d : ℕ →₀ ℕ} (hd : coeff d x.2.toMv ≠ 0) : degIn T d + (if T k.id then x.1.toNat else 0) ≤ n := by
  rw [toMv_node_byPowers] at hT
  refine hT.of_byPowers (toNat_nodup _ (wf_node_iff.1 h).2.2.1) ?_ (List.mem_map.2 ⟨x, hx, rfl⟩) hd
  intro y hy
  obtain ⟨z, hz, rfl⟩ := List.mem_map.1 hy
  exact h.kids_free z hz

theorem WF.atMost_kid {b n : ℕ} {s : Bool} {k : Symbol} {mp : Entries} {T : ℕ → Prop} [DecidablePred T]
    (h : WF S b (.node s k mp)) (hT : AtMost T n (Multinomial.node s k mp).toMv) {x : UInt16 × Multinomial}
    (hx : x ∈ mp) : AtMost T n x.2.toMv := fun _ hd => le_of_add_le_left (h.degIn_kid hT hx hd)

/-! ## Ids along a path -/

theorem WF.symbols {b : ℕ} {m : Multinomial} (h : WF S b m) : ∀ k ∈ m.symbols, S k := by
  induction h with
  | const => intro k hk; simp [Multinomial.symbols] at hk
  | node h1 h2 _ _ _ ih =>
    intro l hl
    rcases mem_symbols_node.1 hl with rfl | ⟨x, hx, hl⟩
    · exact h2
    · exact ih x hx l hl

theorem WF.of_symbols {b : ℕ} {m : Multinomial} (h : WF S b m) {S' : Symbol → Prop} (hS : ∀ k ∈ m.symbols, S' k) :
    WF S' b m := by
  induction h with
  | const => exact .const
  | @node b s k mp h1 _ h3 h4 _ ih =>
    rw [Multinomial.symbols, symbolsMp_eq, List.forall_mem_cons, List.forall_mem_flatMap] at hS
    exact .node h1 hS.1 h3 h4 fun x hx => ih x hx (hS.2 x hx)

theorem WF.vars {b : ℕ} {m : Multinomial} (h : WF S b m) : ∀ i ∈ m.toMv.vars, ∃ k, S k ∧ k.id = i := fun i hi => by
  obtain ⟨k, hk, hki⟩ := exists_symbol_of_vars i hi
  exact ⟨k, h.symbols k hk, hki⟩

/-! ## `reduce` -/

/-- The program symbols are those with ids below `N`, the templates those from `N` on. -/
def Ordered (S : Symbol → Prop) (N : ℕ) : Prop := ∀ k, S k → (k.isTempl = true ↔ N ≤ k.id)

theorem reduce_node_templ {s : Bool} {k : Symbol} {mp : Entries} (h : k.isTempl = true) :
    (node s k mp).reduce = [.node s k mp] := by rw [reduce, if_pos h]

theorem reduce_node_prog {s : Bool} {k : Symbol} {mp : Entries} (h : k.isTempl = false) :
    (node s k mp).reduce = mp.flatMap fun x => x.2.reduce := by rw [reduce, if_neg (by simp [h]), reduceMp_eq]

/-- Below a template there are only templates. -/
theorem Increasing.templ_of_root {b N : ℕ} {s : Bool} {k : Symbol} {mp : Entries} (hS : Ordered S N)
    (hsym : ∀ l ∈ (Multinomial.node s k mp).symbols, S l) (h : Increasing b (.node s k mp)) (hk : k.isTempl = true) :
    ∀ l ∈ (Multinomial.node s k mp).symbols, N ≤ l.id := by
  obtain ⟨-, h2, h3⟩ := increasing_node_iff.1 h
  have hN := (hS k (hsym k (mem_symbols_node.2 (.inl rfl)))).1 hk
  intro l hl
  exact hN.trans ((Increasing.node le_rfl h2 h3 : Increasing k.id (.node s k mp)).le_id l hl)

/-- What `reduce` returns are polynomials in the templates. -/
theorem Increasing.reduce_templ {b N : ℕ} {m : Multinomial} (hS : Ordered S N) (hsym : ∀ l ∈ m.symbols, S l)
    (h : Increasing b m) : ∀ a ∈ m.reduce, ∀ l ∈ a.symbols, l ∈ m.symbols ∧ N ≤ l.id := by
  induction m generalizing b with
  | const s c =>
    intro a ha l hl
    rw [Multinomial.reduce, List.mem_singleton] at ha
    subst ha
    cases hl
  | node s k mp ih =>
    obtain ⟨-, -, h3⟩ := increasing_node_iff.1 h
    cases hk : k.isTempl with
    | true =>
      intro a ha l hl
      rw [reduce_node_templ hk, List.mem_singleton] at ha
      subst ha
      exact ⟨hl, h.templ_of_root hS hsym hk l hl⟩
    | false =>
      intro a ha l hl
      rw [reduce_node_prog hk] at ha
      obtain ⟨x, hx, ha⟩ := List.mem_flatMap.1 ha
      obtain ⟨h1, h2⟩ := ih x hx (fun l hl => hsym l (mem_symbols_node.2 (.inr ⟨x, hx, hl⟩))) (h3 x hx) a ha l hl
      exact ⟨mem_symbols_node.2 (.inr ⟨x, hx, h1⟩), h2⟩

theorem WF.of_reduce {b : ℕ} {m : Multinomial} (h : WF S b m) : ∀ a ∈ m.reduce, WF S 0 a := by
  induction m generalizing b with
  | const s c => intro a ha; simp only [Multinomial.reduce, List.mem_singleton] at ha; subst ha; exact .const
  | node s k mp ih =>
    intro a ha
    cases hk : k.isTempl with
    | true => rw [reduce_node_templ hk, List.mem_singleton] at ha; subst ha; exact h.low (Nat.zero_le _)
    | false =>
      rw [reduce_node_prog hk] at ha
      obtain ⟨x, hx, ha⟩ := List.mem_flatMap.1 ha
      exact ih x hx ((wf_node_iff.1 h).2.2.2.2 x hx) a ha

theorem WF.reduce {b N : ℕ} {m : Multinomial} (hS : Ordered S N) (h : WF S b m) :
    ∀ a ∈ m.reduce, WF (fun k => S k ∧ N ≤ k.id) 0 a := fun a ha =>
  (h.of_reduce a ha).of_symbols fun l hl =>
    ⟨(h.of_reduce a ha).symbols l hl, (h.increasing.reduce_templ hS h.symbols a ha l hl).2⟩

theorem reduce_atMost {b n : ℕ} {T : ℕ → Prop} [DecidablePred T] {m : Multinomial} (h : WF S b m)
    (hT : AtMost T n m.toMv) : ∀ a ∈ m.reduce, AtMost T n a.toMv := by
  induction m generalizing b with
  | const s c => intro a ha; simp only [Multinomial.reduce, List.mem_singleton] at ha; subst ha; exact hT
  | node s k mp ih =>
    intro a ha
    cases hk : k.isTempl with
    | true => rw [reduce_node_templ hk, List.mem_singleton] at ha; subst ha; exact hT
    | false =>
      rw [reduce_node_prog hk] at ha
      obtain ⟨x, hx, ha⟩ := List.mem_flatMap.1 ha
      exact ih x hx ((wf_node_iff.1 h).2.2.2.2 x hx) (h.atMost_kid hT hx) a ha

variable {K : Type*} [CommRing K] [Algebra ℚ K]

/-- The polynomial in the program symbols that the values `v` of the templates leave. -/
noncomputable def progPoly (N : ℕ) (v : ℕ → K) (m : Multinomial) : MvPolynomial ℕ K :=
  specialize (N ≤ ·) v m.toMv

theorem progPoly_node {N : ℕ} (v : ℕ → K) {s : Bool} {k : Symbol} {mp : Entries} (hk : ¬ N ≤ k.id) :
    progPoly N v (node s k mp) = byPowers k.id (mp.map fun x => (x.1.toNat, progPoly N v x.2)) := by
  rw [progPoly, toMv_node, toMvMp_eq_sum, map_list_sum, byPowers, List.map_map, List.map_map]
  congr 1
  refine List.map_congr_left fun x _ => ?_
  simp [progPoly, specialize_X_neg (N ≤ ·) v hk]

/-- **`reduce` extracts the coefficients**: for given template values the polynomial is zero
exactly when every element of the list is. -/
theorem Increasing.progPoly_eq_zero_iff {b N : ℕ} {m : Multinomial} (hS : Ordered S N) (hsym : ∀ l ∈ m.symbols, S l)
    (h : Increasing b m) (v : ℕ → K) : progPoly N v m = 0 ↔ ∀ a ∈ m.reduce, aeval v a.toMv = 0 := by
  induction m generalizing b with
  | const s c => rw [progPoly, toMv_const, specialize_C, C_eq_zero, Multinomial.reduce, List.forall_mem_singleton,
      toMv_const, aeval_C]
  | node s k mp ih =>
    obtain ⟨-, h2, h3⟩ := increasing_node_iff.1 h
    have hk' := hS k (hsym k (mem_symbols_node.2 (.inl rfl)))
    cases hk : k.isTempl with
    | true =>
      rw [reduce_node_templ hk, List.forall_mem_singleton, progPoly, specialize_of_vars, C_eq_zero]
      intro i hi
      obtain ⟨l, hl, rfl⟩ := exists_symbol_of_vars i hi
      exact h.templ_of_root hS hsym hk l hl
    | false =>
      have hN : ¬ N ≤ k.id := fun hN => by simpa [hk] using hk'.2 hN
      rw [reduce_node_prog hk, progPoly_node v hN, byPowers_eq_zero_iff (toNat_nodup _ h2), List.forall_mem_flatMap]
      · rw [List.forall_mem_map]
        exact forall₂_congr fun x hx =>
          ih x hx (fun l hl => hsym l (mem_symbols_node.2 (.inr ⟨x, hx, hl⟩))) (h3 x hx)
      · intro y hy
        obtain ⟨x, hx, rfl⟩ := List.mem_map.1 hy
        exact degreeOf_specialize _ v (h.kids_free x hx)

theorem progPoly_eq_zero_iff {b N : ℕ} {m : Multinomial} (hS : Ordered S N) (h : WF S b m) (v : ℕ → K) :
    progPoly N v m = 0 ↔ ∀ a ∈ m.reduce, aeval v a.toMv = 0 := h.increasing.progPoly_eq_zero_iff hS h.symbols v

/-! ## `ret_id_arr` and `cmp_poly` -/

theorem mem_retIdArr {i : ℕ} {m : Multinomial} : i ∈ m.retIdArr ↔ ∃ k ∈ m.symbols, k.id = i := by
  induction m with
  | const s c => simp [retIdArr, symbols]
  | node s k mp ih =>
    simp only [retIdArr, symbols, retIdArrMp_eq, symbolsMp_eq, List.mem_cons, List.mem_flatMap]
    constructor
    · rintro (rfl | ⟨x, hx, hi⟩)
      · exact ⟨k, .inl rfl, rfl⟩
      · obtain ⟨l, hl, rfl⟩ := (ih x hx).1 hi
        exact ⟨l, .inr ⟨x, hx, hl⟩, rfl⟩
    · rintro ⟨l, rfl | ⟨x, hx, hl⟩, rfl⟩
      · exact .inl rfl
      · exact .inr ⟨x, hx, (ih x hx).2 ⟨l, hl, rfl⟩⟩

/-- `cmp_poly` asks for a symbol of the tree with an id of the list. -/
theorem cmpPoly_iff {v : List ℕ} {m : Multinomial} : m.cmpPoly v = true ↔ ∃ k ∈ m.symbols, k.id ∈ v := by
  induction m with
  | const s c => simp [cmpPoly, symbols]
  | node s k mp ih =>
    simp only [cmpPoly, symbols, cmpPolyMp_eq, symbolsMp_eq, Bool.or_eq_true, List.contains_iff_mem,
      List.any_eq_true, List.mem_cons, List.mem_flatMap]
    constructor
    · rintro (h | ⟨x, hx, h⟩)
      · exact ⟨k, .inl rfl, h⟩
      · obtain ⟨l, hl, hv⟩ := (ih x hx).1 h
        exact ⟨l, .inr ⟨x, hx, hl⟩, hv⟩
    · rintro ⟨l, rfl | ⟨x, hx, hl⟩, hv⟩
      · exact .inl hv
      · exact .inr ⟨x, hx, (ih x hx).2 ⟨l, hl, hv⟩⟩

/-- A variable of the denotation is listed by `ret_id_arr`. -/
theorem mem_retIdArr_of_vars {b i : ℕ} {m : Multinomial} (h : WF S b m) (hi : i ∈ m.toMv.vars) : i ∈ m.retIdArr := by
  have hsymbols : WF (· ∈ m.symbols) b m := h.of_symbols fun _ hk => hk
  exact mem_retIdArr.2 (hsymbols.vars i hi)

end Multinomial

end GridSolve.Poly
