/-
`gen_pol`. A run creates one template for each product of left-hand sides it forms, in the order
`products` lists them, and returns the sum of template times product, its exponents narrowed to
16 bits. `products` lists every admissible multiset of left-hand sides exactly once. The run
returns when there is an index for every template and no degree overflows.
-/
import GridSolve.Core.Handelman
import GridSolve.Lib.Trace
import Mathlib.Data.Multiset.Sort

namespace GridSolve.Core

open MvPolynomial GridSolve.Poly
open GridSolve.Poly.Multinomial (WF toMv_add wrap16_mul toMv_var wf_var)
open GridSolve.Trace (bind_ok)

/-! ## Templates -/

/-- The number of symbols is the number of variables: all of them were made through the table. -/
def World.Synced (w : World) : Prop := w.numSymbols = w.v.varArr.length

/-- The template with id `i`. -/
def templ (i : ℕ) : Multinomial := .var ⟨i, true⟩ true

/-- `w'` is `w` with `n` more templates, each with its inequality. -/
structure Extends (w w' : World) (n : ℕ) : Prop where
  synced : w'.Synced
  size : w'.numSymbols = w.numSymbols + n
  ineq : w'.s.ineq = w.s.ineq ++ (List.range' w.numSymbols n).map fun i => ((templ i).setSave true).copy
  eq : w'.s.eq = w.s.eq

theorem Extends.refl {w : World} (h : w.Synced) : Extends w w 0 := ⟨h, rfl, by simp, rfl⟩

theorem Extends.trans {w w' w'' : World} {m n : ℕ} (h : Extends w w' m) (h' : Extends w' w'' n) :
    Extends w w'' (m + n) := by
  refine ⟨h'.synced, by rw [h'.size, h.size, Nat.add_assoc], ?_, h'.eq.trans h.eq⟩
  rw [h'.ineq, h.ineq, h.size, List.append_assoc, ← List.map_append, ← List.range'_append_1]

/-- A size below `2^31` is the same as an `int`. -/
theorem toInt_of_lt {n : ℕ} (h : n < 2147483648) : (n : ℤ).bmod 4294967296 = n := by
  rw [Int.bmod_eq_of_le_mul_two] <;> omega

/-- The index that comes back from the `int` of the name table. -/
theorem byName_setIndex {v : Vars} {name : String} {n : ℕ} {mp : List (String × ℤ)}
    (h : v.mp = Vars.setIndex name n mp) : v.byName name = v.byIndex ((n : ℤ).bmod 4294967296) := by
  rw [Vars.byName, h, Vars.setIndex, List.lookup_cons_self, Option.getD_some]

theorem addTemplate_ok {w : World} (hw : w.Synced) (h : w.numSymbols < 2147483648) :
    ∃ w', Handelman.addTemplate w = .ok (templ w.numSymbols, w') ∧ Extends w w' 1 := by
  have hlim : ¬ w.numSymbols ≥ symLimit := by unfold symLimit; omega
  have hb : (w.v.varArr.length : ℤ).bmod 4294967296 = w.v.varArr.length := by
    rw [← hw]
    exact toInt_of_lt h
  unfold Handelman.addTemplate World.addVar World.symbol
  rw [if_neg hlim]
  simp only [bind, Except.bind, pure, Except.pure]
  rw [byName_setIndex rfl, hb, Vars.byIndex, if_neg (by omega)]
  simp only [Int.toNat_natCast, List.getElem?_concat_length]
  refine ⟨_, rfl, ?_, rfl, ?_, rfl⟩
  · simp only [World.Synced, List.length_append, List.length_singleton, ← hw.symm]
  · simp [Solver.add, templ]

/-- From `2^31` templates on the stored index is negative, or there is no further symbol. -/
theorem addTemplate_error {w : World} (hw : w.Synced) (h : 2147483648 ≤ w.numSymbols) (r : Multinomial × World) :
    Handelman.addTemplate w ≠ .ok r := by
  unfold Handelman.addTemplate World.addVar World.symbol
  split_ifs with hlim
  · simp [bind, Except.bind]
  · have hneg : (w.v.varArr.length : ℤ).bmod 4294967296 < 0 := by
      rw [← hw, Int.bmod_def]
      unfold symLimit at hlim
      rw [if_neg] <;> omega
    simp only [bind, Except.bind, pure, Except.pure]
    rw [byName_setIndex rfl, Vars.byIndex, if_pos hneg]
    simp

/-! ## The products -/

namespace Handelman

variable (h : Handelman) (idArr : List ℕ)

/-- The products with smallest left-hand side `j` on top of a product of degree `currDeg`. -/
def extend (currDeg : ℕ) (rec : ℕ → ℕ → List (Multiset ℕ)) (j : ℕ) : List (Multiset ℕ) :=
  if ((currDeg + h.degAt j : ℕ) : ℤ) ≤ h.maxDeg ∧ (h.lhsAt j).cmpPoly idArr then
    (rec (currDeg + h.degAt j) j).map (j ::ₘ ·)
  else []

/-- The products `gen_pol` forms, as multisets of indices, in the order of their templates. -/
def products : ℕ → ℕ → ℕ → List (Multiset ℕ)
  | 0, _, _ => []
  | fuel + 1, currDeg, firstIndex =>
    (List.range' firstIndex (h.lhs.length - firstIndex)).flatMap (h.extend idArr currDeg (products fuel)) ++ [0]

/-- The products that may be formed on top of a product of degree `currDeg` with the left-hand
sides from `firstIndex` on. -/
structure Admissible (currDeg firstIndex : ℕ) (α : Multiset ℕ) : Prop where
  mem : ∀ j ∈ α, firstIndex ≤ j ∧ j < h.lhs.length ∧ (h.lhsAt j).cmpPoly idArr = true
  deg : α = 0 ∨ ((currDeg + (α.map h.degAt).sum : ℕ) : ℤ) ≤ h.maxDeg

variable {h idArr}

theorem mem_extend {c j : ℕ} {rec : ℕ → ℕ → List (Multiset ℕ)} {α : Multiset ℕ} :
    α ∈ h.extend idArr c rec j ↔ (((c + h.degAt j : ℕ) : ℤ) ≤ h.maxDeg ∧ (h.lhsAt j).cmpPoly idArr = true) ∧
      ∃ β ∈ rec (c + h.degAt j) j, j ::ₘ β = α := by
  unfold extend
  split_ifs with hc
  · rw [List.mem_map, and_iff_right hc]
  · simp only [List.not_mem_nil, false_iff]; exact fun hα => hc hα.1

theorem mem_products_succ {fuel c first : ℕ} {α : Multiset ℕ} :
    α ∈ h.products idArr (fuel + 1) c first ↔
      α = 0 ∨ ∃ j, first ≤ j ∧ j < h.lhs.length ∧ α ∈ h.extend idArr c (h.products idArr fuel) j := by
  rw [products, List.mem_append, List.mem_singleton, List.mem_flatMap, or_comm]
  refine or_congr_right (exists_congr fun j => ?_)
  rw [List.mem_range'_1, and_assoc]
  refine and_congr_right fun hj => and_congr_left fun _ => ?_
  omega

theorem admissible_of_mem : ∀ {fuel c first : ℕ} {α : Multiset ℕ}, α ∈ h.products idArr fuel c first →
    h.Admissible idArr c first α
  | 0, _, _, _, hα => by cases hα
  | fuel + 1, c, first, α, hα => by
    rcases mem_products_succ.1 hα with rfl | ⟨j, hj, hlen, hα⟩
    · exact ⟨fun j hj => absurd hj (Multiset.notMem_zero j), .inl rfl⟩
    · obtain ⟨⟨hdeg, hcmp⟩, β, hβ, rfl⟩ := mem_extend.1 hα
      have ih := admissible_of_mem hβ
      refine ⟨fun i hi => ?_, .inr ?_⟩
      · rcases Multiset.mem_cons.1 hi with rfl | hi
        · exact ⟨hj, hlen, hcmp⟩
        · exact ⟨hj.trans (ih.mem i hi).1, (ih.mem i hi).2⟩
      · rcases ih.deg with rfl | hd
        · simpa using hdeg
        · rw [Multiset.map_cons, Multiset.sum_cons, ← Nat.add_assoc]; exact hd

/-- The smallest element of a multiset in front. -/
theorem exists_cons_min {α : Multiset ℕ} (h : α ≠ 0) : ∃ j β, α = j ::ₘ β ∧ ∀ i ∈ β, j ≤ i := by
  cases hs : α.sort (· ≤ ·) with
  | nil =>
    have := α.sort_eq (· ≤ ·)
    rw [hs] at this
    exact absurd this.symm h
  | cons j l =>
    have hα := α.sort_eq (· ≤ ·)
    have hsorted := α.pairwise_sort (· ≤ ·)
    rw [hs] at hα hsorted
    exact ⟨j, l, hα.symm, fun i hi => List.rel_of_pairwise_cons hsorted hi⟩

/-- A product with as many factors as there is fuel left is not formed. -/
theorem card_lt_of_mem : ∀ {fuel c first : ℕ} {α : Multiset ℕ}, α ∈ h.products idArr fuel c first → α.card < fuel
  | 0, _, _, _, hα => by cases hα
  | fuel + 1, c, first, α, hα => by
    rcases mem_products_succ.1 hα with rfl | ⟨j, -, -, hα⟩
    · simp
    · obtain ⟨-, β, hβ, rfl⟩ := mem_extend.1 hα
      rw [Multiset.card_cons]
      exact Nat.succ_lt_succ (card_lt_of_mem hβ)

/-- Every other admissible product is. -/
theorem mem_of_card_lt : ∀ {fuel c first : ℕ} {α : Multiset ℕ}, h.Admissible idArr c first α → α.card < fuel →
    α ∈ h.products idArr fuel c first
  | 0, _, _, _, _, hf => absurd hf (Nat.not_lt_zero _)
  | fuel + 1, c, first, α, hα, hf => by
    rw [mem_products_succ]
    by_cases h0 : α = 0
    · exact .inl h0
    · obtain ⟨j, β, rfl, hmin⟩ := exists_cons_min h0
      obtain ⟨hj, hlen, hcmp⟩ := hα.mem j (Multiset.mem_cons_self ..)
      have hd := hα.deg.resolve_left h0
      rw [Multiset.map_cons, Multiset.sum_cons] at hd
      rw [Multiset.card_cons] at hf
      refine .inr ⟨j, hj, hlen, mem_extend.2 ⟨⟨by omega, hcmp⟩, β, mem_of_card_lt ⟨fun i hi => ?_, .inr ?_⟩ ?_, rfl⟩⟩
      · exact ⟨hmin i hi, (hα.mem i (Multiset.mem_cons_of_mem hi)).2⟩
      · rw [Nat.add_assoc]; exact hd
      · omega

/-- Each factor adds to the degree, so fuel above the largest degree is enough for all products. -/
theorem mem_of_admissible (hpos : ∀ j < h.lhs.length, (h.lhsAt j).cmpPoly idArr = true → 0 < h.degAt j)
    {fuel c first : ℕ} {α : Multiset ℕ} (hf : h.maxDeg - c < fuel) (hf0 : 0 < fuel)
    (hα : h.Admissible idArr c first α) : α ∈ h.products idArr fuel c first := by
  refine mem_of_card_lt hα ?_
  rcases hα.deg with rfl | hd
  · simpa using hf0
  · have hcard : α.card ≤ (α.map h.degAt).sum := by
      simpa using Multiset.card_nsmul_le_sum (s := α.map h.degAt) (a := 1) fun d hd => by
        obtain ⟨j, hj, rfl⟩ := Multiset.mem_map.1 hd
        exact hpos j (hα.mem j hj).2.1 (hα.mem j hj).2.2
    omega

/-- No product is formed twice: the loop index is the smallest element. -/
theorem nodup_products : ∀ (fuel c first : ℕ), (h.products idArr fuel c first).Nodup
  | 0, _, _ => List.nodup_nil
  | fuel + 1, c, first => by
    have hmin : ∀ {j : ℕ} {α : Multiset ℕ}, α ∈ h.extend idArr c (h.products idArr fuel) j →
        j ∈ α ∧ ∀ i ∈ α, j ≤ i := by
      intro j α hα
      obtain ⟨-, β, hβ, rfl⟩ := mem_extend.1 hα
      refine ⟨Multiset.mem_cons_self .., fun i hi => ?_⟩
      rcases Multiset.mem_cons.1 hi with rfl | hi
      · exact le_rfl
      · exact ((admissible_of_mem hβ).mem i hi).1
    rw [products, List.nodup_append]
    refine ⟨List.nodup_flatMap.2 ⟨fun j _ => ?_, ?_⟩, List.nodup_singleton _, ?_⟩
    · unfold extend
      split_ifs
      · exact (nodup_products fuel _ _).map fun _ _ => (Multiset.cons_inj_right j).1
      · exact List.nodup_nil
    · refine (List.nodup_range' ..).pairwise_of_forall_ne fun i _ j _ hij => ?_
      intro α hi hj
      exact hij (le_antisymm ((hmin hi).2 j (hmin hj).1) ((hmin hj).2 i (hmin hi).1))
    · rintro α hα β hβ rfl
      obtain ⟨j, -, hα⟩ := List.mem_flatMap.1 hα
      rw [List.mem_singleton] at hβ
      exact Multiset.notMem_zero j (hβ ▸ (hmin hα).1)

/-! ## What `gen_pol` returns -/

/-- The product of left-hand sides with the indices `α`. -/
noncomputable def productOf (h : Handelman) (α : Multiset ℕ) : MvPolynomial ℕ ℚ :=
  (α.map fun j => (h.lhsAt j).toMv).prod

/-- The sum of template times product. -/
noncomputable def templSum (h : Handelman) (l : List (Multiset ℕ × ℕ)) : MvPolynomial ℕ ℚ :=
  (l.map fun x => X x.2 * h.productOf x.1).sum

theorem templSum_append (l l' : List (Multiset ℕ × ℕ)) : h.templSum (l ++ l') = h.templSum l + h.templSum l' := by
  simp [templSum]

theorem mul_templSum (j : ℕ) (ps : List (Multiset ℕ)) (n : ℕ) :
    (h.lhsAt j).toMv * h.templSum (ps.zipIdx n) = h.templSum ((ps.map (j ::ₘ ·)).zipIdx n) := by
  rw [templSum, templSum, List.zipIdx_map, List.map_map, ← List.sum_map_mul_left]
  congr 1
  refine List.map_congr_left fun x _ => ?_
  simp only [Function.comp_apply, Prod.map_fst, Prod.map_snd, id, productOf, Multiset.map_cons, Multiset.prod_cons]
  ring

/-- The ids of the next `n` templates are among the symbols `S`. -/
def Fresh (S : Symbol → Prop) (w : World) (n : ℕ) : Prop :=
  ∀ i, w.numSymbols ≤ i → i < w.numSymbols + n → S ⟨i, true⟩

/-- A part of a run that forms the products `ps` from `w` on: it adds to `base` each product with
its own new template. -/
structure Formed (h : Handelman) (S : Symbol → Prop) (ps : List (Multiset ℕ)) (w : World) (base : Multinomial)
    (r : Multinomial × World) : Prop where
  ext : Extends w r.2 ps.length
  room : ps ≠ [] → r.2.numSymbols ≤ 2147483648
  wf : WF S 0 r.1
  value : wrap16 r.1.toMv = wrap16 (base.toMv + h.templSum (ps.zipIdx w.numSymbols))

variable {S : Symbol → Prop}

theorem Formed.refl {w : World} {m : Multinomial} (hw : w.Synced) (hm : WF S 0 m) : h.Formed S [] w m (m, w) :=
  ⟨.refl hw, fun hne => absurd rfl hne, hm, by simp [templSum]⟩

theorem Formed.trans {ps qs : List (Multiset ℕ)} {w : World} {m : Multinomial} {r r' : Multinomial × World}
    (h₁ : h.Formed S ps w m r) (h₂ : h.Formed S qs r.2 r.1 r') : h.Formed S (ps ++ qs) w m r' := by
  refine ⟨by rw [List.length_append]; exact h₁.ext.trans h₂.ext, fun hne => ?_, h₂.wf, ?_⟩
  · by_cases hq : qs = []
    · have h0 := h₂.ext.size
      subst hq
      rw [h0]
      exact h₁.room (by simpa using hne)
    · exact h₂.room hq
  · rw [h₂.value, map_add, h₁.value, ← map_add, h₁.ext.size, add_assoc, ← templSum_append, ← List.zipIdx_append]

/-- Adding the new template adds the empty product. -/
theorem addTemplate_formed {w : World} {m : Multinomial} {r : Multinomial × World} (hw : w.Synced) (hm : WF S 0 m)
    (hS : Fresh S w 1) (hr : addTemplate w = .ok r) : h.Formed S [0] w m (m.add r.1, r.2) := by
  have hlt : w.numSymbols < 2147483648 := by
    by_contra hge
    exact addTemplate_error hw (by omega) r hr
  obtain ⟨w', hok, hext⟩ := addTemplate_ok hw hlt
  rw [hok] at hr
  cases hr
  have ht : WF S 0 (templ w.numSymbols) := wf_var (hS _ le_rfl (by omega)) (Nat.zero_le _) true
  refine ⟨hext, fun _ => by rw [hext.size]; omega, hm.add ht, ?_⟩
  rw [toMv_add hm ht, templ, toMv_var]
  simp [templSum, productOf]

/-- One turn of the loop, given what the recursive call does. -/
theorem genStep_formed {c j : ℕ} {rec : ℕ → ℕ → World → Except Err (Multinomial × World)}
    {recPs : ℕ → ℕ → List (Multiset ℕ)} (hlhs : ∀ j, WF S 0 (h.lhsAt j))
    (ih : ∀ c j w r, w.Synced → Fresh S w (recPs c j).length → rec c j w = .ok r →
      h.Formed S (recPs c j) w (.const false 0) r)
    {acc r : Multinomial × World} (hw : acc.2.Synced) (hm : WF S 0 acc.1)
    (hS : Fresh S acc.2 (h.extend idArr c recPs j).length) (hr : h.genStep idArr c rec acc j = .ok r) :
    h.Formed S (h.extend idArr c recPs j) acc.2 acc.1 r := by
  unfold genStep at hr
  unfold extend at hS ⊢
  split_ifs at hr hS ⊢ with _ hc
  · obtain ⟨⟨p, w⟩, hp, hr⟩ := bind_ok hr
    cases hr
    rw [List.length_map] at hS
    have f := ih _ _ _ _ hw hS hp
    have hmul := (hlhs j).mul f.wf
    refine ⟨by rw [List.length_map]; exact f.ext, fun hne => f.room (by simpa using hne), hm.add hmul, ?_⟩
    rw [toMv_add hm hmul, map_add, wrap16_mul (hlhs j) f.wf, map_mul, f.value, ← map_mul, ← map_add,
      Multinomial.toMv_const, C_0, zero_add, mul_templSum]
  · cases hr; exact .refl hw hm

theorem genLoop_formed {c : ℕ} {rec : ℕ → ℕ → World → Except Err (Multinomial × World)}
    {recPs : ℕ → ℕ → List (Multiset ℕ)} (hlhs : ∀ j, WF S 0 (h.lhsAt j))
    (ih : ∀ c j w r, w.Synced → Fresh S w (recPs c j).length → rec c j w = .ok r →
      h.Formed S (recPs c j) w (.const false 0) r) :
    ∀ {js : List ℕ} (acc : Multinomial × World) {r : Multinomial × World}, acc.2.Synced → WF S 0 acc.1 →
      Fresh S acc.2 (js.flatMap (h.extend idArr c recPs)).length →
      js.foldlM (h.genStep idArr c rec) acc = .ok r →
      h.Formed S (js.flatMap (h.extend idArr c recPs)) acc.2 acc.1 r
  | [], acc, r, hw, hm, _, hr => by cases hr; exact .refl hw hm
  | j :: js, acc, r, hw, hm, hS, hr => by
    rw [List.foldlM_cons] at hr
    obtain ⟨acc', h1, hr⟩ := bind_ok hr
    rw [List.flatMap_cons, List.length_append] at hS
    have f₁ := genStep_formed hlhs ih hw hm (fun i h₁ h₂ => hS i h₁ (by omega)) h1
    rw [List.flatMap_cons]
    refine f₁.trans (genLoop_formed hlhs ih acc' f₁.ext.synced f₁.wf (fun i h₁ h₂ => hS i ?_ ?_) hr)
    · rw [f₁.ext.size] at h₁; omega
    · rw [f₁.ext.size] at h₂; omega

/-- **`gen_pol` forms the listed products**, each with a template of its own. -/
theorem genPol_formed (hlhs : ∀ j, WF S 0 (h.lhsAt j)) : ∀ {fuel c first : ℕ} {w : World} {r : Multinomial × World},
    w.Synced → Fresh S w (h.products idArr fuel c first).length → h.genPol idArr fuel c first w = .ok r →
    h.Formed S (h.products idArr fuel c first) w (.const false 0) r
  | 0, _, _, _, _, _, _, hr => by cases hr
  | fuel + 1, c, first, w, r, hw, hS, hr => by
    rw [genPol] at hr
    obtain ⟨acc, h1, hr⟩ := bind_ok hr
    obtain ⟨t, h2, hr⟩ := bind_ok hr
    cases hr
    rw [products, List.length_append, List.length_singleton] at hS
    have f₁ := genLoop_formed hlhs (fun _ _ _ _ => genPol_formed hlhs) (.const false 0, w) hw .const
      (fun i h₁ h₂ => hS i h₁ (Nat.lt_succ_of_lt h₂)) h1
    refine f₁.trans (addTemplate_formed f₁.ext.synced f₁.wf (fun i h₁ h₂ => hS i ?_ ?_) h2)
    · rw [f₁.ext.size] at h₁; exact (Nat.le_add_right ..).trans h₁
    · rw [f₁.ext.size] at h₂; exact h₂

/-! ## `gen_pol` returns -/

/-- One turn of the loop returns when its recursive call does. -/
theorem genStep_ok {c j : ℕ} {rec : ℕ → ℕ → World → Except Err (Multinomial × World)} {acc : Multinomial × World}
    (hint : c + h.degAt j < 2147483648)
    (hrec : ((c + h.degAt j : ℕ) : ℤ) ≤ h.maxDeg → (h.lhsAt j).cmpPoly idArr = true →
      ∃ r, rec (c + h.degAt j) j acc.2 = .ok r) :
    ∃ r, h.genStep idArr c rec acc j = .ok r := by
  unfold genStep
  rw [if_neg (by omega)]
  split_ifs with hc
  · obtain ⟨r, hr⟩ := hrec hc.1 hc.2
    rw [hr]; exact ⟨_, rfl⟩
  · exact ⟨acc, rfl⟩

theorem genLoop_ok {c : ℕ} {rec : ℕ → ℕ → World → Except Err (Multinomial × World)}
    {recPs : ℕ → ℕ → List (Multiset ℕ)} (hlhs : ∀ j, WF S 0 (h.lhsAt j))
    (ih : ∀ c j w r, w.Synced → Fresh S w (recPs c j).length → rec c j w = .ok r →
      h.Formed S (recPs c j) w (.const false 0) r) :
    ∀ {js : List ℕ} (acc : Multinomial × World), (∀ j ∈ js, c + h.degAt j < 2147483648) →
      (∀ j ∈ js, ∀ w, ((c + h.degAt j : ℕ) : ℤ) ≤ h.maxDeg → (h.lhsAt j).cmpPoly idArr = true → w.Synced →
        Fresh S w (recPs (c + h.degAt j) j).length →
        w.numSymbols + (recPs (c + h.degAt j) j).length ≤ 2147483648 → ∃ r, rec (c + h.degAt j) j w = .ok r) →
      acc.2.Synced → WF S 0 acc.1 → Fresh S acc.2 (js.flatMap (h.extend idArr c recPs)).length →
      acc.2.numSymbols + (js.flatMap (h.extend idArr c recPs)).length ≤ 2147483648 →
      ∃ r, js.foldlM (h.genStep idArr c rec) acc = .ok r
  | [], acc, _, _, _, _, _, _ => ⟨acc, rfl⟩
  | j :: js, acc, hint, hrec, hw, hm, hS, hroom => by
    rw [List.flatMap_cons, List.length_append] at hS hroom
    have hS₁ : Fresh S acc.2 (h.extend idArr c recPs j).length := fun i h₁ h₂ => hS i h₁ (by omega)
    obtain ⟨acc', h1⟩ : ∃ r, h.genStep idArr c rec acc j = .ok r :=
      genStep_ok (hint j (List.mem_cons_self ..)) fun hd hcmp => by
        have hlen : (h.extend idArr c recPs j).length = (recPs (c + h.degAt j) j).length := by
          unfold extend; rw [if_pos ⟨hd, hcmp⟩, List.length_map]
        exact hrec j (List.mem_cons_self ..) acc.2 hd hcmp hw (hlen ▸ hS₁) (by omega)
    have f₁ := genStep_formed hlhs ih hw hm hS₁ h1
    have hsize := f₁.ext.size
    obtain ⟨r, hr⟩ := genLoop_ok hlhs ih acc' (fun i hi => hint i (List.mem_cons_of_mem _ hi))
      (fun i hi => hrec i (List.mem_cons_of_mem _ hi)) f₁.ext.synced f₁.wf
      (fun i h₁ h₂ => hS i (by omega) (by omega)) (by omega)
    exact ⟨r, by rw [List.foldlM_cons, h1]; exact hr⟩

/-- **`gen_pol` returns** with fuel for the degrees it can reach, when the templates of all the
products have an index and no degree leaves the range of `int`. -/
theorem genPol_ok (hlhs : ∀ j, WF S 0 (h.lhsAt j))
    (hpos : ∀ j < h.lhs.length, (h.lhsAt j).cmpPoly idArr = true → 0 < h.degAt j)
    (hint : ∀ j < h.lhs.length, max h.maxDeg 0 + h.degAt j < 2147483648) :
    ∀ {fuel c first : ℕ} {w : World}, h.maxDeg - c < fuel → 0 < fuel → (c : ℤ) ≤ max h.maxDeg 0 → w.Synced →
      Fresh S w (h.products idArr fuel c first).length →
      w.numSymbols + (h.products idArr fuel c first).length ≤ 2147483648 →
      ∃ r, h.genPol idArr fuel c first w = .ok r
  | 0, _, _, _, _, h0, _, _, _, _ => by cases h0
  | fuel + 1, c, first, w, hf, _, hc, hw, hS, hroom => by
    rw [products, List.length_append, List.length_singleton] at hS hroom
    have hlen : ∀ j ∈ List.range' first (h.lhs.length - first), j < h.lhs.length := fun j hj => by
      have := List.mem_range'_1.1 hj; omega
    obtain ⟨acc, h1⟩ : ∃ r, (List.range' first (h.lhs.length - first)).foldlM
        (h.genStep idArr c (h.genPol idArr fuel)) (.const false 0, w) = .ok r :=
      genLoop_ok hlhs (fun _ _ _ _ => genPol_formed hlhs) (.const false 0, w)
        (fun j hj => by have := hint j (hlen j hj); omega)
      (fun j hj w' hd hcmp hw' hS' hroom' => by
        have := hpos j (hlen j hj) hcmp
        exact genPol_ok hlhs hpos hint (by omega) (by omega) (by omega) hw' hS' hroom')
      hw .const (fun i h₁ h₂ => hS i h₁ (Nat.lt_succ_of_lt h₂)) (Nat.le_of_succ_le hroom)
    have f₁ := genLoop_formed hlhs (fun _ _ _ _ => genPol_formed hlhs) (.const false 0, w) hw .const
      (fun i h₁ h₂ => hS i h₁ (Nat.lt_succ_of_lt h₂)) h1
    obtain ⟨w', h2, -⟩ := addTemplate_ok f₁.ext.synced (by rw [f₁.ext.size]; exact hroom)
    refine ⟨(acc.1.add (templ acc.2.numSymbols), w'), ?_⟩
    rw [genPol, h1]
    simp only [bind, Except.bind, h2, pure, Except.pure]

end Handelman

end GridSolve.Core
