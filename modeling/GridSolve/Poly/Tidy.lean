/-
Trees as the operators leave them in memory: all `save` flags agree, the entries of a node are in key
order, as in a `std::map`, and one of them is the exponent 0. The operators take such trees, each
operand with its own flag, and return one that is not saved.
-/
import GridSolve.Lib.Keyed
import GridSolve.Poly.Product

namespace GridSolve.Poly

open GridSolve.Keyed

namespace Multinomial

/-- A tree whose flags are all `s`, with its entries in order and an entry for the exponent 0 in each node. -/
inductive Tidy (s : Bool) : Multinomial → Prop
  | const {c : ℚ} : Tidy s (.const s c)
  | node {k : Symbol} {mp : Entries} (sorted : Sorted mp) (zero : (mp.lookup 0).isSome)
      (kids : ∀ x ∈ mp, Tidy s x.2) : Tidy s (.node s k mp)

variable {s s' : Bool} {k : Symbol} {mp mq : Entries} {m a b : Multinomial}

theorem tidy_const_iff {c : ℚ} : Tidy s (.const s' c) ↔ s' = s := by
  constructor
  · rintro ⟨⟩
    rfl
  · rintro rfl
    exact .const

theorem tidy_node_iff : Tidy s (.node s' k mp) ↔ s' = s ∧ Sorted mp ∧ (mp.lookup 0).isSome ∧ ∀ x ∈ mp, Tidy s x.2 := by
  constructor
  · rintro (_ | ⟨h1, h2, h3⟩)
    exact ⟨rfl, h1, h2, h3⟩
  · rintro ⟨rfl, h1, h2, h3⟩
    exact .node h1 h2 h3

theorem Tidy.save_eq (h : Tidy s m) : m.save = s := by
  cases h with
  | const => rfl
  | node => rfl

theorem tidy_var (k : Symbol) (s : Bool) : Tidy s (var k s) := by
  refine tidy_node_iff.2 ⟨rfl, List.pairwise_pair.2 (by decide : (0 : UInt16) < 1), rfl, fun x hx => ?_⟩
  rcases List.mem_cons.1 hx with rfl | hx
  · exact .const
  · rw [List.mem_singleton.1 hx]
    exact .const

theorem Tidy.mapVals (h : Tidy s (.node s' k mp)) {t : Bool} {f : UInt16 → Multinomial → Multinomial}
    (hf : ∀ x ∈ mp, Tidy t (f x.1 x.2)) : Tidy t (.node t k (mp.mapVals f)) := by
  obtain ⟨-, hsorted, hzero, -⟩ := tidy_node_iff.1 h
  refine .node ?_ ?_ fun x hx => ?_
  · rwa [Sorted, Entries.keys_mapVals]
  · rwa [Entries.lookup_mapVals, Option.isSome_map]
  · obtain ⟨y, hy, rfl⟩ := Entries.mem_mapVals.1 hx
    exact hf y hy

/-! ## Flags and copies -/

theorem Tidy.setSave (h : Tidy s m) (t : Bool) : Tidy t (m.setSave t) := by
  induction m with
  | const s' c => exact .const
  | node s' k mp ih =>
    obtain ⟨rfl, -, -, hkids⟩ := tidy_node_iff.1 h
    rw [Multinomial.setSave]
    split_ifs with hs
    · exact hs ▸ h
    · rw [setSaveMp_eq]
      exact h.mapVals fun x hx => ih x hx (hkids x hx)

theorem setSave_self (h : Tidy s m) : m.setSave s = m := by
  cases h with
  | const => rfl
  | node => rw [setSave, if_pos rfl]

/-- A flag that is set and taken back. -/
theorem setSave_setSave (h : Tidy s m) (t : Bool) : (m.setSave t).setSave s = m := by
  induction m with
  | const s' c =>
    rw [tidy_const_iff.1 h]
    rfl
  | node s' k mp ih =>
    obtain ⟨rfl, -, -, hkids⟩ := tidy_node_iff.1 h
    by_cases hs : s' = t
    · rw [← hs, setSave_self h, setSave_self h]
    · rw [setSave, if_neg hs, setSave, if_neg (Ne.symm hs), setSaveMp_eq, setSaveMp_eq, Entries.mapVals_mapVals]
      refine congrArg _ ((Entries.mapVals_congr (g := fun _ c => c) fun x hx => ih x hx (hkids x hx)).trans ?_)
      exact List.map_id mp

theorem Tidy.copy (h : Tidy s m) : Tidy false m.copy := by
  induction m with
  | const s' c => exact .const
  | node s' k mp ih =>
    obtain ⟨rfl, -, -, hkids⟩ := tidy_node_iff.1 h
    cases s' with
    | false => exact h
    | true =>
      rw [Multinomial.copy, copyMp_eq]
      exact h.mapVals fun x hx => ih x hx (hkids x hx)

theorem copy_of_unsaved (h : Tidy false m) : m.copy = m := by
  cases h with
  | const => rfl
  | node => rfl

/-- An operand in the middle of a product is itself, or marked as saved. -/
theorem held_eq (h : Tidy s m) (sz : ℕ) (last : Bool) :
    held s sz last m = if sz > 1 ∧ s = false ∧ last = false then m.setSave true else m := by
  unfold held
  cases s with
  | true => simp
  | false =>
    cases last with
    | true =>
      rw [setSave_setSave h]
      simp
    | false => simp

theorem Tidy.held (h : Tidy s m) (sz : ℕ) (last : Bool) : ∃ t, Tidy t (held s sz last m) := by
  rw [held_eq h]
  split_ifs
  · exact ⟨true, h.setSave true⟩
  · exact ⟨s, h⟩

/-! ## Operators -/

theorem tidy_simplify (hsorted : Sorted mp) (hkids : ∀ x ∈ mp, Tidy false x.2) :
    Tidy false (simplify (.node false k mp)) := by
  have hsorted' : Sorted (mp.filter fun x => !x.2.isZero) := List.Pairwise.sublist (List.filter_sublist.map _) hsorted
  have hkids' : ∀ x ∈ mp.filter (fun x => !x.2.isZero), Tidy false x.2 := fun x hx => hkids x (List.mem_filter.1 hx).1
  simp only [simplify]
  split_ifs with hempty hzero
  · exact .const
  · exact .node hsorted' hzero hkids'
  · rw [Option.not_isSome_iff_eq_none, lookup_eq_none] at hzero
    refine .node (List.pairwise_cons.2 ⟨fun e he => ?_, hsorted'⟩) rfl fun x hx => ?_
    · exact UInt16.pos_iff_ne_zero.2 fun h => hzero (h ▸ he)
    · rcases List.mem_cons.1 hx with rfl | hx
      · exact .const
      · exact hkids' x hx

theorem Tidy.addDouble (h : Tidy s m) (c : ℚ) : Tidy false (m.addDouble c) := by
  induction m with
  | const s' v => exact .const
  | node s' k mp ih =>
    obtain ⟨rfl, -, hzero, hkids⟩ := tidy_node_iff.1 h
    have hnode : Tidy false (.node false k (addDoubleMp s' c mp)) := by
      rw [addDoubleMp_eq]
      refine h.mapVals fun x hx => ?_
      split_ifs with h0 hs
      · exact ih x hx (hkids x hx)
      · exact (hkids x hx).copy
      · exact Bool.eq_false_of_not_eq_true hs ▸ hkids x hx
    cases s' with
    | false =>
      simp only [Multinomial.addDouble, hzero, if_true]
      split_ifs
      · exact .const
      · exact hnode
    | true =>
      obtain ⟨-, hsorted, -, hkids'⟩ := tidy_node_iff.1 hnode
      exact tidy_simplify hsorted hkids'

theorem Tidy.mulDouble (h : Tidy s m) (c : ℚ) : Tidy false (m.mulDouble c) := by
  induction m with
  | const s' v => exact .const
  | node s' k mp ih =>
    obtain ⟨rfl, -, -, hkids⟩ := tidy_node_iff.1 h
    have hnode : Tidy false (.node false k (mulDoubleMp c mp)) := by
      rw [mulDoubleMp_eq]
      exact h.mapVals fun x hx => ih x hx (hkids x hx)
    cases s' with
    | false =>
      rw [Multinomial.mulDouble]
      split_ifs
      · exact .const
      · exact hnode
    | true =>
      obtain ⟨-, hsorted, -, hkids'⟩ := tidy_node_iff.1 hnode
      exact tidy_simplify hsorted hkids'

/-- Entries that the loops of the operators build. -/
structure TidyEntries (mp : Entries) : Prop where
  sorted : Sorted mp
  kids : ∀ x ∈ mp, Tidy false x.2

theorem tidyEntries_nil : TidyEntries [] := ⟨List.Pairwise.nil, fun _ h => absurd h List.not_mem_nil⟩

theorem TidyEntries.put (h : TidyEntries mp) (e : UInt16) (hm : Tidy false m) : TidyEntries (mp.put e m) := by
  refine ⟨sorted_put h.sorted e m, fun x hx => ?_⟩
  rcases Entries.mem_put hx with rfl | hx
  · exact hm
  · exact h.kids x hx

theorem TidyEntries.foldl {α : Type} {f : Entries → α → Entries} : ∀ {l : List α} {mp : Entries},
    (∀ x ∈ l, ∀ mp, TidyEntries mp → TidyEntries (f mp x)) → TidyEntries mp → TidyEntries (l.foldl f mp)
  | [], _, _, h => h
  | x :: _, _, hf, h => by
    rw [List.foldl_cons]
    exact TidyEntries.foldl (fun y hy => hf y (List.mem_cons_of_mem _ hy)) (hf x List.mem_cons_self _ h)

theorem TidyEntries.mergeMp {plus : Multinomial → Multinomial → Multinomial} (ha : Tidy s (.node s k mp))
    (hb : ∀ x ∈ mq, Tidy s' x.2) (hplus : ∀ x ∈ mp, ∀ y ∈ mq, Tidy false (plus x.2 y.2)) :
    TidyEntries (mergeMp plus mp mq) := by
  obtain ⟨-, hsorted, -, hkids⟩ := tidy_node_iff.1 ha
  refine TidyEntries.foldl (fun y hy acc hacc => ?_) ⟨?_, fun x hx => ?_⟩
  · split_ifs
    · exact hacc.put y.1 (hb y hy).copy
    · exact hacc
  · rwa [Sorted, Entries.keys_mapVals]
  · obtain ⟨y, hy, rfl⟩ := Entries.mem_mapVals.1 hx
    rw [joinCoef]
    split
    · exact (hkids y hy).copy
    · exact hplus y hy _ (mem_of_lookup (by assumption))

theorem tidy_addFuel : ∀ (n : ℕ) {s s' : Bool} {a b : Multinomial}, a.size + b.size ≤ n → Tidy s a → Tidy s' b →
    Tidy false (addFuel n a b)
  | 0, _, _, a, b, hn, _, _ => by cases a <;> simp [size] at hn
  | n + 1, _, _, .const _ c, b, _, _, hb => by
    simp only [addFuel]
    exact hb.addDouble c
  | n + 1, _, _, .node .., .const _ c, _, ha, _ => by
    simp only [addFuel]
    exact ha.addDouble c
  | n + 1, s, s', .node t k mp, .node t' l mq, hn, ha, hb => by
    obtain ⟨rfl, -, -, hkids⟩ := tidy_node_iff.1 ha
    obtain ⟨rfl, -, -, hkids'⟩ := tidy_node_iff.1 hb
    simp only [size] at hn
    simp only [addFuel]
    split_ifs
    · refine hb.mapVals fun x hx => ?_
      split_ifs
      · exact tidy_addFuel n (by have := size_mem hx; simp only [size]; omega) (hkids' x hx) ha
      · exact (hkids' x hx).copy
    · refine ha.mapVals fun x hx => ?_
      split_ifs
      · exact tidy_addFuel n (by have := size_mem hx; simp only [size]; omega) (hkids x hx) hb
      · exact (hkids x hx).copy
    · have hmerge := TidyEntries.mergeMp ha hkids' fun x hx y hy =>
        tidy_addFuel n (by have := size_mem hx; have := size_mem hy; omega) (hkids x hx) (hkids' y hy)
      exact tidy_simplify hmerge.sorted hmerge.kids

theorem Tidy.add (ha : Tidy s a) (hb : Tidy s' b) : Tidy false (a.add b) := tidy_addFuel _ le_rfl ha hb

theorem TidyEntries.accumulate (h : TidyEntries mp) (e : UInt16) (hm : Tidy false m) :
    TidyEntries (accumulate mp e m) := by
  unfold Multinomial.accumulate
  split
  · exact h.put e hm
  · exact h.put e ((h.kids _ (mem_of_lookup (by assumption))).add hm)

/-- One product for every entry of a node. -/
theorem tidyEntries_mapLast (h : Sorted mp) (times : Bool → Multinomial → Multinomial)
    (htimes : ∀ last, ∀ x ∈ mp, Tidy false (times last x.2)) :
    TidyEntries (mapLast (fun last x => (x.1, times last x.2)) mp) := by
  refine ⟨?_, fun x hx => ?_⟩
  · have hkeys : (mapLast (fun last (x : UInt16 × Multinomial) => (x.1, times last x.2)) mp).map Prod.fst =
        mp.map Prod.fst :=
      map_mapLast fun _ _ _ => rfl
    rwa [Sorted, hkeys]
  · obtain ⟨last, y, hy, rfl⟩ := mem_mapLast hx
    exact htimes last y hy

/-- The node of the smaller symbol times the other operand, entry by entry. -/
theorem tidy_mulInto {n : ℕ} (hmul : ∀ {s s' : Bool} {a b : Multinomial}, a.size + b.size ≤ n → Tidy s a → Tidy s' b →
    Tidy false (mulFuel n a b)) (ha : Tidy s a) (k : Symbol) (h : Sorted mp) (hkids : ∀ x ∈ mp, Tidy s' x.2)
    (hsize : ∀ x ∈ mp, x.2.size + a.size ≤ n) :
    Tidy false (simplify (.node false k
      (mapLast (fun last x => (x.1, mulFuel n x.2 (Multinomial.held s mp.length last a))) mp))) := by
  have hprod := tidyEntries_mapLast h (fun last x => mulFuel n x (Multinomial.held s mp.length last a))
    fun last x hx => by
      obtain ⟨_, hheld⟩ := ha.held mp.length last
      refine hmul ?_ (hkids x hx) hheld
      rw [size_congr (bare_held ..)]
      exact hsize x hx
  exact tidy_simplify hprod.sorted hprod.kids

/-- The products of two nodes of one symbol; both factors are operands in the middle of a product. -/
theorem tidyEntries_crossMp {n : ℕ} {l : Symbol}
    (hmul : ∀ {s s' : Bool} {a b : Multinomial}, a.size + b.size ≤ n → Tidy s a → Tidy s' b →
    Tidy false (mulFuel n a b)) (ha : Tidy s (.node s k mp)) (hb : Tidy s' (.node s' l mq)) (hn :
      (node s k mp).size + (node s' l mq).size ≤ n + 1) :
    TidyEntries ((crossMp (mulFuel n) s mp (.node s' l mq)).foldl
      (fun ans x => Multinomial.accumulate ans x.1 x.2) []) := by
  refine TidyEntries.foldl (fun z hz acc hacc => hacc.accumulate z.1 ?_) tidyEntries_nil
  obtain ⟨_, hl, hz⟩ := List.mem_flatten.1 hz
  obtain ⟨lasta, x, hx, rfl⟩ := mem_mapLast hl
  obtain ⟨lastb, y, hy, rfl⟩ := mem_mapLast hz
  obtain ⟨u, hheld⟩ := hb.held mp.length lasta
  have hsize := size_congr (bare_held s' mp.length lasta (.node s' l mq))
  obtain ⟨_, hx'⟩ := ((tidy_node_iff.1 ha).2.2.2 x hx).held
    (Multinomial.held s' mp.length lasta (.node s' l mq)).mp.length lastb
  have hbare : (Multinomial.held s' mp.length lasta (.node s' l mq)).bare = (node s' l mq).bare := bare_held ..
  rw [node_of_bare hbare, size, size] at hsize
  rw [node_of_bare hbare] at hheld
  refine hmul ?_ hx' ((tidy_node_iff.1 hheld).2.2.2 y hy)
  have hxsize := size_mem hx
  have hysize := size_mem hy
  have hq : (node s' l mq).save = s' := rfl
  rw [hq] at hysize
  rw [size_congr (bare_held ..)]
  simp only [size] at hn
  omega

theorem tidy_mulFuel : ∀ (n : ℕ) {s s' : Bool} {a b : Multinomial}, a.size + b.size ≤ n → Tidy s a → Tidy s' b →
    Tidy false (mulFuel n a b)
  | 0, _, _, a, b, hn, _, _ => by cases a <;> simp [size] at hn
  | n + 1, _, _, .const _ c, b, _, _, hb => by
    simp only [mulFuel]
    exact hb.mulDouble c
  | n + 1, _, _, .node .., .const _ c, _, ha, _ => by
    simp only [mulFuel]
    exact ha.mulDouble c
  | n + 1, s, s', .node t k mp, .node t' l mq, hn, ha, hb => by
    obtain ⟨rfl, hsorted, -, hkids⟩ := tidy_node_iff.1 ha
    obtain ⟨rfl, hsorted', -, hkids'⟩ := tidy_node_iff.1 hb
    simp only [mulFuel]
    split_ifs
    · refine tidy_mulInto (tidy_mulFuel n) ha l hsorted' hkids' fun x hx => ?_
      have := size_mem hx
      simp only [size] at hn ⊢
      omega
    · refine tidy_mulInto (tidy_mulFuel n) hb k hsorted hkids fun x hx => ?_
      have := size_mem hx
      simp only [size] at hn ⊢
      omega
    · have hcross := tidyEntries_crossMp (tidy_mulFuel n) ha hb hn
      exact tidy_simplify hcross.sorted hcross.kids

theorem Tidy.mul (ha : Tidy s a) (hb : Tidy s' b) : Tidy false (a.mul b) := tidy_mulFuel _ le_rfl ha hb

end Multinomial

end GridSolve.Poly
