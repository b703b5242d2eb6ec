/-
The operators on well-formed multinomials. `WF S b` says that every symbol of the tree satisfies
`S`, that the ids increase along every path from `b` on, that the keys of every map are distinct
and that every node has an exponent-0 entry. The flags play no part in it, nor in the denotation:
`bare` forgets them, and both paths of every operator are covered by one statement.
-/
import GridSolve.Poly.Denote

namespace GridSolve.Poly

open MvPolynomial

namespace Entries

theorem mapVals_congr {f g : UInt16 → Multinomial → Multinomial} {mp : Entries}
    (h : ∀ x ∈ mp, f x.1 x.2 = g x.1 x.2) : mp.mapVals f = mp.mapVals g :=
  List.map_congr_left fun x hx => by rw [h x hx]

theorem mapVals_mapVals (f g : UInt16 → Multinomial → Multinomial) (mp : Entries) :
    (mp.mapVals f).mapVals g = mp.mapVals fun e c => g e (f e c) := by
  simp [mapVals, Function.comp_def]

end Entries

namespace Multinomial

/-! ## Forgetting the flags -/

mutual

/-- The tree with every flag off. -/
def bare : Multinomial → Multinomial
  | .const _ c => .const false c
  | .node _ k mp => .node false k (bareMp mp)

def bareMp : Entries → Entries
  | [] => []
  | (e, m) :: mp => (e, bare m) :: bareMp mp

end

theorem bareMp_eq (mp : Entries) : bareMp mp = mp.mapVals fun _ c => c.bare := by
  induction mp with
  | nil => rfl
  | cons x mp ih => simp [bareMp, ih, Entries.mapVals]

theorem bare_setSave (a : Bool) (m : Multinomial) : (m.setSave a).bare = m.bare := by
  induction m with
  | const s c => rfl
  | node s k mp ih =>
    simp only [setSave]
    split
    · rfl
    · simp only [bare, setSaveMp_eq, bareMp_eq, Entries.mapVals_mapVals]
      exact congrArg _ (Entries.mapVals_congr fun x hx => ih x hx)

theorem bare_copy (m : Multinomial) : m.copy.bare = m.bare := by
  induction m with
  | const s c => rfl
  | node s k mp ih =>
    cases s with
    | false => rfl
    | true =>
      simp only [copy, bare, copyMp_eq, bareMp_eq, Entries.mapVals_mapVals]
      exact congrArg _ (Entries.mapVals_congr fun x hx => ih x hx)

theorem bare_held (isSave : Bool) (sz : ℕ) (last : Bool) (m : Multinomial) :
    (held isSave sz last m).bare = m.bare := by
  unfold held
  split_ifs
  · rw [bare_setSave, bare_setSave]
  · rw [bare_setSave]
  · rfl

theorem toMvMp_congr (i : ℕ) {f : UInt16 → Multinomial → Multinomial} {mp : Entries}
    (h : ∀ x ∈ mp, (f x.1 x.2).toMv = x.2.toMv) : toMvMp i (mp.mapVals f) = toMvMp i mp := by
  rw [toMvMp_eq_sum, toMvMp_eq_sum, Entries.mapVals, List.map_map]
  congr 1
  exact List.map_congr_left fun x hx => by simp [h x hx]

theorem toMv_bare (m : Multinomial) : m.bare.toMv = m.toMv := by
  induction m with
  | const s c => simp [bare]
  | node s k mp ih => rw [bare, toMv_node, toMv_node, bareMp_eq, toMvMp_congr _ ih]

theorem toMv_congr {p q : Multinomial} (h : p.bare = q.bare) : p.toMv = q.toMv := by
  rw [← toMv_bare p, h, toMv_bare]

theorem size_bare (m : Multinomial) : m.bare.size = m.size := by
  induction m with
  | const s c => rfl
  | node s k mp ih =>
    simp only [bare, size, bareMp_eq]
    congr 1
    clear s k
    induction mp with
    | nil => rfl
    | cons x mp ih' =>
      simp only [Entries.mapVals, List.map_cons, sizeMp]
      rw [ih x (List.mem_cons_self ..)]
      exact congrArg _ (ih' fun y hy => ih y (List.mem_cons_of_mem _ hy))

theorem size_congr {p q : Multinomial} (h : p.bare = q.bare) : p.size = q.size := by
  rw [← size_bare p, h, size_bare]

/-! ## The representation invariant -/

/-- Well-formed multinomials, over symbols that satisfy `S` and ids from the bound on. -/
inductive WF (S : Symbol → Prop) : ℕ → Multinomial → Prop
  | const {b : ℕ} {s : Bool} {c : ℚ} : WF S b (.const s c)
  | node {b : ℕ} {s : Bool} {k : Symbol} {mp : Entries} (low : b ≤ k.id) (sym : S k)
      (nodup : (mp.map Prod.fst).Nodup) (zero : (mp.lookup 0).isSome)
      (kids : ∀ x ∈ mp, WF S (k.id + 1) x.2) : WF S b (.node s k mp)

variable {S : Symbol → Prop}

theorem wf_node_iff {b : ℕ} {s : Bool} {k : Symbol} {mp : Entries} :
    WF S b (.node s k mp) ↔ b ≤ k.id ∧ S k ∧ (mp.map Prod.fst).Nodup ∧ (mp.lookup 0).isSome ∧
      ∀ x ∈ mp, WF S (k.id + 1) x.2 := by
  constructor
  · rintro (_ | ⟨h1, h2, h3, h4, h5⟩); exact ⟨h1, h2, h3, h4, h5⟩
  · rintro ⟨h1, h2, h3, h4, h5⟩; exact .node h1 h2 h3 h4 h5

theorem WF.low {b b' : ℕ} {m : Multinomial} (h : WF S b m) (hb : b' ≤ b) : WF S b' m := by
  cases h with
  | const => exact .const
  | node h1 h2 h3 h4 h5 => exact .node (hb.trans h1) h2 h3 h4 h5

theorem WF.mono {S' : Symbol → Prop} (hS : ∀ k, S k → S' k) {b : ℕ} {m : Multinomial} (h : WF S b m) :
    WF S' b m := by
  induction h with
  | const => exact .const
  | node h1 h2 h3 h4 _ ih => exact .node h1 (hS _ h2) h3 h4 ih

/-- New coefficients for the same keys. -/
theorem WF.mapVals {b : ℕ} {s s' : Bool} {k : Symbol} {mp : Entries} (h : WF S b (.node s k mp))
    {f : UInt16 → Multinomial → Multinomial} (hf : ∀ x ∈ mp, WF S (k.id + 1) (f x.1 x.2)) :
    WF S b (.node s' k (mp.mapVals f)) := by
  obtain ⟨h1, h2, h3, h4, -⟩ := wf_node_iff.1 h
  refine .node h1 h2 (by rw [Entries.keys_mapVals]; exact h3) ?_ fun x hx => ?_
  · rw [Entries.lookup_mapVals, Option.isSome_map]; exact h4
  · obtain ⟨y, hy, rfl⟩ := Entries.mem_mapVals.1 hx
    exact hf y hy

theorem wf_bare {b : ℕ} {m : Multinomial} : WF S b m.bare ↔ WF S b m := by
  induction m generalizing b with
  | const s c => exact ⟨fun _ => .const, fun _ => .const⟩
  | node s k mp ih =>
    rw [bare, bareMp_eq, wf_node_iff, wf_node_iff, Entries.keys_mapVals, Entries.lookup_mapVals, Option.isSome_map]
    refine and_congr_right fun _ => and_congr_right fun _ => and_congr_right fun _ => and_congr_right fun _ => ?_
    constructor
    · intro h x hx
      exact (ih x hx).1 (h (x.1, x.2.bare) (Entries.mem_mapVals.2 ⟨x, hx, rfl⟩))
    · intro h x hx
      obtain ⟨y, hy, rfl⟩ := Entries.mem_mapVals.1 hx
      exact (ih y hy).2 (h y hy)

theorem WF.congr {b : ℕ} {p q : Multinomial} (h : p.bare = q.bare) (hp : WF S b p) : WF S b q := by
  rw [← wf_bare, ← h, wf_bare]; exact hp

theorem wf_var {b : ℕ} {k : Symbol} (hk : S k) (hb : b ≤ k.id) (s : Bool) : WF S b (var k s) :=
  .node hb hk (by simp) (by simp) fun x hx => by
    simp only [List.mem_cons, List.not_mem_nil, or_false] at hx
    rcases hx with rfl | rfl <;> exact .const

theorem toMv_var (k : Symbol) (s : Bool) : (var k s).toMv = X k.id := by
  simp [var, toMv_node, toMvMp]

/-! ## Simplification -/

theorem toMv_isZero {m : Multinomial} (h : m.isZero = true) : m.toMv = 0 := by
  cases m with
  | const s c => simp only [isZero, beq_iff_eq] at h; simp [h]
  | node s k mp => simp [isZero] at h

theorem toMvMp_filter (i : ℕ) (mp : Entries) : toMvMp i (mp.filter fun x => !x.2.isZero) = toMvMp i mp := by
  induction mp with
  | nil => rfl
  | cons x mp ih =>
    rw [List.filter_cons]
    cases hx : x.2.isZero with
    | true => simp [toMvMp, ih, toMv_isZero hx]
    | false => simp [toMvMp, ih]

theorem toMv_simplify (m : Multinomial) : m.simplify.toMv = m.toMv := by
  match m with
  | .const s c => rfl
  | .node true k mp => rfl
  | .node false k mp =>
    have hf := toMvMp_filter k.id mp
    simp only [simplify]
    split_ifs with h1 h2
    · rw [List.isEmpty_iff] at h1
      rw [h1] at hf
      rw [toMv_node, ← hf]; simp [toMvMp]
    · rw [toMv_node, toMv_node, hf]
    · rw [toMv_node, toMv_node, ← hf]; simp [toMvMp]

/-- `simplify` gives a node its exponent-0 entry, whatever the entries were. -/
theorem wf_simplify {b : ℕ} {k : Symbol} {mp : Entries} (hb : b ≤ k.id) (hk : S k)
    (hn : (mp.map Prod.fst).Nodup) (hm : ∀ x ∈ mp, WF S (k.id + 1) x.2) :
    WF S b (simplify (.node false k mp)) := by
  have hn' : ((mp.filter fun x => !x.2.isZero).map Prod.fst).Nodup :=
    hn.sublist (List.filter_sublist.map _)
  have hm' : ∀ x ∈ mp.filter (fun x => !x.2.isZero), WF S (k.id + 1) x.2 :=
    fun x hx => hm x (List.mem_filter.1 hx).1
  simp only [simplify]
  split_ifs with h1 h2
  · exact .const
  · exact .node hb hk hn' h2 hm'
  · rw [Option.not_isSome_iff_eq_none, lookup_isNone_iff] at h2
    refine .node hb hk (List.nodup_cons.2 ⟨h2, hn'⟩) (by simp) fun x hx => ?_
    rcases List.mem_cons.1 hx with rfl | hx
    · exact .const
    · exact hm' x hx

/-! ## Constants -/

theorem coef_mapVals (f : UInt16 → Multinomial → Multinomial) (mp : Entries) (e : UInt16) :
    coef (mp.mapVals f) e = match mp.lookup e with
      | none => 0
      | some c => (f e c).toMv := by
  unfold coef
  rw [Entries.lookup_mapVals]
  cases mp.lookup e <;> rfl

/-- Adding to the exponent-0 entry adds to the polynomial. -/
theorem toMvMp_add_zero (i : ℕ) {f : UInt16 → Multinomial → Multinomial} {mp : Entries}
    {P : MvPolynomial ℕ ℚ} (hn : (mp.map Prod.fst).Nodup) (hz : (mp.lookup 0).isSome)
    (h0 : ∀ x ∈ mp, x.1 = 0 → (f x.1 x.2).toMv = x.2.toMv + P)
    (h1 : ∀ x ∈ mp, x.1 ≠ 0 → (f x.1 x.2).toMv = x.2.toMv) :
    toMvMp i (mp.mapVals f) = toMvMp i mp + P := by
  have hc : ∀ e, coef (mp.mapVals f) e = coef mp e + if e = 0 then P else 0 := by
    intro e
    rw [coef_mapVals]
    unfold coef
    cases hl : mp.lookup e with
    | none =>
      have he : e ≠ 0 := by rintro rfl; rw [hl] at hz; cases hz
      simp [he]
    | some c =>
      have hm := mem_of_lookup hl
      by_cases he : e = 0
      · simpa [he] using h0 (e, c) hm he
      · simpa [he] using h1 (e, c) hm he
  rw [toMvMp_eq_coef i (by rw [Entries.keys_mapVals]; exact hn), toMvMp_eq_coef i hn]
  simp only [hc, mul_add, Finset.sum_add_distrib, mul_ite, mul_zero, Finset.sum_ite_eq', Finset.mem_univ, if_true]
  simp

theorem toMv_all_isZero {i : ℕ} {mp : Entries} (h : mp.all (·.2.isZero) = true) : toMvMp i mp = 0 := by
  rw [toMvMp_eq_sum, List.sum_eq_zero]
  intro p hp
  obtain ⟨x, hx, rfl⟩ := List.mem_map.1 hp
  rw [toMv_isZero (List.all_eq_true.1 h x hx), mul_zero]

theorem addDouble_spec (c : ℚ) {b : ℕ} {m : Multinomial} (h : WF S b m) :
    (m.addDouble c).toMv = m.toMv + C c ∧ WF S b (m.addDouble c) := by
  induction m generalizing b with
  | const s v => exact ⟨by simp [addDouble], .const⟩
  | node s k mp ih =>
    obtain ⟨h1, h2, h3, h4, h5⟩ := wf_node_iff.1 h
    have hsum : ∀ saved, toMvMp k.id (addDoubleMp saved c mp) = toMvMp k.id mp + C c := by
      intro saved
      rw [addDoubleMp_eq]
      refine toMvMp_add_zero _ h3 h4 (fun x hx h0 => ?_) fun x hx h0 => ?_
      · simpa [h0] using (ih x hx (h5 x hx)).1
      · cases saved <;> simp [h0, toMv_congr (bare_copy x.2)]
    have hkids : ∀ saved s', WF S b (.node s' k (addDoubleMp saved c mp)) := by
      intro saved s'
      rw [addDoubleMp_eq]
      refine h.mapVals fun x hx => ?_
      split_ifs
      · exact (ih x hx (h5 x hx)).2
      · exact (h5 x hx).congr (bare_copy x.2).symm
      · exact h5 x hx
    cases s with
    | false =>
      simp only [addDouble, h4, if_true]
      split_ifs with hz
      · refine ⟨?_, .const⟩
        rw [toMv_node, ← hsum false, toMv_all_isZero hz.2]; simp
      · exact ⟨by rw [toMv_node, toMv_node, hsum], hkids false false⟩
    | true =>
      obtain ⟨g1, g2, g3, -, g5⟩ := wf_node_iff.1 (hkids true false)
      simp only [addDouble]
      exact ⟨by rw [toMv_simplify, toMv_node, toMv_node, hsum], wf_simplify g1 g2 g3 g5⟩

theorem mulDouble_spec (c : ℚ) {b : ℕ} {m : Multinomial} (h : WF S b m) :
    (m.mulDouble c).toMv = m.toMv * C c ∧ WF S b (m.mulDouble c) := by
  induction m generalizing b with
  | const s v => exact ⟨by simp [mulDouble], .const⟩
  | node s k mp ih =>
    obtain ⟨h1, h2, h3, h4, h5⟩ := wf_node_iff.1 h
    have hsum : toMvMp k.id (mulDoubleMp c mp) = toMvMp k.id mp * C c := by
      rw [mulDoubleMp_eq, toMvMp_eq_sum, toMvMp_eq_sum, Entries.mapVals, List.map_map, ← List.sum_map_mul_right]
      congr 1
      refine List.map_congr_left fun x hx => ?_
      simp only [Function.comp_apply]
      rw [(ih x hx (h5 x hx)).1, mul_assoc]
    have hkids : WF S b (.node false k (mulDoubleMp c mp)) := by
      rw [mulDoubleMp_eq]
      exact h.mapVals fun x hx => (ih x hx (h5 x hx)).2
    cases s with
    | false =>
      simp only [mulDouble]
      split_ifs with hc
      · exact ⟨by simp [hc], .const⟩
      · exact ⟨by rw [toMv_node, toMv_node, hsum], hkids⟩
    | true =>
      obtain ⟨g1, g2, g3, -, g5⟩ := wf_node_iff.1 hkids
      simp only [mulDouble]
      exact ⟨by rw [toMv_simplify, toMv_node, toMv_node, hsum], wf_simplify g1 g2 g3 g5⟩

/-! ## Addition -/

/-- The second loop of the merge: the entries of `l` at exponents that `mp` does not have. -/
theorem mergeMp_fold (mp : Entries) : ∀ (l acc : Entries), (l.map Prod.fst).Nodup → (acc.map Prod.fst).Nodup →
    let r := l.foldl (fun acc b => if (mp.lookup b.1).isNone then acc.put b.1 b.2.copy else acc) acc
    (r.map Prod.fst).Nodup ∧
    (∀ x ∈ r, x ∈ acc ∨ ∃ b ∈ l, x = (b.1, b.2.copy)) ∧
    ∀ e, r.lookup e = if mp.lookup e = none then (l.lookup e).elim (acc.lookup e) (fun c => some c.copy)
      else acc.lookup e
  | [], acc, _, ha => ⟨ha, fun x hx => .inl hx, fun e => by simp⟩
  | b :: l, acc, hl, ha => by
    rw [List.map_cons, List.nodup_cons] at hl
    intro r
    have hb : l.lookup b.1 = none := lookup_isNone_iff.2 hl.1
    by_cases hmp : mp.lookup b.1 = none
    · obtain ⟨n, m, lk⟩ := mergeMp_fold mp l (acc.put b.1 b.2.copy) hl.2 (Entries.keys_put_nodup ha _ _)
      have hr : r = l.foldl (fun acc b => if (mp.lookup b.1).isNone then acc.put b.1 b.2.copy else acc)
          (acc.put b.1 b.2.copy) := by simp [r, hmp]
      rw [← hr] at n m lk
      refine ⟨n, fun x hx => ?_, fun e => ?_⟩
      · rcases m x hx with hx | ⟨c, hc, rfl⟩
        · rcases Entries.mem_put hx with rfl | hx
          · exact .inr ⟨b, List.mem_cons_self .., rfl⟩
          · exact .inl hx
        · exact .inr ⟨c, List.mem_cons_of_mem _ hc, rfl⟩
      · rw [lk, Entries.lookup_put ha, List.lookup_cons]
        by_cases he : e = b.1
        · subst he; simp [hb, hmp]
        · simp [he, show (e == b.1) = false by simpa using he]
    · obtain ⟨n, m, lk⟩ := mergeMp_fold mp l acc hl.2 ha
      have hr : r = l.foldl (fun acc b => if (mp.lookup b.1).isNone then acc.put b.1 b.2.copy else acc) acc := by
        simp [r, hmp]
      rw [← hr] at n m lk
      refine ⟨n, fun x hx => ?_, fun e => ?_⟩
      · rcases m x hx with hx | ⟨c, hc, rfl⟩
        · exact .inl hx
        · exact .inr ⟨c, List.mem_cons_of_mem _ hc, rfl⟩
      · rw [lk, List.lookup_cons]
        by_cases he : e = b.1
        · subst he; simp [hmp]
        · simp [show (e == b.1) = false by simpa using he]

theorem mergeMp_spec {plus : Multinomial → Multinomial → Multinomial} {mp mq : Entries} (i b : ℕ)
    (hp : (mp.map Prod.fst).Nodup) (hq : (mq.map Prod.fst).Nodup)
    (kp : ∀ x ∈ mp, WF S b x.2) (kq : ∀ x ∈ mq, WF S b x.2)
    (hplus : ∀ x ∈ mp, ∀ y ∈ mq, (plus x.2 y.2).toMv = x.2.toMv + y.2.toMv ∧ WF S b (plus x.2 y.2)) :
    toMvMp i (mergeMp plus mp mq) = toMvMp i mp + toMvMp i mq ∧ ((mergeMp plus mp mq).map Prod.fst).Nodup ∧
      ∀ x ∈ mergeMp plus mp mq, WF S b x.2 := by
  obtain ⟨n, m, lk⟩ := mergeMp_fold mp mq (mp.mapVals (joinCoef plus mq)) hq (by rw [Entries.keys_mapVals]; exact hp)
  change ((mergeMp plus mp mq).map Prod.fst).Nodup at n
  have hcoef : ∀ e, coef (mergeMp plus mp mq) e = coef mp e + coef mq e := by
    intro e
    unfold coef mergeMp
    rw [lk, Entries.lookup_mapVals]
    cases h1 : mp.lookup e with
    | none => cases h2 : mq.lookup e <;> simp [toMv_congr (bare_copy _)]
    | some a =>
      cases h2 : mq.lookup e with
      | none => simp [joinCoef, h2, toMv_congr (bare_copy _)]
      | some c => simpa [joinCoef, h2] using (hplus _ (mem_of_lookup h1) _ (mem_of_lookup h2)).1
  refine ⟨?_, n, fun x hx => ?_⟩
  · rw [toMvMp_eq_coef i n, toMvMp_eq_coef i hp, toMvMp_eq_coef i hq, ← Finset.sum_add_distrib]
    exact Finset.sum_congr rfl fun e _ => by rw [hcoef, mul_add]
  · rcases m x hx with hx | ⟨c, hc, rfl⟩
    · obtain ⟨y, hy, rfl⟩ := Entries.mem_mapVals.1 hx
      simp only [joinCoef]
      split
      · exact (kp y hy).congr (bare_copy _).symm
      · rename_i c hc; exact (hplus y hy _ (mem_of_lookup hc)).2
    · exact (kq c hc).congr (bare_copy _).symm

/-- The branches for different symbols: one operand joins the exponent-0 entry of the other. -/
theorem add_into_zero (plus : Multinomial → Multinomial) (P : MvPolynomial ℕ ℚ) {b : ℕ} {s : Bool}
    {k : Symbol} {mp : Entries} (h : WF S b (.node s k mp))
    (hplus : ∀ x ∈ mp, x.1 = 0 → (plus x.2).toMv = x.2.toMv + P ∧ WF S (k.id + 1) (plus x.2)) :
    (node false k (Entries.mapVals (fun e a => if e = 0 then plus a else a.copy) mp)).toMv
        = (node s k mp).toMv + P ∧
      WF S b (.node false k (Entries.mapVals (fun e a => if e = 0 then plus a else a.copy) mp)) := by
  obtain ⟨h1, h2, h3, h4, h5⟩ := wf_node_iff.1 h
  constructor
  · rw [toMv_node, toMv_node]
    refine toMvMp_add_zero _ h3 h4 (fun x hx h0 => ?_) fun x hx h0 => ?_
    · simpa [h0] using (hplus x hx h0).1
    · simp [h0, toMv_congr (bare_copy x.2)]
  · refine h.mapVals fun x hx => ?_
    split_ifs with h0
    · exact (hplus x hx h0).2
    · exact (h5 x hx).congr (bare_copy x.2).symm

theorem addFuel_spec : ∀ (n : ℕ) {b : ℕ} {p q : Multinomial}, p.size + q.size ≤ n → WF S b p → WF S b q →
    (addFuel n p q).toMv = p.toMv + q.toMv ∧ WF S b (addFuel n p q)
  | 0, b, p, q, hn, _, _ => by cases p <;> simp [size] at hn
  | n + 1, b, .const s c, q, hn, hp, hq => by
    obtain ⟨h1, h2⟩ := addDouble_spec c hq
    simp only [addFuel]
    exact ⟨by rw [h1, toMv_const, add_comm], h2⟩
  | n + 1, b, .node s k mp, .const s' c, hn, hp, hq => by
    obtain ⟨h1, h2⟩ := addDouble_spec c hp
    simp only [addFuel]
    exact ⟨by rw [h1, toMv_const], h2⟩
  | n + 1, b, .node sp k mp, .node sq l mq, hn, hp, hq => by
    obtain ⟨p1, p2, p3, p4, p5⟩ := wf_node_iff.1 hp
    obtain ⟨q1, q2, q3, q4, q5⟩ := wf_node_iff.1 hq
    simp only [size] at hn
    simp only [addFuel]
    split_ifs with h1 h2
    · obtain ⟨e1, e2⟩ := add_into_zero (addFuel n · (.node sp k mp)) _ hq fun x hx _ =>
        addFuel_spec n (by have := size_mem hx; simp only [size]; omega) (q5 x hx)
          (.node h1 p2 p3 p4 p5 : WF S (l.id + 1) (.node sp k mp))
      exact ⟨by rw [e1, add_comm], e2⟩
    · exact add_into_zero (addFuel n · (.node sq l mq)) _ hp fun x hx _ =>
        addFuel_spec n (by have := size_mem hx; simp only [size]; omega) (p5 x hx)
          (.node h2 q2 q3 q4 q5 : WF S (k.id + 1) (.node sq l mq))
    · have hkl : k.id = l.id := by omega
      rw [← hkl] at q5
      obtain ⟨e1, e2, e3⟩ := mergeMp_spec k.id (k.id + 1) p3 q3 p5 q5 fun x hx y hy =>
        addFuel_spec n (by have := size_mem hx; have := size_mem hy; omega) (p5 x hx) (q5 y hy)
      exact ⟨by rw [toMv_simplify, toMv_node, toMv_node, toMv_node, e1, hkl], wf_simplify p1 p2 e2 e3⟩

theorem toMv_add {b : ℕ} {p q : Multinomial} (hp : WF S b p) (hq : WF S b q) :
    (p.add q).toMv = p.toMv + q.toMv := (addFuel_spec _ le_rfl hp hq).1

theorem WF.add {b : ℕ} {p q : Multinomial} (hp : WF S b p) (hq : WF S b q) : WF S b (p.add q) :=
  (addFuel_spec _ le_rfl hp hq).2

end Multinomial

end GridSolve.Poly
