/-
Sums on memory: `operator+` with a `double` and with a multinomial. Both give the tree that the operators
on values give, stored in cells of its own, and use up the operands that are not saved. The same object
may stand on both sides only if it is saved.
-/
import GridSolve.Poly.Memory

namespace GridSolve.Poly

open GridSolve.Heap GridSolve.Keyed

namespace Mem

open Multinomial (Tidy tidy_const_iff tidy_node_iff)

variable {S l G : Cells Cell} {p q d ans : Addr} {o : Obj} {c : ℚ} {s s' : Bool} {k : Symbol} {m a b : Multinomial}
  {is js : List (UInt16 × Stored)}

/-! ## Adding a `double` -/

theorem setValue_spec {v : ℚ} (hd : o.mp.lookup 0 = some d) :
    Triple S (objAt p o + (numAt d c + l)) (fun _ => setValue p v) fun _ l' => l' = objAt p o + (numAt d v + l) := by
  refine triple_getObj mem_head ?_
  simp only [hd]
  refine triple_of_eq (numAt d c + (objAt p o + l)) (add_left_comm ..) ?_
  have hstore := @triple_store Cell Unit S (objAt p o + l) d (.num c) (.num v)
    (fun _ l' => l' = objAt p o + (numAt d v + l)) (fun _ _ => pure ()) (triple_pure (add_left_comm ..))
  simpa using hstore

theorem simplify_const {ks : List (UInt16 × Addr)} :
    Triple S (objAt p ⟨none, ks, s⟩ + l) (fun n => simplify n p) fun _ l' => l' = objAt p ⟨none, ks, s⟩ + l := by
  refine triple_getObj mem_head ?_
  cases s with
  | true => exact triple_pure rfl
  | false => exact triple_pure rfl

/-- The loop over the map of a saved constant, which has one entry, on a new object. -/
theorem newConst_spec {x y : ℚ} {ks : UInt16 × Addr} {body : ℕ → UInt16 → Addr → Prog Cell Unit}
    (hp : (p, .obj o) ∈ objAt ans ⟨none, [(0, d)], false⟩ + (numAt d x + 0) + S)
    (hbody : Triple S (objAt ans ⟨none, [(0, d)], false⟩ + (numAt d x + 0)) (fun n => body n ks.1 ks.2) fun _ l' =>
      l' = objAt ans ⟨none, [(0, d)], false⟩ + (numAt d y + 0)) :
    Triple S (objAt ans ⟨none, [(0, d)], false⟩ + (numAt d x + 0)) (fun n => do
        forEach p (body n) [ks]
        simplify n ans
        pure ans)
      fun r l' => Rep (.const false y) r l' := by
  refine Triple.bind (Q := fun _ l' => l' = objAt ans ⟨none, [(0, d)], false⟩ + (numAt d y + 0)) ?_ ?_
  · refine triple_getObj hp (hbody.bind ?_)
    rintro _ _ rfl
    exact triple_pure rfl
  · rintro _ _ rfl
    refine simplify_const.bind ?_
    rintro _ _ rfl
    rw [add_zero]
    exact triple_pure (.const ..)

theorem addDouble_const (h : Operand S s (.const s' c) p l) (x : ℚ) :
    Triple S l (fun n => addDouble n p x) fun r l' => Rep (.const false (c + x)) r l' := by
  cases h with
  | saved ht hr hle =>
    obtain rfl := tidy_const_iff.1 ht
    obtain ⟨d, rfl⟩ := rep_const hr
    refine triple_succ (triple_getObj (mem_shared hle) (triple_new fun ans d' => triple_setKey ?_))
    exact newConst_spec (mem_shared hle) (triple_getNum (mem_shared ((add_comm ..).trans_le hle)) (setValue_spec rfl))
  | owned ht hr =>
    obtain rfl := tidy_const_iff.1 ht
    obtain ⟨d, rfl⟩ := rep_const hr
    refine triple_succ (triple_getObj mem_head (triple_value (c := c) rfl (by simp) ?_))
    refine triple_of_eq (objAt p ⟨none, [(0, d)], false⟩ + (numAt d c + 0)) (by rw [add_zero])
      ((setValue_spec rfl).bind ?_)
    rintro _ _ rfl
    rw [add_zero]
    exact triple_pure (.const ..)

/-- The end of an operator that has built the map of `ans`. -/
theorem simplify_return {mp : Entries} (h : Built ans (some k) mp l) :
    Triple S l (fun n => simplify n ans >>= fun _ => pure ans)
      fun r l' => Rep (Multinomial.simplify (.node false k mp)) r l' := by
  obtain ⟨is, rfl, hsorted, his, rfl⟩ := h
  exact (simplify_spec (sorted_entries.2 hsorted) his).bind fun _ _ h => triple_pure h

/-- The sum at the exponent 0 may leave nothing but a zero. -/
theorem zeroSimplify_spec {v : Multinomial} {r : Addr} {lr : Cells Cell} (hv : Rep v r lr) (his : Holds is) :
    Triple S (objAt p ⟨some k, (0, r) :: kids is, false⟩ + (lr + cells is)) (fun n => do
        let o ← getObj p
        let zero ← isZero r
        onlyIf (o.mp.length = 1 && zero) (do
          setKey p none
          destroy n r
          let d ← alloc (.num 0)
          setEntry p 0 d)
        pure p)
      fun r' l => r' = p ∧ Rep
        (if ((0, v) :: entries is).length = 1 ∧ ((0, v) :: entries is).all (·.2.isZero) then .const false 0
          else .node false k ((0, v) :: entries is)) p l := by
  have hle : lr ≤ objAt p ⟨some k, (0, r) :: kids is, false⟩ + (lr + cells is) + S :=
    (Multiset.le_add_right ..).trans ((Multiset.le_add_left ..).trans (Multiset.le_add_right ..))
  refine triple_getObj mem_head ((isZero_spec hv hle).bind ?_)
  rintro _ _ ⟨rfl, rfl⟩
  by_cases hzero : is = [] ∧ v.isZero = true
  · obtain ⟨rfl, hz⟩ := hzero
    rw [if_pos ⟨rfl, by rw [List.all_cons, hz]; rfl⟩, hz]
    refine Triple.bind (Q := fun _ l => ∃ d, l = objAt p ⟨none, [(0, d)], false⟩ + numAt d 0) ?_ ?_
    · refine triple_setKey (triple_of_eq (lr + objAt p ⟨none, [(0, r)], false⟩)
        (by rw [cells_nil, add_zero, add_comm]; rfl) ?_)
      refine (destroy_spec hv).call ?_
      rintro _ _ rfl
      refine triple_alloc fun d => triple_of_eq (objAt p ⟨none, [(0, r)], false⟩ + numAt d 0) (by abel)
        (setEntry_spec.mono ?_)
      rintro _ _ rfl
      exact ⟨d, rfl⟩
    · rintro _ _ ⟨d, rfl⟩
      exact triple_pure ⟨rfl, .const ..⟩
  · have hcond : (((0, r) :: kids is).length = 1 && v.isZero) = false := by
      simpa [kids, mapVal] using hzero
    have hcond' : ¬(((0, v) :: entries is).length = 1 ∧ ((0, v) :: entries is).all (·.2.isZero) = true) := by
      rintro ⟨hlen, hall⟩
      rw [List.all_cons, Bool.and_eq_true] at hall
      exact hzero ⟨by simpa [entries, mapVal] using hlen, hall.1⟩
    rw [if_neg hcond']
    simp only [hcond]
    refine triple_of_eq _ ?_ (triple_pure ⟨rfl, .node false k p ((0, ⟨v, r, lr⟩) :: is) (holds_cons hv his)⟩)
    rw [cells_cons]
    rfl

/-- Without copies only the coefficient of the exponent 0 changes. -/
theorem addDoubleMp_cons {v : Multinomial} {mp : Entries} (h : Sorted ((0, v) :: mp)) (x : ℚ) :
    Multinomial.addDoubleMp false x ((0, v) :: mp) = (0, v.addDouble x) :: mp := by
  rw [Multinomial.addDoubleMp, if_pos rfl, Multinomial.addDoubleMp_eq]
  refine congrArg _ ((Entries.mapVals_congr (g := fun _ c => c) fun y hy => ?_).trans (List.map_id mp))
  have hpos : 0 < y.1 := (List.pairwise_cons.1 h).1 y.1 (List.mem_map_of_mem hy)
  rw [if_neg (UInt16.pos_iff_ne_zero.1 hpos)]
  rfl

theorem addDouble_spec (h : Operand S s m p l) (x : ℚ) :
    Triple S l (fun n => addDouble n p x) fun r l' => Rep (m.addDouble x) r l' := by
  induction m generalizing p l with
  | const s' c => exact addDouble_const h x
  | node s' k mp ih =>
    obtain rfl : s' = s := (tidy_node_iff.1 h.tidy).1
    obtain ⟨is, rfl, hsorted, hzero, hmem, rfl, his⟩ := operand_node h
    have ih' : ∀ i ∈ is, Triple S i.2.own (fun n => addDouble n i.2.addr x)
        fun r l' => Rep (i.2.val.addDouble x) r l' :=
      fun i hi => ih (i.1, i.2.val) (mem_entries hi) (his i hi)
    refine triple_succ (triple_getObj (mem_add_right hmem) ?_)
    cases s' with
    | true =>
      rw [self_true, zero_add] at hmem ⊢
      refine triple_new fun ans d => triple_setKey ?_
      have hloop := @forEach_new S (numAt d 0) p d ans _ is
        (fun e c => if e = 0 then c.addDouble x else if true then c.copy else c)
        (fun n e y => if e = 0 then addDouble n y x >>= fun r => setEntry ans e r
          else copyOf n y >>= fun temp => setEntry ans e temp)
        (some k) (Multiset.mem_add.2 (.inr hmem)) hsorted hzero fun i hi => by
          by_cases he : i.1 = 0
          · simp only [he, if_true]
            exact puts_setEntry (ih' i hi)
          · simp only [he, if_false]
            exact puts_setEntry (copyOf_spec (his i hi))
      refine triple_of_eq _ ?_ (hloop.bind ?_)
      · abel
      · rintro _ _ ⟨l, rfl, hbuilt⟩
        rw [Multinomial.addDouble, Multinomial.addDoubleMp_eq]
        exact (simplify_return hbuilt).forget _
    | false =>
      rw [self_false]
      have hsorted' : Sorted is := sorted_entries.1 hsorted
      have hzero' : (is.lookup 0).isSome := by rwa [entries, lookup_mapVal, Option.isSome_map] at hzero
      obtain ⟨v, is, rfl⟩ := exists_zero_head hsorted' hzero'
      refine triple_skip rfl (triple_getObj mem_head ?_)
      refine triple_of_eq (v.own + (objAt p ⟨some k, kids ((0, v) :: is), false⟩ + cells is))
        (by rw [cells_cons]; abel) ?_
      refine (ih' _ List.mem_cons_self).call fun r lr hr => ?_
      refine triple_of_eq (objAt p ⟨some k, kids ((0, v) :: is), false⟩ + (lr + cells is)) (by abel)
        (triple_setEntry ?_)
      have hput : put 0 r (kids ((0, v) :: is)) = (0, r) :: kids is :=
        @put_split _ _ 0 v.addr _ _ _ [] (kids is) (nodup_kids hsorted') r
      have hholds : Holds is := fun i hi => (his i (List.mem_cons_of_mem _ hi)).rep
      simp only [hput]
      refine (zeroSimplify_spec hr hholds).mono ?_
      rintro _ l ⟨rfl, hrep⟩
      have hmp : Multinomial.addDoubleMp false x (entries ((0, v) :: is)) = (0, v.val.addDouble x) :: entries is :=
        addDoubleMp_cons hsorted x
      simp only [Multinomial.addDouble, hzero, if_true, hmp]
      exact hrep

/-! ## Adding a multinomial -/

/-- The node of the smaller symbol takes the other operand at the exponent 0. -/
theorem addInto_spec {plus : Multinomial → Multinomial} {add : ℕ → Addr → Addr → Prog Cell Addr} {la : Cells Cell}
    (hsorted : Sorted (entries is)) (hzero : ((entries is).lookup 0).isSome)
    (hmem : (q, .obj ⟨some k, kids is, s⟩) ∈ self s q ⟨some k, kids is, s⟩ + S)
    (his : ∀ i ∈ is, Operand S s i.2.val i.2.addr i.2.own)
    (hadd : ∀ i ∈ is, Triple S (i.2.own + la) (fun n => add n i.2.addr p) fun r l => Rep (plus i.2.val) r l) :
    Triple S (objAt ans ⟨none, [(0, d)], false⟩ + (la + (self s q ⟨some k, kids is, s⟩ + cells is)))
      (fun n => addInto n (add n) ans p q ⟨some k, kids is, s⟩) fun r l =>
        Rep (.node false k ((entries is).mapVals fun e c => if e = 0 then plus c else c.copy)) r l := by
  obtain ⟨v, is, rfl⟩ :=
    exists_zero_head (sorted_entries.1 hsorted) (by rwa [entries, lookup_mapVal, Option.isSome_map] at hzero)
  refine triple_setKey ?_
  -- the other operand belongs to the first coefficient
  have hloop := @forEach_new S (self s q ⟨some k, kids ((0, v) :: is), s⟩) q d ans _
    ((0, ⟨v.val, v.addr, v.own + la⟩) :: is) (fun e c => if e = 0 then plus c else c.copy)
    (fun n e x => if e = 0 then add n x p >>= fun r => setEntry ans e r else copyOf n x >>= fun r => setEntry ans e r)
    (some k) hmem hsorted hzero ?_
  · refine triple_of_eq _ ?_ (hloop.bind ?_)
    · simp only [cells_cons]
      abel
    · rintro _ _ ⟨l, rfl, hbuilt⟩
      refine triple_of_eq _ (add_comm ..)
        ((deleteObj_spec (o := ⟨some k, kids ((0, v) :: is), s⟩) (mem_add_right hmem)).bind ?_)
      rintro _ _ rfl
      exact triple_pure hbuilt.rep
  · rintro i hi
    rcases List.mem_cons.1 hi with rfl | hi
    · exact puts_setEntry (hadd (0, v) List.mem_cons_self)
    · have hpos : 0 < i.1 := (List.pairwise_cons.1 (sorted_entries.1 hsorted)).1 i.1 (List.mem_map_of_mem hi)
      simp only [if_neg (UInt16.pos_iff_ne_zero.1 hpos)]
      exact puts_setEntry (copyOf_spec (his i (List.mem_cons_of_mem _ hi)))

/-- The cells of the coefficients with those of the coefficients of `js` that they are added to. -/
def withMatch (js is : List (UInt16 × Stored)) : List (UInt16 × Stored) :=
  is.map fun i => (i.1, ⟨i.2.val, i.2.addr, i.2.own + ((js.lookup i.1).map Stored.own).getD 0⟩)

theorem entries_withMatch (js is : List (UInt16 × Stored)) : entries (withMatch js is) = entries is := List.map_map

theorem kids_withMatch (js is : List (UInt16 × Stored)) : kids (withMatch js is) = kids is := List.map_map

/-- The coefficients, those for whose key `is` has one not owned. -/
def without (is js : List (UInt16 × Stored)) : List (UInt16 × Stored) :=
  js.map fun j => (j.1, ⟨j.2.val, j.2.addr, if (is.lookup j.1).isNone then j.2.own else 0⟩)

theorem entries_without (is js : List (UInt16 × Stored)) : entries (without is js) = entries js := List.map_map

theorem kids_without (is js : List (UInt16 × Stored)) : kids (without is js) = kids js := List.map_map

theorem cells_without_cons {i : UInt16 × Stored} (hi : i.1 ∉ is.map Prod.fst) (hjs : (js.map Prod.fst).Nodup) :
    ((js.lookup i.1).map Stored.own).getD 0 + cells (without (i :: is) js) = cells (without is js) := by
  -- only the entry with the key of `i` makes a difference
  have hsame : ∀ {ks : List (UInt16 × Stored)}, i.1 ∉ ks.map Prod.fst → without (i :: is) ks = without is ks := by
    intro ks hks
    refine List.map_congr_left fun j hj => ?_
    have hne : (j.1 == i.1) = false := beq_false_of_ne fun he => hks (List.mem_map.2 ⟨j, hj, he⟩)
    rw [← Prod.mk.eta (p := i), List.lookup_cons, hne]
  cases hlookup : js.lookup i.1 with
  | none =>
    rw [hsame (lookup_eq_none.1 hlookup)]
    exact zero_add _
  | some v =>
    obtain ⟨js₁, js₂, rfl⟩ := exists_split hlookup
    rw [List.map_append, List.map_cons, List.nodup_middle, List.nodup_cons, List.mem_append, not_or] at hjs
    have hout : cells (without (i :: is) ((i.1, v) :: js₂)) = cells (without is js₂) := by
      rw [← hsame hjs.1.2, without, List.map_cons, cells_cons, ← Prod.mk.eta (p := i), List.lookup_cons,
        beq_self_eq_true]
      exact zero_add _
    have hin : cells (without is ((i.1, v) :: js₂)) = v.own + cells (without is js₂) := by
      rw [without, List.map_cons, cells_cons, lookup_eq_none.2 hi]
      rfl
    have happend : ∀ ks : List (UInt16 × Stored), without ks (js₁ ++ (i.1, v) :: js₂) = without ks js₁ ++
        without ks ((i.1, v) :: js₂) :=
      fun ks => List.map_append
    rw [happend, happend, cells_append, cells_append, hout, hin, hsame hjs.1.1, Option.map_some, Option.getD_some]
    abel

theorem cells_withMatch : ∀ {is : List (UInt16 × Stored)}, (is.map Prod.fst).Nodup → (js.map Prod.fst).Nodup →
    cells (withMatch js is) + cells (without is js) = cells is + cells js
  | [], _, _ => by
    have hall : without [] js = js := List.map_id js
    rw [hall]
    rfl
  | i :: is, his, hjs => by
    obtain ⟨hi, his⟩ := List.nodup_cons.1 his
    have hcons : cells (withMatch js (i :: is)) = i.2.own + ((js.lookup i.1).map Stored.own).getD 0 +
      cells (withMatch js is) := cells_cons ..
    rw [hcons, cells_cons, add_assoc i.2.own (cells is), ← cells_withMatch his hjs, ← cells_without_cons hi hjs]
    abel

/-- The object of the right operand is deleted if it is not that of the left one. -/
theorem deleteOther_spec (hq : (q, .obj o) ∈ self o.save q o + S) (hsame : p = q → o.save = true) :
    Triple S (self o.save q o + l) (fun _ => onlyIf (p != q) (deleteObj q)) fun _ l' => l' = l := by
  by_cases he : p = q
  · have hskip : (p != q) = false := by simpa using he
    rw [hskip, hsame he]
    exact triple_pure (zero_add l)
  · have hbne : (p != q) = true := bne_iff_ne.2 he
    rw [hbne]
    exact deleteObj_spec (mem_add_right hq)

section Same

variable {plus : Multinomial → Multinomial → Multinomial} {add : ℕ → Addr → Addr → Prog Cell Addr}

theorem joinCoef_spec {i : UInt16 × Stored} {key : Option Symbol} (hmem : (q, .obj ⟨key, kids js, s'⟩) ∈ S)
    (hi : Operand S s i.2.val i.2.addr i.2.own) (htidy : ∀ j ∈ js, Tidy false (plus i.2.val j.2.val))
    (hadd : ∀ j ∈ js, Triple S (i.2.own + j.2.own) (fun n => add n i.2.addr j.2.addr) fun r l =>
    Rep (plus i.2.val j.2.val) r l) :
      Triple S (i.2.own + ((js.lookup i.1).map Stored.own).getD 0)
        (fun n => joinCoef n (add n) q i.1 i.2.addr) fun r l =>
      Rep (Multinomial.joinCoef plus (entries js) i.1 i.2.val) r l := by
  refine triple_getObj (Multiset.mem_add.2 (.inr hmem)) ?_
  have hkids : (kids js).lookup i.1 = (js.lookup i.1).map Stored.addr := lookup_mapVal ..
  have hentries : (entries js).lookup i.1 = (js.lookup i.1).map Stored.val := lookup_mapVal ..
  simp only [Multinomial.joinCoef, hkids, hentries]
  cases hlookup : js.lookup i.1 with
  | none =>
    refine triple_of_eq _ (add_zero _) (copyOf_spec hi)
  | some v =>
    have hv : (i.1, v) ∈ js := by
      obtain ⟨js₁, js₂, rfl⟩ := exists_split hlookup
      exact List.mem_append.2 (.inr List.mem_cons_self)
    refine (hadd (i.1, v) hv).bind fun r l hr => ?_
    have hcopy := @copyOf_spec S _ r false _ (.owned (htidy (i.1, v) hv) hr)
    rw [Multinomial.copy_of_unsaved (htidy (i.1, v) hv)] at hcopy
    exact hcopy

/-- The first loop: the exponents of the left operand. -/
theorem joinLoop_spec {key key' : Option Symbol} (hp : (p, .obj o) ∈ S) (hq : (q, .obj ⟨key', kids js, s'⟩) ∈ S)
    (hsorted : Sorted (entries is)) (hzero : ((entries is).lookup 0).isSome)
    (his : ∀ i ∈ is, Operand S s i.2.val i.2.addr i.2.own)
    (htidy : ∀ i ∈ is, ∀ j ∈ js, Tidy false (plus i.2.val j.2.val)) (hadd : ∀ i ∈ is, ∀ j ∈ js,
      Triple S (i.2.own + j.2.own) (fun n => add n i.2.addr j.2.addr) fun r l => Rep (plus i.2.val j.2.val) r l) :
    Triple S (objAt ans ⟨key, [(0, d)], false⟩ + cells (withMatch js is)) (fun n => forEach p (fun e x => do
        let r ← joinCoef n (add n) q e x
        setEntry ans e r) (kids is))
      fun _ l => Built ans key ((entries is).mapVals (Multinomial.joinCoef plus (entries js))) l := by
  have hloop := @forEach_new S 0 p d ans o (withMatch js is) (Multinomial.joinCoef plus (entries js))
    (fun n e x => joinCoef n (add n) q e x >>= fun r => setEntry ans e r) key (Multiset.mem_add.2 (.inr hp))
    (by rwa [entries_withMatch]) (by rwa [entries_withMatch]) fun i hmem => by
      obtain ⟨i, hi, rfl⟩ := List.mem_map.1 hmem
      exact puts_setEntry (joinCoef_spec hq (his i hi) (htidy i hi) (hadd i hi))
  rw [entries_withMatch, kids_withMatch, add_zero] at hloop
  refine hloop.mono ?_
  rintro _ _ ⟨l, rfl, hbuilt⟩
  rwa [add_zero]

/-- The second loop: the exponents that only the right operand has. -/
theorem restLoop_spec {key key' : Option Symbol} {acc : Entries} (hp : (p, .obj ⟨key', kids is, s⟩) ∈ S)
    (hq : (q, .obj o) ∈ S) (hjs : ∀ j ∈ js, Operand S s' j.2.val j.2.addr j.2.own) (h : Built ans key acc l) :
    Triple S (l + cells (without is js)) (fun n => forEach q (fun e y => do
        let o ← getObj p
        onlyIf (o.mp.lookup e).isNone (do
          let r ← copyOf n y
          setEntry ans e r)) (kids js))
      fun _ l => Built ans key ((entries js).foldl
        (fun acc b => if ((entries is).lookup b.1).isNone then acc.put b.1 b.2.copy else acc) acc) l := by
  have hloop := @forEach_fold S 0 q ans o
    (fun acc b => if ((entries is).lookup b.1).isNone then acc.put b.1 b.2.copy else acc)
    (fun n e y => getObj p >>= fun o => onlyIf (o.mp.lookup e).isNone (copyOf n y >>= fun r => setEntry ans e r)) key
    (Multiset.mem_add.2 (.inr hq)) (without is js) acc l h fun j hmem mp l h => by
      obtain ⟨j, hj, rfl⟩ := List.mem_map.1 hmem
      refine triple_getObj (Multiset.mem_add.2 (.inr hp)) ?_
      have hkids : (kids is).lookup j.1 = (is.lookup j.1).map Stored.addr := lookup_mapVal ..
      have hentries : (entries is).lookup j.1 = (is.lookup j.1).map Stored.val := lookup_mapVal ..
      simp only [hkids, hentries, Option.isNone_map]
      cases (is.lookup j.1).isNone with
      | true => exact (puts_setEntry (copyOf_spec (hjs j hj))).built h
      | false => exact triple_of_eq l (add_zero l) (triple_pure h)
  rw [entries_without, kids_without, add_zero] at hloop
  refine hloop.mono ?_
  rintro _ _ ⟨l, rfl, hbuilt⟩
  rwa [add_zero]

theorem addSame_spec {k' : Symbol} (hsorted : Sorted (entries is)) (hzero : ((entries is).lookup 0).isSome)
    (hp : (p, .obj ⟨some k, kids is, s⟩) ∈ self s p ⟨some k, kids is, s⟩ + S)
    (his : ∀ i ∈ is, Operand S s i.2.val i.2.addr i.2.own) (hsorted' : Sorted (entries js))
    (hq : (q, .obj ⟨some k', kids js, s'⟩) ∈ self s' q ⟨some k', kids js, s'⟩ + S)
    (hjs : ∀ j ∈ js, Operand S s' j.2.val j.2.addr j.2.own) (hsame : p = q → s' = true)
    (htidy : ∀ i ∈ is, ∀ j ∈ js, Tidy false (plus i.2.val j.2.val))
    (hadd : ∀ T, ∀ i ∈ is, ∀ j ∈ js,
      Triple (S + T) (i.2.own + j.2.own) (fun n => add n i.2.addr j.2.addr) fun r l => Rep (plus i.2.val j.2.val) r l) :
    Triple S (objAt ans ⟨none, [(0, d)], false⟩ +
      (self s p ⟨some k, kids is, s⟩ + cells is + (self s' q ⟨some k', kids js, s'⟩ + cells js)))
      (fun n => addSame n (add n) ans p q ⟨some k, kids is, s⟩ ⟨some k', kids js, s'⟩) fun r l =>
        Rep (Multinomial.simplify (.node false k (Multinomial.mergeMp plus (entries is) (entries js)))) r l := by
  -- both objects are only read in the loops
  generalize hT : self s p ⟨some k, kids is, s⟩ + self s' q ⟨some k', kids js, s'⟩ = T
  have hp' : (p, Cell.obj ⟨some k, kids is, s⟩) ∈ S + T := by
    rw [← hT, add_comm]
    exact mem_add_right hp
  have hq' : (q, Cell.obj ⟨some k', kids js, s'⟩) ∈ S + T := by
    rw [← hT, add_comm, add_comm (self s p _)]
    exact mem_add_right hq
  refine triple_setKey (triple_of_eq (objAt ans ⟨some k, [(0, d)], false⟩ + cells (withMatch js is) + T +
    cells (without is js)) ?_ ?_)
  · have hcells := cells_withMatch (sorted_entries.1 hsorted).nodup (sorted_entries.1 hsorted').nodup
    calc _ = objAt ans ⟨some k, [(0, d)], false⟩ + T + (cells is + cells js) := by rw [← hT]; abel
      _ = _ := by rw [← hcells]; abel
  · refine (joinLoop_spec hp' hq' hsorted hzero (fun i hi => (his i hi).share T) htidy (hadd T)).share.call ?_
    rintro _ _ ⟨l, rfl, hbuilt⟩
    refine triple_of_eq (l + cells (without is js) + T) (by abel) ?_
    refine (restLoop_spec hp' hq' (fun j hj => (hjs j hj).share T) hbuilt).share.bind ?_
    rintro _ _ ⟨l, rfl, hbuilt⟩
    rw [← hT]
    refine triple_of_eq (self s p ⟨some k, kids is, s⟩ + (self s' q ⟨some k', kids js, s'⟩ + l)) (by abel) ?_
    refine (deleteObj_spec (o := ⟨some k, kids is, s⟩) (mem_add_right hp)).bind ?_
    rintro _ _ rfl
    refine (deleteOther_spec (o := ⟨some k', kids js, s'⟩) hq hsame).bind ?_
    rintro _ _ rfl
    exact simplify_return hbuilt

end Same

theorem addFuel_rep : ∀ (fuel : ℕ) {S la lb : Cells Cell} {p q : Addr} {s s' : Bool} {a b : Multinomial}, a.size +
    b.size ≤ fuel → Operand S s a p la → Operand S s' b q lb →
    Triple S (la + lb) (fun n => add n p q) fun r l => Rep (Multinomial.addFuel fuel a b) r l
  | 0, _, _, _, _, _, _, _, a, b, hn, _, _ => by cases a <;> simp [Multinomial.size] at hn
  | fuel + 1, S, la, lb, p, q, s, s', .const t c, b, hn, ha, hb => by
    obtain ⟨d, hobj, hnum, -⟩ := operand_const ha
    refine triple_succ (triple_getObj (mem_add_right hobj) (triple_value rfl (mem_add_right hnum) ?_))
    refine triple_of_eq _ (add_comm ..) ((addDouble_spec hb c).call fun ans l hr => triple_of_eq _ (add_comm ..) ?_)
    exact (release_spec ha).consume fun _ => triple_pure hr
  | fuel + 1, S, la, lb, p, q, s, s', .node t k mp, .const t' c, hn, ha, hb => by
    obtain ⟨o, hobj, hkey⟩ := ha.mem_node
    obtain ⟨d, hobj', hnum, -⟩ := operand_const hb
    refine triple_succ (triple_getObj (mem_add_right hobj) ?_)
    simp only [hkey]
    refine triple_getObj (mem_add_left hobj') (triple_value rfl (mem_add_left hnum) ?_)
    refine (addDouble_spec ha c).call fun ans l hr => triple_of_eq _ (add_comm ..) ?_
    exact (release_spec hb).consume fun _ => triple_pure hr
  | fuel + 1, S, la, lb, p, q, s, s', .node t k mp, .node t' k' mq, hn, ha, hb => by
    refine ha.saved_of_same hb fun hsame => ?_
    obtain ⟨is, rfl, hsorted, hzero, hobj, hla, his⟩ := operand_node ha
    obtain ⟨js, rfl, hsorted', hzero', hobj', hlb, hjs⟩ := operand_node hb
    have hmem : (p, Cell.obj ⟨some k, kids is, s⟩) ∈ la + lb + S := by
      rw [hla]
      exact mem_add_right (mem_add_right hobj)
    have hmem' : (q, Cell.obj ⟨some k', kids js, s'⟩) ∈ la + lb + S := by
      rw [hlb]
      exact mem_add_left (mem_add_right hobj')
    refine triple_succ (triple_getObj hmem (triple_getObj hmem' (triple_new fun ans d => ?_)))
    refine triple_of_eq (objAt ans ⟨none, [(0, d)], false⟩ + (la + lb) + numAt d 0) (by abel) (Triple.forget ?_ _)
    rw [Multinomial.addFuel]
    by_cases hgt : k.id > k'.id
    · simp only [hgt, if_true]
      rw [hlb]
      exact addInto_spec hsorted' hzero' hobj' hjs fun j hj => addFuel_rep fuel (by have := size_lt hj t' k'; omega)
        (hjs j hj) ha
    · simp only [hgt, if_false]
      by_cases hlt : k.id < k'.id
      · simp only [hlt, if_true]
        rw [hla, add_comm _ lb]
        exact addInto_spec hsorted hzero hobj his fun i hi => addFuel_rep fuel (by have := size_lt hi t k; omega)
          (his i hi) hb
      · simp only [hlt, if_false]
        have hlt : ∀ i ∈ is, ∀ j ∈ js, i.2.val.size + j.2.val.size ≤ fuel := fun i hi j hj => by
          have := size_lt hi t k
          have := size_lt hj t' k'
          omega
        rw [hla, hlb]
        exact addSame_spec hsorted hzero hobj his hsorted' hobj' hjs hsame
          (fun i hi j hj => Multinomial.tidy_addFuel fuel (hlt i hi j hj) (his i hi).tidy (hjs j hj).tidy)
          fun T i hi j hj => addFuel_rep fuel (hlt i hi j hj) ((his i hi).share T) ((hjs j hj).share T)

/-- `operator+(multinomial&)`. -/
theorem add_spec {la lb : Cells Cell} (ha : Operand S s a p la) (hb : Operand S s' b q lb) :
    Triple S (la + lb) (fun n => add n p q) fun r l => Rep (a.add b) r l := addFuel_rep _ le_rfl ha hb

end Mem

end GridSolve.Poly
