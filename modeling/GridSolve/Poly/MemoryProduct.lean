/-
Products and powers on memory: `operator*` with a `double` and with a multinomial, and `operator^`. An
operand that is not saved is needed once for every entry of the other one. It is marked as saved, shared
during all products but the last, and gets its flag back for the last one, which uses it up.
-/
import GridSolve.Poly.MemorySum
import GridSolve.Poly.Power

namespace GridSolve.Poly

open GridSolve.Heap GridSolve.Keyed

namespace Mem

open Multinomial (Tidy tidy_const_iff tidy_node_iff)

variable {S l G : Cells Cell} {p q d ans : Addr} {o : Obj} {c : ℚ} {s s' : Bool} {k : Symbol} {m a b : Multinomial}
  {is js : List (UInt16 × Stored)} {key : Option Symbol} {mp : Entries}

/-! ## Multiplying with a `double` -/

/-- An unsaved operand becomes the constant 0; what it points to is left behind. -/
theorem clear_spec : Triple S (objAt p o + l) (fun _ => do
      let d ← alloc (.num 0)
      setObj p ⟨none, [(0, d)], false⟩
      pure p) fun r l' => Rep (.const false 0) r l' := by
  refine triple_alloc fun d => triple_of_eq (objAt p o + numAt d 0 + l) (by abel) (Triple.forget ?_ l)
  exact triple_setObj (triple_pure (.const ..))

theorem mulDouble_const (h : Operand S s (.const s' c) p l) (x : ℚ) :
    Triple S l (fun n => mulDouble n p x) fun r l' => Rep (.const false (c * x)) r l' := by
  cases h with
  | saved ht hr hle =>
    obtain rfl := tidy_const_iff.1 ht
    obtain ⟨d, rfl⟩ := rep_const hr
    refine triple_succ (triple_getObj (mem_shared hle) (triple_new fun ans d' => triple_setKey ?_))
    exact newConst_spec (mem_shared hle) (triple_getNum (mem_shared ((add_comm ..).trans_le hle)) (setValue_spec rfl))
  | owned ht hr =>
    obtain rfl := tidy_const_iff.1 ht
    obtain ⟨d, rfl⟩ := rep_const hr
    refine triple_succ (triple_getObj mem_head ?_)
    by_cases hx : x = 0
    · simp only [hx, if_true, mul_zero]
      exact clear_spec
    · simp only [hx, if_false]
      refine triple_value (c := c) rfl (by simp) ?_
      refine triple_of_eq (objAt p ⟨none, [(0, d)], false⟩ + (numAt d c + 0)) (by rw [add_zero])
        ((setValue_spec rfl).bind ?_)
      rintro _ _ rfl
      rw [add_zero]
      exact triple_pure (.const ..)

/-- The loop that changes the map it runs over. -/
theorem forEach_replace {f : Multinomial → Multinomial} {body : ℕ → Addr → Prog Cell Addr} :
    ∀ {is js : List (UInt16 × Stored)}, Sorted (js ++ is) → Holds js →
    (∀ i ∈ is, Triple S i.2.own (fun n => body n i.2.addr) fun r l => Rep (f i.2.val) r l) →
    Triple S (objAt p ⟨key, kids (js ++ is), false⟩ + cells (js ++ is)) (fun n => forEach p (fun e x => do
        let r ← body n x
        setEntry p e r) (kids is))
      fun _ l => Built p key (entries js ++ (entries is).mapVals fun _ c => f c) l
  | [], js, hsorted, hjs, _ => by
    rw [List.append_nil] at hsorted ⊢
    exact triple_pure ⟨js, List.append_nil _, hsorted, hjs, rfl⟩
  | i :: is, js, hsorted, hjs, hbody => by
    refine triple_getObj mem_head
      (triple_of_eq (i.2.own + (objAt p ⟨key, kids (js ++ i :: is), false⟩ + cells (js ++ is))) ?_ ?_)
    · rw [cells_append, cells_cons, cells_append]
      abel
    · refine Triple.bind (Q := fun _ l => ∃ r lr, Rep (f i.2.val) r lr ∧
        l = objAt p ⟨key, put i.1 r (kids (js ++ i :: is)), false⟩ + (lr + cells (js ++ is))) ?_ ?_
      · refine (hbody i List.mem_cons_self).call fun r lr hr => ?_
        refine triple_of_eq (objAt p ⟨key, kids (js ++ i :: is), false⟩ + (lr + cells (js ++ is))) (by abel)
          (setEntry_spec.mono ?_)
        rintro _ _ rfl
        exact ⟨r, lr, hr, rfl⟩
      · rintro _ _ ⟨r, lr, hr, rfl⟩
        have hput : put i.1 r (kids (js ++ i :: is)) = kids (js ++ [(i.1, ⟨f i.2.val, r, lr⟩)] ++ is) := by
          rw [List.append_assoc, kids_append, kids_append]
          have hnodup := nodup_kids hsorted
          rw [kids_append] at hnodup
          exact put_split hnodup r
        have hsorted' : Sorted (js ++ [(i.1, ⟨f i.2.val, r, lr⟩)] ++ is) := by
          unfold Sorted at hsorted ⊢
          rwa [List.append_assoc, List.map_append] at *
        have hnext := @forEach_replace f body is _ hsorted'
          (holds_append hjs (holds_cons hr fun _ h => absurd h List.not_mem_nil)) fun j hj =>
            hbody j (List.mem_cons_of_mem _ hj)
        rw [hput]
        refine triple_of_eq _ ?_ (hnext.mono fun _ l h => ?_)
        · simp only [cells_append, cells_cons, cells_nil]
          abel
        · rw [entries_append, List.append_assoc] at h
          exact h

theorem mulDouble_spec (h : Operand S s m p l) (x : ℚ) :
    Triple S l (fun n => mulDouble n p x) fun r l' => Rep (m.mulDouble x) r l' := by
  induction m generalizing p l with
  | const s' c => exact mulDouble_const h x
  | node s' k mp ih =>
    obtain rfl : s' = s := (tidy_node_iff.1 h.tidy).1
    obtain ⟨is, rfl, hsorted, hzero, hmem, rfl, his⟩ := operand_node h
    have ih' : ∀ i ∈ is, Triple S i.2.own (fun n => mulDouble n i.2.addr x)
        fun r l' => Rep (i.2.val.mulDouble x) r l' :=
      fun i hi => ih (i.1, i.2.val) (mem_entries hi) (his i hi)
    refine triple_succ (triple_getObj (mem_add_right hmem) ?_)
    cases s' with
    | true =>
      rw [self_true, zero_add] at hmem ⊢
      refine triple_new fun ans d => triple_setKey ?_
      have hloop := @forEach_new S (numAt d 0) p d ans _ is (fun _ c => c.mulDouble x)
        (fun n e y => mulDouble n y x >>= fun r => setEntry ans e r) (some k)
        (Multiset.mem_add.2 (.inr hmem)) hsorted hzero
        fun i hi => puts_setEntry (ih' i hi)
      refine triple_of_eq _ ?_ (hloop.bind ?_)
      · abel
      · rintro _ _ ⟨l, rfl, hbuilt⟩
        rw [Multinomial.mulDouble, Multinomial.mulDoubleMp_eq]
        exact (simplify_return hbuilt).forget _
    | false =>
      rw [Multinomial.mulDouble, self_false]
      by_cases hx : x = 0
      · simp only [hx, if_true]
        exact clear_spec
      · simp only [hx, if_false]
        refine (@forEach_replace S p (some k) (Multinomial.mulDouble x) (fun n y => mulDouble n y x) is []
          (sorted_entries.1 hsorted) (fun _ h => absurd h List.not_mem_nil) ih').bind ?_
        intro _ l hbuilt
        rw [Multinomial.mulDoubleMp_eq]
        exact triple_pure hbuilt.rep

/-! ## Operands that are needed again -/

/-- What is left of an operand that has been used: nothing of a shared one. -/
def Rest (ρ : Cells Cell → Prop) (s : Bool) (l : Cells Cell) : Prop := if s then l = 0 else ρ l

/-- An operand with `sz` more turns to come: marked as saved until the last. -/
inductive Waiting (S : Cells Cell) (ρ : Cells Cell → Prop) : Bool → Multinomial → Addr → ℕ → Cells Cell → Prop
  | saved {a : Multinomial} {p : Addr} {sz : ℕ} (h : Operand S true a p 0) : Waiting S ρ true a p sz 0
  | held {a : Multinomial} {p : Addr} {sz : ℕ} {l : Cells Cell} (tidy : Tidy false a) (rep : Rep (a.setSave true) p l) :
      Waiting S ρ false a p (sz + 2) l
  | last {a : Multinomial} {p : Addr} {l : Cells Cell} (h : Operand S false a p l) : Waiting S ρ false a p 1 l
  | used {a : Multinomial} {p : Addr} {l : Cells Cell} (h : ρ l) : Waiting S ρ false a p 0 l

/-- The operand as it is in a turn with `sz` more to come. -/
def inTurn (s : Bool) (sz : ℕ) (a : Multinomial) : Multinomial := if s = false ∧ sz ≠ 0 then a.setSave true else a

/-- The entries that a loop builds with such an operand. -/
def foldHeld (F : Entries → UInt16 × Multinomial → Multinomial → Entries) (s : Bool) (a : Multinomial) :
    Entries → Entries → Entries
  | acc, [] => acc
  | acc, x :: mp => foldHeld F s a (F acc x (inTurn s mp.length a)) mp

theorem setSave_saved (h : Operand S true a p 0) : Triple S l (fun n => setSave n p true) fun _ l' => l' = l := by
  cases h with
  | saved ht hr hle =>
    obtain ⟨o, r, rfl, hsave, -⟩ := hr.split
    rw [ht.save_eq] at hsave
    refine triple_succ (triple_getObj (mem_shared hle) ?_)
    simp only [hsave, if_true]
    exact triple_pure rfl

/-- Before the loop an operand that is needed more than once is marked. -/
theorem waiting_start {ρ : Cells Cell → Prop} (h : Operand S s a p l) (sz : ℕ) :
    Triple S l (fun n => onlyIf (sz + 1 > 1 && !s) (setSave n p true)) fun _ l' => Waiting S ρ s a p (sz + 1) l' := by
  cases h with
  | saved ht hr hle =>
    simp only [Bool.not_true, Bool.and_false]
    exact triple_pure (.saved (.saved ht hr hle))
  | owned ht hr =>
    cases sz with
    | zero => exact triple_pure (.last (.owned ht hr))
    | succ sz =>
      have hmore : (decide (sz + 1 + 1 > 1) && !false) = true := by simp
      simp only [hmore]
      exact (setSave_spec hr true).mono fun _ _ h => .held ht h

/-- An operand after a turn, before its flag is looked at, with `sz` more turns to come. -/
inductive Used (S : Cells Cell) (ρ : Cells Cell → Prop) : Bool → Multinomial → Addr → ℕ → Cells Cell → Prop
  | saved {a : Multinomial} {p : Addr} {sz : ℕ} (h : Operand S true a p 0) : Used S ρ true a p sz 0
  | held {a : Multinomial} {p : Addr} {sz : ℕ} {l : Cells Cell} (tidy : Tidy false a) (rep : Rep (a.setSave true) p l) :
      Used S ρ false a p (sz + 1) l
  | used {a : Multinomial} {p : Addr} {l : Cells Cell} (h : ρ l) : Used S ρ false a p 0 l

variable {ρ : Cells Cell → Prop} {sz : ℕ}

theorem Waiting.use {Q : Multinomial → Cells Cell → Prop} {body : ℕ → Prog Cell Unit} {lx : Cells Cell}
    (h : Waiting S ρ s a p (sz + 1) l) (hbody : ∀ T u a' la, a'.bare = a.bare → Operand (S + T) u a' p la →
      Triple (S + T) (lx + la) body fun _ l' => ∃ lr lo, l' = lr + lo ∧ Q a' lr ∧ Rest ρ u lo) :
    Triple S (lx + l) body fun _ l' => ∃ lr lo, l' = lr + lo ∧ Q (inTurn s sz a) lr ∧ Used S ρ s a p sz lo := by
  cases h with
  | saved h =>
    have hturn := hbody 0 true a 0 rfl (h.share 0)
    rw [add_zero S] at hturn
    refine hturn.mono ?_
    rintro _ _ ⟨lr, _, rfl, hQ, rfl⟩
    exact ⟨lr, 0, rfl, hQ, .saved h⟩
  | held ht hr =>
    -- all but the last turn only read the operand
    have hturn := hbody l true _ 0 (Multinomial.bare_setSave true a)
      (.saved (ht.setSave true) hr (Multiset.le_add_left ..))
    rw [add_zero lx] at hturn
    refine hturn.share.mono ?_
    rintro _ _ ⟨_, rfl, lr, _, rfl, hQ, rfl⟩
    exact ⟨lr, l, by rw [add_zero], hQ, .held ht hr⟩
  | last h =>
    have hturn := hbody 0 false a l rfl (h.share 0)
    rw [add_zero S] at hturn
    refine hturn.mono ?_
    rintro _ _ ⟨lr, lo, rfl, hQ, hrest⟩
    exact ⟨lr, lo, rfl, hQ, .used hrest⟩

/-- The flag is given back if the next turn is the last. -/
theorem Used.next (h : Used S ρ s a p sz l) :
    Triple S l (fun n => onlyIf (sz = 1) (setSave n p s)) fun _ l' => Waiting S ρ s a p sz l' := by
  cases h with
  | saved h =>
    by_cases hsz : sz = 1
    · simp only [hsz, decide_true]
      refine (setSave_saved h).mono ?_
      rintro _ _ rfl
      exact .saved h
    · simp only [hsz, decide_false]
      exact triple_pure (.saved h)
  | @held _ _ sz _ ht hr =>
    cases sz with
    | zero =>
      refine (setSave_spec hr false).mono fun _ l' h => ?_
      rw [Multinomial.setSave_setSave ht] at h
      exact .last (.owned ht h)
    | succ sz => exact triple_pure (.held ht hr)
  | used h => exact triple_pure (.used h)

/-- The loop of a product over the entries of `m`, with the operand at `q` in every turn. -/
theorem heldLoop_spec {B : Entries → Cells Cell → Prop} {F : Entries → UInt16 × Multinomial → Multinomial → Entries}
    {body : ℕ → UInt16 → Addr → Prog Cell Unit} (hp : (p, .obj o) ∈ G + S) :
    ∀ {is : List (UInt16 × Stored)} {mp : Entries} {l lo : Cells Cell}, B mp l → Waiting S ρ s a q is.length lo →
    (∀ i ∈ is, ∀ {mp l}, B mp l → ∀ T u a' la, a'.bare = a.bare → Operand (S + T) u a' q la →
      Triple (S + T) (l + i.2.own + la) (fun n => body n i.1 i.2.addr) fun _ l' =>
        ∃ lr lo, l' = lr + lo ∧ B (F mp (i.1, i.2.val) a') lr ∧ Rest ρ u lo) →
    Triple S (l + cells is + lo + G) (fun n => heldLoop n p q s (body n) is.length (kids is)) fun _ l' =>
      ∃ lr lo, l' = lr + lo + G ∧ B (foldHeld F s a mp (entries is)) lr ∧ Waiting S ρ s a q 0 lo
  | [], mp, l, lo, hbuilt, hwait, _ => triple_pure ⟨l, lo, by rw [cells_nil, add_zero], hbuilt, hwait⟩
  | i :: is, mp, l, lo, hbuilt, hwait, hbody => by
    have hmem : (p, Cell.obj o) ∈ l + cells (i :: is) + lo + G + S := by
      rw [add_assoc _ G]
      exact Multiset.mem_add.2 (.inr hp)
    refine triple_getObj hmem (triple_of_eq (l + i.2.own + lo + (cells is + G)) (by rw [cells_cons]; abel) ?_)
    refine (hwait.use (hbody i List.mem_cons_self hbuilt)).call ?_
    rintro _ _ ⟨lr, lo, rfl, hbuilt, hused⟩
    refine triple_of_eq (lo + (lr + cells is + G)) (by abel) (hused.next.call fun _ lo hwait => ?_)
    refine triple_of_eq (lr + cells is + lo + G) (by abel) ?_
    have hfold : foldHeld F s a mp (entries (i :: is)) =
        foldHeld F s a (F mp (i.1, i.2.val) (inTurn s is.length a)) (entries is) := by
      have hlen : (entries is).length = is.length := List.length_map _
      rw [← hlen]
      rfl
    rw [hfold]
    exact heldLoop_spec hp hbuilt hwait fun j hj => hbody j (List.mem_cons_of_mem _ hj)

/-! ## The entries of a product -/

open Multinomial (held mapLast held_eq)

theorem mapLast_cons {α β : Type} (f : Bool → α → β) (x : α) :
    ∀ xs : List α, mapLast f (x :: xs) = f xs.isEmpty x :: mapLast f xs
  | [] => rfl
  | _ :: _ => rfl

/-- An operand in the middle of a product, by the turns that are to come. -/
theorem held_eq_inTurn (h : Tidy s a) {total : ℕ} {mp : Entries} (htotal : mp.length < total) :
    held s total mp.isEmpty a = inTurn s mp.length a := by
  rw [held_eq h, inTurn]
  refine if_congr ?_ rfl rfl
  cases mp with
  | nil => simp
  | cons x mp =>
    rw [List.length_cons] at htotal
    have hmore : total > 1 := by omega
    simp [hmore]

/-- The loop goes through the products that `mapLast` lists. -/
theorem foldHeld_eq {β : Type} (h : Tidy s a) {total : ℕ} (g : UInt16 × Multinomial → Multinomial → β)
    (put : Entries → β → Entries) : ∀ {mp acc : Entries}, mp.length ≤ total →
    foldHeld (fun acc x a' => put acc (g x a')) s a acc mp =
      (mapLast (fun last x => g x (held s total last a)) mp).foldl put acc
  | [], _, _ => rfl
  | x :: mp, acc, hlen => by
    rw [List.length_cons] at hlen
    rw [foldHeld, mapLast_cons, List.foldl_cons, held_eq_inTurn h hlen]
    exact foldHeld_eq h g put (Nat.le_of_succ_le hlen)

/-- One product for every entry, in the order of the keys. -/
theorem foldHeld_put (h : Tidy s a) (times : Multinomial → Multinomial → Multinomial) (hsorted : Sorted mp) :
    foldHeld (fun acc x a' => acc.put x.1 (times x.2 a')) s a [] mp =
      mapLast (fun last x => (x.1, times x.2 (held s mp.length last a))) mp := by
  have hkeys : (mapLast (fun last (x : UInt16 × Multinomial) => (x.1, times x.2 (held s mp.length last a))) mp).map
      Prod.fst = mp.map Prod.fst :=
    Multinomial.map_mapLast fun _ _ _ => rfl
  have hput := foldl_put (fun _ (c : Multinomial) => c)
    (l := mapLast (fun last (x : UInt16 × Multinomial) => (x.1, times x.2 (held s mp.length last a))) mp)
    (by rwa [Sorted, hkeys]) fun x (h : x ∈ ([] : Entries)) => absurd h List.not_mem_nil
  refine (foldHeld_eq h (fun x a' => (x.1, times x.2 a')) (fun acc y => acc.put y.1 y.2) le_rfl).trans
    (Eq.trans hput ?_)
  exact List.map_id _

/-! ## Multiplying with a multinomial -/

/-- An operand that is no longer needed is deleted, its flag read before. -/
theorem destroyUnsaved_spec (h : Operand S s m p l) :
    Triple S l (fun n => onlyIf (!s) (destroy n p)) fun _ l' => l' = 0 := by
  cases h with
  | saved => exact triple_pure rfl
  | owned _ hr => exact destroy_spec hr

section Mul

variable {times : Multinomial → Multinomial → Multinomial} {mul : ℕ → Addr → Addr → Prog Cell Addr} {la : Cells Cell}

/-- Every coefficient of the node of the smaller symbol with the other operand. -/
theorem mulInto_spec (ho : o.save = s) (ha : Operand S s a p la) (hsorted : Sorted (entries js))
    (hzero : ((entries js).lookup 0).isSome)
    (hq : (q, .obj ⟨some k, kids js, s'⟩) ∈ self s' q ⟨some k, kids js, s'⟩ + S)
    (hmul : ∀ j ∈ js, ∀ T u a' la', a'.bare = a.bare → Operand (S + T) u a' p la' →
      Triple (S + T) (j.2.own + la') (fun n => mul n j.2.addr p) fun r l => Rep (times j.2.val a') r l) :
    Triple S (objAt ans ⟨none, [], false⟩ + (la + (self s' q ⟨some k, kids js, s'⟩ + cells js)))
      (fun n => mulInto n (mul n) ans p q o ⟨some k, kids js, s'⟩) fun r l =>
        Rep (Multinomial.simplify (.node false k
          (mapLast (fun last x => (x.1, times x.2 (held s (entries js).length last a))) (entries js)))) r l := by
  obtain ⟨v, js', hcons⟩ :=
    exists_zero_head (sorted_entries.1 hsorted) (by rwa [entries, lookup_mapVal, Option.isSome_map] at hzero)
  have hlen : (kids js).length = js'.length + 1 := by
    rw [hcons, kids, mapVal, List.length_map, List.length_cons]
  refine triple_setKey ?_
  simp only [ho, hlen]
  refine triple_of_eq (la + (objAt ans ⟨some k, [], false⟩ + (self s' q ⟨some k, kids js, s'⟩ + cells js))) (by abel) ?_
  refine (waiting_start (ρ := fun _ => True) ha js'.length).call fun _ lo hwait => ?_
  have hloop := @heldLoop_spec S (self s' q ⟨some k, kids js, s'⟩) q p _ s a (fun _ => True) (Built ans (some k))
    (fun acc x a' => acc.put x.1 (times x.2 a')) (fun n e x => mul n x p >>= fun r => setEntry ans e r) hq js [] _ lo
    (built_nil ans (some k))
    (by rwa [hcons]) fun j hj mp l hbuilt T u a' la' hbare hop => by
      refine triple_of_eq (l + (j.2.own + la')) (add_assoc ..)
        (((puts_setEntry (hmul j hj T u a' la' hbare hop)).built hbuilt).mono ?_)
      intro _ lr hlr
      refine ⟨lr, 0, (add_zero lr).symm, hlr, ?_⟩
      cases u with
      | true => rfl
      | false => trivial
  have hlen' : js.length = js'.length + 1 := by rw [hcons, List.length_cons]
  rw [hlen'] at hloop
  refine triple_of_eq _ ?_ (hloop.bind ?_)
  · abel
  · rintro _ _ ⟨lr, lo, rfl, hbuilt, -⟩
    rw [foldHeld_put ha.tidy times hsorted] at hbuilt
    exact ((simplify_return hbuilt).forget lo).forget _

/-- One product of the double loop. -/
theorem accumulate_spec {x y : Addr} {e : UInt16} {v : Multinomial} {lx : Cells Cell} (hbuilt : Built ans key mp l)
    (hmp : Multinomial.TidyEntries mp) (hv : Tidy false v)
    (hmul : Triple S lx (fun n => mul n x y) fun r l => Rep v r l) :
    Triple S (l + lx) (fun n => accumulate n (mul n) ans e x y)
      fun _ l' => Built ans key (Multinomial.accumulate mp e v) l' := by
  obtain ⟨is, rfl, hsorted, his, rfl⟩ := hbuilt
  refine triple_getObj (mem_add_right mem_head) ?_
  have hkids : (kids is).lookup e = (is.lookup e).map Stored.addr := lookup_mapVal ..
  have hentries : (entries is).lookup e = (is.lookup e).map Stored.val := lookup_mapVal ..
  simp only [Multinomial.accumulate, hkids, hentries]
  cases hlookup : is.lookup e with
  | none => exact (puts_setEntry hmul).built ⟨is, rfl, hsorted, his, rfl⟩
  | some z =>
    obtain ⟨is₁, is₂, rfl⟩ := exists_split hlookup
    obtain ⟨h₁, h₂⟩ := List.forall_mem_append.1 his
    have hz : Operand S false z.val z.addr z.own :=
      .owned (hmp.kids _ (mem_entries (List.mem_append.2 (.inr List.mem_cons_self)))) (h₂ _ List.mem_cons_self)
    refine triple_of_eq (lx + (objAt ans ⟨key, kids (is₁ ++ (e, z) :: is₂), false⟩ + cells (is₁ ++ (e, z) :: is₂)))
      (add_comm ..) (hmul.call fun t lt ht => ?_)
    refine triple_of_eq (z.own + lt + (objAt ans ⟨key, kids (is₁ ++ (e, z) :: is₂), false⟩ + cells (is₁ ++ is₂)))
      (by rw [cells_append, cells_cons, cells_append]; abel) ((add_spec hz (.owned hv ht)).call fun r lr hr => ?_)
    refine triple_of_eq (objAt ans ⟨key, kids (is₁ ++ (e, z) :: is₂), false⟩ + (lr + cells (is₁ ++ is₂))) (by abel)
      (setEntry_spec.mono ?_)
    rintro _ _ rfl
    exact built_replace hsorted h₁ (List.forall_mem_cons.1 h₂).2 hr

/-- The entries so far in the double loop. -/
def Tally (ans : Addr) (key : Option Symbol) (mp : Entries) (l : Cells Cell) : Prop :=
  Built ans key mp l ∧ Multinomial.TidyEntries mp

/-- The products of one coefficient `a` of the exponent `e` with those of a node, and the map with them added. -/
def addRow (times : Multinomial → Multinomial → Multinomial) (s : Bool) (acc : Entries) (x : UInt16 × Multinomial)
    (b : Multinomial) : Entries :=
  (mapLast (fun last (y : UInt16 × Multinomial) => (x.1 + y.1, times (held s b.mp.length last x.2) y.2)) b.mp).foldl
    (fun acc z => Multinomial.accumulate acc z.1 z.2) acc

theorem mulRow_spec {x : Addr} {lx lb : Cells Cell} {e : UInt16} {u : Bool} {v : Multinomial} (hx : Operand S s v x lx)
    (hb : Operand S u (.node u k mp) q lb) {acc : Entries} (hacc : Tally ans key acc l)
    (hmul : ∀ T u' v' lx', v'.bare = v.bare → Operand (S + T) u' v' x lx' → ∀ y c lc, (y, c) ∈ mp →
    ∀ {j}, Operand (S + T) u c j lc →
      Tidy false (times v' c) ∧ Triple (S + T) (lx' + lc) (fun n => mul n x j) fun r l => Rep (times v' c) r l) :
    Triple S (l + lx + lb) (fun n => mulRow n (mul n) ans q s mp.length e x) fun _ l' =>
      ∃ lr lo, l' = lr + lo ∧ Tally ans key (addRow times s acc (e, v) (.node u k mp)) lr ∧
        Rest (fun lo => ∃ o, lo = objAt q o) u lo := by
  obtain ⟨js, rfl, hsorted, hzero, hobj, rfl, hjs⟩ := operand_node hb
  obtain ⟨w, js', hcons⟩ :=
    exists_zero_head (sorted_entries.1 hsorted) (by rwa [entries, lookup_mapVal, Option.isSome_map] at hzero)
  have hlen : (entries js).length = js'.length + 1 := by rw [hcons, entries, mapVal, List.length_map, List.length_cons]
  have hlen' : js.length = js'.length + 1 := by rw [hcons, List.length_cons]
  rw [hlen]
  refine triple_of_eq (lx + (l + (self u q ⟨some k, kids js, u⟩ + cells js))) (by abel) ?_
  refine (waiting_start (ρ := fun _ => True) hx js'.length).call fun _ lo hwait => ?_
  refine triple_getObj (mem_add_left (mem_add_left (mem_add_right hobj))) ?_
  have hloop := @heldLoop_spec S (self u q ⟨some k, kids js, u⟩) q x _ s v (fun _ => True) (Tally ans key)
    (fun acc y v' => Multinomial.accumulate acc (e + y.1) (times v' y.2))
    (fun n b y => accumulate n (mul n) ans (e + b) x y) hobj js acc l lo
    hacc (by rwa [hlen']) fun j hj mp l hmp T u' v' lx' hbare hop => by
      obtain ⟨htidy, hprod⟩ := hmul T u' v' lx' hbare hop j.1 j.2.val j.2.own (mem_entries hj) ((hjs j hj).share T)
      refine triple_of_eq (l + (lx' + j.2.own)) (by abel)
        ((accumulate_spec hmp.1 hmp.2 htidy hprod).mono fun _ lr hlr => ?_)
      refine ⟨lr, 0, (add_zero lr).symm, ⟨hlr, hmp.2.accumulate _ htidy⟩, ?_⟩
      cases u' with
      | true => rfl
      | false => trivial
  rw [hlen'] at hloop
  refine triple_of_eq _ ?_ (Triple.post_forget (hloop.mono ?_))
  · abel
  · rintro _ _ ⟨lr, lo, rfl, htally, -⟩
    rw [foldHeld_eq hx.tidy (fun y v' => (e + y.1, times v' y.2)) (fun acc z => Multinomial.accumulate acc z.1 z.2)
      le_rfl] at htally
    refine ⟨lo, lr + self u q ⟨some k, kids js, u⟩, by abel, lr, _, rfl, htally, ?_⟩
    cases u with
    | true => rfl
    | false => exact ⟨_, rfl⟩

/-- The products of all operands up to some size. -/
def Computes (fuel : ℕ) (mul : ℕ → Addr → Addr → Prog Cell Addr)
    (times : Multinomial → Multinomial → Multinomial) : Prop :=
  ∀ {S lx ly : Cells Cell} {x y : Addr} {u u' : Bool} {v w : Multinomial}, v.size + w.size ≤ fuel →
    Operand S u v x lx → Operand S u' w y ly →
    Tidy false (times v w) ∧ Triple S (lx + ly) (fun n => mul n x y) fun r l => Rep (times v w) r l

theorem freeSelf_spec : Triple S (self s p o + l) (fun _ => onlyIf (!s) (free p)) fun _ l' => l' = l := by
  cases s with
  | true => exact triple_pure (zero_add l)
  | false => exact free_spec

/-- Of the operand that was needed in every turn, the object is left if it was not saved. -/
theorem freeOther_spec (hsame : p = q → s = true) (h : Waiting S (fun lo => ∃ o, lo = objAt q o) s b q 0 l) :
    Triple S l (fun _ => onlyIf (p != q && !s) (free q)) fun _ l' => l' = 0 := by
  cases h with
  | saved =>
    rw [Bool.not_true, Bool.and_false]
    exact triple_pure rfl
  | used h =>
    obtain ⟨o, rfl⟩ := h
    have hne : (p != q && !false) = true := by simpa using fun he => Bool.false_ne_true (hsame he)
    rw [hne]
    exact free_spec (l := 0)

theorem exists_node_of_bare {u : Bool} (hbare : m.bare = (Multinomial.node s k mp).bare) (ht : Tidy u m) :
    ∃ mq : Entries, m = .node u k mq ∧ mq.length = mp.length := by
  have hnode := Multinomial.node_of_bare hbare
  rw [ht.save_eq] at hnode
  refine ⟨m.mp, hnode, ?_⟩
  rw [hnode, Multinomial.bare, Multinomial.bare, Multinomial.node.injEq, Multinomial.bareMp_eq,
    Multinomial.bareMp_eq] at hbare
  have hlen := congrArg List.length hbare.2.2
  rwa [Entries.mapVals, Entries.mapVals, List.length_map, List.length_map] at hlen

/-- Two nodes of one symbol. -/
theorem mulSame_spec {k' : Symbol} {fuel : ℕ} {lb : Cells Cell} {o' : Obj} (hmul : Computes fuel mul times)
    (hsize : (Multinomial.node s k (entries is)).size + (Multinomial.node s' k' mp).size ≤ fuel + 1)
    (hsorted : Sorted (entries is)) (hzero : ((entries is).lookup 0).isSome)
    (hp : (p, .obj ⟨some k, kids is, s⟩) ∈ self s p ⟨some k, kids is, s⟩ + S)
    (his : ∀ i ∈ is, Operand S s i.2.val i.2.addr i.2.own) (hb : Operand S s' (.node s' k' mp) q lb)
    (ho' : o'.save = s') (hlen' : o'.mp.length = mp.length) (hsame : p = q → s' = true) :
    Triple S (objAt ans ⟨none, [], false⟩ + (self s p ⟨some k, kids is, s⟩ + cells is + lb))
      (fun n => mulSame n (mul n) ans p q ⟨some k, kids is, s⟩ o') fun r l =>
        Rep (Multinomial.simplify (.node false k ((Multinomial.crossMp times s (entries is) (.node s' k' mp)).foldl
          (fun ans x => Multinomial.accumulate ans x.1 x.2) []))) r l := by
  obtain ⟨w, is', hcons⟩ :=
    exists_zero_head (sorted_entries.1 hsorted) (by rwa [entries, lookup_mapVal, Option.isSome_map] at hzero)
  have hlen : (kids is).length = is'.length + 1 := by rw [hcons, kids, mapVal, List.length_map, List.length_cons]
  refine triple_setKey ?_
  simp only [ho', hlen', hlen]
  refine triple_of_eq (lb + (objAt ans ⟨some k, [], false⟩ + (self s p ⟨some k, kids is, s⟩ + cells is))) (by abel) ?_
  refine (waiting_start (ρ := fun lo => ∃ o, lo = objAt q o) hb is'.length).call fun _ lo hwait => ?_
  have hloop := @heldLoop_spec S (self s p ⟨some k, kids is, s⟩) p q _ s' (.node s' k' mp)
    (fun lo => ∃ o, lo = objAt q o) (Tally ans (some k)) (addRow times s)
    (fun n => mulRow n (mul n) ans q s mp.length) hp is [] _ lo ⟨built_nil ans (some k), Multinomial.tidyEntries_nil⟩
    (by rwa [hcons]) fun i hi acc l hacc T u b' lb' hbare hop => by
      -- the right operand, perhaps with other flags
      obtain ⟨mq, rfl, hmq⟩ := exists_node_of_bare hbare hop.tidy
      have hrow := @mulRow_spec (S + T) l q ans s k' (some k) mq times mul i.2.addr i.2.own lb' i.1 u i.2.val
        ((his i hi).share T) hop acc hacc fun T' u' v' lx' hv hop' y c lc hc j hj => hmul ?_ hop' hj
      · rwa [hmq] at hrow
      · have hv' := Multinomial.size_congr hv
        have hb' := Multinomial.size_congr hbare
        have hi' := size_lt hi s k
        have hc' : c.size ≤ Multinomial.sizeMp mq := Multinomial.size_mem hc
        rw [Multinomial.size] at hb'
        omega
  have hfold : foldHeld (addRow times s) s' (.node s' k' mp) [] (entries is) =
      (Multinomial.crossMp times s (entries is) (.node s' k' mp)).foldl
          (fun ans x => Multinomial.accumulate ans x.1 x.2) [] := by
    rw [Multinomial.crossMp, List.foldl_flatten]
    exact foldHeld_eq hb.tidy
      (fun x b => mapLast (fun last y => (x.1 + y.1, times (held s b.mp.length last x.2) y.2)) b.mp)
      (fun acc row => row.foldl (fun ans z => Multinomial.accumulate ans z.1 z.2) acc) le_rfl
  have hlen'' : is.length = is'.length + 1 := by rw [hcons, List.length_cons]
  rw [hfold, hlen''] at hloop
  refine triple_of_eq _ ?_ (hloop.bind ?_)
  · abel
  · rintro _ _ ⟨lr, lo, rfl, htally, hwait⟩
    refine triple_of_eq (self s p ⟨some k, kids is, s⟩ + (lo + lr)) (by abel) (freeSelf_spec.bind ?_)
    rintro _ _ rfl
    exact (freeOther_spec hsame hwait).consume fun _ => simplify_return htally.1

end Mul

theorem mulFuel_rep : ∀ (fuel : ℕ) {S la lb : Cells Cell} {p q : Addr} {s s' : Bool} {a b : Multinomial}, a.size +
    b.size ≤ fuel → Operand S s a p la → Operand S s' b q lb →
    Triple S (la + lb) (fun n => mul n p q) fun r l => Rep (Multinomial.mulFuel fuel a b) r l
  | 0, _, _, _, _, _, _, _, a, b, hn, _, _ => by cases a <;> simp [Multinomial.size] at hn
  | fuel + 1, S, la, lb, p, q, s, s', .const t c, b, hn, ha, hb => by
    obtain ⟨d, hobj, hnum, -⟩ := operand_const ha
    obtain ⟨o, hobj', -⟩ := hb.mem_save
    refine triple_succ (triple_getObj (mem_add_right hobj)
      (triple_getObj (mem_add_left hobj') (triple_new fun ans d' => triple_setObj ?_)))
    refine triple_of_eq (la + lb + (objAt ans ⟨none, [], false⟩ + numAt d' 0)) (by abel) (Triple.forget ?_ _)
    refine triple_value rfl (mem_add_right hnum) ?_
    refine triple_of_eq _ (add_comm ..) ((mulDouble_spec hb c).call fun ans l hr => triple_of_eq _ (add_comm ..) ?_)
    exact (release_spec ha).consume fun _ => triple_pure hr
  | fuel + 1, S, la, lb, p, q, s, s', .node t k mp, .const t' c, hn, ha, hb => by
    obtain ⟨o, hobj, hkey⟩ := ha.mem_node
    obtain ⟨d, hobj', hnum, -⟩ := operand_const hb
    refine triple_succ (triple_getObj (mem_add_right hobj)
      (triple_getObj (mem_add_left hobj') (triple_new fun ans d' => triple_setObj ?_)))
    refine triple_of_eq (la + lb + (objAt ans ⟨none, [], false⟩ + numAt d' 0)) (by abel) (Triple.forget ?_ _)
    simp only [hkey]
    refine triple_value rfl (mem_add_left hnum) ?_
    refine (mulDouble_spec ha c).call fun ans l hr => triple_of_eq _ (add_comm ..) ?_
    exact (destroyUnsaved_spec hb).consume fun _ => triple_pure hr
  | fuel + 1, S, la, lb, p, q, s, s', .node t k mp, .node t' k' mq, hn, ha, hb => by
    refine ha.saved_of_same hb fun hsame => ?_
    obtain rfl : t = s := (tidy_node_iff.1 ha.tidy).1
    obtain rfl : t' = s' := (tidy_node_iff.1 hb.tidy).1
    obtain ⟨is, rfl, hsorted, hzero, hobj, hla, his⟩ := operand_node ha
    obtain ⟨js, rfl, hsorted', hzero', hobj', hlb, hjs⟩ := operand_node hb
    have hmem : (p, Cell.obj ⟨some k, kids is, t⟩) ∈ la + lb + S := by
      rw [hla]
      exact mem_add_right (mem_add_right hobj)
    have hmem' : (q, Cell.obj ⟨some k', kids js, t'⟩) ∈ la + lb + S := by
      rw [hlb]
      exact mem_add_left (mem_add_right hobj')
    refine triple_succ (triple_getObj hmem (triple_getObj hmem' (triple_new fun ans d => triple_setObj ?_)))
    refine triple_of_eq (objAt ans ⟨none, [], false⟩ + (la + lb) + numAt d 0) (by abel) (Triple.forget ?_ _)
    rw [Multinomial.mulFuel]
    by_cases hgt : k.id > k'.id
    · simp only [hgt, if_true]
      rw [hlb]
      refine mulInto_spec rfl ha hsorted' hzero' hobj' fun j hj T u a' la' hbare hop => mulFuel_rep fuel ?_
        ((hjs j hj).share T) hop
      have hsize := Multinomial.size_congr hbare
      have hj' := size_lt hj t' k'
      omega
    · simp only [hgt, if_false]
      by_cases hlt : k.id < k'.id
      · simp only [hlt, if_true]
        rw [hla, add_comm _ lb]
        refine mulInto_spec rfl hb hsorted hzero hobj fun i hi T u b' lb' hbare hop => mulFuel_rep fuel ?_
          ((his i hi).share T) hop
        have hsize := Multinomial.size_congr hbare
        have hi' := size_lt hi t k
        omega
      · simp only [hlt, if_false]
        rw [hla]
        exact mulSame_spec (fun hsize hx hy => ⟨Multinomial.tidy_mulFuel fuel hsize hx.tidy hy.tidy,
          mulFuel_rep fuel hsize hx hy⟩) hn hsorted hzero hobj his hb rfl
            ((List.length_map _).trans (List.length_map _).symm) hsame

/-- `operator*(multinomial&)`. -/
theorem mul_spec {la lb : Cells Cell} (ha : Operand S s a p la) (hb : Operand S s' b q lb) :
    Triple S (la + lb) (fun n => mul n p q) fun r l => Rep (a.mul b) r l := mulFuel_rep _ le_rfl ha hb

/-! ## Powers -/

theorem tidy_square (h : Tidy s m) : Tidy false m.square :=
  ((h.mulDouble 1).setSave true).mul ((h.mulDouble 1).setSave true)

/-- A product with an owned operand that is kept, marked as saved meanwhile. -/
theorem mul_kept {la lt : Cells Cell} {temp : Addr} {v : Multinomial} (ha : Operand (S + lt) s a p la)
    (ht : Tidy true v) (hr : Rep v temp lt) :
    Triple S (la + lt) (fun n => mul n p temp) fun r l => ∃ lr, l = lr + lt ∧ Rep (a.mul v) r lr := by
  have hmul := (mul_spec ha (.saved ht hr (Multiset.le_add_left ..))).share
  rwa [add_zero] at hmul

theorem square_spec (h : Operand S s m p l) : Triple S l (fun n => square n p) fun r l' => Rep m.square r l' := by
  refine (mulDouble_spec h 1).bind fun temp lt ht => (setSave_spec ht true).bind fun _ lt ht => ?_
  have htidy : Tidy true ((m.mulDouble 1).setSave true) := (h.tidy.mulDouble 1).setSave true
  refine triple_of_eq (0 + lt) (zero_add lt).symm
    ((mul_kept (.saved htidy ht (Multiset.le_add_left ..)) htidy ht).bind ?_)
  rintro ans _ ⟨lr, rfl, hans⟩
  refine triple_of_eq _ (add_comm ..) ((setSave_spec ht false).call fun _ lt ht => ?_)
  exact (destroy_spec ht).consume fun _ => triple_pure hans

section Pow

variable {la lt : Cells Cell} {temp : Addr} {t : Multinomial}

theorem powBit_spec (cpow : ℕ) (ha : Tidy false a) (ht : Tidy false t) (hans : Rep a ans la) (htemp : Rep t temp lt) :
    Triple S (la + lt) (fun n => powBit n cpow ans temp) fun r l =>
      ∃ lr lt', l = lr + lt' ∧ Rep (Multinomial.powOps.bit cpow a t).1 r lr ∧
        Rep (Multinomial.powOps.bit cpow a t).2 temp lt' := by
  unfold powBit BinaryPower.Ops.bit
  by_cases hodd : cpow % 2 = 1
  · simp only [hodd, if_true]
    refine triple_of_eq _ (add_comm ..)
      ((setSave_spec htemp true).call fun _ lt' htemp => triple_of_eq _ (add_comm ..) ?_)
    refine (mul_kept (.owned ha hans) (ht.setSave true) htemp).bind ?_
    rintro r _ ⟨lr, rfl, hr⟩
    refine triple_of_eq _ (add_comm ..)
      ((setSave_spec htemp false).call fun _ lt' htemp => triple_of_eq _ (add_comm ..) ?_)
    exact triple_pure ⟨lr, lt', rfl, hr, htemp⟩
  · simp only [hodd, if_false]
    exact triple_pure ⟨la, lt, rfl, hans, htemp⟩

theorem tidy_bit (cpow : ℕ) (ha : Tidy false a) (ht : Tidy false t) :
    Tidy false (Multinomial.powOps.bit cpow a t).1 ∧ Tidy false (Multinomial.powOps.bit cpow a t).2 := by
  unfold BinaryPower.Ops.bit
  split_ifs
  · exact ⟨ha.mul (ht.setSave true), (ht.setSave true).setSave false⟩
  · exact ⟨ha, ht⟩

theorem powLoop_spec : ∀ (turns : ℕ) {cpow : ℕ} {a t : Multinomial} {ans temp : Addr} {la lt : Cells Cell},
    Tidy false a → Tidy false t → Rep a ans la → Rep t temp lt →
    Triple S (la + lt) (fun n => powLoop n turns cpow ans temp)
      fun r l => Rep (Multinomial.powOps.loop turns cpow a t) r l
  | 0, _, _, _, _, _, _, lt, _, _, hans, _ => (triple_pure hans).forget lt
  | turns + 1, cpow, a, t, ans, temp, la, lt, ha, ht, hans, htemp => by
    simp only [powLoop, BinaryPower.Ops.loop]
    by_cases h0 : cpow = 0
    · simp only [h0, if_true]
      exact (triple_pure hans).forget lt
    · simp only [h0, if_false]
      refine (powBit_spec cpow ha ht hans htemp).bind ?_
      rintro r _ ⟨lr, lt', rfl, hr, htemp⟩
      obtain ⟨ha', ht'⟩ := tidy_bit cpow ha ht
      by_cases h1 : cpow / 2 = 0
      · simp only [h1, if_true]
        exact (triple_pure hr).forget lt'
      · simp only [h1, if_false]
        refine triple_of_eq _ (add_comm ..)
          ((square_spec (.owned ht' htemp)).call fun temp lt htemp => triple_of_eq _ (add_comm ..) ?_)
        exact powLoop_spec turns ha' (tidy_square ht') hr htemp

theorem tidy_loop : ∀ (turns : ℕ) {cpow : ℕ} {a t : Multinomial}, Tidy false a → Tidy false t →
    Tidy false (Multinomial.powOps.loop turns cpow a t)
  | 0, _, _, _, ha, _ => ha
  | turns + 1, cpow, a, t, ha, ht => by
    obtain ⟨ha', ht'⟩ := tidy_bit cpow ha ht
    rw [BinaryPower.Ops.loop]
    split_ifs
    · exact ha
    · exact ha'
    · exact tidy_loop turns ha' (tidy_square ht')

theorem tidy_pow (h : Tidy s m) (e : UInt16) : Tidy false (m.pow e) := by
  unfold Multinomial.pow
  split_ifs
  · exact h.mulDouble 1
  · exact tidy_square h
  · exact tidy_loop 16 .const (h.mulDouble 1)

/-- `operator^`. -/
theorem pow_spec (h : Operand S s m p l) (e : UInt16) :
    Triple S l (fun n => pow n p e) fun r l' => Rep (m.pow e) r l' := by
  unfold pow Multinomial.pow
  by_cases h2 : e = 2
  · subst h2
    exact square_spec h
  · simp only [h2, if_false]
    refine (mulDouble_spec h 1).bind fun temp lt htemp => ?_
    by_cases h1 : e = 1
    · simp only [h1, if_true]
      exact triple_pure htemp
    · simp only [h1, if_false]
      refine triple_new fun ans d => triple_of_eq _ (add_assoc ..).symm ?_
      exact powLoop_spec 16 .const (h.tidy.mulDouble 1) (.const ..) htemp

end Pow

end Mem

end GridSolve.Poly
