/-
What the operators do with memory. `Rep` says which cells hold a tree. An operand is owned if it is not
saved, and among the shared cells if it is; the triple of an operator says that it returns without a
fault, that its result is stored in cells of its own and is the tree that the operator on values gives,
and that nothing else has changed. So an operand that is used up is not needed again, and a saved operand
may stand on both sides.
-/
import GridSolve.Poly.Objects
import GridSolve.Poly.Tidy

namespace GridSolve.Poly

open GridSolve.Heap GridSolve.Keyed

namespace Mem

open Multinomial (Tidy tidy_const_iff tidy_node_iff)

/-! ## Trees in memory -/

abbrev objAt (p : Addr) (o : Obj) : Cells Cell := {(p, .obj o)}

abbrev numAt (d : Addr) (c : ℚ) : Cells Cell := {(d, .num c)}

/-- A coefficient in memory: its value, its address and its cells. -/
structure Stored where
  val : Multinomial
  addr : Addr
  own : Cells Cell

/-- The map of values, the map of addresses and the cells of the coefficients of a node. -/
def entries (is : List (UInt16 × Stored)) : Entries := mapVal Stored.val is

def kids (is : List (UInt16 × Stored)) : List (UInt16 × Addr) := mapVal Stored.addr is

def cells (is : List (UInt16 × Stored)) : Cells Cell := (is.map fun i => i.2.own).sum

/-- The tree is stored at `p` in just these cells. -/
inductive Rep : Multinomial → Addr → Cells Cell → Prop
  | const (s : Bool) (c : ℚ) (p d : Addr) : Rep (.const s c) p (objAt p ⟨none, [(0, d)], s⟩ + numAt d c)
  | node (s : Bool) (k : Symbol) (p : Addr) (is : List (UInt16 × Stored)) (h : ∀ i ∈ is, Rep i.2.val i.2.addr i.2.own) :
      Rep (.node s k (entries is)) p (objAt p ⟨some k, kids is, s⟩ + cells is)

/-- All coefficients are stored. -/
def Holds (is : List (UInt16 × Stored)) : Prop := ∀ i ∈ is, Rep i.2.val i.2.addr i.2.own

@[simp] theorem cells_nil : cells [] = 0 := rfl

@[simp] theorem cells_cons (i : UInt16 × Stored) (is : List (UInt16 × Stored)) :
    cells (i :: is) = i.2.own + cells is := by
  rw [cells, List.map_cons, List.sum_cons]
  rfl

@[simp] theorem cells_append (is js : List (UInt16 × Stored)) : cells (is ++ js) = cells is + cells js := by
  rw [cells, List.map_append, List.sum_append]
  rfl

theorem kids_cons (i : UInt16 × Stored) (is : List (UInt16 × Stored)) : kids (i :: is) = (i.1, i.2.addr) :: kids is :=
  rfl

theorem kids_append (is js : List (UInt16 × Stored)) : kids (is ++ js) = kids is ++ kids js := List.map_append

theorem entries_append (is js : List (UInt16 × Stored)) : entries (is ++ js) = entries is ++ entries js :=
  List.map_append

theorem entries_put (e : UInt16) (v : Stored) (is : List (UInt16 × Stored)) :
    entries (put e v is) = (entries is).put e v.val := mapVal_put ..

theorem kids_put (e : UInt16) (v : Stored) (is : List (UInt16 × Stored)) : kids (put e v is) = put e v.addr (kids is) :=
  mapVal_put ..

theorem sorted_entries {is : List (UInt16 × Stored)} :
    Sorted (entries is) ↔ Sorted is := by rw [Sorted, entries, keys_mapVal, Sorted]

theorem nodup_kids {is : List (UInt16 × Stored)} (h : Sorted is) : ((kids is).map Prod.fst).Nodup := by
  rw [kids, keys_mapVal]
  exact h.nodup

theorem mem_entries {i : UInt16 × Stored} {is : List (UInt16 × Stored)} (hi : i ∈ is) : (i.1, i.2.val) ∈ entries is :=
  List.mem_map_of_mem hi

/-- A coefficient is smaller than the node. -/
theorem size_lt {i : UInt16 × Stored} {is : List (UInt16 × Stored)} (hi : i ∈ is) (s : Bool) (k : Symbol) :
    i.2.val.size < (Multinomial.node s k (entries is)).size := by
  have hle : i.2.val.size ≤ Multinomial.sizeMp (entries is) := Multinomial.size_mem (mem_entries hi)
  rw [Multinomial.size]
  omega

theorem own_le_cells {i : UInt16 × Stored} {is : List (UInt16 × Stored)} (hi : i ∈ is) : i.2.own ≤ cells is := by
  obtain ⟨is₁, is₂, rfl⟩ := List.append_of_mem hi
  rw [cells_append, cells_cons, add_left_comm]
  exact Multiset.le_add_right ..

/-- The coefficients, not owned. -/
def lend (is : List (UInt16 × Stored)) : List (UInt16 × Stored) := mapVal (fun i => ⟨i.val, i.addr, 0⟩) is

theorem entries_lend (is : List (UInt16 × Stored)) : entries (lend is) = entries is := List.map_map

theorem kids_lend (is : List (UInt16 × Stored)) : kids (lend is) = kids is := List.map_map

theorem cells_lend : ∀ is : List (UInt16 × Stored), cells (lend is) = 0
  | [] => rfl
  | _ :: is => (cells_cons ..).trans ((zero_add _).trans (cells_lend is))

theorem holds_cons {i : UInt16 × Stored} {is : List (UInt16 × Stored)} (hi : Rep i.2.val i.2.addr i.2.own)
    (his : Holds is) : Holds (i :: is) := List.forall_mem_cons.2 ⟨hi, his⟩

theorem holds_append {is js : List (UInt16 × Stored)} (hi : Holds is) (hj : Holds js) : Holds (is ++ js) :=
  List.forall_mem_append.2 ⟨hi, hj⟩

variable {S l G : Cells Cell} {p q d t ans : Addr} {o o' : Obj} {c : ℚ} {s s' : Bool} {k : Symbol} {m a b : Multinomial}
  {is js : List (UInt16 × Stored)} {α β : Type} {R : β → Cells Cell → Prop}

theorem rep_const (h : Rep (.const s c) p l) : ∃ d, l = objAt p ⟨none, [(0, d)], s⟩ + numAt d c := by
  cases h with
  | const => exact ⟨_, rfl⟩

theorem rep_node {mp : Entries} (h : Rep (.node s k mp) p l) :
    ∃ is, mp = entries is ∧ l = objAt p ⟨some k, kids is, s⟩ + cells is ∧ Holds is := by
  cases h with
  | node _ _ _ is hkids => exact ⟨is, rfl, rfl, hkids⟩

/-- The object at the address of a tree, which could be at any other. -/
theorem Rep.split (h : Rep m p l) : ∃ o r, l = objAt p o + r ∧ o.save = m.save ∧ ∀ q, Rep m q (objAt q o + r) := by
  cases h with
  | const s c _ d => exact ⟨_, _, rfl, rfl, fun q => .const s c q d⟩
  | node s k _ is h => exact ⟨_, _, rfl, rfl, fun q => .node s k q is h⟩

/-! ## Small steps -/

theorem mem_head {x : Cell} : (p, x) ∈ {(p, x)} + l + S :=
  Multiset.mem_add.2 (.inl (Multiset.mem_add.2 (.inl (Multiset.mem_singleton_self _))))

theorem mem_add_right {x : Addr × Cell} (h : x ∈ G + S) : x ∈ G + l + S := by
  rw [add_right_comm]
  exact Multiset.mem_add.2 (.inl h)

theorem mem_add_left {x : Addr × Cell} (h : x ∈ G + S) : x ∈ l + G + S := by
  rw [add_comm l]
  exact mem_add_right h

theorem mem_shared {x : Cell} {r : Cells Cell} (hle : {(p, x)} + r ≤ S) : (p, x) ∈ l + S :=
  Multiset.mem_add.2 (.inr (Multiset.mem_of_le hle (Multiset.mem_add.2 (.inl (Multiset.mem_singleton_self _)))))

theorem triple_getObj {f : ℕ → Obj → Prog Cell β} (hm : (p, .obj o) ∈ l + S) (hf : Triple S l (fun n => f n o) R) :
    Triple S l (fun n => getObj p >>= f n) R := by
  have hget : Triple S l (fun _ => getObj p) fun o' l' => o' = o ∧ l' = l := triple_load hm (triple_pure ⟨rfl, rfl⟩)
  refine hget.bind ?_
  rintro _ _ ⟨rfl, rfl⟩
  exact hf

theorem triple_getNum {f : ℕ → ℚ → Prog Cell β} (hm : (d, .num c) ∈ l + S) (hf : Triple S l (fun n => f n c) R) :
    Triple S l (fun n => getNum d >>= f n) R := by
  have hget : Triple S l (fun _ => getNum d) fun c' l' => c' = c ∧ l' = l := triple_load hm (triple_pure ⟨rfl, rfl⟩)
  refine hget.bind ?_
  rintro _ _ ⟨rfl, rfl⟩
  exact hf

theorem triple_value {f : ℕ → ℚ → Prog Cell β} (hd : o.mp.lookup 0 = some d) (hm : (d, .num c) ∈ l + S)
    (hf : Triple S l (fun n => f n c) R) : Triple S l (fun n => value o >>= f n) R := by
  have hvalue : value o = getNum d := by rw [value, hd]
  rw [hvalue]
  exact triple_getNum hm hf

theorem triple_setObj {f : ℕ → Unit → Prog Cell β} (hf : Triple S (objAt p o' + l) (fun n => f n ()) R) :
    Triple S (objAt p o + l) (fun n => setObj p o' >>= f n) R := triple_store hf

/-- A step that changes one object. -/
theorem triple_modify {g : Obj → Obj} {f : ℕ → Unit → Prog Cell β}
    (hf : Triple S (objAt p (g o) + l) (fun n => f n ()) R) :
    Triple S (objAt p o + l) (fun n => (getObj p >>= fun o => setObj p (g o)) >>= f n) R := by
  have hmodify : Triple S (objAt p o + l) (fun _ => getObj p >>= fun o => setObj p (g o))
      fun _ l' => l' = objAt p (g o) + l := by
    refine triple_getObj mem_head ?_
    have hpure := @triple_setObj S l p o (g o) Unit (fun _ l' => l' = objAt p (g o) + l) (fun _ _ => pure ())
      (triple_pure rfl)
    simpa using hpure
  refine hmodify.bind ?_
  rintro _ _ rfl
  exact hf

theorem triple_setKey {f : ℕ → Unit → Prog Cell β} {key : Option Symbol}
    (hf : Triple S (objAt p { o with primKey := key } + l) (fun n => f n ()) R) :
    Triple S (objAt p o + l) (fun n => setKey p key >>= f n) R := triple_modify hf

theorem triple_setEntry {f : ℕ → Unit → Prog Cell β} {e : UInt16} {x : Addr}
    (hf : Triple S (objAt p { o with mp := put e x o.mp } + l) (fun n => f n ()) R) :
    Triple S (objAt p o + l) (fun n => setEntry p e x >>= f n) R := triple_modify hf

theorem triple_new {f : ℕ → Addr → Prog Cell β}
    (hf : ∀ p d, Triple S (objAt p ⟨none, [(0, d)], s⟩ + (numAt d c + l)) (fun n => f n p) R) :
    Triple S l (fun n => new c s >>= f n) R := by
  have hnew : Triple S l (fun _ => new c s) fun p l' => ∃ d, l' = objAt p ⟨none, [(0, d)], s⟩ + (numAt d c + l) := by
    refine triple_alloc fun d => ?_
    have halloc := @triple_alloc Cell Addr S (numAt d c + l) (.obj ⟨none, [(0, d)], s⟩)
      (fun p l' => ∃ d, l' = objAt p ⟨none, [(0, d)], s⟩ + (numAt d c + l)) (fun _ p => pure p) fun p =>
        triple_pure ⟨d, rfl⟩
    simpa using halloc
  refine hnew.bind ?_
  rintro p _ ⟨d, rfl⟩
  exact hf p d

theorem setObj_spec : Triple S (objAt p o + l) (fun _ => setObj p o') fun _ l' => l' = objAt p o' + l := by
  have h := @triple_setObj S l p o o' Unit (fun _ l' => l' = objAt p o' + l) (fun _ _ => pure ()) (triple_pure rfl)
  simpa using h

theorem setEntry_spec {e : UInt16} {x : Addr} :
    Triple S (objAt p o + l) (fun _ => setEntry p e x) fun _ l' => l' = objAt p { o with mp := put e x o.mp } + l := by
  have h := @triple_setEntry S l p o Unit (fun _ l' => l' = objAt p { o with mp := put e x o.mp } + l)
    (fun _ _ => pure ()) e x (triple_pure rfl)
  simpa using h

theorem free_spec {a : Addr} {x : Cell} : Triple S ({(a, x)} + l) (fun _ => free a) fun _ l' => l' = l := by
  have h := @triple_free Cell Unit S l a x (fun _ l' => l' = l) (fun _ _ => pure ()) (triple_pure rfl)
  simpa using h

theorem triple_skip {x : ℕ → Prog Cell Unit} {f : ℕ → Unit → Prog Cell β} {c : Bool} (hc : c = false)
    (hf : Triple S l (fun n => f n ()) R) : Triple S l (fun n => onlyIf c (x n) >>= f n) R := by
  subst hc
  exact hf

/-! ## Loops -/

/-- A loop that works on the coefficients one by one. -/
theorem forEach_each {Post : UInt16 × Stored → Cells Cell → Prop} {body : ℕ → UInt16 → Addr → Prog Cell Unit}
    (hp : (p, .obj o) ∈ G + S) : ∀ {is : List (UInt16 × Stored)},
    (∀ i ∈ is, Triple S i.2.own (fun n => body n i.1 i.2.addr) fun _ l => Post i l) →
    Triple S (cells is + G) (fun n => forEach p (body n) (kids is)) fun _ l =>
      ∃ ls : List (Cells Cell), List.Forall₂ Post is ls ∧ l = ls.sum + G
  | [], _ => triple_pure ⟨[], .nil, rfl⟩
  | i :: is, hbody => by
    have hmem : (p, Cell.obj o) ∈ cells (i :: is) + G + S := by
      rw [add_assoc]
      exact Multiset.mem_add.2 (.inr hp)
    refine triple_getObj hmem (triple_of_eq (i.2.own + (cells is + G)) (by rw [cells_cons, add_assoc]) ?_)
    refine (hbody i List.mem_cons_self).call fun _ l hPost => triple_of_eq (cells is + G + l) (add_comm ..) ?_
    refine ((forEach_each hp fun j hj => hbody j (List.mem_cons_of_mem _ hj)).frame l).mono ?_
    rintro _ _ ⟨_, rfl, ls, hls, rfl⟩
    refine ⟨l :: ls, .cons hPost hls, ?_⟩
    rw [List.sum_cons]
    abel

/-- A loop that uses the coefficients up. -/
theorem forEach_consume {body : ℕ → UInt16 → Addr → Prog Cell Unit} (hp : (p, .obj o) ∈ G + S)
    (hbody : ∀ i ∈ is, Triple S i.2.own (fun n => body n i.1 i.2.addr) fun _ l => l = 0) :
    Triple S (cells is + G) (fun n => forEach p (body n) (kids is)) fun _ l => l = G := by
  refine (forEach_each hp hbody).mono ?_
  rintro _ _ ⟨ls, hls, rfl⟩
  clear hbody
  induction hls with
  | nil => exact zero_add G
  | cons he _ ih => rw [List.sum_cons, he, zero_add, ih]

/-- A loop that changes the coefficients where they are. -/
theorem forEach_update {f : Multinomial → Multinomial} {body : ℕ → UInt16 → Addr → Prog Cell Unit}
    (hp : (p, .obj o) ∈ G + S)
    (hbody : ∀ i ∈ is, Triple S i.2.own (fun n => body n i.1 i.2.addr) fun _ l => Rep (f i.2.val) i.2.addr l) :
    Triple S (cells is + G) (fun n => forEach p (body n) (kids is)) fun _ l =>
      ∃ js, entries js = mapVal f (entries is) ∧ kids js = kids is ∧ Holds js ∧ l = cells js + G := by
  refine (forEach_each hp hbody).mono ?_
  rintro _ _ ⟨ls, hls, rfl⟩
  clear hbody
  induction hls with
  | nil => exact ⟨[], rfl, rfl, fun _ h => absurd h List.not_mem_nil, rfl⟩
  | @cons i l is ls hi _ ih =>
    obtain ⟨js, hentries, hkids, hjs, he⟩ := ih
    refine ⟨(i.1, ⟨f i.2.val, i.2.addr, l⟩) :: js, congrArg (_ :: ·) hentries, congrArg (_ :: ·) hkids,
      holds_cons hi hjs, ?_⟩
    rw [List.sum_cons, cells_cons, add_assoc, he, add_assoc]

/-! ## Building a map -/

/-- The object at `ans`, not saved, with the entries so far. -/
def Built (ans : Addr) (key : Option Symbol) (mp : Entries) (l : Cells Cell) : Prop :=
  ∃ is, mp = entries is ∧ Sorted is ∧ Holds is ∧ l = objAt ans ⟨key, kids is, false⟩ + cells is

theorem built_nil (ans : Addr) (key : Option Symbol) : Built ans key [] (objAt ans ⟨key, [], false⟩) :=
  ⟨[], rfl, List.Pairwise.nil, fun _ h => absurd h List.not_mem_nil, (add_zero _).symm⟩

theorem Built.rep {mp : Entries} (h : Built ans (some k) mp l) : Rep (.node false k mp) ans l := by
  obtain ⟨is, rfl, -, his, rfl⟩ := h
  exact .node false k ans is his

/-- A coefficient that takes the place of another. -/
theorem built_replace {key : Option Symbol} {e : UInt16} {u : Stored} {r : Addr} {lr : Cells Cell}
    (hsorted : Sorted (is ++ (e, u) :: js)) (his : Holds is) (hjs : Holds js) (hr : Rep m r lr) :
    Built ans key ((entries (is ++ (e, u) :: js)).put e m)
      (objAt ans ⟨key, put e r (kids (is ++ (e, u) :: js)), false⟩ + (lr + cells (is ++ js))) := by
  have hput : put e ⟨m, r, lr⟩ (is ++ (e, u) :: js) = is ++ (e, ⟨m, r, lr⟩) :: js := put_split hsorted.nodup _
  have hentries : (entries (is ++ (e, u) :: js)).put e m = entries (is ++ (e, ⟨m, r, lr⟩) :: js) := by
    rw [← hput, entries_put]
  have hkids : put e r (kids (is ++ (e, u) :: js)) = kids (is ++ (e, ⟨m, r, lr⟩) :: js) := by
    rw [← hput, kids_put]
  refine ⟨_, hentries, hput ▸ sorted_put hsorted e _, holds_append his (holds_cons hr hjs), ?_⟩
  rw [hkids]
  simp only [cells_append, cells_cons]
  abel

/-- An entry that is set; the coefficient that was there is left behind. -/
theorem built_put {key : Option Symbol} {r : Addr} {lr : Cells Cell} (hsorted : Sorted is) (his : Holds is)
    (hr : Rep m r lr) (e : UInt16) : ∃ F l', objAt ans ⟨key, put e r (kids is), false⟩ + lr + cells is = l' + F ∧
    Built ans key ((entries is).put e m) l' := by
  cases hlookup : is.lookup e with
  | none =>
    have hperm := perm_put_of_none hlookup (⟨m, r, lr⟩ : Stored)
    have hholds : Holds (put e ⟨m, r, lr⟩ is) :=
      fun i hi => holds_cons (i := (e, ⟨m, r, lr⟩)) hr his i (hperm.mem_iff.1 hi)
    have hcells : cells (put e ⟨m, r, lr⟩ is) = lr + cells is := by
      rw [cells, (hperm.map _).sum_eq, ← cells, cells_cons]
    refine ⟨0, _, ?_, put e ⟨m, r, lr⟩ is, (entries_put e ⟨m, r, lr⟩ is).symm, sorted_put hsorted e _, hholds, rfl⟩
    rw [kids_put, hcells, add_zero, add_assoc]
  | some u =>
    obtain ⟨is₁, is₂, rfl⟩ := exists_split hlookup
    obtain ⟨h₁, h₂⟩ := List.forall_mem_append.1 his
    refine ⟨u.own, _, ?_, built_replace hsorted h₁ (List.forall_mem_cons.1 h₂).2 hr⟩
    simp only [cells_append, cells_cons]
    abel

/-- A coefficient that is computed and put into the map of `ans`, whatever is in it. -/
def Puts (S : Cells Cell) (ans : Addr) (key : Option Symbol) (l : Cells Cell) (x : ℕ → Prog Cell Unit) (e : UInt16)
    (m : Multinomial) : Prop :=
  ∀ ks, Triple S (objAt ans ⟨key, ks, false⟩ + l) x fun _ l' => ∃ r lr, Rep m r lr ∧
    l' = objAt ans ⟨key, put e r ks, false⟩ + lr

theorem puts_setEntry {body : ℕ → Prog Cell Addr} {key : Option Symbol} {e : UInt16}
    (h : Triple S l body fun r l' => Rep m r l') :
    Puts S ans key l (fun n => body n >>= fun r => setEntry ans e r) e m := by
  intro ks
  refine triple_of_eq _ (add_comm ..) (h.call fun r lr hrep => triple_of_eq _ (add_comm ..) (setEntry_spec.mono ?_))
  rintro _ _ rfl
  exact ⟨r, lr, hrep, rfl⟩

theorem Puts.built {key : Option Symbol} {x : ℕ → Prog Cell Unit} {e : UInt16} {mp : Entries} {lx : Cells Cell}
    (hx : Puts S ans key lx x e m) (h : Built ans key mp l) :
    Triple S (l + lx) x fun _ l' => Built ans key (mp.put e m) l' := by
  obtain ⟨is, rfl, hsorted, his, rfl⟩ := h
  refine Triple.post_forget (triple_of_eq (objAt ans ⟨key, kids is, false⟩ + lx + cells is) (by abel)
    (((hx (kids is)).frame (cells is)).mono ?_))
  rintro _ _ ⟨_, rfl, r, lr, hr, rfl⟩
  exact built_put hsorted his hr e

/-- A loop over the entries of `p` that builds the map of `ans`. -/
theorem forEach_fold {F : Entries → UInt16 × Multinomial → Entries} {step : ℕ → UInt16 → Addr → Prog Cell Unit}
    {key : Option Symbol} (hp : (p, .obj o) ∈ G + S) :
    ∀ {is : List (UInt16 × Stored)} {mp : Entries} {l : Cells Cell}, Built ans key mp l →
      (∀ i ∈ is, ∀ {mp l}, Built ans key mp l →
      Triple S (l + i.2.own) (fun n => step n i.1 i.2.addr) fun _ l' => Built ans key (F mp (i.1, i.2.val)) l') →
    Triple S (l + cells is + G) (fun n => forEach p (step n) (kids is)) fun _ l' =>
      ∃ l'', l' = l'' + G ∧ Built ans key ((entries is).foldl F mp) l''
  | [], _, l, h, _ => triple_pure ⟨l, by rw [cells_nil, add_zero], h⟩
  | i :: is, _, l, h, hstep => by
    have hmem : (p, Cell.obj o) ∈ l + cells (i :: is) + G + S := by
      rw [add_assoc]
      exact Multiset.mem_add.2 (.inr hp)
    refine triple_getObj hmem (triple_of_eq (l + i.2.own + (cells is + G)) (by rw [cells_cons]; abel) ?_)
    refine (hstep i List.mem_cons_self h).call fun _ l' hl' => triple_of_eq _ (add_assoc ..).symm ?_
    exact forEach_fold hp hl' fun j hj => hstep j (List.mem_cons_of_mem _ hj)

/-- Entries in order with one for the exponent 0 start with it. -/
theorem exists_zero_head {β : Type} :
    ∀ {l : List (UInt16 × β)}, Sorted l → (l.lookup 0).isSome → ∃ v l', l = (0, v) :: l'
  | [], _, h => absurd h Bool.false_ne_true
  | (e, v) :: l, hsorted, hzero => by
    by_cases he : e = 0
    · exact ⟨v, l, by rw [he]⟩
    · have hlt : 0 < e := UInt16.pos_iff_ne_zero.2 he
      obtain ⟨w, hw⟩ := Option.isSome_iff_exists.1 hzero
      rw [List.lookup_cons, beq_false_of_ne (Ne.symm he)] at hw
      have hmem : (0 : UInt16) ∈ l.map Prod.fst := by
        by_contra h
        rw [lookup_eq_none.2 h] at hw
        cases hw
      exact absurd ((List.pairwise_cons.1 hsorted).1 0 hmem) (UInt16.not_lt.2 (UInt16.le_of_lt hlt))

section Put

variable {f : UInt16 → Multinomial → Multinomial} {step : ℕ → UInt16 → Addr → Prog Cell Unit} {key : Option Symbol}

/-- One coefficient for each entry, behind those that are there. -/
theorem forEach_append (hp : (p, .obj o) ∈ G + S) {mp : Entries} (h : Built ans key mp l)
    (hsorted : Sorted (entries is)) (hlt : ∀ x ∈ mp, ∀ y ∈ entries is, x.1 < y.1)
    (hstep : ∀ i ∈ is, Puts S ans key i.2.own (fun n => step n i.1 i.2.addr) i.1 (f i.1 i.2.val)) :
    Triple S (l + cells is + G) (fun n => forEach p (step n) (kids is)) fun _ l' =>
      ∃ l'', l' = l'' + G ∧ Built ans key (mp ++ (entries is).mapVals f) l'' := by
  have hfold := @forEach_fold S G p ans o (fun mp x => mp.put x.1 (f x.1 x.2)) step key hp is mp l h fun i hi mp l h =>
    (hstep i hi).built h
  have heq : (entries is).foldl (fun mp x => mp.put x.1 (f x.1 x.2)) mp = mp ++ (entries is).mapVals f :=
    foldl_put f hsorted hlt
  rwa [heq] at hfold

/-- The first turn of such a loop on a new object replaces the pointer to the `double`. -/
theorem forEach_new (hp : (p, .obj o) ∈ G + S) (hsorted : Sorted (entries is)) (hzero : ((entries is).lookup 0).isSome)
    (hstep : ∀ i ∈ is, Puts S ans key i.2.own (fun n => step n i.1 i.2.addr) i.1 (f i.1 i.2.val)) :
    Triple S (objAt ans ⟨key, [(0, d)], false⟩ + cells is + G) (fun n => forEach p (step n) (kids is)) fun _ l' =>
      ∃ l'', l' = l'' + G ∧ Built ans key ((entries is).mapVals f) l'' := by
  obtain ⟨v, is, rfl⟩ :=
    exists_zero_head (sorted_entries.1 hsorted) (by rwa [entries, lookup_mapVal, Option.isSome_map] at hzero)
  have hmem : (p, Cell.obj o) ∈ objAt ans ⟨key, [(0, d)], false⟩ + cells ((0, v) :: is) + G + S := by
    rw [add_assoc]
    exact Multiset.mem_add.2 (.inr hp)
  refine triple_getObj hmem
    (triple_of_eq (objAt ans ⟨key, [(0, d)], false⟩ + v.own + (cells is + G)) (by rw [cells_cons]; abel) ?_)
  refine (hstep (0, v) List.mem_cons_self [(0, d)]).call ?_
  rintro _ _ ⟨r, lr, hr, rfl⟩
  have hbuilt : Built ans key [(0, f 0 v.val)] (objAt ans ⟨key, [(0, r)], false⟩ + lr) :=
    ⟨[(0, ⟨f 0 v.val, r, lr⟩)], rfl, List.pairwise_singleton ..,
      List.forall_mem_singleton.2 hr, by rw [cells_cons, cells_nil, add_zero]; rfl⟩
  obtain ⟨hlt, hsorted⟩ := List.pairwise_cons.1 hsorted
  refine triple_of_eq _ (add_assoc ..).symm
    (forEach_append hp hbuilt hsorted ?_ fun i hi => hstep i (List.mem_cons_of_mem _ hi))
  intro x hx y hy
  rw [List.mem_singleton.1 hx]
  exact hlt y.1 (List.mem_map_of_mem hy)

end Put

/-! ## Deleting a tree and its flag -/

theorem customDelete_spec (h : Rep m p l) :
    Triple S l (fun n => customDelete n p true) fun _ l' => l' = objAt p ⟨none, [], false⟩ := by
  induction m generalizing p l with
  | const s c =>
    obtain ⟨d, rfl⟩ := rep_const h
    refine triple_succ (triple_getObj mem_head (triple_setObj ?_))
    refine triple_of_eq (numAt d c + (objAt p ⟨none, [(0, d)], false⟩ + 0)) (by abel)
      (triple_free (setObj_spec.mono ?_))
    rintro _ _ rfl
    exact add_zero _
  | node s k mp ih =>
    obtain ⟨is, rfl, rfl, his⟩ := rep_node h
    refine triple_succ (triple_getObj mem_head (triple_setObj ?_))
    have hloop := @forEach_consume S (objAt p ⟨some k, kids is, false⟩) p _ is
      (fun n _ x => do customDelete n x true; free x)
      (Multiset.mem_add.2 (.inl (Multiset.mem_singleton_self _))) fun i hi => by
        refine (ih (i.1, i.2.val) (mem_entries hi) (his i hi)).bind ?_
        rintro _ _ rfl
        exact free_spec (l := 0)
    refine triple_of_eq _ (add_comm ..) (hloop.bind ?_)
    rintro _ _ rfl
    refine triple_of_eq _ (add_zero _).symm (setObj_spec.mono ?_)
    rintro _ _ rfl
    exact add_zero _

theorem destroy_spec (h : Rep m p l) : Triple S l (fun n => destroy n p) fun _ l' => l' = 0 := by
  refine (customDelete_spec h).bind ?_
  rintro _ _ rfl
  exact free_spec (l := 0)

/-- The object is emptied; what an unsaved one points to is left behind. -/
theorem customDelete_save_spec (h : Rep m p l) :
    Triple S l (fun n => customDelete n p m.save) fun _ l' => l' = objAt p ⟨none, [], false⟩ := by
  cases hs : m.save with
  | true => exact customDelete_spec h
  | false =>
    obtain ⟨o, r, rfl, -, -⟩ := h.split
    refine triple_succ (triple_getObj mem_head (triple_setObj ?_))
    refine (triple_of_eq _ (add_zero _).symm (setObj_spec.mono ?_)).forget r
    rintro _ _ rfl
    exact add_zero _

theorem setSave_spec (h : Rep m p l) (b : Bool) :
    Triple S l (fun n => setSave n p b) fun _ l' => Rep (m.setSave b) p l' := by
  induction m generalizing p l with
  | const s c =>
    obtain ⟨d, rfl⟩ := rep_const h
    refine triple_succ (triple_getObj mem_head ?_)
    by_cases hs : s = b
    · simp only [hs, if_true]
      exact triple_pure (.const ..)
    · simp only [hs, if_false]
      refine triple_setObj (triple_pure (.const ..))
  | node s k mp ih =>
    obtain ⟨is, rfl, rfl, his⟩ := rep_node h
    refine triple_succ (triple_getObj mem_head ?_)
    rw [Multinomial.setSave]
    by_cases hs : s = b
    · simp only [hs, if_true]
      rw [hs] at h
      exact triple_pure h
    · simp only [hs, if_false]
      refine triple_setObj (triple_of_eq _ (add_comm ..) ?_)
      have hloop := @forEach_update S (objAt p ⟨some k, kids is, b⟩) p _ is (Multinomial.setSave b)
        (fun n _ x => setSave n x b) (Multiset.mem_add.2 (.inl (Multiset.mem_singleton_self _))) fun i hi =>
          ih (i.1, i.2.val) (mem_entries hi) (his i hi)
      refine hloop.mono ?_
      rintro _ _ ⟨js, hentries, hkids, hjs, rfl⟩
      rw [Multinomial.setSaveMp_eq, ← hkids, add_comm]
      have hmap : (entries is).mapVals (fun _ c => c.setSave b) = entries js := hentries.symm
      rw [hmap]
      exact .node b k p js hjs

/-! ## Operands -/

/-- What an operator may use: a tree among the shared cells if it is saved, one of its own otherwise. -/
inductive Operand (S : Cells Cell) : Bool → Multinomial → Addr → Cells Cell → Prop
  | saved {m : Multinomial} {p : Addr} {r : Cells Cell} (tidy : Tidy true m) (rep : Rep m p r) (le : r ≤ S) :
      Operand S true m p 0
  | owned {m : Multinomial} {p : Addr} {l : Cells Cell} (tidy : Tidy false m) (rep : Rep m p l) : Operand S false m p l

/-- The object of an operand, if it is owned. -/
def self (s : Bool) (p : Addr) (o : Obj) : Cells Cell := if s then 0 else objAt p o

@[simp] theorem self_true : self true p o = 0 := rfl

@[simp] theorem self_false : self false p o = objAt p o := rfl

theorem Operand.tidy (h : Operand S s m p l) : Tidy s m := by
  cases h with
  | saved ht => exact ht
  | owned ht => exact ht

theorem Operand.rep (h : Operand S false m p l) : Rep m p l := by
  cases h with
  | owned _ hr => exact hr

theorem Operand.share (h : Operand S s m p l) (T : Cells Cell) : Operand (S + T) s m p l := by
  cases h with
  | saved ht hr hle => exact .saved ht hr (hle.trans (Multiset.le_add_right ..))
  | owned ht hr => exact .owned ht hr

theorem operand_const (h : Operand S s (.const s' c) p l) :
    ∃ d, (p, .obj ⟨none, [(0, d)], s⟩) ∈ l + S ∧ (d, .num c) ∈ l + S ∧
      l = self s p ⟨none, [(0, d)], s⟩ + if s then 0 else numAt d c := by
  cases h with
  | saved ht hr hle =>
    obtain rfl := tidy_const_iff.1 ht
    obtain ⟨d, rfl⟩ := rep_const hr
    exact ⟨d, mem_shared hle, mem_shared ((add_comm ..).trans_le hle), rfl⟩
  | owned ht hr =>
    obtain rfl := tidy_const_iff.1 ht
    obtain ⟨d, rfl⟩ := rep_const hr
    exact ⟨d, by simp, by simp, rfl⟩

/-- The coefficients of an operand are operands. -/
theorem operand_node {mp : Entries} (h : Operand S s (.node s' k mp) p l) :
    ∃ is, mp = entries is ∧ Sorted (entries is) ∧ ((entries is).lookup 0).isSome ∧
      (p, .obj ⟨some k, kids is, s⟩) ∈ self s p ⟨some k, kids is, s⟩ + S ∧
      l = self s p ⟨some k, kids is, s⟩ + cells is ∧ ∀ i ∈ is, Operand S s i.2.val i.2.addr i.2.own := by
  cases h with
  | saved ht hr hle =>
    obtain ⟨rfl, hsorted, hzero, hkids⟩ := tidy_node_iff.1 ht
    obtain ⟨is, rfl, rfl, his⟩ := rep_node hr
    have hcells : cells is ≤ S := (Multiset.le_add_left ..).trans hle
    refine ⟨lend is, (entries_lend is).symm, ?_, ?_, ?_, ?_, fun i hi => ?_⟩
    · rwa [entries_lend]
    · rwa [entries_lend]
    · rw [kids_lend]
      exact mem_shared hle
    · rw [cells_lend, self_true, add_zero]
    · obtain ⟨j, hj, rfl⟩ := List.mem_map.1 hi
      exact .saved (hkids (j.1, j.2.val) (mem_entries hj)) (his j hj) ((own_le_cells hj).trans hcells)
  | owned ht hr =>
    obtain ⟨rfl, hsorted, hzero, hkids⟩ := tidy_node_iff.1 ht
    obtain ⟨is, rfl, rfl, his⟩ := rep_node hr
    refine ⟨is, rfl, hsorted, hzero, by simp, rfl,
      fun i hi => .owned (hkids (i.1, i.2.val) (mem_entries hi)) (his i hi)⟩

theorem Operand.mem_save (h : Operand S s m p l) : ∃ o, (p, .obj o) ∈ l + S ∧ o.save = s := by
  cases h with
  | saved ht hr hle =>
    obtain ⟨o, r, rfl, hsave, -⟩ := hr.split
    exact ⟨o, mem_shared hle, hsave.trans ht.save_eq⟩
  | owned ht hr =>
    obtain ⟨o, r, rfl, hsave, -⟩ := hr.split
    exact ⟨o, mem_head, hsave.trans ht.save_eq⟩

theorem Operand.mem_node {mp : Entries} (h : Operand S s (.node s' k mp) p l) :
    ∃ o, (p, .obj o) ∈ l + S ∧ o.primKey = some k := by
  obtain ⟨is, -, -, -, hmem, rfl, -⟩ := operand_node h
  exact ⟨_, mem_add_right hmem, rfl⟩

/-- Two operands that are one object are saved. -/
theorem Operand.saved_of_same {x : ℕ → Prog Cell α} {Q : α → Cells Cell → Prop} {la lb : Cells Cell}
    (ha : Operand S s a p la) (hb : Operand S s' b q lb) (h : (p = q → s' = true) → Triple S (la + lb) x Q) :
    Triple S (la + lb) x Q := by
  cases hb with
  | saved => exact h fun _ => rfl
  | owned _ hr =>
    by_cases hsame : p = q
    · -- what the second one owns, the first one cannot have
      subst hsame
      obtain ⟨o, hmem, -⟩ := ha.mem_save
      obtain ⟨o', r, rfl, -, -⟩ := hr.split
      exact triple_of_eq _ (add_comm ..)
        (triple_absurd (Multiset.mem_add.2 (.inl (Multiset.mem_singleton_self _))) hmem)
    · exact h fun heq => absurd heq hsame

/-- An operand that is no longer needed is deleted, unless it is saved. -/
theorem release_spec (h : Operand S s m p l) : Triple S l (fun n => release n p) fun _ l' => l' = 0 := by
  cases h with
  | saved ht hr hle =>
    obtain ⟨o, r, rfl, hsave, -⟩ := hr.split
    rw [ht.save_eq] at hsave
    refine triple_getObj (mem_shared hle) ?_
    rw [hsave]
    exact triple_pure rfl
  | owned ht hr =>
    obtain ⟨o, r, rfl, hsave, -⟩ := hr.split
    rw [ht.save_eq] at hsave
    refine triple_getObj mem_head ?_
    rw [hsave]
    exact destroy_spec hr

/-- Of an operand whose coefficients have been used up, the object is deleted. -/
theorem deleteObj_spec (hm : (p, .obj o) ∈ self o.save p o + l + S) :
    Triple S (self o.save p o + l) (fun _ => deleteObj p) fun _ l' => l' = l := by
  refine triple_getObj hm ?_
  cases o.save with
  | true => exact triple_pure (zero_add l)
  | false => exact free_spec

/-! ## Copies -/

theorem copyOf_of_assign (h : ∀ u t lt, Rep u t lt → Triple S (lt + l) (fun n => assign n t p) fun _ l' => Rep m t l') :
    Triple S l (fun n => copyOf n p) fun r l' => Rep m r l' := by
  refine triple_new fun temp d => triple_of_eq _ (add_assoc ..).symm ((h _ _ _ (.const false 0 temp d)).bind ?_)
  intro _ _ hm
  exact triple_pure hm

theorem assign_owned {u : Multinomial} {lt : Cells Cell} (h : Rep m p l) (hs : m.save = false) (hu : Rep u t lt) :
    Triple S (lt + l) (fun n => assign n t p) fun _ l' => Rep m t l' := by
  obtain ⟨o, r, rfl, hsave, hmove⟩ := h.split
  obtain ⟨ot, rt, rfl, -, -⟩ := hu.split
  refine triple_succ (triple_of_eq (objAt p o + (objAt t ot + (r + rt))) (by abel) (triple_getObj mem_head ?_))
  rw [hsave, hs]
  refine triple_of_eq (objAt t ot + (objAt p o + (r + rt))) (by abel) (triple_setObj ?_)
  -- what the target pointed to is left behind
  refine triple_of_eq (objAt p o + (objAt t o + r) + rt) (by abel) ((free_spec.mono ?_).forget rt)
  rintro _ _ rfl
  exact hmove t

theorem assign_saved {u : Multinomial} {r lt : Cells Cell} (ht : Tidy true m) (h : Rep m p r) (hle : r ≤ S)
    (hu : Rep u t lt) : Triple S lt (fun n => assign n t p) fun _ l' => Rep m.copy t l' := by
  induction m generalizing p r t u lt with
  | const s c =>
    obtain rfl := tidy_const_iff.1 ht
    obtain ⟨d, rfl⟩ := rep_const h
    obtain ⟨ot, rt, rfl, hsave, -⟩ := hu.split
    refine triple_succ (triple_getObj (mem_shared hle) (triple_getObj mem_head ?_))
    rw [hsave]
    refine (customDelete_save_spec hu).bind ?_
    rintro _ _ rfl
    refine triple_of_eq _ (add_zero _).symm
      (triple_setKey (triple_value rfl (mem_shared ((add_comm ..).trans_le hle)) ?_))
    refine triple_alloc fun temp => triple_of_eq (objAt t ⟨none, [], false⟩ + numAt temp c) (by rw [add_zero, add_comm])
      (setEntry_spec.mono ?_)
    rintro _ _ rfl
    exact .const ..
  | node s k mp ih =>
    obtain ⟨rfl, hsorted, -, hkids⟩ := tidy_node_iff.1 ht
    obtain ⟨is, rfl, rfl, his⟩ := rep_node h
    obtain ⟨ot, rt, rfl, hsave, -⟩ := hu.split
    refine triple_succ (triple_getObj (mem_shared hle) (triple_getObj mem_head ?_))
    rw [hsave]
    refine (customDelete_save_spec hu).bind ?_
    rintro _ _ rfl
    refine triple_of_eq _ (add_zero _).symm (triple_setKey ?_)
    have hloop := @forEach_append S (objAt t ⟨some k, [], false⟩) 0 p t _ (lend is) (fun _ c => c.copy)
      (fun n e x => copyOf n x >>= fun r => setEntry t e r) (some k) (mem_shared hle) [] (built_nil ..)
      (by rwa [entries_lend]) (fun _ h => absurd h List.not_mem_nil) fun i hi => ?_
    · simp only [copyOf, bind_assoc, pure_bind] at hloop
      rw [entries_lend, kids_lend, cells_lend, add_zero] at hloop
      refine hloop.mono ?_
      rintro _ _ ⟨l, rfl, hbuilt⟩
      rw [Multinomial.copy, Multinomial.copyMp_eq, add_zero]
      exact hbuilt.rep
    · obtain ⟨j, hj, rfl⟩ := List.mem_map.1 hi
      have hcells : cells is ≤ S := (Multiset.le_add_left ..).trans hle
      exact puts_setEntry (copyOf_of_assign fun u t lt hu => triple_of_eq _ (add_zero _)
        (ih (j.1, j.2.val) (mem_entries hj) (hkids _ (mem_entries hj)) (his j hj)
          ((own_le_cells hj).trans hcells) hu))

/-- `operator=`: a copy of a saved operand, the coefficients of an unsaved one. -/
theorem assign_spec {u : Multinomial} {lt : Cells Cell} (h : Operand S s m p l) (hu : Rep u t lt) :
    Triple S (lt + l) (fun n => assign n t p) fun _ l' => Rep m.copy t l' := by
  cases h with
  | saved ht hr hle => exact triple_of_eq _ (add_zero _) (assign_saved ht hr hle hu)
  | owned ht hr =>
    rw [Multinomial.copy_of_unsaved ht]
    exact assign_owned hr ht.save_eq hu

theorem copyOf_spec (h : Operand S s m p l) : Triple S l (fun n => copyOf n p) fun r l' => Rep m.copy r l' :=
  copyOf_of_assign fun _ _ _ hu => assign_spec h hu

/-! ## Simplification -/

theorem isZero_spec {r : Cells Cell} (h : Rep m p r) (hle : r ≤ l + S) :
    Triple S l (fun _ => isZero p) fun b l' => b = m.isZero ∧ l' = l := by
  cases h with
  | const s c _ d =>
    have hobj : (p, Cell.obj ⟨none, [(0, d)], s⟩) ∈ l + S := Multiset.mem_of_le hle (by simp)
    have hnum : (d, Cell.num c) ∈ l + S := Multiset.mem_of_le hle (by simp)
    refine triple_getObj hobj (triple_value rfl hnum (triple_pure ⟨rfl, rfl⟩))
  | node s k _ is _ =>
    have hmem : (p, Cell.obj ⟨some k, kids is, s⟩) ∈ l + S := Multiset.mem_of_le hle (by simp)
    exact triple_getObj hmem (triple_pure ⟨rfl, rfl⟩)

/-- The entry of a zero coefficient is erased and the coefficient deleted. -/
theorem erase_spec {i : UInt16 × Stored} {key : Option Symbol} (hnodup : ((js ++ i :: is).map Prod.fst).Nodup)
    (hi : Rep i.2.val i.2.addr i.2.own) :
    Triple S (objAt p ⟨key, kids (js ++ i :: is), false⟩ + cells (js ++ i :: is)) (fun n => do
        destroy n i.2.addr
        let o ← getObj p
        setObj p { o with mp := o.mp.filter fun y => y.1 != i.1 })
      fun _ l => l = objAt p ⟨key, kids (js ++ is), false⟩ + cells (js ++ is) := by
  refine triple_of_eq (i.2.own + (objAt p ⟨key, kids (js ++ i :: is), false⟩ + cells (js ++ is)))
    (by rw [cells_append, cells_cons, cells_append]; abel) ((destroy_spec hi).consume fun _ => ?_)
  refine triple_getObj mem_head (setObj_spec.mono ?_)
  rintro _ _ rfl
  have hfilter : (kids (js ++ i :: is)).filter (fun y => y.1 != i.1) = kids (js ++ is) := by
    rw [List.map_append, List.map_cons, List.nodup_middle, List.nodup_cons, List.mem_append, not_or] at hnodup
    have hkeep : ∀ {ks : List (UInt16 × Stored)}, i.1 ∉ ks.map Prod.fst →
        (kids ks).filter (fun y => y.1 != i.1) = kids ks := by
      intro ks hks
      refine List.filter_eq_self.2 fun y hy => bne_iff_ne.2 fun he => hks ?_
      rw [← keys_mapVal Stored.addr, ← he]
      exact List.mem_map_of_mem hy
    rw [kids_append, kids_cons, List.filter_append, List.filter_cons, hkeep hnodup.1.1, hkeep hnodup.1.2, kids_append]
    simp
  exact congrArg (fun ks => objAt p ⟨key, ks, false⟩ + cells (js ++ is)) hfilter

/-- The coefficients that are not zero. -/
def nonzero (is : List (UInt16 × Stored)) : List (UInt16 × Stored) := is.filter fun i => !i.2.val.isZero

theorem entries_nonzero (is : List (UInt16 × Stored)) :
    entries (nonzero is) = (entries is).filter fun x => !x.2.isZero := by
  rw [entries, entries, mapVal, mapVal, List.filter_map]
  rfl

theorem eraseZeros_spec {key : Option Symbol} :
    ∀ {is js : List (UInt16 × Stored)}, Sorted (js ++ is) → Holds (js ++ is) →
      Triple S (objAt p ⟨key, kids (js ++ is), false⟩ + cells (js ++ is)) (fun n => eraseZeros n p (kids is)) fun _ l =>
      l = objAt p ⟨key, kids (js ++ nonzero is), false⟩ + cells (js ++ nonzero is)
  | [], _, _, _ => triple_pure rfl
  | i :: is, js, hsorted, hholds => by
    have hi : Rep i.2.val i.2.addr i.2.own := hholds i (List.mem_append.2 (.inr List.mem_cons_self))
    have hle : i.2.own ≤ objAt p ⟨key, kids (js ++ i :: is), false⟩ + cells (js ++ i :: is) + S :=
      (own_le_cells (List.mem_append.2 (.inr List.mem_cons_self))).trans
        ((Multiset.le_add_left ..).trans (Multiset.le_add_right ..))
    refine (isZero_spec hi hle).bind ?_
    rintro _ _ ⟨rfl, rfl⟩
    rw [nonzero, List.filter_cons]
    cases i.2.val.isZero with
    | true =>
      refine (erase_spec hsorted.nodup hi).bind ?_
      rintro _ _ rfl
      have hsub : List.Sublist (js ++ is) (js ++ i :: is) := (List.sublist_cons_self i is).append_left js
      exact eraseZeros_spec (List.Pairwise.sublist (hsub.map _) hsorted) fun j hj => hholds j (hsub.subset hj)
    | false =>
      have hstep := @eraseZeros_spec key is (js ++ [i])
      rw [List.append_assoc, List.append_assoc] at hstep
      exact hstep hsorted hholds

/-- The entry for the exponent 0 is put back. -/
theorem zeroEntry_spec (hholds : Holds is) :
    Triple S (objAt p ⟨some k, kids is, false⟩ + cells is) (fun _ => do
        let o ← getObj p
        onlyIf (o.mp.lookup 0).isNone (do
          let z ← new 0 false
          setEntry p 0 z))
      fun _ l => Rep (if ((entries is).lookup 0).isSome then .node false k (entries is)
        else .node false k ((0, .const false 0) :: entries is)) p l := by
  refine triple_getObj mem_head ?_
  have hentries : (entries is).lookup 0 = (is.lookup 0).map Stored.val := lookup_mapVal ..
  have hkids : (kids is).lookup 0 = (is.lookup 0).map Stored.addr := lookup_mapVal ..
  rw [hentries, Option.isSome_map]
  simp only [hkids, Option.isNone_map]
  cases hzero : is.lookup 0 with
  | some v => exact triple_pure (.node false k p is hholds)
  | none =>
    refine triple_new fun z d => triple_of_eq
      (objAt p ⟨some k, kids is, false⟩ + (objAt z ⟨none, [(0, d)], false⟩ + numAt d 0 + cells is)) (by abel)
      (setEntry_spec.mono ?_)
    rintro _ _ rfl
    have hput : put 0 z (kids is) = (0, z) :: kids is := by
      refine put_cons (fun x hx => UInt16.pos_iff_ne_zero.2 fun he => ?_) z
      refine lookup_eq_none.1 (hkids.trans (congrArg _ hzero)) (List.mem_map.2 ⟨x, hx, he⟩)
    have hrep := Rep.node false k p ((0, ⟨.const false 0, z, objAt z ⟨none, [(0, d)], false⟩ + numAt d 0⟩) :: is)
      (holds_cons (.const ..) hholds)
    rw [cells_cons] at hrep
    simp only [hput]
    exact hrep

theorem simplify_spec (hsorted : Sorted (entries is)) (hholds : Holds is) :
    Triple S (objAt p ⟨some k, kids is, false⟩ + cells is) (fun n => simplify n p) fun _ l =>
      Rep (Multinomial.simplify (.node false k (entries is))) p l := by
  have hsorted' : Sorted is := sorted_entries.1 hsorted
  refine triple_getObj mem_head ((@eraseZeros_spec S p (some k) is [] hsorted' hholds).bind ?_)
  rintro _ _ rfl
  have hholds' : Holds (nonzero is) := fun i hi => hholds i (List.mem_filter.1 hi).1
  refine triple_getObj mem_head ?_
  simp only [List.nil_append, Multinomial.simplify, ← entries_nonzero]
  cases hfs : nonzero is with
  | nil =>
    refine Triple.bind (Q := fun _ l => ∃ d, l = objAt p ⟨none, [(0, d)], false⟩ + numAt d 0) ?_ ?_
    · refine triple_alloc fun d => triple_of_eq (objAt p ⟨some k, [], false⟩ + numAt d 0) (add_comm ..)
        (setObj_spec.mono ?_)
      rintro _ _ rfl
      exact ⟨d, rfl⟩
    · rintro _ _ ⟨d, rfl⟩
      exact triple_getObj mem_head (triple_pure (.const ..))
  | cons f fs => exact zeroEntry_spec (hfs ▸ hholds')

end Mem

end GridSolve.Poly
