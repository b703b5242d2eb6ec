/-
The table of variables (`vars.hpp`, `vars.cpp`): the constructor and the two `add_var`. Three ways
to make a name share one map, so a call can bind a name again that an earlier call has bound. It
does so exactly when one of the names it makes stands in the map for a variable that was added
before. The test that the calls make looks at the given name only.
-/
import GridSolve.Core.GenPol
import GridSolve.Lib.Text

namespace GridSolve.Core

open GridSolve.Poly
open GridSolve.Trace (bind_ok)

/-! ## Calls -/

/-- One turn of the loops: `mp[name] = var_arr.size()` and a new variable at the end. -/
def World.register (isTempl : Bool) (name : String) (w : World) : Except Err World := do
  let mp := Vars.setIndex name w.v.varArr.length w.v.mp
  let (k, w) ← w.symbol isTempl
  return { w with v := { varArr := w.v.varArr ++ [.var k true], mp } }

/-- `vars(int)`, on an empty table and the symbols there are. -/
def World.construct (n : ℤ) (w : World) : Except Err World :=
  (List.range n.toNat).foldlM (fun w _ => w.register false ("var_" ++ toString w.v.varArr.length))
    { w with v := { varArr := [], mp := [] } }

/-- The name of a group: the given one, with the size of the map appended if it is empty or taken. -/
def Vars.groupName (v : Vars) (aname : String) : String :=
  if aname = "" ∨ (v.mp.lookup aname).isSome then aname ++ "grp" ++ toString v.mp.length else aname

/-- The names of the variables of a group. -/
def memberNames (name : String) (n : ℤ) : List String :=
  (List.range n.toNat).map fun i => name ++ "_" ++ toString i

/-- `vars::add_var(int, bool, std::string)`. -/
def World.addVars (n : ℤ) (aisTemplate : Bool) (aname : String) (w : World) : Except Err (String × World) := do
  let name := w.v.groupName aname
  let w ← (memberNames name n).foldlM (fun w t => w.register aisTemplate t) w
  return (name, w)

/-- A call of one of the two `add_var`. -/
inductive AddVar where
  | single (isTempl : Bool) (aname : String)
  | group (n : ℤ) (isTempl : Bool) (aname : String)

namespace AddVar

def run : AddVar → World → Except Err (String × World)
  | .single t aname, w => w.addVar t aname
  | .group n t aname, w => w.addVars n t aname

def isTempl : AddVar → Bool
  | .single t _ => t
  | .group _ t _ => t

/-- How many variables the call adds. -/
def count : AddVar → ℕ
  | .single _ _ => 1
  | .group n _ _ => n.toNat

/-- The names under which the call registers variables, from the name it returns. -/
def registered (ret : String) : AddVar → List String
  | .single _ _ => [ret]
  | .group n _ _ => memberNames ret n

/-- The name that the call returns. -/
def name (v : Vars) : AddVar → String
  | .single _ aname => v.freshName aname
  | .group _ _ aname => v.groupName aname

end AddVar

/-! ## What a turn of the loop does -/

theorem World.register_ok {t : Bool} {name : String} {w w' : World} (h : w.register t name = .ok w') :
    w.numSymbols < symLimit ∧
      w' = { w with
        numSymbols := w.numSymbols + 1
        v := ⟨w.v.varArr ++ [.var ⟨w.numSymbols, t⟩ true], Vars.setIndex name w.v.varArr.length w.v.mp⟩ } := by
  unfold World.register World.symbol at h
  by_cases hlim : w.numSymbols ≥ symLimit
  · rw [if_pos hlim] at h
    cases h
  · rw [if_neg hlim] at h
    cases h
    exact ⟨not_le.1 hlim, rfl⟩

theorem lookup_filter_ne {α β : Type} [DecidableEq α] {a b : α} (hab : a ≠ b) : ∀ l : List (α × β),
    (l.filter fun x => x.1 ≠ b).lookup a = l.lookup a
  | [] => rfl
  | (c, v) :: l => by
    by_cases hc : c = b
    · rw [List.filter_cons_of_neg (by simpa using hc), lookup_filter_ne hab l, List.lookup_cons,
        beq_false_of_ne (hc ▸ hab)]
    · rw [List.filter_cons_of_pos (by simpa using hc), List.lookup_cons, List.lookup_cons, lookup_filter_ne hab l]

theorem lookup_setIndex_self (name : String) (n : ℕ) (mp : List (String × ℤ)) :
    (Vars.setIndex name n mp).lookup name = some ((n : ℤ).bmod 4294967296) := List.lookup_cons_self

theorem lookup_setIndex_of_ne {s name : String} (h : s ≠ name) (n : ℕ) (mp : List (String × ℤ)) :
    (Vars.setIndex name n mp).lookup s = mp.lookup s := by
  rw [Vars.setIndex, List.lookup_cons, beq_false_of_ne h]
  exact lookup_filter_ne h mp

/-- Whatever the names are, a loop appends variables with the next ids. -/
theorem registerLoop_ok {α : Type} {t : Bool} {f : World → α → String} : ∀ {l : List α} {w w' : World},
    l.foldlM (fun w a => w.register t (f w a)) w = .ok w' →
      w'.v.varArr = w.v.varArr ++ (List.range' w.numSymbols l.length).map (fun i => .var ⟨i, t⟩ true) ∧
        w'.numSymbols = w.numSymbols + l.length ∧ (w.numSymbols ≤ symLimit → w'.numSymbols ≤ symLimit)
  | [], w, w', h => by
    cases h
    simp
  | a :: l, w, w', h => by
    rw [List.foldlM_cons] at h
    obtain ⟨w₁, h₁, h⟩ := bind_ok h
    obtain ⟨hlim, rfl⟩ := World.register_ok h₁
    obtain ⟨harr, hnum, hle⟩ := registerLoop_ok h
    refine ⟨?_, ?_, fun _ => hle hlim⟩
    · rw [harr, List.length_cons, List.range'_succ, List.map_cons, List.append_assoc]
      rfl
    · rw [hnum, List.length_cons]
      change w.numSymbols + 1 + l.length = _
      omega

/-- The size of the table after a loop. -/
theorem registerLoop_length {α : Type} {t : Bool} {f : World → α → String} {l : List α} {w w' : World}
    (h : l.foldlM (fun w a => w.register t (f w a)) w = .ok w') :
    w'.v.varArr.length = w.v.varArr.length + l.length := by
  rw [(registerLoop_ok h).1, List.length_append, List.length_map, List.length_range']

/-- A name that is not among the new ones keeps its index. -/
theorem registerLoop_lookup_of_notMem {t : Bool} {s : String} : ∀ {ns : List String} {w w' : World}, s ∉ ns →
    ns.foldlM (fun w x => w.register t x) w = .ok w' → w'.v.mp.lookup s = w.v.mp.lookup s
  | [], w, w', _, h => by
    cases h
    rfl
  | x :: ns, w, w', hs, h => by
    rw [List.foldlM_cons] at h
    obtain ⟨w₁, h₁, h⟩ := bind_ok h
    obtain ⟨-, rfl⟩ := World.register_ok h₁
    rw [List.mem_cons, not_or] at hs
    rw [registerLoop_lookup_of_notMem hs.2 h]
    exact lookup_setIndex_of_ne hs.1 _ _

/-- Different names are bound to the positions of their variables, converted to `int`. -/
theorem registerLoop_lookup {t : Bool} : ∀ {ns : List String} {w w' : World}, ns.Nodup →
    ns.foldlM (fun w x => w.register t x) w = .ok w' → ∀ {i : ℕ} {s : String}, ns[i]? = some s →
      w'.v.mp.lookup s = some (((w.v.varArr.length + i : ℕ) : ℤ).bmod 4294967296)
  | [], _, _, _, _, i, s, hs => by cases hs
  | x :: ns, w, w', hnd, h, i, s, hs => by
    rw [List.foldlM_cons] at h
    obtain ⟨w₁, h₁, h⟩ := bind_ok h
    obtain ⟨-, rfl⟩ := World.register_ok h₁
    obtain ⟨hx, hnd⟩ := List.nodup_cons.1 hnd
    cases i with
    | zero =>
      -- the names of the later turns are different ones
      cases hs
      rw [registerLoop_lookup_of_notMem hx h]
      exact lookup_setIndex_self _ _ _
    | succ i =>
      rw [registerLoop_lookup hnd h hs, List.length_append, List.length_singleton, Nat.add_assoc, Nat.add_comm 1 i]

/-- Indices are positions of the table, or negative after the conversion. -/
theorem registerLoop_index_lt {α : Type} {t : Bool} {f : World → α → String} : ∀ {l : List α} {w w' : World},
    l.foldlM (fun w a => w.register t (f w a)) w = .ok w' →
      (∀ s q, w.v.mp.lookup s = some q → q < w.v.varArr.length) →
        ∀ s q, w'.v.mp.lookup s = some q → q < w'.v.varArr.length
  | [], w, w', h, hw => by
    cases h
    exact hw
  | a :: l, w, w', h, hw => by
    rw [List.foldlM_cons] at h
    obtain ⟨w₁, h₁, h⟩ := bind_ok h
    obtain ⟨-, rfl⟩ := World.register_ok h₁
    refine registerLoop_index_lt h fun s q hq => ?_
    rw [List.length_append, List.length_singleton]
    by_cases hs : s = f w a
    · rw [hs] at hq
      have hbind := (lookup_setIndex_self (f w a) w.v.varArr.length w.v.mp).symm.trans hq
      have hle : (w.v.varArr.length : ℤ).bmod 4294967296 ≤ w.v.varArr.length := by
        rw [Int.bmod_def]
        split_ifs <;> omega
      have := Option.some.inj hbind
      omega
    · have := hw s q ((lookup_setIndex_of_ne hs _ _).symm.trans hq)
      omega

/-! ## Calls as loops -/

/-- Both calls are the loop over the names they register. -/
theorem AddVar.run_eq (c : AddVar) (w : World) :
    c.run w = (do
      let w' ← (c.registered (c.name w.v)).foldlM (fun w x => w.register c.isTempl x) w
      return (c.name w.v, w')) := by
  cases c with
  | group n t aname => rfl
  | single t aname =>
    change World.addVar t aname w = ([w.v.freshName aname].foldlM (fun w x => w.register t x) w >>= _)
    rw [List.foldlM_cons]
    unfold World.addVar World.register World.symbol
    split_ifs <;> rfl

theorem AddVar.run_ok {c : AddVar} {w : World} {r : String × World} (h : c.run w = .ok r) :
    r.1 = c.name w.v ∧ (c.registered (c.name w.v)).foldlM (fun w x => w.register c.isTempl x) w = .ok r.2 := by
  rw [AddVar.run_eq] at h
  obtain ⟨w', hw', hr⟩ := bind_ok h
  cases hr
  exact ⟨rfl, hw'⟩

theorem toList_toString_nat (n : ℕ) : (toString n).toList = Text.natText n := by
  change (Nat.repr n).toList = _
  rw [Nat.repr, String.toList_ofList, Text.natText]

theorem toString_nat_injective : Function.Injective fun n : ℕ => toString n := by
  intro m n h
  have htext : Text.natText m = Text.natText n := by
    rw [← toList_toString_nat, ← toList_toString_nat]
    exact congrArg String.toList h
  rw [← Text.val_natText m, htext, Text.val_natText]

theorem nodup_memberNames (name : String) (n : ℤ) : (memberNames name n).Nodup := by
  refine List.nodup_range.map fun i j h => toString_nat_injective ?_
  exact String.append_right_inj (name ++ "_") |>.1 h

theorem AddVar.nodup_registered (ret : String) : ∀ c : AddVar, (c.registered ret).Nodup
  | .single _ _ => List.nodup_singleton ret
  | .group n _ _ => nodup_memberNames ret n

theorem AddVar.length_registered (ret : String) : ∀ c : AddVar, (c.registered ret).length = c.count
  | .single _ _ => rfl
  | .group n _ _ => by
    rw [AddVar.registered, memberNames, List.length_map, List.length_range]
    rfl

/-! ## Names and the variables registered under them -/

/-- A name, the position of the variable that was registered under it, and the variable. -/
structure Entry where
  name : String
  pos : ℕ
  var : Option Multinomial

/-- The name leads through the map to the variable that was registered under it. -/
def Entry.Resolves (v : Vars) (e : Entry) : Prop := v.mp.lookup e.name = some (e.pos : ℤ) ∧ v.varArr[e.pos]? = e.var

instance decidableResolves (v : Vars) (e : Entry) : Decidable (e.Resolves v) := by unfold Entry.Resolves; infer_instance

/-- The entries of a call that returned `ret`: the new end of the table, under the names of the call. -/
def AddVar.entries (c : AddVar) (ret : String) (w w' : World) : List Entry :=
  ((c.registered ret).zipIdx w.v.varArr.length).map fun x => ⟨x.1, x.2, w'.v.varArr[x.2]?⟩

/-- A call, with the entries of all calls so far. -/
def AddVar.step (s : World × List Entry) (c : AddVar) : Except Err (World × List Entry) := do
  let (ret, w') ← c.run s.1
  return (w', s.2 ++ c.entries ret s.1 w')

/-- The name stands in the map for a variable that a call has added to the `n` of the constructor. -/
def Vars.Added (n : ℤ) (v : Vars) (s : String) : Prop := ∃ q ∈ v.mp.lookup s, (n.toNat : ℤ) ≤ q

/-- The names that a call makes do not stand for added variables yet. For a single variable this is a
condition only if the given name is empty or taken. -/
def AddVar.Clear (n : ℤ) (v : Vars) : AddVar → Prop
  | .single _ aname =>
    aname = "" ∨ (v.mp.lookup aname).isSome → ¬ v.Added n (aname ++ "var_" ++ toString v.varArr.length)
  | .group m _ aname =>
    if aname = "" ∨ (v.mp.lookup aname).isSome then
      ∀ i < m.toNat, ¬ v.Added n (aname ++ "grp" ++ toString v.mp.length ++ "_" ++ toString i)
    else ∀ i < m.toNat, ¬ v.Added n (aname ++ "_" ++ toString i)

instance decidableClear (n : ℤ) (v : Vars) : (c : AddVar) → Decidable (c.Clear n v)
  | .single _ _ => by unfold AddVar.Clear Vars.Added; infer_instance
  | .group _ _ _ => by unfold AddVar.Clear Vars.Added; infer_instance

theorem AddVar.clear_iff {n : ℤ} {v : Vars} {c : AddVar} :
    c.Clear n v ↔ ∀ s ∈ c.registered (c.name v), ¬ v.Added n s := by
  cases c with
  | single t aname =>
    rw [AddVar.registered, List.forall_mem_singleton, AddVar.name, Vars.freshName, AddVar.Clear]
    split_ifs with htaken
    · exact forall_prop_of_true htaken
    · -- a name that is not taken stands for nothing
      refine iff_of_true (fun h => absurd h htaken) ?_
      rintro ⟨q, hq, -⟩
      exact htaken (Or.inr (by rw [hq]; rfl))
  | group m t aname =>
    rw [AddVar.registered, AddVar.name, Vars.groupName, AddVar.Clear]
    split_ifs <;> simp only [memberNames, List.forall_mem_map, List.mem_range]

/-! ## Invariants of the calls -/

/-- What the calls keep: the entries are of variables after those of the constructor, and the names
in the map are theirs, or of the constructor. -/
structure Logged (n : ℤ) (s : World × List Entry) : Prop where
  size : n.toNat ≤ s.1.v.varArr.length
  pos : ∀ e ∈ s.2, n.toNat ≤ e.pos ∧ e.pos < s.1.v.varArr.length
  var : ∀ e ∈ s.2, s.1.v.varArr[e.pos]? = e.var
  names : ∀ x q, s.1.v.mp.lookup x = some q → (∃ e ∈ s.2, e.name = x) ∨ q < n.toNat

theorem logged_construct {n : ℤ} {w w₀ : World} (h : w.construct n = .ok w₀) : Logged n (w₀, []) := by
  have hlen := registerLoop_length h
  rw [List.length_range, List.length_nil, Nat.zero_add] at hlen
  refine ⟨hlen.ge, fun _ he => absurd he List.not_mem_nil, fun _ he => absurd he List.not_mem_nil, ?_⟩
  intro x q hq
  have hlt := registerLoop_index_lt h (fun _ _ h => by cases h) x q hq
  rw [hlen] at hlt
  exact Or.inr hlt

theorem AddVar.step_ok {s s' : World × List Entry} {c : AddVar} (h : AddVar.step s c = .ok s') :
    (c.registered (c.name s.1.v)).foldlM (fun w x => w.register c.isTempl x) s.1 = .ok s'.1 ∧
      s'.2 = s.2 ++ c.entries (c.name s.1.v) s.1 s'.1 := by
  obtain ⟨r, hr, hs⟩ := bind_ok h
  obtain ⟨hname, hloop⟩ := AddVar.run_ok hr
  cases hs
  exact ⟨hloop, by rw [hname]⟩

theorem AddVar.mem_entries {c : AddVar} {ret : String} {w w' : World} {e : Entry} :
    e ∈ c.entries ret w w' ↔
      ∃ i, (c.registered ret)[i]? = some e.name ∧ w.v.varArr.length + i = e.pos ∧ w'.v.varArr[e.pos]? = e.var := by
  obtain ⟨name, pos, var⟩ := e
  simp only [AddVar.entries, List.mem_map, Prod.exists, Entry.mk.injEq, List.mem_zipIdx_iff_le_and_getElem?_sub]
  constructor
  · rintro ⟨_, p, ⟨hle, hget⟩, rfl, rfl, hvar⟩
    exact ⟨_, hget, Nat.add_sub_cancel' hle, hvar⟩
  · rintro ⟨i, hget, rfl, hvar⟩
    exact ⟨name, _, ⟨Nat.le_add_right _ _, by rwa [Nat.add_sub_cancel_left]⟩, rfl, rfl, hvar⟩

/-- Every name that a call registers has an entry. -/
theorem AddVar.exists_entry {c : AddVar} {ret x : String} {i : ℕ} (h : (c.registered ret)[i]? = some x) (w w' : World) :
    ∃ e ∈ c.entries ret w w', e.name = x ∧ e.pos = w.v.varArr.length + i :=
  ⟨⟨x, w.v.varArr.length + i, w'.v.varArr[w.v.varArr.length + i]?⟩, AddVar.mem_entries.2 ⟨i, h, rfl, rfl⟩, rfl, rfl⟩

theorem Logged.step {n : ℤ} {s s' : World × List Entry} {c : AddVar} (hs : Logged n s) (h : AddVar.step s c = .ok s') :
    Logged n s' := by
  obtain ⟨hloop, hlog⟩ := AddVar.step_ok h
  have hlen := registerLoop_length hloop
  have hsize := hs.size
  refine ⟨by omega, ?_, ?_, ?_⟩
  · intro e he
    rw [hlog, List.mem_append] at he
    rcases he with he | he
    · have := hs.pos e he
      omega
    · obtain ⟨i, hi, hpos, -⟩ := AddVar.mem_entries.1 he
      have := (List.getElem?_eq_some_iff.1 hi).1
      omega
  · intro e he
    rw [hlog, List.mem_append] at he
    rcases he with he | he
    · -- the table only grows
      rw [(registerLoop_ok hloop).1, List.getElem?_append_left (hs.pos e he).2]
      exact hs.var e he
    · obtain ⟨i, -, -, hvar⟩ := AddVar.mem_entries.1 he
      exact hvar
  · intro x q hq
    rw [hlog]
    by_cases hx : x ∈ c.registered (c.name s.1.v)
    · obtain ⟨i, hi⟩ := List.mem_iff_getElem?.1 hx
      obtain ⟨e, he, hex, -⟩ := AddVar.exists_entry hi s.1 s'.1
      exact Or.inl ⟨e, List.mem_append_right _ he, hex⟩
    · rw [registerLoop_lookup_of_notMem hx hloop] at hq
      refine (hs.names x q hq).imp_left ?_
      rintro ⟨e, he, hex⟩
      exact ⟨e, List.mem_append_left _ he, hex⟩

/-- If every entry resolves, the names of added variables are those of the entries. -/
theorem Logged.added_iff {n : ℤ} {s : World × List Entry} (hs : Logged n s) (hres : ∀ e ∈ s.2, e.Resolves s.1.v)
    (x : String) : s.1.v.Added n x ↔ ∃ e ∈ s.2, e.name = x := by
  constructor
  · rintro ⟨q, hq, hle⟩
    exact (hs.names x q hq).resolve_right (not_lt.2 hle)
  · rintro ⟨e, he, rfl⟩
    exact ⟨e.pos, (hres e he).1, Int.ofNat_le.2 (hs.pos e he).1⟩

theorem toInt_eq_iff (n : ℕ) : (n : ℤ).bmod 4294967296 = n ↔ n < 2147483648 := by
  refine ⟨fun h => ?_, toInt_of_lt⟩
  have hlt : (n : ℤ).bmod 4294967296 < (4294967296 + 1) / 2 := Int.bmod_lt (by norm_num)
  rw [h] at hlt
  omega

/-- If every entry resolves after a call, those of a name of the call stand at the new end of the table,
at a position that fits in an `int`. -/
theorem AddVar.pos_of_resolves {s s' : World × List Entry} {c : AddVar} (h : AddVar.step s c = .ok s')
    (hres : ∀ e ∈ s'.2, e.Resolves s'.1.v) {i : ℕ} {x : String} (hi : (c.registered (c.name s.1.v))[i]? = some x) :
    s.1.v.varArr.length + i < 2147483648 ∧ ∀ e ∈ s'.2, e.name = x → e.pos = s.1.v.varArr.length + i := by
  obtain ⟨hloop, hlog⟩ := AddVar.step_ok h
  have hbound := registerLoop_lookup (c.nodup_registered _) hloop hi
  have hpos : ∀ e ∈ s'.2, e.name = x → ((s.1.v.varArr.length + i : ℕ) : ℤ).bmod 4294967296 = e.pos := by
    rintro e he rfl
    exact Option.some.inj (hbound.symm.trans (hres e he).1)
  -- the entry of the call itself
  have hfit : s.1.v.varArr.length + i < 2147483648 := by
    obtain ⟨e, he, hex, hep⟩ := AddVar.exists_entry hi s.1 s'.1
    have heq := hpos e (by rw [hlog]; exact List.mem_append_right _ he) hex
    rw [hep] at heq
    exact (toInt_eq_iff _).1 heq
  refine ⟨hfit, fun e he hex => ?_⟩
  have heq := hpos e he hex
  rw [toInt_of_lt hfit] at heq
  exact (Int.ofNat_inj.1 heq).symm

/-- **One call.** After it every name leads to its variable, the new names included, just when the
positions fit in an `int` and no name of an added variable is bound again. -/
theorem Logged.resolves_step_iff {n : ℤ} {s s' : World × List Entry} {c : AddVar} (hs : Logged n s)
    (hres : ∀ e ∈ s.2, e.Resolves s.1.v) (h : AddVar.step s c = .ok s') :
    (∀ e ∈ s'.2, e.Resolves s'.1.v) ↔
      (∀ i < c.count, s.1.v.varArr.length + i < 2147483648) ∧ c.Clear n s.1.v := by
  have hs' := hs.step h
  obtain ⟨hloop, hlog⟩ := AddVar.step_ok h
  rw [AddVar.clear_iff]
  constructor
  · intro hres'
    constructor
    · intro i hi
      rw [← c.length_registered (c.name s.1.v)] at hi
      exact (AddVar.pos_of_resolves h hres' (List.getElem?_eq_getElem hi)).1
    · intro x hx hadd
      -- an older entry of the name is at an older position
      obtain ⟨e, he, hex⟩ := (hs.added_iff hres x).1 hadd
      obtain ⟨i, hi⟩ := List.mem_iff_getElem?.1 hx
      have hnew := (AddVar.pos_of_resolves h hres' hi).2 e (by rw [hlog]; exact List.mem_append_left _ he) hex
      have hold := (hs.pos e he).2
      omega
  · rintro ⟨hfit, hclear⟩ e he
    refine ⟨?_, hs'.var e he⟩
    rw [hlog, List.mem_append] at he
    rcases he with he | he
    · have hnot : e.name ∉ c.registered (c.name s.1.v) := fun hmem =>
        hclear e.name hmem ((hs.added_iff hres e.name).2 ⟨e, he, rfl⟩)
      rw [registerLoop_lookup_of_notMem hnot hloop]
      exact (hres e he).1
    · obtain ⟨i, hi, hpos, -⟩ := AddVar.mem_entries.1 he
      have hlt := (List.getElem?_eq_some_iff.1 hi).1
      rw [c.length_registered] at hlt
      rw [registerLoop_lookup (c.nodup_registered _) hloop hi, hpos, toInt_of_lt (hpos ▸ hfit i hlt)]

/-- **Names stay bound.** On the table of `vars(n)`, for every sequence of `add_var` calls: every name
under which a call registered a variable leads to that variable after every further call, exactly
when at every call the positions of the new variables fit in an `int` and the names that the call
makes do not stand in the map for an added variable. -/
theorem names_resolve_iff {n : ℤ} {w w₀ : World} (h : w.construct n = .ok w₀) (calls : List AddVar) :
    Trace.Always AddVar.step (w₀, []) (fun s => ∀ e ∈ s.2, e.Resolves s.1.v) calls ↔
      Trace.AtCalls AddVar.step (w₀, []) (fun s c =>
        (∀ i < c.count, s.1.v.varArr.length + i < 2147483648) ∧ c.Clear n s.1.v) calls := by
  apply Trace.always_iff_atCalls (logged_construct h)
  · exact fun e he => absurd he List.not_mem_nil
  · exact fun s c s' hs hc => hs.step hc
  · exact fun s c s' hs hres hc => hs.resolves_step_iff hres hc

/-- No symbols, no variables and no constraints. -/
def World.start : World := ⟨0, ⟨[], []⟩, ⟨[], []⟩⟩

/-- Two variables, a group of two and a variable under the name of one of the group. -/
theorem names_resolve_taken :
    ∃ w₀, World.start.construct 2 = .ok w₀ ∧
      Trace.Always AddVar.step (w₀, []) (fun s => ∀ e ∈ s.2, e.Resolves s.1.v)
        [.group 2 false "g", .single true "g_0", .single true ""] :=
  ⟨⟨2, ⟨[.var ⟨0, false⟩ true, .var ⟨1, false⟩ true], [("var_1", 1), ("var_0", 0)]⟩, ⟨[], []⟩⟩, by decide +kernel,
    (@names_resolve_iff 2 World.start _ (by decide +kernel) _).2 (by decide +kernel)⟩

/-- Two groups of one name: the second binds the names of the first again, since the test looks for
the name of the group and not for those of its variables. -/
theorem group_rebinds :
    ∃ w₀, World.start.construct 0 = .ok w₀ ∧
      ¬ Trace.Always AddVar.step (w₀, []) (fun s => ∀ e ∈ s.2, e.Resolves s.1.v)
        [.group 2 false "g", .group 2 false "g"] :=
  ⟨World.start, by decide +kernel, by decide +kernel⟩

end GridSolve.Core
