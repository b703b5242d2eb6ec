/-
Symbols and the life of the tables that hold them (`symbol.hpp`, `symbol.cpp`, `vars.hpp`). Ids come
from one counter for all tables. Making a symbol increments it and deleting one decrements it, so
the counter is the number of live symbols, and an id that is still in use is given out again when a
table goes before a later one. Exactly the calls that start below the id of a live symbol and reach
it do so.
-/
import GridSolve.Core.Variables

namespace GridSolve.Core

open GridSolve.Poly
open GridSolve.Trace (bind_ok)

/-- The keys of the variables of a table, the symbols that `~vars` deletes. -/
def Vars.keys (v : Vars) : List Symbol :=
  v.varArr.filterMap fun
    | .const _ _ => none
    | .node _ k _ => some k

/-- `NUM_SYMBOLS` and the tables in the order of their construction; a destroyed one is `none`. -/
structure Store where
  numSymbols : ℕ
  objs : List (Option Vars)
  deriving DecidableEq

namespace Store

def empty : Store := ⟨0, []⟩

/-- The live symbols, table by table. -/
def live (st : Store) : List Symbol := st.objs.flatMap fun o => (o.map Vars.keys).getD []

/-- The state in which the code of the table `v` runs. -/
def world (st : Store) (v : Vars) : World := ⟨st.numSymbols, v, ⟨[], []⟩⟩

/-- `~symbol`: `NUM_SYMBOLS -= 1`, on `uint32_t`. -/
def deleteSymbol (n : ℕ) : ℕ := (n + 4294967295) % 4294967296

/-- Construction and destruction of a table, and the calls on one. -/
inductive Op where
  | construct (n : ℤ)
  | add (o : ℕ) (c : AddVar)
  | destroy (o : ℕ)

/-- How many symbols an operation makes. -/
def Op.makes : Op → ℕ
  | .construct n => n.toNat
  | .add _ c => c.count
  | .destroy _ => 0

/-- One operation. A call on a table that is not alive is no operation of a program. -/
def step (st : Store) : Op → Except Err Store
  | .construct n => do
    let w ← (st.world ⟨[], []⟩).construct n
    return ⟨w.numSymbols, st.objs ++ [some w.v]⟩
  | .add o c =>
    match st.objs[o]? with
    | some (some v) => do
      let (_, w) ← c.run (st.world v)
      return ⟨w.numSymbols, st.objs.set o (some w.v)⟩
    | _ => .error .outOfRange
  | .destroy o =>
    match st.objs[o]? with
    | some (some v) => .ok ⟨v.keys.foldl (fun n _ => deleteSymbol n) st.numSymbols, st.objs.set o none⟩
    | _ => .error .outOfRange

/-! ## Live symbols -/

/-- A table among the others. -/
theorem exists_split {objs : List (Option Vars)} {o : ℕ} {x : Option Vars} (h : objs[o]? = some x) :
    ∃ l r, objs = l ++ x :: r ∧ ∀ y, objs.set o y = l ++ y :: r := by
  obtain ⟨ho, rfl⟩ := List.getElem?_eq_some_iff.1 h
  refine ⟨objs.take o, objs.drop (o + 1), ?_, fun y => List.set_eq_take_append_cons_drop.trans (if_pos ho)⟩
  rw [List.cons_getElem_drop_succ, List.take_append_drop]

theorem live_split (n : ℕ) (l : List (Option Vars)) (x : Option Vars) (r : List (Option Vars)) :
    (live ⟨n, l ++ x :: r⟩).Perm ((x.map Vars.keys).getD [] ++ live ⟨n, l ++ r⟩) := by
  unfold live
  rw [List.flatMap_append, List.flatMap_cons, List.flatMap_append, ← List.append_assoc, ← List.append_assoc]
  exact List.perm_append_comm.append_right _

theorem keys_append_vars (a : List Multinomial) (mp mp' : List (String × ℤ)) (t : Bool) (is : List ℕ) :
    Vars.keys ⟨a ++ is.map (fun i => .var ⟨i, t⟩ true), mp⟩ = Vars.keys ⟨a, mp'⟩ ++ is.map fun i => ⟨i, t⟩ := by
  unfold Vars.keys
  rw [List.filterMap_append, List.filterMap_map]
  exact congrArg _ (congrFun List.filterMap_eq_map' is)

/-- What an operation does to the live symbols: it makes some with the next ids, or deletes some. -/
inductive Effect (st : Store) (m : ℕ) (st' : Store) : Prop
  | makes (t : Bool) (live : st'.live.Perm (st.live ++ (List.range' st.numSymbols m).map fun i => ⟨i, t⟩))
      (count : st'.numSymbols = st.numSymbols + m) (limit : st.numSymbols ≤ symLimit → st'.numSymbols ≤ symLimit)
  | deletes (ks : List Symbol) (none : m = 0) (live : st.live.Perm (ks ++ st'.live))
      (count : st'.numSymbols = ks.foldl (fun n _ => deleteSymbol n) st.numSymbols)

theorem effect_construct {st st' : Store} {n : ℤ} (h : st.step (.construct n) = .ok st') : Effect st n.toNat st' := by
  obtain ⟨w, hw, hst⟩ := bind_ok h
  cases hst
  obtain ⟨harr, hnum, hlim⟩ := registerLoop_ok hw
  rw [List.length_range] at harr hnum
  refine .makes false ?_ hnum hlim
  have hkeys : w.v.keys = (List.range' st.numSymbols n.toNat).map fun i => ⟨i, false⟩ := by
    change Vars.keys ⟨w.v.varArr, w.v.mp⟩ = _
    rw [harr]
    exact keys_append_vars [] _ [] false _
  unfold live
  rw [List.flatMap_append, List.flatMap_singleton, ← hkeys]
  rfl

theorem effect_add {st st' : Store} {o : ℕ} {c : AddVar} (h : st.step (.add o c) = .ok st') :
    Effect st c.count st' := by
  rw [step] at h
  split at h
  · next v ho =>
    obtain ⟨r, hr, hst⟩ := bind_ok h
    cases hst
    obtain ⟨-, hloop⟩ := AddVar.run_ok hr
    obtain ⟨harr, hnum, hlim⟩ := registerLoop_ok hloop
    rw [c.length_registered] at harr hnum
    refine .makes c.isTempl ?_ hnum hlim
    have hkeys : r.2.v.keys = v.keys ++ (List.range' st.numSymbols c.count).map fun i => ⟨i, c.isTempl⟩ := by
      change Vars.keys ⟨r.2.v.varArr, r.2.v.mp⟩ = _
      rw [harr]
      exact keys_append_vars _ _ _ _ _
    -- the new symbols stand at the end of their table, not of the list
    obtain ⟨l, t, hobjs, hset⟩ := exists_split ho
    have hold : st.live.Perm (v.keys ++ live ⟨st.numSymbols, l ++ t⟩) := by
      have := live_split st.numSymbols l (some v) t
      rwa [← hobjs] at this
    rw [hset]
    refine (live_split _ l _ t).trans ?_
    simp only [Option.map_some, Option.getD_some, hkeys, List.append_assoc]
    refine (List.Perm.append_left _ List.perm_append_comm).trans ?_
    rw [← List.append_assoc]
    exact hold.symm.append_right _
  · cases h

theorem effect_destroy {st st' : Store} {o : ℕ} (h : st.step (.destroy o) = .ok st') : Effect st 0 st' := by
  rw [step] at h
  split at h
  · next v ho =>
    cases h
    obtain ⟨l, t, hobjs, hset⟩ := exists_split ho
    refine .deletes v.keys rfl ?_ rfl
    have hold := live_split st.numSymbols l (some v) t
    rw [← hobjs] at hold
    refine hold.trans (List.Perm.append_left _ ?_)
    rw [hset]
    exact (live_split _ l none t).symm
  · cases h

theorem step_effect {st st' : Store} : ∀ {op : Op}, st.step op = .ok st' → Effect st op.makes st'
  | .construct _, h => effect_construct h
  | .add _ _, h => effect_add h
  | .destroy _, h => effect_destroy h

/-! ## The counter -/

/-- The counter is the number of live symbols. -/
structure Counted (st : Store) : Prop where
  count : st.numSymbols = st.live.length
  limit : st.numSymbols ≤ symLimit

theorem foldl_deleteSymbol : ∀ (ks : List Symbol) {n : ℕ}, ks.length ≤ n → n ≤ symLimit →
    ks.foldl (fun n _ => deleteSymbol n) n = n - ks.length
  | [], n, _, _ => rfl
  | k :: ks, n, hle, hlim => by
    rw [List.length_cons] at hle ⊢
    have hone : deleteSymbol n = n - 1 := by
      unfold deleteSymbol
      unfold symLimit at hlim
      omega
    rw [List.foldl_cons, hone, foldl_deleteSymbol ks (by omega) (by omega)]
    omega

theorem Counted.step {st st' : Store} {op : Op} (hst : st.Counted) (h : st.step op = .ok st') : st'.Counted := by
  cases step_effect h with
  | makes t hlive hcount hlimit =>
    refine ⟨?_, hlimit hst.limit⟩
    rw [hcount, hlive.length_eq, List.length_append, List.length_map, List.length_range', hst.count]
  | deletes ks _ hlive hcount =>
    have hlen := hlive.length_eq
    rw [List.length_append] at hlen
    have hnum := hst.count
    rw [foldl_deleteSymbol ks (by omega) hst.limit] at hcount
    have hlim := hst.limit
    exact ⟨by omega, by omega⟩

/-! ## Distinct ids -/

/-- The ids from `n` on are new for a list of distinct ones if none of the list is among them. -/
theorem nodup_append_range'_iff {ids : List ℕ} (hids : ids.Nodup) (n m : ℕ) :
    (ids ++ List.range' n m).Nodup ↔ ∀ i ∈ ids, ¬ (n ≤ i ∧ i < n + m) := by
  rw [List.nodup_append', List.disjoint_left]
  have hrange : (List.range' n m).Nodup := List.nodup_range'
  simp only [hids, hrange, true_and, List.mem_range'_1]

/-- **One operation.** It keeps the ids distinct just when it does not reach the id of a live symbol,
counting from the number of live symbols. -/
theorem Counted.distinct_step_iff {st st' : Store} {op : Op} (hst : st.Counted) (hids : (st.live.map Symbol.id).Nodup)
    (h : st.step op = .ok st') :
    (st'.live.map Symbol.id).Nodup ↔ ∀ k ∈ st.live, ¬ (st.live.length ≤ k.id ∧ k.id < st.live.length + op.makes) := by
  cases step_effect h with
  | makes t hlive _ _ =>
    have hperm := hlive.map Symbol.id
    rw [List.map_append, List.map_map] at hperm
    rw [hperm.nodup_iff, ← hst.count]
    change (_ ++ (List.range' st.numSymbols op.makes).map id).Nodup ↔ _
    rw [List.map_id, nodup_append_range'_iff hids, List.forall_mem_map]
  | deletes ks hnone hlive _ =>
    have hperm := hlive.map Symbol.id
    rw [List.map_append] at hperm
    refine iff_of_true (List.nodup_append.1 (hperm.nodup_iff.1 hids)).2.1 fun k _ hk => ?_
    rw [hnone] at hk
    omega

/-- **Distinct ids.** For every sequence of constructions, `add_var` calls and destructions, with any
number of tables: no two live symbols ever have the same id exactly when no operation of the
sequence makes so many symbols that the ids, counted from the number of live symbols, reach the id
of a live one. -/
theorem ids_distinct_iff (ops : List Op) :
    Trace.Always step empty (fun st => (st.live.map Symbol.id).Nodup) ops ↔
      Trace.AtCalls step empty (fun st op =>
        ∀ k ∈ st.live, ¬ (st.live.length ≤ k.id ∧ k.id < st.live.length + op.makes)) ops := by
  apply Trace.always_iff_atCalls (I := Counted)
  · exact ⟨rfl, Nat.zero_le _⟩
  · exact List.nodup_nil
  · exact fun st op st' hst h => hst.step h
  · exact fun st op st' hst hids h => hst.distinct_step_iff hids h

/-- Two tables of one variable each. When the first is destroyed the counter goes back to the id of
the second one's variable, and the next variable gets that id again. -/
theorem destroyed_first_shares_id :
    ¬ Trace.Always step empty (fun st => (st.live.map Symbol.id).Nodup)
      [.construct 1, .construct 1, .destroy 0, .add 1 (.single false "")] := by
  decide +kernel

end Store

end GridSolve.Core
