/-
Ordered maps as lists of keys with their values, in key order. Setting the value of a key keeps the
order, commutes with a change of the values, and puts a key behind all others at the end.
-/
import Mathlib.Tactic

namespace GridSolve.Keyed

variable {κ β γ : Type*}

/-- `l[k] = v`. -/
def put [LE κ] [DecidableEq κ] [DecidableLE κ] (k : κ) (v : β) (l : List (κ × β)) : List (κ × β) :=
  if (l.lookup k).isSome then l.map fun x => (x.1, if x.1 = k then v else x.2)
  else l.orderedInsert (fun x y => x.1 ≤ y.1) (k, v)

/-- The keys go up. -/
def Sorted [LT κ] (l : List (κ × β)) : Prop := (l.map Prod.fst).Pairwise (· < ·)

/-- New values for the same keys. -/
def mapVal (f : β → γ) (l : List (κ × β)) : List (κ × γ) := l.map fun x => (x.1, f x.2)

variable {k : κ} {v u : β} {l : List (κ × β)}

theorem keys_mapVal (f : β → γ) (l : List (κ × β)) : (mapVal f l).map Prod.fst = l.map Prod.fst := by
  rw [mapVal, List.map_map]
  rfl

/-- A key and its value, if no key comes twice. -/
theorem lookup_of_mem [BEq κ] [LawfulBEq κ] :
    ∀ {l : List (κ × β)}, (l.map Prod.fst).Nodup → (k, v) ∈ l → l.lookup k = some v
  | (e, u) :: l, hn, h => by
    rw [List.map_cons, List.nodup_cons] at hn
    rw [List.lookup_cons]
    rcases List.mem_cons.1 h with h | h
    · obtain ⟨rfl, rfl⟩ := Prod.mk.inj h
      rw [beq_self_eq_true]
    · have hne : k ≠ e := fun he => hn.1 (he ▸ List.mem_map.2 ⟨_, h, rfl⟩)
      rw [beq_false_of_ne hne]
      exact lookup_of_mem hn.2 h

section Lookup

variable [DecidableEq κ]

theorem lookup_mapVal (f : β → γ) (k : κ) : ∀ l : List (κ × β), (mapVal f l).lookup k = (l.lookup k).map f
  | [] => rfl
  | (e, u) :: l => by
    rw [mapVal, List.map_cons, List.lookup_cons, List.lookup_cons]
    cases k == e with
    | true => rfl
    | false => exact lookup_mapVal f k l

theorem lookup_eq_none : l.lookup k = none ↔ k ∉ l.map Prod.fst := by
  rw [List.lookup_eq_none_iff]
  simp only [bne_iff_ne, ne_eq, List.mem_map, not_exists, not_and]
  exact ⟨fun h x hx he => h x hx he.symm, fun h x hx he => h x hx he.symm⟩

/-- The entry that is found, and the others. -/
theorem exists_split (h : l.lookup k = some v) : ∃ l₁ l₂, l = l₁ ++ (k, v) :: l₂ := by
  obtain ⟨l₁, l₂, he, -⟩ := List.lookup_eq_some_iff.1 h
  exact ⟨l₁, l₂, he⟩

theorem map_eq_self (h : k ∉ l.map Prod.fst) (v : β) : (l.map fun x => (x.1, if x.1 = k then v else x.2)) = l := by
  refine (List.map_congr_left fun x hx => ?_).trans (List.map_id l)
  rw [if_neg fun he => h (List.mem_map.2 ⟨x, hx, he⟩)]
  rfl

variable [LE κ] [DecidableLE κ]

theorem put_of_none (h : l.lookup k = none) (v : β) : put k v l = l.orderedInsert (fun x y => x.1 ≤ y.1) (k, v) := by
  rw [put, h]
  rfl

theorem perm_put_of_none (h : l.lookup k = none) (v : β) : (put k v l).Perm ((k, v) :: l) := by
  rw [put_of_none h]
  exact List.perm_orderedInsert ..

/-- The value of a key that is there is replaced. -/
theorem put_split {l₁ l₂ : List (κ × β)} (hn : ((l₁ ++ (k, u) :: l₂).map Prod.fst).Nodup) (v : β) :
    put k v (l₁ ++ (k, u) :: l₂) = l₁ ++ (k, v) :: l₂ := by
  rw [List.map_append, List.map_cons, List.nodup_middle, List.nodup_cons, List.mem_append, not_or] at hn
  have hsome : ((l₁ ++ (k, u) :: l₂).lookup k).isSome := by
    by_contra h
    rw [Option.not_isSome_iff_eq_none, lookup_eq_none] at h
    exact h (List.mem_map.2 ⟨(k, u), List.mem_append.2 (.inr List.mem_cons_self), rfl⟩)
  rw [put, if_pos hsome, List.map_append, List.map_cons, map_eq_self hn.1.1, map_eq_self hn.1.2, if_pos rfl]

theorem mapVal_put (f : β → γ) (k : κ) (v : β) (l : List (κ × β)) :
    mapVal f (put k v l) = put k (f v) (mapVal f l) := by
  unfold put
  rw [lookup_mapVal, Option.isSome_map]
  split_ifs
  · rw [mapVal, mapVal, List.map_map, List.map_map]
    refine List.map_congr_left fun x _ => ?_
    simp only [Function.comp_apply]
    split_ifs <;> rfl
  · exact List.map_orderedInsert _ _ _ _ _ (fun _ _ => Iff.rfl) fun _ _ => Iff.rfl

end Lookup

section Order

variable [LE κ] [LT κ] [Std.LawfulOrderLT κ]

theorem Sorted.nodup (h : Sorted l) : (l.map Prod.fst).Nodup := by
  refine List.Pairwise.imp ?_ h
  rintro a b hab rfl
  exact Std.lt_irrefl hab

/-- A key before all others. -/
theorem put_cons [DecidableEq κ] [DecidableLE κ] (h : ∀ x ∈ l, k < x.1) (v : β) : put k v l = (k, v) :: l := by
  have hnone : l.lookup k = none := lookup_eq_none.2 fun hmem => by
    obtain ⟨x, hx, he⟩ := List.mem_map.1 hmem
    have hlt := h x hx
    rw [he] at hlt
    exact Std.lt_irrefl hlt
  rw [put_of_none hnone]
  cases l with
  | nil => rfl
  | cons x l => rw [List.orderedInsert_cons, if_pos (Std.le_of_lt (h x List.mem_cons_self))]

variable [Std.IsLinearOrder κ] [DecidableLE κ]

theorem orderedInsert_concat : ∀ {l : List (κ × β)}, (∀ x ∈ l, x.1 < k) → ∀ v : β,
    l.orderedInsert (fun x y => x.1 ≤ y.1) (k, v) = l ++ [(k, v)]
  | [], _, _ => rfl
  | x :: l, h, v => by
    rw [List.orderedInsert_cons, if_neg (Std.not_le.2 (h x List.mem_cons_self)),
      orderedInsert_concat (fun y hy => h y (List.mem_cons_of_mem _ hy)) v, List.cons_append]

theorem sorted_orderedInsert : ∀ {l : List (κ × β)}, Sorted l → k ∉ l.map Prod.fst → ∀ v : β,
    Sorted (l.orderedInsert (fun x y => x.1 ≤ y.1) (k, v))
  | [], _, _, _ => List.pairwise_singleton ..
  | x :: l, h, hk, v => by
    rw [List.map_cons, List.mem_cons, not_or] at hk
    obtain ⟨hx, hl⟩ := List.pairwise_cons.1 h
    rw [List.orderedInsert_cons]
    split_ifs with hle
    · have hlt : k < x.1 := Std.lt_of_le_of_ne hle hk.1
      refine List.pairwise_cons.2 ⟨fun y hy => ?_, h⟩
      rcases List.mem_cons.1 hy with rfl | hy
      · exact hlt
      · exact Std.lt_trans hlt (hx y hy)
    · refine List.pairwise_cons.2 ⟨fun y hy => ?_, sorted_orderedInsert hl hk.2 v⟩
      obtain ⟨z, hz, rfl⟩ := List.mem_map.1 hy
      rcases List.mem_cons.1 ((List.perm_orderedInsert _ _ _).mem_iff.1 hz) with rfl | hz
      · exact Std.not_le.1 hle
      · exact hx _ (List.mem_map.2 ⟨z, hz, rfl⟩)

variable [DecidableEq κ]

/-- A key behind all others. -/
theorem put_concat (h : ∀ x ∈ l, x.1 < k) (v : β) : put k v l = l ++ [(k, v)] := by
  have hnone : l.lookup k = none := lookup_eq_none.2 fun hmem => by
    obtain ⟨x, hx, he⟩ := List.mem_map.1 hmem
    have hlt := h x hx
    rw [he] at hlt
    exact Std.lt_irrefl hlt
  rw [put_of_none hnone, orderedInsert_concat h]

/-- Keys that come in order, one after the other. -/
theorem foldl_put {δ : Type*} (f : κ → δ → β) :
    ∀ {l : List (κ × δ)} {acc : List (κ × β)}, Sorted l → (∀ x ∈ acc, ∀ y ∈ l, x.1 < y.1) →
      l.foldl (fun acc x => put x.1 (f x.1 x.2) acc) acc = acc ++ l.map fun x => (x.1, f x.1 x.2)
  | [], acc, _, _ => (List.append_nil acc).symm
  | x :: l, acc, hl, hlt => by
    obtain ⟨hx, hl⟩ := List.pairwise_cons.1 hl
    rw [List.foldl_cons, put_concat (fun y hy => hlt y hy x List.mem_cons_self), foldl_put f hl, List.append_assoc]
    · rfl
    · intro y hy z hz
      rcases List.mem_append.1 hy with hy | hy
      · exact hlt y hy z (List.mem_cons_of_mem _ hz)
      · rw [List.mem_singleton.1 hy]
        exact hx z.1 (List.mem_map_of_mem hz)

theorem sorted_put (h : Sorted l) (k : κ) (v : β) : Sorted (put k v l) := by
  cases hk : l.lookup k with
  | none =>
    rw [put_of_none hk]
    exact sorted_orderedInsert h (lookup_eq_none.1 hk) v
  | some u =>
    obtain ⟨l₁, l₂, rfl⟩ := exists_split hk
    rw [put_split h.nodup]
    unfold Sorted at h ⊢
    rwa [List.map_append, List.map_cons] at h ⊢

end Order

end GridSolve.Keyed
