/-
Programs that allocate, read, write and free cells. An address that has been freed is not given out
again, and using it is a fault, as is freeing it twice. What a program may touch is a multiset of
cells that it owns and one of cells that it shares and only reads; a triple says that with enough fuel
the program returns without a fault, leaves the shared cells and all others alone, and what it owns
then. Cells that are owned may be forgotten.
-/
import Mathlib.Tactic

namespace GridSolve.Heap

abbrev Addr := ℕ

/-- A memory: its cells, and the next address to give out. -/
structure Memory (C : Type) where
  cells : Addr → Option C
  next : Addr
  fresh : ∀ a, next ≤ a → cells a = none

/-- Programs, without a result in case of a fault. -/
abbrev Prog (C α : Type) := StateT (Memory C) Option α

section Prog

variable {C α : Type}

def Memory.empty : Memory C := ⟨fun _ => none, 0, fun _ _ => rfl⟩

def Memory.set (h : Memory C) (a : Addr) (c : Option C) : Memory C where
  cells := Function.update h.cells a c
  next := max h.next (a + 1)
  fresh b hb := by
    rw [Function.update_of_ne (Nat.lt_of_succ_le ((le_max_right ..).trans hb)).ne']
    exact h.fresh b ((le_max_left ..).trans hb)

theorem Memory.set_of_ne {a b : Addr} (h : Memory C) (c : Option C) (hne : b ≠ a) : (h.set a c).cells b = h.cells b :=
  Function.update_of_ne hne ..

theorem Memory.set_self (h : Memory C) (a : Addr) (c : Option C) : (h.set a c).cells a = c := Function.update_self ..

def fault : Prog C α := fun _ => none

def alloc (c : C) : Prog C Addr := fun h => some (h.next, h.set h.next (some c))

def load (a : Addr) : Prog C C := fun h => (h.cells a).map fun c => (c, h)

def store (a : Addr) (c : C) : Prog C Unit := fun h => if (h.cells a).isSome then some ((), h.set a (some c)) else none

def free (a : Addr) : Prog C Unit := fun h => if (h.cells a).isSome then some ((), h.set a none) else none

end Prog

/-! ## Owned cells -/

/-- Cells with their addresses. -/
abbrev Cells (C : Type) := Multiset (Addr × C)

variable {C α β : Type} {h : Memory C} {S T l l' F G : Cells C} {a : Addr} {c c' : C}

/-- The cells are in the memory, each under its own address. -/
def Own (h : Memory C) (l : Cells C) : Prop := (l.map Prod.fst).Nodup ∧ ∀ x ∈ l, h.cells x.1 = some x.2

theorem Own.mono (hl : Own h l) (hle : l' ≤ l) : Own h l' :=
  ⟨Multiset.nodup_of_le (Multiset.map_le_map hle) hl.1, fun x hx => hl.2 x (Multiset.mem_of_le hle hx)⟩

theorem Own.isSome (hl : Own h l) (hm : (a, c) ∈ l) : (h.cells a).isSome := by
  rw [hl.2 _ hm]
  rfl

/-- Other cells do not have the address of an owned one. -/
theorem Own.ne (hl : Own h ({(a, c)} + l)) {x : Addr × C} (hx : x ∈ l) : x.1 ≠ a := by
  have hnodup := hl.1
  rw [Multiset.map_add, Multiset.map_singleton, Multiset.singleton_add, Multiset.nodup_cons] at hnodup
  exact fun he => hnodup.1 (Multiset.mem_map.2 ⟨x, hx, he⟩)

theorem Own.load (hl : Own h l) (hm : (a, c) ∈ l) : load a h = some (c, h) := by
  rw [Heap.load, hl.2 _ hm]
  rfl

theorem Own.set (hl : Own h ({(a, c)} + l)) (c' : Option C) : Own (h.set a c') l := by
  refine ⟨(hl.mono (Multiset.le_add_left ..)).1, fun x hx => ?_⟩
  rw [Memory.set_of_ne h c' (hl.ne hx)]
  exact hl.2 x (Multiset.mem_add.2 (.inr hx))

theorem Own.store (hl : Own h ({(a, c)} + l)) (c' : C) :
    ∃ h', Heap.store a c' h = some ((), h') ∧ Own h' ({(a, c')} + l) := by
  refine ⟨_, if_pos (hl.isSome (Multiset.mem_add.2 (.inl (Multiset.mem_singleton_self _)))), ?_, fun x hx => ?_⟩
  · have hnodup := hl.1
    rwa [Multiset.map_add, Multiset.map_singleton] at hnodup ⊢
  · rcases Multiset.mem_add.1 hx with hx | hx
    · rw [Multiset.mem_singleton.1 hx]
      exact Memory.set_self ..
    · exact (hl.set (some c')).2 x hx

theorem Own.free (hl : Own h ({(a, c)} + l)) : ∃ h', Heap.free a h = some ((), h') ∧ Own h' l :=
  ⟨_, if_pos (hl.isSome (Multiset.mem_add.2 (.inl (Multiset.mem_singleton_self _)))), hl.set none⟩

theorem Own.alloc (hl : Own h l) (c : C) : ∃ a h', Heap.alloc c h = some (a, h') ∧ Own h' ({(a, c)} + l) := by
  -- an owned address is below the next one
  have hne : ∀ x ∈ l, x.1 ≠ h.next := fun x hx he => by
    have hcell := hl.2 x hx
    rw [h.fresh x.1 he.ge] at hcell
    cases hcell
  refine ⟨h.next, _, rfl, ?_, fun x hx => ?_⟩
  · rw [Multiset.map_add, Multiset.map_singleton, Multiset.singleton_add, Multiset.nodup_cons]
    refine ⟨fun hmem => ?_, hl.1⟩
    obtain ⟨x, hx, he⟩ := Multiset.mem_map.1 hmem
    exact hne x hx he
  · rcases Multiset.mem_add.1 hx with hx | hx
    · rw [Multiset.mem_singleton.1 hx]
      exact Memory.set_self ..
    · rw [Memory.set_of_ne h _ (hne x hx)]
      exact hl.2 x hx

/-! ## Triples -/

/-- With enough fuel, from cells `l` of its own and the shared cells `S`, the program returns some `r` and leaves cells
`l'` with `Q r l'`; the shared cells and any others are as before. -/
def Triple (S l : Cells C) (x : ℕ → Prog C α) (Q : α → Cells C → Prop) : Prop :=
  ∀ h F, Own h (l + S + F) → ∃ r h' l' N, (∀ n ≥ N, x n h = some (r, h')) ∧ Own h' (l' + S + F) ∧ Q r l'

variable {x : ℕ → Prog C α} {f : ℕ → α → Prog C β} {Q : α → Cells C → Prop} {R : β → Cells C → Prop}

theorem triple_pure {r : α} (hQ : Q r l) : Triple S l (fun _ => pure r) Q :=
  fun h _ hown => ⟨r, h, l, 0, fun _ _ => rfl, hown, hQ⟩

theorem Triple.bind (hx : Triple S l x Q) (hf : ∀ r l', Q r l' → Triple S l' (fun n => f n r) R) :
    Triple S l (fun n => x n >>= f n) R := by
  intro h F hown
  obtain ⟨r, h₁, l₁, N₁, hrun₁, hown₁, hQ⟩ := hx h F hown
  obtain ⟨r', h₂, l₂, N₂, hrun₂, hown₂, hR⟩ := hf r l₁ hQ h₁ F hown₁
  refine ⟨r', h₂, l₂, max N₁ N₂, fun n hn => ?_, hown₂, hR⟩
  have hrun : (x n h).bind (fun p => f n p.1 p.2) = some (r', h₂) := by
    rw [hrun₁ n (le_of_max_le_left hn), Option.bind_some]
    exact hrun₂ n (le_of_max_le_right hn)
  exact hrun

/-- What the program does not need is left as it is. -/
theorem Triple.frame (hx : Triple S l x Q) (G : Cells C) :
    Triple S (l + G) x fun r l' => ∃ l'', l' = l'' + G ∧ Q r l'' := by
  intro h F hown
  have hperm : ∀ k : Cells C, k + G + S + F = k + S + (G + F) := fun k => by abel
  rw [hperm] at hown
  obtain ⟨r, h', l', N, hrun, hown', hQ⟩ := hx h (G + F) hown
  refine ⟨r, h', l' + G, N, hrun, ?_, l', rfl, hQ⟩
  rwa [hperm]

theorem Triple.mono {Q' : α → Cells C → Prop} (hx : Triple S l x Q) (hQ : ∀ r l', Q r l' → Q' r l') :
    Triple S l x Q' := by
  intro h F hown
  obtain ⟨r, h', l', N, hrun, hown', hpost⟩ := hx h F hown
  exact ⟨r, h', l', N, hrun, hown', hQ r l' hpost⟩

/-- A call in the middle of a program. -/
theorem Triple.call (hx : Triple S l x Q) (hf : ∀ r l', Q r l' → Triple S (l' + G) (fun n => f n r) R) :
    Triple S (l + G) (fun n => x n >>= f n) R := by
  refine (hx.frame G).bind ?_
  rintro r _ ⟨l', rfl, hQ⟩
  exact hf r l' hQ

/-- A call that uses up the cells it is given. -/
theorem Triple.consume (hx : Triple S l x fun _ l' => l' = 0) (hf : ∀ r, Triple S G (fun n => f n r) R) :
    Triple S (l + G) (fun n => x n >>= f n) R := by
  refine hx.call ?_
  rintro r _ rfl
  rw [zero_add]
  exact hf r

theorem triple_of_eq (l' : Cells C) (he : l = l') (hx : Triple S l' x Q) : Triple S l x Q := he ▸ hx

/-- Owned cells may be forgotten before a program runs. -/
theorem Triple.forget (hx : Triple S l x Q) (G : Cells C) : Triple S (l + G) x Q := by
  intro h F hown
  have hle : l + S + F ≤ l + G + S + F := by
    rw [show l + G + S + F = l + S + F + G by abel]
    exact Multiset.le_add_right ..
  exact hx h F (hown.mono hle)

/-- Owned cells may be forgotten at its end. -/
theorem Triple.post_forget (hx : Triple S l x fun r l' => ∃ G l'', l' = l'' + G ∧ Q r l'') : Triple S l x Q := by
  intro h F hown
  obtain ⟨r, h', _, N, hrun, hown', G, l'', rfl, hpost⟩ := hx h F hown
  refine ⟨r, h', l'', N, hrun, hown'.mono ?_, hpost⟩
  rw [show l'' + G + S + F = l'' + S + F + G by abel]
  exact Multiset.le_add_right ..

/-- Owned cells may be shared while a program runs. -/
theorem Triple.share (hx : Triple (S + T) l x Q) : Triple S (l + T) x fun r l' => ∃ l'', l' = l'' + T ∧ Q r l'' := by
  intro h F hown
  have hperm : ∀ k : Cells C, k + T + S + F = k + (S + T) + F := fun k => by abel
  rw [hperm] at hown
  obtain ⟨r, h', l', N, hrun, hown', hQ⟩ := hx h F hown
  refine ⟨r, h', l' + T, N, hrun, ?_, l', rfl, hQ⟩
  rwa [hperm]

/-- One unit of fuel for the call itself. -/
theorem triple_succ (hx : Triple S l (fun n => x (n + 1)) Q) : Triple S l x Q := by
  intro h F hown
  obtain ⟨r, h', l', N, hrun, hown', hQ⟩ := hx h F hown
  refine ⟨r, h', l', N + 1, fun n hn => ?_, hown', hQ⟩
  obtain ⟨n, rfl⟩ := Nat.exists_eq_add_of_le' (Nat.one_le_of_lt hn)
  exact hrun n (Nat.le_of_succ_le_succ hn)

theorem triple_load {f : ℕ → C → Prog C β} (hm : (a, c) ∈ l + S) (hf : Triple S l (fun n => f n c) R) :
    Triple S l (fun n => load a >>= f n) R := by
  intro h F hown
  obtain ⟨r, h', l', N, hrun, hpost⟩ := hf h F hown
  refine ⟨r, h', l', N, fun n hn => ?_, hpost⟩
  have hload := hown.load (Multiset.mem_add.2 (.inl hm))
  have hbind : (load a h).bind (fun p => f n p.1 p.2) = some (r, h') := by
    rw [hload, Option.bind_some]
    exact hrun n hn
  exact hbind

theorem triple_store {f : ℕ → Unit → Prog C β} (hf : Triple S ({(a, c')} + l) (fun n => f n ()) R) :
    Triple S ({(a, c)} + l) (fun n => store a c' >>= f n) R := by
  refine Triple.bind (Q := fun _ l' => l' = {(a, c')} + l) (fun h F hown => ?_) fun _ _ he => he ▸ hf
  rw [add_assoc, add_assoc] at hown
  obtain ⟨h', hrun, hown'⟩ := hown.store c'
  refine ⟨(), h', _, 0, fun _ _ => hrun, ?_, rfl⟩
  rwa [add_assoc, add_assoc]

theorem triple_free {f : ℕ → Unit → Prog C β} (hf : Triple S l (fun n => f n ()) R) :
    Triple S ({(a, c)} + l) (fun n => free a >>= f n) R := by
  refine Triple.bind (Q := fun _ l' => l' = l) (fun h F hown => ?_) fun _ _ he => he ▸ hf
  rw [add_assoc, add_assoc] at hown
  obtain ⟨h', hrun, hown'⟩ := hown.free
  refine ⟨(), h', l, 0, fun _ _ => hrun, ?_, rfl⟩
  rwa [add_assoc]

theorem triple_alloc {f : ℕ → Addr → Prog C β} (hf : ∀ a, Triple S ({(a, c)} + l) (fun n => f n a) R) :
    Triple S l (fun n => alloc c >>= f n) R := by
  refine Triple.bind (Q := fun a l' => l' = {(a, c)} + l) (fun h F hown => ?_) fun a _ he => he ▸ hf a
  obtain ⟨a, h', hrun, hown'⟩ := hown.alloc c
  refine ⟨a, h', _, 0, fun _ _ => hrun, ?_, rfl⟩
  rwa [add_assoc, add_assoc, ← add_assoc l]

/-- Two owned or shared cells never have one address. -/
theorem triple_absurd (h₁ : (a, c) ∈ l) (h₂ : (a, c') ∈ l' + S) : Triple S (l + l') x Q := by
  intro h F hown
  obtain ⟨l, rfl⟩ := Multiset.exists_cons_of_mem h₁
  rw [← Multiset.singleton_add, add_assoc, add_assoc, add_assoc] at hown
  exact absurd rfl (hown.ne (x := (a, c')) (Multiset.mem_add.2 (.inr (by
    rw [← add_assoc]
    exact Multiset.mem_add.2 (.inl h₂)))))

end GridSolve.Heap
