/-
Systems of independent items. A rule replaces one item by finitely many; a run replaces items one
after the other, in any order. What a single rule does to an item, its successors and their values
then holds of whole runs, and a machine whose steps are runs of such a system inherits it.
-/
import Mathlib.Algebra.BigOperators.Group.Multiset.Basic
import Mathlib.Algebra.Order.BigOperators.Group.Multiset
import Mathlib.Logic.Relation
import Mathlib.Tactic

namespace GridSolve.Rewriting

variable {α : Type*} {R : α → Multiset α → Prop} {M N K : Multiset α} {a : α} {ts : Multiset α}

/-- One item is replaced by what a rule gives for it. -/
inductive Fires (R : α → Multiset α → Prop) : Multiset α → Multiset α → Prop
  | intro {a : α} {ts : Multiset α} (rest : Multiset α) (h : R a ts) : Fires R (a ::ₘ rest) (ts + rest)

/-- A rule fires among other items. -/
theorem Fires.of_eq {rest : Multiset α} (h : R a ts) (hM : M = {a} + rest) (hN : N = ts + rest) : Fires R M N := by
  subst hM hN
  rw [Multiset.singleton_add]
  exact .intro rest h

/-- A count that every rule makes smaller. -/
theorem Fires.sum_lt {V : α → ℕ} (hV : ∀ a ts, R a ts → (ts.map V).sum < V a) (h : Fires R M N) :
    (N.map V).sum < (M.map V).sum := by
  obtain ⟨rest, hr⟩ := h
  rw [Multiset.map_cons, Multiset.sum_cons, Multiset.map_add, Multiset.sum_add]
  exact Nat.add_lt_add_right (hV _ _ hr) _

/-- Any number of replacements. -/
def Runs (R : α → Multiset α → Prop) : Multiset α → Multiset α → Prop := Relation.ReflTransGen (Fires R)

namespace Runs

theorem refl (M : Multiset α) : Runs R M M := Relation.ReflTransGen.refl

theorem trans (h : Runs R M N) (h' : Runs R N K) : Runs R M K := Relation.ReflTransGen.trans h h'

/-- A rule fires among other items. -/
theorem fire {rest : Multiset α} (h : R a ts) (hM : M = {a} + rest) (hN : N = ts + rest) : Runs R M N :=
  .single (.of_eq h hM hN)

/-- The same kind of rule fires once for every item of a list. -/
theorem map {β : Type*} {f g : β → α} (K : Multiset α) : ∀ {l : List β}, (∀ n ∈ l, R (f n) {g n}) →
    Runs R ((l.map f : List α) + K) ((l.map g : List α) + K)
  | [], _ => refl _
  | n :: l, h => by
    have hcons : ∀ k : β → α, (((n :: l).map k : List α) : Multiset α) + K = {k n} + ((l.map k : List α) + K) := by
      intro k
      rw [List.map_cons, ← Multiset.cons_coe, ← Multiset.singleton_add, add_assoc]
    have hrest := map ({g n} + K) fun m hm => h m (List.mem_cons_of_mem n hm)
    rw [add_left_comm, add_left_comm _ {g n}] at hrest
    rw [hcons f, hcons g]
    exact (fire (h n List.mem_cons_self) rfl rfl).trans hrest

/-- A property that every rule passes on to the new items. -/
theorem forall_mem {P : α → Prop} (hP : ∀ a ts, R a ts → P a → ∀ b ∈ ts, P b) (h : Runs R M N)
    (hM : ∀ a ∈ M, P a) : ∀ b ∈ N, P b := by
  induction h with
  | refl => exact hM
  | tail _ hf ih =>
    obtain ⟨rest, hr⟩ := hf
    intro b hb
    rcases Multiset.mem_add.1 hb with hb | hb
    · exact hP _ _ hr (ih _ (Multiset.mem_cons_self _ _)) b hb
    · exact ih b (Multiset.mem_cons_of_mem hb)

/-- A property that some new item always takes over. -/
theorem exists_mem {C : α → Prop} (hC : ∀ a ts, R a ts → C a → ∃ b ∈ ts, C b) (h : Runs R M N)
    (hM : ∃ a ∈ M, C a) : ∃ b ∈ N, C b := by
  induction h with
  | refl => exact hM
  | tail _ hf ih =>
    obtain ⟨rest, hr⟩ := hf
    obtain ⟨a, ha, hCa⟩ := ih
    rcases Multiset.mem_cons.1 ha with rfl | ha
    · obtain ⟨b, hb, hCb⟩ := hC _ _ hr hCa
      exact ⟨b, Multiset.mem_add.2 (.inl hb), hCb⟩
    · exact ⟨a, Multiset.mem_add.2 (.inr ha), hCa⟩

/-- A value that the rules preserve has the same sum at both ends of a run. -/
theorem sum_eq {β : Type*} [AddCommMonoid β] {V : α → β} (hV : ∀ a ts, R a ts → (ts.map V).sum = V a)
    (h : Runs R M N) : (N.map V).sum = (M.map V).sum := by
  induction h with
  | refl => rfl
  | tail _ hf ih =>
    obtain ⟨rest, hr⟩ := hf
    rw [← ih, Multiset.map_add, Multiset.sum_add, hV _ _ hr, Multiset.map_cons, Multiset.sum_cons]

/-- A count that no rule increases. -/
theorem sum_le {V : α → ℕ} (hV : ∀ a ts, R a ts → (ts.map V).sum ≤ V a) (h : Runs R M N) :
    (N.map V).sum ≤ (M.map V).sum := by
  induction h with
  | refl => exact le_refl _
  | tail _ hf ih =>
    obtain ⟨rest, hr⟩ := hf
    rw [Multiset.map_cons, Multiset.sum_cons] at ih
    rw [Multiset.map_add, Multiset.sum_add]
    exact (Nat.add_le_add_right (hV _ _ hr) _).trans ih

end Runs

/-- A machine that is related to the items and whose steps are runs: so are its runs. -/
theorem simulate {σ : Type*} {Step : σ → σ → Prop} {Abs : σ → Multiset α → Prop}
    (hstep : ∀ s s' M, Step s s' → Abs s M → ∃ N, Abs s' N ∧ Runs R M N) {s s' : σ}
    (h : Relation.ReflTransGen Step s s') (hs : Abs s M) : ∃ N, Abs s' N ∧ Runs R M N := by
  induction h with
  | refl => exact ⟨M, hs, .refl M⟩
  | tail _ hst ih =>
    obtain ⟨N, hN, hr⟩ := ih
    obtain ⟨K, hK, hr'⟩ := hstep _ _ N hst hN
    exact ⟨K, hK, hr.trans hr'⟩

end GridSolve.Rewriting
