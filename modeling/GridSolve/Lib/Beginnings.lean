/-
Finite sets of lists, counted by how the lists begin. A longer beginning has fewer lists, and the
largest count over the beginnings of one length is also reached one step further on exactly when
some largest class goes on in a single way.
-/
import Mathlib.Data.Set.Card
import Mathlib.Order.Bounds.Basic
import Mathlib.Tactic

namespace GridSolve.Beginnings

variable {α : Type*} {P : Set (List α)} {s : List α} {k M : ℕ}

/-- The lists of `P` that begin with `t`. -/
def starting (P : Set (List α)) (t : List α) : Set (List α) := {z | z ∈ P ∧ t <+: z}

/-- The numbers of lists that begin alike in the first `k` places. -/
noncomputable def counts (P : Set (List α)) (k : ℕ) : Set ℕ := {c | ∃ t, t.length = k ∧ c = (starting P t).ncard}

theorem starting_subset (P : Set (List α)) (t : List α) : starting P t ⊆ P := fun _ hz => hz.1

theorem starting_nil (P : Set (List α)) : starting P [] = P :=
  Set.Subset.antisymm (starting_subset P []) fun _ hz => ⟨hz, List.nil_prefix⟩

theorem starting_concat_subset (P : Set (List α)) (t : List α) (x : α) : starting P (t ++ [x]) ⊆ starting P t :=
  fun _ hz => ⟨hz.1, (List.prefix_append t [x]).trans hz.2⟩

theorem ncard_concat_le (hP : P.Finite) (t : List α) (x : α) : (starting P (t ++ [x])).ncard ≤ (starting P t).ncard :=
  Set.ncard_le_ncard (starting_concat_subset P t x) (hP.subset (starting_subset P t))

theorem exists_concat (hs : s.length = k + 1) : ∃ t x, t.length = k ∧ s = t ++ [x] := by
  rcases List.eq_nil_or_concat s with rfl | ⟨t, x, rfl⟩
  · cases hs
  · exact ⟨t, x, by simpa using hs, List.concat_eq_append⟩

/-- The largest class of `k` places stays whole for some class exactly if it is a largest one of `k + 1` places. -/
theorem isGreatest_succ_iff (hP : P.Finite) (hM : IsGreatest (counts P k) M) :
    IsGreatest (counts P (k + 1)) M ↔ ∃ t x, t.length = k ∧
      (∀ t', t'.length = k → (starting P t').ncard ≤ (starting P t).ncard) ∧ ∀ z ∈ P, t <+: z → t ++ [x] <+: z := by
  have hle : ∀ t, t.length = k → (starting P t).ncard ≤ M := fun t ht => hM.2 ⟨t, ht, rfl⟩
  constructor
  · rintro ⟨⟨s, hs, hMs⟩, -⟩
    obtain ⟨t, x, ht, rfl⟩ := exists_concat hs
    have hsame : (starting P t).ncard = (starting P (t ++ [x])).ncard :=
      le_antisymm (hMs ▸ hle t ht) (ncard_concat_le hP t x)
    have heq := Set.eq_of_subset_of_ncard_le (starting_concat_subset P t x) hsame.le (hP.subset (starting_subset P t))
    refine ⟨t, x, ht, fun t' ht' => (hle t' ht').trans (hMs.le.trans hsame.ge), fun z hz htz => ?_⟩
    have hmem : z ∈ starting P (t ++ [x]) := heq ▸ ⟨hz, htz⟩
    exact hmem.2
  · rintro ⟨t, x, ht, hmax, hgo⟩
    have hsame : starting P (t ++ [x]) = starting P t :=
      Set.Subset.antisymm (starting_concat_subset P t x) fun z hz => ⟨hz.1, hgo z hz.1 hz.2⟩
    have hMt : M = (starting P t).ncard := by
      obtain ⟨t', ht', rfl⟩ := hM.1
      exact le_antisymm (hmax t' ht') (hle t ht)
    refine ⟨⟨t ++ [x], by simp [ht], by rw [hsame, hMt]⟩, ?_⟩
    rintro c ⟨s, hs, rfl⟩
    obtain ⟨u, y, hu, rfl⟩ := exists_concat hs
    exact (ncard_concat_le hP u y).trans (hle u hu)

end GridSolve.Beginnings
