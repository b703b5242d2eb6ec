/-
Doubly linked chains, read as sequences. `IsChain next parent seq` says that the two link functions
string the cells of `seq` together in its order. Unlinking a cell and appending one are described
by what they do to the links of the cells of the sequence only, so the links of cells that are not
in it, stale ones included, never matter.
-/
import Mathlib.Data.List.Nodup
import Mathlib.Tactic

namespace GridSolve.Chain

variable {P : Type*}

/-- Every cell of `seq` is linked to its neighbours. -/
structure IsChain (next parent : P → Option P) (seq : List P) : Prop where
  nodup : seq.Nodup
  links : ∀ pre a post, seq = pre ++ a :: post → next a = post.head? ∧ parent a = pre.getLast?

theorem isChain_nil (next parent : P → Option P) : IsChain next parent [] :=
  ⟨List.nodup_nil, fun pre a post h => by simp at h⟩

variable {next parent next' parent' : P → Option P} {seq pre post : List P} {n x : P}

/-- Where a cell of two concatenated lists stands. -/
theorem append_eq_cut {u v : List P} {a : P} (h : pre ++ post = u ++ a :: v) :
    (∃ w, pre = u ++ a :: w ∧ v = w ++ post) ∨ ∃ w, post = w ++ a :: v ∧ u = pre ++ w := by
  rcases List.append_eq_append_iff.1 h with ⟨w, rfl, hw⟩ | ⟨w, hw, hv⟩
  · exact .inr ⟨w, hw, rfl⟩
  · cases w with
    | nil => exact .inr ⟨[], by simpa using hv.symm, by simpa using hw.symm⟩
    | cons b w =>
      rw [List.cons_append, List.cons.injEq] at hv
      obtain ⟨rfl, rfl⟩ := hv
      exact .inl ⟨w, hw, rfl⟩

/-- A cell with a successor is not the last one. -/
theorem ne_getLast?_of_nodup {u w : List P} {a b : P} (h : (u ++ a :: b :: w).Nodup) :
    some a ≠ (u ++ a :: b :: w).getLast? := by
  intro he
  have hmem : a ∈ (b :: w).getLast? := by
    rw [Option.mem_def, he, List.getLast?_append, List.getLast?_cons_cons]
    simp [List.getLast?_cons]
  exact (List.nodup_cons.1 (List.nodup_append.1 h).2.1).1 (List.mem_of_mem_getLast? hmem)

variable [DecidableEq P]

/-- Unlinking a cell: its neighbours are linked to each other. -/
theorem IsChain.unlink (h : IsChain next parent (pre ++ n :: post))
    (hnext : ∀ p ∈ pre ++ post, next' p = if some p = pre.getLast? then post.head? else next p)
    (hparent : ∀ p ∈ pre ++ post, parent' p = if some p = post.head? then pre.getLast? else parent p) :
    IsChain next' parent' (pre ++ post) := by
  have hnd := h.nodup
  rw [List.nodup_middle, List.nodup_cons] at hnd
  have hdisj := List.disjoint_of_nodup_append hnd.2
  refine ⟨hnd.2, fun u a v huv => ?_⟩
  have ha : a ∈ pre ++ post := by rw [huv]; simp
  rw [hnext a ha, hparent a ha]
  rcases append_eq_cut huv with ⟨w, rfl, rfl⟩ | ⟨w, rfl, rfl⟩
  · -- a cell before the removed one
    obtain ⟨h1, h2⟩ := h.links u a (w ++ n :: post) (by simp)
    have hpost : some a ≠ post.head? := fun he =>
      hdisj (by simp) (List.mem_of_mem_head? (Option.mem_def.2 he.symm))
    rw [if_neg hpost]
    refine ⟨?_, h2⟩
    cases w with
    | nil => rw [if_pos (by simp)]; rfl
    | cons b w =>
      rw [if_neg (ne_getLast?_of_nodup (List.nodup_append.1 hnd.2).1), h1]; rfl
  · -- a cell after it
    obtain ⟨h1, h2⟩ := h.links (pre ++ n :: w) a v (by simp)
    have hpre : some a ≠ pre.getLast? := fun he =>
      hdisj (List.mem_of_mem_getLast? (Option.mem_def.2 he.symm)) (by simp)
    rw [if_neg hpre]
    refine ⟨h1, ?_⟩
    cases w with
    | nil => rw [if_pos (by simp)]; simp
    | cons b w =>
      have hhead : some a ≠ ((b :: w) ++ a :: v).head? := fun he => by
        rw [List.cons_append, List.head?_cons, Option.some.injEq] at he
        have := (List.nodup_append.1 hnd.2).2.1
        rw [List.cons_append, List.nodup_cons] at this
        exact this.1 (by simp [← he])
      rw [if_neg hhead, h2, List.getLast?_append, List.getLast?_append]
      simp [List.getLast?_cons]

/-- Appending a cell that is not in the chain. -/
theorem IsChain.concat (h : IsChain next parent seq) (hx : x ∉ seq)
    (hnext : ∀ p ∈ seq, next' p = if some p = seq.getLast? then some x else next p)
    (hparent : ∀ p ∈ seq, parent' p = parent p) (hxn : next' x = none) (hxp : parent' x = seq.getLast?) :
    IsChain next' parent' (seq ++ [x]) := by
  refine ⟨?_, fun u a v huv => ?_⟩
  · rw [List.nodup_append]
    exact ⟨h.nodup, List.nodup_singleton x, fun p hp q hq => by
      rw [List.mem_singleton.1 hq]; rintro rfl; exact hx hp⟩
  · rcases append_eq_cut huv with ⟨w, rfl, rfl⟩ | ⟨w, hw, rfl⟩
    · obtain ⟨h1, h2⟩ := h.links u a w rfl
      have ha : a ∈ u ++ a :: w := by simp
      rw [hnext a ha, hparent a ha]
      refine ⟨?_, h2⟩
      cases w with
      | nil => rw [if_pos (by simp)]; rfl
      | cons b w =>
        rw [if_neg (ne_getLast?_of_nodup h.nodup), h1]; rfl
    · cases w with
      | nil =>
        simp only [List.nil_append, List.cons.injEq] at hw
        obtain ⟨rfl, rfl⟩ := hw
        exact ⟨hxn, by rw [hxp, List.append_nil]⟩
      | cons b w => simp at hw

end GridSolve.Chain
