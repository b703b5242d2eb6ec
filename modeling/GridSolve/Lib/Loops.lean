/-
Loops over a list that may fail, in `Option`: when every turn succeeds, when one fails, when only one
does anything, and when two of them go on side by side. The maximum that a loop finds.
-/
import Mathlib.Data.List.Nodup
import Mathlib.Tactic

namespace GridSolve.Loops

variable {α β σ : Type*}

theorem mapM_eq_some {f : α → Option β} {g : α → β} : ∀ {is : List α}, (∀ i ∈ is, f i = some (g i)) →
    is.mapM f = some (is.map g)
  | [], _ => rfl
  | i :: is, h => by
    rw [List.mapM_cons, h i List.mem_cons_self, mapM_eq_some fun j hj => h j (List.mem_cons_of_mem i hj)]
    rfl

theorem mapM_eq_none {f : α → Option β} : ∀ {is : List α} {i : α}, i ∈ is → f i = none → is.mapM f = none
  | j :: is, i, hi, hf => by
    rw [List.mapM_cons]
    rcases List.mem_cons.1 hi with rfl | hi
    · rw [hf]
      rfl
    · rw [mapM_eq_none hi hf]
      cases f j <;> rfl

/-- A loop that goes on with `some` all along. -/
theorem foldlM_map_some {γ : Type*} {g : α → Option γ} {h : α → γ} (op : β → γ → β) : ∀ {d : List α},
    (∀ e ∈ d, g e = some (h e)) →
    ∀ b, d.foldlM (fun b e => (g e).map (op b)) b = some (d.foldl (fun b e => op b (h e)) b)
  | [], _, _ => rfl
  | e :: d, hg, b => by
    rw [List.forall_mem_cons] at hg
    rw [List.foldlM_cons, hg.1]
    exact foldlM_map_some op hg.2 _

/-- A loop in which only one index does something. -/
theorem foldlM_only [DecidableEq α] {i : α} {f : σ → α → Option σ} (hf : ∀ s j, j ≠ i → f s j = some s) :
    ∀ {is : List α} {s : σ}, is.Nodup → is.foldlM f s = if i ∈ is then f s i else some s
  | [], _, _ => rfl
  | j :: is, s, hnd => by
    obtain ⟨hj, hnd⟩ := List.nodup_cons.1 hnd
    rw [List.foldlM_cons]
    by_cases hij : j = i
    · rw [hij, if_pos List.mem_cons_self]
      cases hs : f s i with
      | none => rfl
      | some s' => exact (foldlM_only hf hnd).trans (if_neg (hij ▸ hj))
    · rw [hf s j hij]
      simp only [List.mem_cons, Ne.symm hij, false_or]
      exact foldlM_only hf hnd

/-! ## Two computations side by side -/

theorem rel_bind {γ δ : Type*} {R : α → β → Prop} {Q : γ → δ → Prop} {x : Option α} {y : Option β} {f : α → Option γ}
    {g : β → Option δ} (h : Option.Rel R x y) (hfg : ∀ a b, R a b → Option.Rel Q (f a) (g b)) :
    Option.Rel Q (x.bind f) (y.bind g) := by
  cases h with
  | none => exact .none
  | some hab => exact hfg _ _ hab

theorem rel_imp {R Q : α → β → Prop} {x : Option α} {y : Option β} (h : Option.Rel R x y)
    (himp : ∀ a b, R a b → Q a b) : Option.Rel Q x y := by
  cases h with
  | none => exact .none
  | some hab => exact .some (himp _ _ hab)

/-! ## The maximum -/

theorem foldl_max_spec [LinearOrder α] : ∀ (l : List α) (a : α),
    a ≤ l.foldl max a ∧ (∀ x ∈ l, x ≤ l.foldl max a) ∧ (l.foldl max a = a ∨ l.foldl max a ∈ l)
  | [], a => ⟨le_rfl, nofun, .inl rfl⟩
  | x :: l, a => by
    obtain ⟨h1, h2, h3⟩ := foldl_max_spec l (max a x)
    rw [List.foldl_cons]
    refine ⟨(le_max_left a x).trans h1, List.forall_mem_cons.2 ⟨(le_max_right a x).trans h1, h2⟩, ?_⟩
    rcases h3 with h3 | h3
    · rw [h3]
      rcases max_choice a x with h | h
      · exact .inl h
      · rw [h]
        exact .inr List.mem_cons_self
    · exact .inr (List.mem_cons_of_mem x h3)

end GridSolve.Loops
