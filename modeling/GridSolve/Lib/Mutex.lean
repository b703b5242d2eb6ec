/-
A mutex that any thread may unlock, seen from outside: who owns it, which threads are between
acquiring and releasing it, and who unlocked it when. While threads only acquire it when it is free
and release what they acquired, the owner is the one thread inside. The first unlock by a thread
outside is one by a thread that is not the owner.
-/
import Mathlib.Logic.Function.Basic
import Mathlib.Tactic

namespace GridSolve.Mutex

structure View (τ : Type*) where
  owner : Option τ
  /-- The threads between acquiring and releasing the mutex. -/
  inside : τ → Bool
  /-- The unlocks, each with the thread that made it and the owner at that moment, the last one first. -/
  unlocks : List (τ × Option τ)

variable {τ : Type*}

/-- An unlock by a thread outside. -/
def View.stray (t : τ) (v : View τ) : View τ := { v with owner := none, unlocks := (t, v.owner) :: v.unlocks }

/-- Every unlock was made by the owner. -/
def View.Rightful (v : View τ) : Prop := ∀ u ∈ v.unlocks, u.2 = some u.1

/-- The owner is the one thread inside, and every unlock was made by the owner. -/
structure View.Orderly (v : View τ) : Prop where
  owner_iff : ∀ t, v.owner = some t ↔ v.inside t = true
  rightful : v.Rightful

variable {v v' : View τ} {t t' : τ}

theorem View.Orderly.unique (h : v.Orderly) (ht : v.inside t = true) (ht' : v.inside t' = true) : t = t' :=
  Option.some.inj (((h.owner_iff t).2 ht).symm.trans ((h.owner_iff t').2 ht'))

/-- The unlock of a thread outside is not made by the owner. -/
theorem View.Orderly.not_rightful_stray (hv : v.Orderly) (hout : v.inside t = false) : ¬ (v.stray t).Rightful := by
  intro h
  have howner := h _ List.mem_cons_self
  rw [(hv.owner_iff t).1 howner] at hout
  cases hout

theorem View.rightful_of_stray (h : (v.stray t).Rightful) : v.Rightful := fun u hu => h u (List.mem_cons_of_mem _ hu)

variable [DecidableEq τ]

/-- What a step of a thread does to the mutex. -/
inductive Effect (t : τ) : View τ → View τ → Prop
  | keep (v : View τ) : Effect t v v
  | acquire (v : View τ) :
      v.owner = none → Effect t v { v with owner := some t, inside := Function.update v.inside t true }
  | release (v : View τ) : v.inside t = true →
      Effect t v { owner := none, inside := Function.update v.inside t false, unlocks := (t, v.owner) :: v.unlocks }

theorem Effect.orderly (h : Effect t v v') (hv : v.Orderly) : v'.Orderly := by
  cases h with
  | keep => exact hv
  | acquire hfree =>
    refine ⟨fun t' => ?_, hv.rightful⟩
    by_cases ht : t' = t
    · subst ht
      simp
    · have hnot : v.inside t' ≠ true := fun hin => by
        have howner := (hv.owner_iff t').2 hin
        rw [hfree] at howner
        cases howner
      simp [Function.update_of_ne ht, hnot, Ne.symm ht]
  | release hin =>
    have howner := (hv.owner_iff t).2 hin
    refine ⟨fun t' => ?_, List.forall_mem_cons.2 ⟨howner, hv.rightful⟩⟩
    by_cases ht : t' = t
    · subst ht
      simp
    · have hnot : v.inside t' ≠ true := fun hin' => ht (hv.unique hin' hin)
      simp [Function.update_of_ne ht, hnot]

/-- Unlocks are never forgotten. -/
theorem Effect.rightful_of (h : Effect t v v') (hv' : v'.Rightful) : v.Rightful := by
  cases h with
  | keep => exact hv'
  | acquire => exact hv'
  | release => exact fun u hu => hv' u (List.mem_cons_of_mem _ hu)

end GridSolve.Mutex
