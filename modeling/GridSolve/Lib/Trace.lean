/-
Loops and sequences of calls that may fail. A loop that fails does so in one of its turns, and one
that returns has returned from all of them. A property of all states that a sequence passes through
is decided call by call: if at every call that returns it holds afterwards just when a condition on
the state before holds, it holds throughout exactly when the condition does at every call.
-/
import Mathlib.Tactic

namespace GridSolve.Trace

variable {σ α ε : Type}

/-! ## Loops -/

theorem bind_ok {β : Type} {x : Except ε α} {f : α → Except ε β} {b : β} (h : (x >>= f) = .ok b) :
    ∃ a, x = .ok a ∧ f a = .ok b := by
  cases x with
  | error e => cases h
  | ok a => exact ⟨a, rfl, h⟩

theorem bind_error {β : Type} {x : Except ε α} {f : α → Except ε β} {e : ε} (h : (x >>= f) = .error e) :
    x = .error e ∨ ∃ a, x = .ok a ∧ f a = .error e := by
  cases x with
  | error e' =>
    cases h
    exact .inl rfl
  | ok a => exact .inr ⟨a, rfl, h⟩

/-- A loop that fails does so in one of its turns. -/
theorem exists_of_foldlM_error {f : σ → α → Except ε σ} {e : ε} : ∀ {l : List α} {b : σ},
    l.foldlM f b = .error e → ∃ a ∈ l, ∃ b', f b' a = .error e
  | [], b, h => by cases h
  | a :: l, b, h => by
    rw [List.foldlM_cons] at h
    rcases bind_error h with h | ⟨b', -, h⟩
    · exact ⟨a, List.mem_cons_self, b, h⟩
    · obtain ⟨a', ha', b'', h'⟩ := exists_of_foldlM_error h
      exact ⟨a', List.mem_cons_of_mem a ha', b'', h'⟩

/-- A loop that returns has returned from every turn. -/
theorem forall_of_foldlM_ok {f : σ → α → Except ε σ} : ∀ {l : List α} {b r : σ},
    l.foldlM f b = .ok r → ∀ a ∈ l, ∃ b' r', f b' a = .ok r'
  | a :: l, b, r, h, a', ha' => by
    rw [List.foldlM_cons] at h
    obtain ⟨b', h1, h2⟩ := bind_ok h
    rcases List.mem_cons.1 ha' with rfl | ha'
    · exact ⟨b, b', h1⟩
    · exact forall_of_foldlM_ok h2 a' ha'

theorem foldlM_congr {f g : σ → α → Except ε σ} : ∀ {l : List α} (b : σ),
    (∀ a ∈ l, ∀ b, f b a = g b a) → l.foldlM f b = l.foldlM g b
  | [], _, _ => rfl
  | a :: l, b, h => by
    rw [List.foldlM_cons, List.foldlM_cons, h a List.mem_cons_self b]
    exact congrArg (g b a >>= ·) (funext fun b' => foldlM_congr b' fun a' ha' => h a' (List.mem_cons_of_mem a ha'))

/-! ## Sequences of calls -/

variable (step : σ → α → Except ε σ) (s₀ : σ)

/-- The property holds in every state that the sequence passes through. -/
def Always (P : σ → Prop) (calls : List α) : Prop :=
  ∀ done, done <+: calls → ∀ s, done.foldlM step s₀ = .ok s → P s

/-- The condition holds at every call of the sequence that returns. -/
def AtCalls (Q : σ → α → Prop) (calls : List α) : Prop :=
  ∀ done a, done ++ [a] <+: calls → ∀ s s', done.foldlM step s₀ = .ok s → step s a = .ok s' → Q s a

variable {step s₀}

/-- The last call of a sequence that returns. -/
theorem foldlM_concat {done : List α} {a : α} {s' : σ} (h : (done ++ [a]).foldlM step s₀ = .ok s') :
    ∃ s, done.foldlM step s₀ = .ok s ∧ step s a = .ok s' := by
  rw [List.foldlM_append] at h
  obtain ⟨s, hs, h⟩ := bind_ok h
  rw [List.foldlM_cons] at h
  obtain ⟨s₁, hs₁, h⟩ := bind_ok h
  cases h
  exact ⟨s, hs, hs₁⟩

/-- An invariant of the calls holds wherever a sequence of them ends. -/
theorem foldlM_invariant {I : σ → Prop} (h0 : I s₀) (hstep : ∀ s a s', I s → step s a = .ok s' → I s') {done : List α} :
    ∀ {s : σ}, done.foldlM step s₀ = .ok s → I s := by
  induction done using List.reverseRecOn with
  | nil =>
    intro s h
    cases h
    exact h0
  | append_singleton done a ih =>
    intro s h
    obtain ⟨s', hs', ha⟩ := foldlM_concat h
    exact hstep s' a s (ih hs') ha

/-- **A property of all states, call by call.** -/
theorem always_iff_atCalls {I P : σ → Prop} {Q : σ → α → Prop} (h0 : I s₀) (hP : P s₀)
    (hstep : ∀ s a s', I s → step s a = .ok s' → I s')
    (hiff : ∀ s a s', I s → P s → step s a = .ok s' → (P s' ↔ Q s a)) (calls : List α) :
    Always step s₀ P calls ↔ AtCalls step s₀ Q calls := by
  constructor
  · intro h done a hpre s s' hs ha
    have hrun : (done ++ [a]).foldlM step s₀ = .ok s' := by
      rw [List.foldlM_append, hs]
      change [a].foldlM step s = _
      rw [List.foldlM_cons, ha]
      rfl
    have hdone : done <+: calls := (List.prefix_append done [a]).trans hpre
    exact (hiff s a s' (foldlM_invariant h0 hstep hs) (h done hdone s hs) ha).1 (h _ hpre s' hrun)
  · intro h done
    induction done using List.reverseRecOn with
    | nil =>
      intro _ s hs
      cases hs
      exact hP
    | append_singleton done a ih =>
      intro hpre s' hs'
      obtain ⟨s, hs, ha⟩ := foldlM_concat hs'
      have hdone : done <+: calls := (List.prefix_append done [a]).trans hpre
      exact (hiff s a s' (foldlM_invariant h0 hstep hs) (ih hdone s hs) ha).2 (h done a hpre s s' hs ha)

/-! ## Following a sequence -/

theorem always_nil {P : σ → Prop} : Always step s₀ P [] ↔ P s₀ := by
  constructor
  · intro h
    exact h [] List.prefix_rfl s₀ rfl
  · intro h done hdone s hs
    rw [List.prefix_nil.1 hdone] at hs
    cases hs
    exact h

theorem always_cons {P : σ → Prop} {a : α} {calls : List α} :
    Always step s₀ P (a :: calls) ↔ P s₀ ∧ ∀ s, step s₀ a = .ok s → Always step s P calls := by
  constructor
  · intro h
    refine ⟨h [] List.nil_prefix s₀ rfl, fun s hs done hdone s' hs' => ?_⟩
    refine h (a :: done) (List.cons_prefix_cons.2 ⟨rfl, hdone⟩) s' ?_
    rw [List.foldlM_cons, hs]
    exact hs'
  · rintro ⟨h₀, h⟩ done hdone s' hs'
    cases done with
    | nil =>
      cases hs'
      exact h₀
    | cons b done =>
      obtain ⟨rfl, hrest⟩ := List.cons_prefix_cons.1 hdone
      rw [List.foldlM_cons] at hs'
      obtain ⟨s, hb, hs'⟩ := bind_ok hs'
      exact h s hb done hrest s' hs'

theorem atCalls_nil {Q : σ → α → Prop} : AtCalls step s₀ Q [] := by
  intro done a h
  exact absurd (List.prefix_nil.1 h) (List.append_ne_nil_of_right_ne_nil _ (List.cons_ne_nil _ _))

theorem atCalls_cons {Q : σ → α → Prop} {a : α} {calls : List α} :
    AtCalls step s₀ Q (a :: calls) ↔ ∀ s, step s₀ a = .ok s → Q s₀ a ∧ AtCalls step s Q calls := by
  constructor
  · intro h s hs
    refine ⟨h [] a (List.cons_prefix_cons.2 ⟨rfl, List.nil_prefix⟩) s₀ s rfl hs, fun done b hdone s₁ s₂ h₁ h₂ => ?_⟩
    refine h (a :: done) b (List.cons_prefix_cons.2 ⟨rfl, hdone⟩) s₁ s₂ ?_ h₂
    rw [List.foldlM_cons, hs]
    exact h₁
  · intro h done b hdone s₁ s₂ h₁ h₂
    cases done with
    | nil =>
      obtain ⟨rfl, -⟩ := List.cons_prefix_cons.1 hdone
      cases h₁
      exact (h s₂ h₂).1
    | cons c done =>
      obtain ⟨rfl, hrest⟩ := List.cons_prefix_cons.1 hdone
      rw [List.foldlM_cons] at h₁
      obtain ⟨s, hc, h₁⟩ := bind_ok h₁
      exact (h s hc).2 done b hrest s₁ s₂ h₁ h₂

/-- A statement about the result of a call, if it returns. -/
instance decidableOk {P : σ → Prop} [DecidablePred P] : (r : Except ε σ) → Decidable (∀ s, r = .ok s → P s)
  | .error _ => isTrue fun _ h => by cases h
  | .ok s =>
    if h : P s then isTrue fun _ hs => by cases hs; exact h
    else isFalse fun hall => h (hall s rfl)

instance decidableAlways {P : σ → Prop} [DecidablePred P] :
    (calls : List α) → (s₀ : σ) → Decidable (Always step s₀ P calls)
  | [], s₀ => decidable_of_iff (P s₀) always_nil.symm
  | _ :: calls, _ =>
    have : DecidablePred fun s => Always step s P calls := decidableAlways calls
    decidable_of_iff _ always_cons.symm

instance decidableAtCalls {Q : σ → α → Prop} [∀ s a, Decidable (Q s a)] : (calls : List α) → (s₀ : σ) →
    Decidable (AtCalls step s₀ Q calls)
  | [], _ => isTrue atCalls_nil
  | _ :: calls, _ =>
    have : DecidablePred fun s => AtCalls step s Q calls := decidableAtCalls calls
    decidable_of_iff _ atCalls_cons.symm

end GridSolve.Trace
