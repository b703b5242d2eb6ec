/-
`fragmentation_intersection::run_thread` (`approximation.cpp`) and its mutex. Every turn of the loop
constructs a `unique_lock`, which locks `data_mutex`, but unlocks the mutex itself. The lock object
does not learn of that, and at the end of the turn its destructor unlocks the mutex again, whoever
owns it then. `run_thread_int` uses the lock object throughout.

The steps are those between two accesses to what the threads share: as the mutex may be free while a
thread is between acquiring and releasing it, other threads may come in between.
-/
import GridSolve.Grid.Iters
import GridSolve.Lib.Mutex

namespace GridSolve.Grid.Locking

open GridSolve.Mutex

/-! ## The code -/

/-- Where a thread is in `run_thread`. -/
inductive Place
  /-- at the head of the loop, before `lock` is constructed -/
  | top
  /-- at the condition of the inner loop -/
  | test
  /-- `n_threads_active` has been lowered -/
  | idle
  /-- in `wait_queue.wait` -/
  | waiting
  /-- `wait` has returned -/
  | woken
  /-- behind the inner loop -/
  | check
  /-- nothing is left to do, `data_mutex.unlock()` is next -/
  | quitting
  /-- the cursor has moved on, `data_mutex.unlock()` is next -/
  | taken (toP : ℕ)
  /-- at the test whether the box is in the trie -/
  | filter (toP : ℕ)
  | working (toP : ℕ) (stage : Stage)
  /-- `data_mutex.lock()` has returned, `emplace_node` is next -/
  | inserting (toP : ℕ) (b : BoundingBox)
  /-- the test of the cursor is next -/
  | linking (toP : ℕ) (b : BoundingBox)
  /-- `add_node` is next -/
  | adding (b : BoundingBox)
  /-- both halves are in the list, `data_mutex.unlock()` is next -/
  | added
  /-- in the handler of a timeout -/
  | caught (toP : ℕ)
  /-- in the handler, `emplace_node` is next -/
  | moving (toP : ℕ) (b : BoundingBox)
  /-- in the handler, `add_node` is next -/
  | joining (b : BoundingBox)
  /-- in the handler, `exit(0)` is next -/
  | exiting
  /-- at the end of the turn, the destructor of `lock` is next; `again` unless the loop is left -/
  | leaving (again : Bool)
  | returned
  deriving DecidableEq, Repr

structure Thread where
  place : Place
  /-- `lock` believes that it owns the mutex. -/
  owns : Bool
  /-- The turns of the loop that are over; no step reads it. -/
  turns : ℕ
  deriving DecidableEq, Repr

/-- What the threads share. -/
structure Shared (n : ℕ) where
  frags : Ll
  currBox : Option ℕ
  nThreadsActive : ℤ
  /-- The owner of `data_mutex`. -/
  owner : Option (Fin n)
  /-- A thread has called `exit`. -/
  exited : Bool
  /-- The unlocks so far, each with its thread and the owner at that moment; no step reads it. -/
  unlocks : List (Fin n × Option (Fin n))

structure State (n : ℕ) where
  shared : Shared n
  threads : Fin n → Thread

variable {n : ℕ}

/-- The mutex is locked. -/
def Shared.lock (t : Fin n) (sh : Shared n) : Shared n := { sh with owner := some t }

/-- The mutex is unlocked by a thread, be it the owner or not. -/
def Shared.unlock (t : Fin n) (sh : Shared n) : Shared n :=
  { sh with owner := none, unlocks := (t, sh.owner) :: sh.unlocks }

/-- A thread that goes on to another place. -/
def Thread.goto (p : Place) (th : Thread) : Thread := { th with place := p }

/-- One step of thread `t`. `inTrie` tells whether the box passes the test of the trie, as all do without one. -/
inductive Act (cfg : Config) (inTrie : Coords → Bool) (t : Fin n) : Shared n → Thread → Shared n → Thread → Prop
  -- the constructor of `lock`
  | construct {sh : Shared n} {th : Thread} : th.place = .top → sh.owner = none →
      Act cfg inTrie t sh th (sh.lock t) { th with place := .test, owns := true }
  | lower {sh : Shared n} {th : Thread} : th.place = .test → sh.currBox = none → 0 < sh.nThreadsActive →
      Act cfg inTrie t sh th { sh with nThreadsActive := sh.nThreadsActive - 1 } (th.goto .idle)
  | pass {sh : Shared n} {th : Thread} : th.place = .test → ¬ (sh.currBox = none ∧ 0 < sh.nThreadsActive) →
      Act cfg inTrie t sh th sh (th.goto .check)
  | last {sh : Shared n} {th : Thread} : th.place = .idle → sh.nThreadsActive = 0 →
      Act cfg inTrie t sh th sh (th.goto .check)
  -- `wait` releases the mutex through `lock`, and acquires it again, notified or not
  | wait {sh : Shared n} {th : Thread} : th.place = .idle → sh.nThreadsActive ≠ 0 →
      Act cfg inTrie t sh th (sh.unlock t) { th with place := .waiting, owns := false }
  | wake {sh : Shared n} {th : Thread} : th.place = .waiting → sh.owner = none →
      Act cfg inTrie t sh th (sh.lock t) { th with place := .woken, owns := true }
  | raise {sh : Shared n} {th : Thread} : th.place = .woken →
      Act cfg inTrie t sh th { sh with nThreadsActive := sh.nThreadsActive + 1 } (th.goto .test)
  | quit {sh : Shared n} {th : Thread} : th.place = .check → sh.currBox = none ∨ sh.nThreadsActive = 0 →
      Act cfg inTrie t sh th sh (th.goto .quitting)
  | quitUnlock {sh : Shared n} {th : Thread} : th.place = .quitting →
      Act cfg inTrie t sh th (sh.unlock t) (th.goto (.leaving false))
  | take {sh : Shared n} {th : Thread} {toP : ℕ} : th.place = .check → sh.currBox = some toP → sh.nThreadsActive ≠ 0 →
      Act cfg inTrie t sh th { sh with currBox := sh.frags.next toP } (th.goto (.taken toP))
  | takeUnlock {sh : Shared n} {th : Thread} {toP : ℕ} : th.place = .taken toP →
      Act cfg inTrie t sh th (sh.unlock t) (th.goto (.filter toP))
  | accept {sh : Shared n} {th : Thread} {toP : ℕ} : th.place = .filter toP → inTrie (sh.frags.box toP).coords = true →
      Act cfg inTrie t sh th sh (th.goto (.working toP .taken))
  -- not in the original boxes: `continue`
  | reject {sh : Shared n} {th : Thread} {toP : ℕ} : th.place = .filter toP → inTrie (sh.frags.box toP).coords = false →
      Act cfg inTrie t sh th { sh with frags := (sh.frags.remove toP).2 } (th.goto (.leaving true))
  | process {sh : Shared n} {th : Thread} {toP : ℕ} {st st' : Stage} {b' : BoundingBox} : th.place = .working toP st →
      Process cfg.real (sh.frags.box toP) st b' st' →
      Act cfg inTrie t sh th { sh with frags := sh.frags.setBox toP b' } (th.goto (.working toP st'))
  | discard {sh : Shared n} {th : Thread} {toP : ℕ} : th.place = .working toP .refuted →
      Act cfg inTrie t sh th { sh with frags := (sh.frags.remove toP).2 } (th.goto (.leaving true))
  | finish {sh : Shared n} {th : Thread} {toP : ℕ} : th.place = .working toP .finished →
      Act cfg inTrie t sh th sh (th.goto (.leaving true))
  -- `data_mutex.lock()`
  | lock {sh : Shared n} {th : Thread} {toP : ℕ} {b : BoundingBox} : th.place = .working toP (.halved b) →
      sh.owner = none → Act cfg inTrie t sh th (sh.lock t) (th.goto (.inserting toP b))
  | emplace {sh : Shared n} {th : Thread} {toP : ℕ} {b : BoundingBox} : th.place = .inserting toP b →
      Act cfg inTrie t sh th { sh with frags := (sh.frags.emplaceNode toP).2 } (th.goto (.linking toP b))
  | link {sh : Shared n} {th : Thread} {toP : ℕ} {b : BoundingBox} : th.place = .linking toP b →
      Act cfg inTrie t sh th { sh with currBox := some (sh.currBox.getD toP) } (th.goto (.adding b))
  | add {sh : Shared n} {th : Thread} {b : BoundingBox} : th.place = .adding b →
      Act cfg inTrie t sh th { sh with frags := sh.frags.addNode b } (th.goto .added)
  | addUnlock {sh : Shared n} {th : Thread} : th.place = .added →
      Act cfg inTrie t sh th (sh.unlock t) (th.goto (.leaving true))
  | timeout {sh : Shared n} {th : Thread} {toP i : ℕ} {found : Found} : th.place = .working toP (.visiting i found) →
      i < cfg.shapes → ¬ 0 < (sh.frags.box toP).stateAt i → cfg.Interrupted i (sh.frags.box toP).coords →
      Act cfg inTrie t sh th sh (th.goto (.caught toP))
  | caughtSmall {sh : Shared n} {th : Thread} {toP : ℕ} : th.place = .caught toP →
      (sh.frags.box toP).norm < cfg.volLimit →
      Act cfg inTrie t sh th { sh with frags := sh.frags.setBox toP (sh.frags.box toP).recomputeConfidence }
        (th.goto .exiting)
  | caughtSplit {sh : Shared n} {th : Thread} {toP : ℕ} {this b : BoundingBox} : th.place = .caught toP →
      ¬ (sh.frags.box toP).norm < cfg.volLimit → (sh.frags.box toP).split = some (this, b) →
      Act cfg inTrie t sh th { sh with frags := sh.frags.setBox toP this } (th.goto (.moving toP b))
  | move {sh : Shared n} {th : Thread} {toP : ℕ} {b : BoundingBox} : th.place = .moving toP b →
      Act cfg inTrie t sh th { sh with frags := (sh.frags.emplaceNode toP).2 } (th.goto (.joining b))
  | join {sh : Shared n} {th : Thread} {b : BoundingBox} : th.place = .joining b →
      Act cfg inTrie t sh th { sh with frags := sh.frags.addNode b } (th.goto .exiting)
  -- `exit` ends the program without the destructors of local objects
  | exit {sh : Shared n} {th : Thread} : th.place = .exiting → Act cfg inTrie t sh th { sh with exited := true } th
  -- the destructor of `lock`
  | destroy {sh : Shared n} {th : Thread} {again : Bool} : th.place = .leaving again →
      Act cfg inTrie t sh th (if th.owns then sh.unlock t else sh)
        { place := if again then .top else .returned, owns := false, turns := th.turns + 1 }

/-- One thread takes a step, while the program runs. -/
inductive Step (cfg : Config) (inTrie : Coords → Bool) : State n → State n → Prop
  | intro {s : State n} {sh' : Shared n} {th' : Thread} (t : Fin n) : s.shared.exited = false →
      Act cfg inTrie t s.shared (s.threads t) sh' th' →
      Step cfg inTrie s ⟨sh', Function.update s.threads t th'⟩

/-- Any interleaving of the threads. -/
def Reaches (cfg : Config) (inTrie : Coords → Bool) : State n → State n → Prop :=
  Relation.ReflTransGen (Step cfg inTrie)

/-- `run_threads`: `n` threads at the head of their loops. -/
def init (n : ℕ) (frags : Ll) (currBox : Option ℕ) : State n :=
  { shared := { frags, currBox, nThreadsActive := n, owner := none, exited := false, unlocks := [] }
    threads := fun _ => { place := .top, owns := false, turns := 0 } }

/-! ## The mutex -/

/-- Between acquiring the mutex and releasing it. -/
def Place.inside : Place → Bool
  | .test | .idle | .woken | .check | .quitting | .taken _ | .inserting .. | .linking .. | .adding _ | .added => true
  | _ => false

/-- Where there is no lock object, or `wait` has released it. -/
def Place.bare : Place → Bool
  | .top | .waiting | .returned => true
  | _ => false

/-- The mutex as the threads use it. -/
def State.view (s : State n) : View (Fin n) :=
  { owner := s.shared.owner, inside := fun t => (s.threads t).place.inside, unlocks := s.shared.unlocks }

/-- What a step does to the mutex and the turns. -/
inductive Use (t : Fin n) : Shared n → Thread → Shared n → Thread → Prop
  | keep {sh sh' : Shared n} {th th' : Thread} : th'.turns = th.turns → sh'.owner = sh.owner →
      sh'.unlocks = sh.unlocks → th'.place.inside = th.place.inside → Use t sh th sh' th'
  | acquire {sh : Shared n} {th th' : Thread} : th'.turns = th.turns → sh.owner = none → th'.place.inside = true →
      Use t sh th (sh.lock t) th'
  | release {sh : Shared n} {th th' : Thread} : th'.turns = th.turns → th.place.inside = true →
      th'.place.inside = false → Use t sh th (sh.unlock t) th'
  -- the destructor, at a place where the mutex has been released
  | destroy {sh sh' : Shared n} {th th' : Thread} : th.place.bare = false → th.place.inside = false →
      sh' = (if th.owns then sh.unlock t else sh) → th'.place.inside = false → th'.turns = th.turns + 1 →
      Use t sh th sh' th'

section

variable {cfg : Config} {inTrie : Coords → Bool} {t : Fin n} {sh sh' : Shared n} {th th' : Thread}

theorem Act.use (h : Act cfg inTrie t sh th sh' th') : Use t sh th sh' th' := by
  cases h with
  | construct hp ho | wake hp ho | lock hp ho => exact .acquire rfl ho rfl
  | wait hp | quitUnlock hp | takeUnlock hp | addUnlock hp => exact .release rfl (by rw [hp]; rfl) rfl
  | destroy hp =>
    rename_i again
    exact .destroy (by rw [hp]; rfl) (by rw [hp]; rfl) rfl (by cases again <;> rfl) rfl
  | exit => exact .keep rfl rfl rfl rfl
  | lower hp | pass hp | last hp | raise hp | quit hp | take hp | accept hp | reject hp | process hp | discard hp
  | finish hp | emplace hp | link hp | add hp | timeout hp | caughtSmall hp | caughtSplit hp | move hp | join hp =>
    exact .keep rfl rfl rfl (by rw [hp]; rfl)

/-- The lock object believes that it owns the mutex, wherever there is one and it does not wait. -/
theorem Act.owns (h : Act cfg inTrie t sh th sh' th') (hth : th.place.bare = false → th.owns = true) :
    th'.place.bare = false → th'.owns = true := by
  cases h with
  | construct | wake => exact fun _ => rfl
  | wait => exact nofun
  | destroy hp =>
    rename_i again
    cases again <;> exact nofun
  | exit => exact hth
  | lower hp | pass hp | last hp | raise hp | quit hp | quitUnlock hp | take hp | takeUnlock hp | accept hp | reject hp
  | process hp | discard hp | finish hp | lock hp | emplace hp | link hp | add hp | addUnlock hp | timeout hp
  | caughtSmall hp | caughtSplit hp | move hp | join hp => exact fun _ => hth (by rw [hp]; rfl)

end

theorem view_update (s : State n) (sh' : Shared n) (t : Fin n) (th' : Thread) :
    State.view ⟨sh', Function.update s.threads t th'⟩ =
      { owner := sh'.owner, inside := Function.update s.view.inside t th'.place.inside, unlocks := sh'.unlocks } := by
  have hinside : (fun t' => (Function.update s.threads t th' t').place.inside) =
      Function.update s.view.inside t th'.place.inside := by
    funext t'
    by_cases ht : t' = t
    · subst ht
      simp
    · simp [Function.update_of_ne ht, State.view]
  rw [State.view, hinside]

variable {cfg : Config} {inTrie : Coords → Bool} {s s' : State n}

/-- A step leaves the turns as they are and uses the mutex properly, or it ends a turn. -/
theorem Step.effect (h : Step cfg inTrie s s') :
    (∃ t, Effect t s.view s'.view ∧ ∀ t', (s'.threads t').turns = (s.threads t').turns) ∨
      ∃ t, (s.threads t).place.bare = false ∧ (s.threads t).place.inside = false ∧
        ((s.threads t).owns = true → s'.view = s.view.stray t) ∧ (s'.threads t).turns = (s.threads t).turns + 1 := by
  obtain ⟨t, -, hact⟩ := h
  rename_i sh' th'
  have hturns : th'.turns = (s.threads t).turns →
      ∀ t', (Function.update s.threads t th' t').turns = (s.threads t').turns := fun heq =>
    (Function.forall_update_iff s.threads fun t' th => th.turns = (s.threads t').turns).2 ⟨heq, fun _ _ => rfl⟩
  -- a place with the same answer to whether it is inside
  have hsame : ∀ {b : Bool}, b = (s.threads t).place.inside → Function.update s.view.inside t b = s.view.inside := by
    rintro b rfl
    exact Function.update_eq_self t s.view.inside
  rw [view_update]
  cases hact.use with
  | keep hk ho hu hi =>
    refine .inl ⟨t, ?_, hturns hk⟩
    rw [ho, hu, hsame hi]
    exact .keep _
  | acquire hk hfree hi =>
    refine .inl ⟨t, ?_, hturns hk⟩
    rw [hi]
    exact .acquire s.view hfree
  | release hk hin hout =>
    refine .inl ⟨t, ?_, hturns hk⟩
    rw [hout]
    exact .release s.view hin
  | destroy hb hin heq hout hk =>
    refine .inr ⟨t, hb, hin, fun hown => ?_, ?_⟩
    · rw [heq, if_pos hown, hsame (hout.trans hin.symm)]
      rfl
    · simpa using hk

/-! ## Every interleaving -/

/-- Before the first turn is over the mutex is used in order, and then it has been unlocked by a thread
that was not the owner. -/
structure Inv (s : State n) : Prop where
  owns : ∀ t, (s.threads t).place.bare = false → (s.threads t).owns = true
  first : (∀ t, (s.threads t).turns = 0) → s.view.Orderly
  later : s.view.Rightful → ∀ t, (s.threads t).turns = 0

theorem inv_init (frags : Ll) (currBox : Option ℕ) : Inv (init n frags currBox) where
  owns := fun _ => nofun
  first := fun _ => ⟨fun _ => iff_of_false nofun nofun, nofun⟩
  later := fun _ _ => rfl

theorem Inv.step (h : Inv s) (hstep : Step cfg inTrie s s') : Inv s' := by
  have howns : ∀ t, (s'.threads t).place.bare = false → (s'.threads t).owns = true := by
    obtain ⟨t, -, hact⟩ := hstep
    apply (Function.forall_update_iff s.threads fun _ th => th.place.bare = false → th.owns = true).2
    exact ⟨hact.owns (h.owns t), fun t' _ => h.owns t'⟩
  rcases hstep.effect with ⟨t, heffect, hturns⟩ | ⟨t, hbare, hout, hstray, hturn⟩
  · refine ⟨howns, fun hzero => ?_, fun hright t' => ?_⟩
    · exact heffect.orderly (h.first fun t' => (hturns t').symm.trans (hzero t'))
    · exact (hturns t').trans (h.later (heffect.rightful_of hright) t')
  · refine ⟨howns, fun hzero => ?_, fun hright => ?_⟩
    · have := hzero t
      omega
    · -- the first turn that is over ends with an unlock by a thread outside
      rw [hstray (h.owns t hbare)] at hright
      have horderly := h.first (h.later (View.rightful_of_stray hright))
      exact absurd hright (horderly.not_rightful_stray hout)

theorem inv_of_reaches {frags : Ll} {currBox : Option ℕ} (h : Reaches cfg inTrie (init n frags currBox) s) : Inv s := by
  induction h with
  | refl => exact inv_init frags currBox
  | tail _ hstep ih => exact ih.step hstep

theorem Use.turns_le {t : Fin n} {sh sh' : Shared n} {th th' : Thread} (h : Use t sh th sh' th') :
    th.turns ≤ th'.turns := by
  cases h with
  | keep hk => exact hk.ge
  | acquire hk => exact hk.ge
  | release hk => exact hk.ge
  | destroy _ _ _ _ hk => omega

theorem Step.turns_le (h : Step cfg inTrie s s') : ∀ t, (s.threads t).turns ≤ (s'.threads t).turns := by
  obtain ⟨t, -, hact⟩ := h
  apply (Function.forall_update_iff s.threads fun t' th => (s.threads t').turns ≤ th.turns).2
  exact ⟨hact.use.turns_le, fun _ _ => le_rfl⟩

theorem Reaches.turns_le (h : Reaches cfg inTrie s s') (t : Fin n) : (s.threads t).turns ≤ (s'.threads t).turns := by
  induction h with
  | refl => exact le_rfl
  | tail _ hstep ih => exact ih.trans (hstep.turns_le t)

/-- For any number of threads and any interleaving, every unlock was made by the owner of the mutex, and never
was more than one thread between acquiring and releasing it, exactly as long as no thread has come to
the end of a turn of its loop. -/
theorem lock_discipline_iff {frags : Ll} {currBox : Option ℕ} (h : Reaches cfg inTrie (init n frags currBox) s) :
    ((∀ u ∈ s.shared.unlocks, u.2 = some u.1) ∧
      ∀ s₁, Reaches cfg inTrie (init n frags currBox) s₁ → Reaches cfg inTrie s₁ s → ∀ t t',
        (s₁.threads t).place.inside = true → (s₁.threads t').place.inside = true → t = t') ↔
    ∀ t, (s.threads t).turns = 0 := by
  constructor
  · exact fun hright => (inv_of_reaches h).later hright.1
  · intro hzero
    refine ⟨((inv_of_reaches h).first hzero).rightful, fun s₁ h1 h2 t t' ht ht' => ?_⟩
    have hzero₁ : ∀ t, (s₁.threads t).turns = 0 := fun t => Nat.le_zero.1 ((h2.turns_le t).trans (hzero t).le)
    exact ((inv_of_reaches h1).first hzero₁).unique ht ht'

/-- No shape to test: every box is kept. -/
def noShapes : Config :=
  { shapes := 0, volLimit := 1, integer := false, pos := fun _ _ _ => False, neg := fun _ _ _ => False }

/-- The next step of a run. -/
theorem Reaches.act {s₀ : State n} (h : Reaches cfg inTrie s₀ s) (t : Fin n) (hrun : s.shared.exited = false)
    {sh' : Shared n} {th' : Thread} (hact : Act cfg inTrie t s.shared (s.threads t) sh' th') :
    Reaches cfg inTrie s₀ ⟨sh', Function.update s.threads t th'⟩ :=
  h.tail (.intro t hrun hact)

/-- Two intervals. -/
def twoIntervals : Ll := (Ll.new (.new [(0, 1)])).addNode (.new [(1, 2)])

/-- Two threads that have taken a box each, and work on them: so far all is well. -/
theorem lock_discipline_taken : ∃ s, Reaches noShapes (fun _ => true) (init 2 twoIntervals (some 0)) s ∧
    s.shared.unlocks = [(1, some 1), (0, some 0)] ∧ (s.threads 0).place = .working 0 .taken ∧
    (s.threads 1).place = .working 1 .taken ∧ (∀ u ∈ s.shared.unlocks, u.2 = some u.1) ∧
    ∀ s₁, Reaches noShapes (fun _ => true) (init 2 twoIntervals (some 0)) s₁ → Reaches noShapes (fun _ => true) s₁ s →
      ∀ t t', (s₁.threads t).place.inside = true → (s₁.threads t').place.inside = true → t = t' := by
  have h0 : Reaches noShapes (fun _ => true) (init 2 twoIntervals (some 0)) _ := .refl
  have h1 := h0.act 0 rfl (.construct rfl rfl)
  have h2 := h1.act 0 rfl (.pass rfl nofun)
  have h3 := h2.act 0 rfl (.take rfl rfl (by decide))
  have h4 := h3.act 0 rfl (.takeUnlock rfl)
  have h5 := h4.act 1 rfl (.construct rfl rfl)
  have h6 := h5.act 0 rfl (.accept rfl rfl)
  have h7 := h6.act 1 rfl (.pass rfl nofun)
  have h8 := h7.act 1 rfl (.take rfl rfl (by decide))
  have h9 := h8.act 1 rfl (.takeUnlock rfl)
  have h10 := h9.act 1 rfl (.accept rfl rfl)
  have hturns := (lock_discipline_iff h10).2 (by decide)
  exact ⟨_, h10, rfl, rfl, rfl, hturns.1, hturns.2⟩

/-- The first thread is through with its turn when the second acquires the mutex. The destructor of the first
unlocks it, and in its next turn the first thread acquires it too. -/
theorem lock_discipline_broken : ∃ s, Reaches noShapes (fun _ => true) (init 2 (.new (.new [])) (some 0)) s ∧
    s.shared.unlocks = [(0, some 1), (0, some 0)] ∧
    (s.threads 0).place.inside = true ∧ (s.threads 1).place.inside = true := by
  have h0 : Reaches noShapes (fun _ => true) (init 2 (.new (.new [])) (some 0)) _ := .refl
  have h1 := h0.act 0 rfl (.construct rfl rfl)
  have h2 := h1.act 0 rfl (.pass rfl nofun)
  have h3 := h2.act 0 rfl (.take rfl rfl (by decide))
  have h4 := h3.act 0 rfl (.takeUnlock rfl)
  have h5 := h4.act 0 rfl (.accept rfl rfl)
  have h6 := h5.act 0 rfl (.process rfl (.enter nofun))
  have h7 := h6.act 0 rfl (.process rfl .accept)
  have h8 := h7.act 0 rfl (.finish rfl)
  have h9 := h8.act 1 rfl (.construct rfl rfl)
  have h10 := h9.act 0 rfl (.destroy rfl)
  have h11 := h10.act 0 rfl (.construct rfl rfl)
  exact ⟨_, h11, rfl, rfl, rfl⟩

end GridSolve.Grid.Locking
