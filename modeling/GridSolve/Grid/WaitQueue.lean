/-
`wait_queue` of `run_thread_int`. In the machine of `run_threads` a waiting thread may wake at any
time; here it wakes only after a `notify_all` that finds it waiting. There is one when the cursor
leaves `NULL` and one when a thread returns, and they are enough: a thread sleeps only while there is
no box to take and a thread that has not returned is still at work. So the threads never get stuck,
and since every box taken uses up visits, and a thread that finds no box goes back to sleep or
returns, every run ends.
-/
import GridSolve.Grid.Visits

namespace GridSolve.Grid

open GridSolve.Rewriting

/-- The threads, each with the mark that a `notify_all` has found it waiting. -/
structure Monitor where
  shared : Shared
  threads : List (Pc × Bool)

/-- The state without the marks. -/
def Monitor.state (q : Monitor) : State := ⟨q.shared, q.threads.map Prod.fst⟩

/-- The steps that call `notify_all`: a return, and putting a box back when there is no cursor. -/
def notifies (sh : Shared) : Pc → Pc → Bool
  | _, .returned => true
  | .working _ (.halved _), _ => sh.currBox.isNone
  | _, _ => false

/-- `notify_all`. -/
def notifyAll (threads : List (Pc × Bool)) : List (Pc × Bool) := threads.map fun p => (p.1, p.2 || p.1 = .waiting)

/-- What a step from `pc` to `pc'` does to the other threads. -/
def signal (sh : Shared) (pc pc' : Pc) (threads : List (Pc × Bool)) : List (Pc × Bool) :=
  if notifies sh pc pc' then notifyAll threads else threads

/-- One thread takes a step; a waiting one has to be notified. The trie that `run_thread_int` may filter
with can remove any box that was just taken. -/
inductive Monitor.Step (cfg : Config) : Monitor → Monitor → Prop
  | act {sh sh' : Shared} {pc pc' : Pc} {notified : Bool} (u v : List (Pc × Bool)) (h : Act cfg sh pc sh' pc')
      (hwake : pc = .waiting → notified = true) :
      Step cfg ⟨sh, u ++ (pc, notified) :: v⟩ ⟨sh', signal sh pc pc' u ++ (pc', false) :: signal sh pc pc' v⟩
  | filter {sh : Shared} {toP : ℕ} {notified : Bool} (u v : List (Pc × Bool)) :
      Step cfg ⟨sh, u ++ (.working toP .taken, notified) :: v⟩
        ⟨{ sh with frags := (sh.frags.remove toP).2 }, u ++ (.start, false) :: v⟩

/-- `k` steps. -/
inductive Monitor.Steps (cfg : Config) (q₀ : Monitor) : ℕ → Monitor → Prop
  | refl : Steps cfg q₀ 0 q₀
  | tail {k : ℕ} {q q' : Monitor} : Steps cfg q₀ k q → Monitor.Step cfg q q' → Steps cfg q₀ (k + 1) q'

/-- `run_threads`: no thread has waited yet. -/
def Monitor.init (l : Ll) (nThreads : ℕ) : Monitor :=
  ⟨(Grid.init l nThreads).shared, List.replicate nThreads (.start, false)⟩

variable {cfg : Config} {sh sh' : Shared} {u v : List (Pc × Bool)} {pc pc' : Pc} {notified : Bool} {q q' : Monitor}

/-! ## The marks do not matter for the state -/

theorem map_fst_notifyAll (threads : List (Pc × Bool)) : (notifyAll threads).map Prod.fst = threads.map Prod.fst := by
  simp [notifyAll, Function.comp_def]

@[simp] theorem map_fst_signal (sh : Shared) (pc pc' : Pc) (threads : List (Pc × Bool)) :
    (signal sh pc pc' threads).map Prod.fst = threads.map Prod.fst := by
  unfold signal
  split_ifs
  · exact map_fst_notifyAll threads
  · rfl

theorem state_init (l : Ll) (nThreads : ℕ) : (Monitor.init l nThreads).state = Grid.init l nThreads := by
  simp [Monitor.state, Monitor.init, Grid.init]

theorem state_at (sh : Shared) (u v : List (Pc × Bool)) (p : Pc × Bool) :
    Monitor.state ⟨sh, u ++ p :: v⟩ = ⟨sh, u.map Prod.fst ++ p.1 :: v.map Prod.fst⟩ := by
  simp [Monitor.state]

/-- A run with marks is a run of the machine without them. -/
theorem Monitor.Steps.run {l : Ll} {nThreads k : ℕ} (h : Monitor.Steps cfg (Monitor.init l nThreads) k q) :
    ∃ m, Run cfg (Grid.init l nThreads) m q.state := by
  induction h with
  | refl => exact ⟨0, state_init l nThreads ▸ .refl _⟩
  | tail _ hs ih =>
    obtain ⟨m, hm⟩ := ih
    cases hs with
    | act u v ha _ =>
      rw [state_at] at hm ⊢
      rw [map_fst_signal, map_fst_signal]
      exact ⟨_, hm.act _ _ ha⟩
    | filter u v =>
      rw [state_at] at hm ⊢
      exact ⟨_, hm.filter _ _⟩

/-! ## Sleeping threads -/

theorem asleep_notMem_notifyAll (threads : List (Pc × Bool)) : (Pc.waiting, false) ∉ notifyAll threads := by
  intro h
  obtain ⟨⟨pc, m⟩, -, hp⟩ := List.mem_map.1 h
  obtain ⟨rfl, hm⟩ := Prod.mk.inj hp
  simp at hm

theorem asleep_mem_signal {threads : List (Pc × Bool)} :
    (Pc.waiting, false) ∈ signal sh pc pc' threads ↔ notifies sh pc pc' = false ∧ (Pc.waiting, false) ∈ threads := by
  unfold signal
  split_ifs with hn
  · exact iff_of_false (asleep_notMem_notifyAll threads) fun h => by simp [hn] at h
  · simp [hn]

/-- What the head of the loop does when the thread is counted. -/
theorem Shared.enter_cases (sh : Shared) (hpos : 0 < sh.nThreadsActive) :
    (sh.currBox = none ∧ sh.nThreadsActive = 1 ∧ sh.enter = ({ sh with nThreadsActive := 0 }, .returned)) ∨
      (sh.currBox = none ∧ 1 < sh.nThreadsActive ∧
        sh.enter = ({ sh with nThreadsActive := sh.nThreadsActive - 1 }, .waiting)) ∨
      ∃ m, sh.currBox = some m ∧ sh.enter = ({ sh with currBox := sh.frags.next m }, .working m .taken) := by
  cases hcur : sh.currBox with
  | none =>
    by_cases hlast : sh.nThreadsActive = 1
    · left
      simp [Shared.enter, hcur, hlast]
    · right; left
      have hne : sh.nThreadsActive - 1 ≠ 0 := by omega
      simp only [Shared.enter, hcur, if_pos hpos, if_neg hne, and_true, true_and]
      omega
  | some m =>
    right; right
    have hne : sh.nThreadsActive ≠ 0 := by omega
    exact ⟨m, rfl, by simp [Shared.enter, hcur, hne]⟩

/-- A thread sleeps only while there is no box to take and no thread has returned; as long as no thread
has returned, one is active. -/
structure Monitor.Awake (q : Monitor) : Prop where
  asleep : (.waiting, false) ∈ q.threads → q.shared.currBox = none ∧ .returned ∉ q.state.threads
  active : .returned ∉ q.state.threads → 0 < q.shared.nThreadsActive

/-- The threads after a step, in terms of those that have not moved. -/
theorem Monitor.Awake.next (hasleep : pc' = .waiting ∨ notifies sh pc pc' = false ∧ (.waiting, false) ∈ u ++ v →
      sh'.currBox = none ∧ pc' ≠ .returned ∧ .returned ∉ (u ++ v).map Prod.fst)
    (hactive : pc' ≠ .returned → .returned ∉ (u ++ v).map Prod.fst → 0 < sh'.nThreadsActive) :
    Monitor.Awake ⟨sh', signal sh pc pc' u ++ (pc', false) :: signal sh pc pc' v⟩ := by
  have hreturned : .returned ∉ (signal sh pc pc' u ++ (pc', false) :: signal sh pc pc' v).map Prod.fst ↔
      pc' ≠ .returned ∧ .returned ∉ (u ++ v).map Prod.fst := by
    simp only [List.map_append, List.map_cons, map_fst_signal, List.mem_append, List.mem_cons, not_or, ne_eq,
      eq_comm (a := pc')]
    tauto
  constructor
  · intro hmem
    refine (hasleep ?_).imp_right hreturned.2
    simp only [List.mem_append, List.mem_cons, asleep_mem_signal, Prod.mk.injEq, and_true] at hmem ⊢
    tauto
  · intro hret
    obtain ⟨h1, h2⟩ := hreturned.1 hret
    exact hactive h1 h2

/-- The threads before a step. -/
theorem Monitor.Awake.others (h : Monitor.Awake ⟨sh, u ++ (pc, notified) :: v⟩) (hpc : pc ≠ .returned) :
    ((.waiting, false) ∈ u ++ v → sh.currBox = none ∧ .returned ∉ (u ++ v).map Prod.fst) ∧
      (.returned ∉ (u ++ v).map Prod.fst → 0 < sh.nThreadsActive) := by
  have hreturned : .returned ∉ (u ++ (pc, notified) :: v).map Prod.fst ↔ .returned ∉ (u ++ v).map Prod.fst := by
    simp only [List.map_append, List.map_cons, List.mem_append, List.mem_cons, not_or]
    tauto
  constructor
  · intro hmem
    refine (h.asleep ?_).imp_right hreturned.1
    simp only [List.mem_append, List.mem_cons] at hmem ⊢
    tauto
  · intro hret
    exact h.active (hreturned.2 hret)

/-- A thread that neither waits nor returns, nor puts a box back. -/
theorem Monitor.Awake.advance (h : Monitor.Awake ⟨sh, u ++ (pc, notified) :: v⟩) (hpc : pc ≠ .returned)
    (hpc' : pc' ≠ .waiting) (hcur : sh'.currBox = sh.currBox) (hact : sh'.nThreadsActive = sh.nThreadsActive)
    (hret : pc' ≠ .returned) : Monitor.Awake ⟨sh', signal sh pc pc' u ++ (pc', false) :: signal sh pc pc' v⟩ := by
  obtain ⟨hasleep, hactive⟩ := h.others hpc
  refine .next (fun hm => ?_) fun _ hr => hact ▸ hactive hr
  obtain ⟨h1, h2⟩ := hasleep (hm.resolve_left hpc').2
  exact ⟨hcur.trans h1, hret, h2⟩

/-- The head of the loop, from `pc`, when no thread has returned. -/
theorem Monitor.Awake.enter (h : Monitor.Awake ⟨sh, u ++ (pc, notified) :: v⟩) (hpc : pc ≠ .returned)
    (hret : .returned ∉ (u ++ v).map Prod.fst) (active : ℤ) (hpos : 0 < active) :
    Monitor.Awake ⟨({ sh with nThreadsActive := active } : Shared).enter.1,
      signal sh pc ({ sh with nThreadsActive := active } : Shared).enter.2 u ++
        (({ sh with nThreadsActive := active } : Shared).enter.2, false) ::
        signal sh pc ({ sh with nThreadsActive := active } : Shared).enter.2 v⟩ := by
  obtain ⟨hasleep, -⟩ := h.others hpc
  rcases Shared.enter_cases { sh with nThreadsActive := active } hpos with
    ⟨hcur, hone, he⟩ | ⟨hcur, hmore, he⟩ | ⟨m, hcur, he⟩ <;> rw [he]
  · -- the last active thread returns and notifies all
    refine .next (fun hm => ?_) (absurd rfl)
    simp [notifies] at hm
  · refine .next (fun _ => ⟨hcur, nofun, hret⟩) fun _ _ => ?_
    simp only at hmore ⊢
    omega
  · refine .next (fun hm => ?_) fun _ _ => hpos
    have hnone := (hasleep (hm.resolve_left nofun).2).1
    exact absurd (hnone.symm.trans hcur) nofun

/-- Every step keeps the threads awake. -/
theorem Monitor.Awake.act (h : Monitor.Awake ⟨sh, u ++ (pc, notified) :: v⟩)
    (hcounted : Counted sh (u.map Prod.fst ++ pc :: v.map Prod.fst)) (ha : Act cfg sh pc sh' pc') :
    Monitor.Awake ⟨sh', signal sh pc pc' u ++ (pc', false) :: signal sh pc pc' v⟩ := by
  cases ha with
  | enter =>
    obtain ⟨hret, hcount⟩ := hcounted.start
    rw [← List.map_append] at hret
    exact h.enter (by simp) hret sh.nThreadsActive (by omega)
  | wake =>
    rcases hcounted with ⟨hret, -⟩ | ⟨hzero, hcur, -⟩
    · have hret : .returned ∉ (u ++ v).map Prod.fst := by simpa using hret
      have hpos := (h.others (by simp)).2 hret
      exact h.enter (by simp) hret _ (by omega)
    · -- the others have returned, and so does this one
      have hwake : sh.wake = ({ sh with nThreadsActive := 0 }, .returned) := by
        simp [Shared.wake, Shared.enter, hcur, hzero]
      rw [hwake]
      refine .next (fun hm => ?_) (absurd rfl)
      simp [notifies] at hm
  | @emplace toP b =>
    obtain ⟨hasleep, hactive⟩ := h.others (by simp)
    refine .next (fun hm => ?_) fun _ hr => hactive hr
    obtain ⟨hn, hm⟩ := hm.resolve_left (by simp)
    have hsome : sh.currBox.isNone = false := hn
    rw [(hasleep hm).1] at hsome
    cases hsome
  | _ => exact h.advance (by simp) (by simp) rfl rfl (by simp)

/-! ## Progress -/

/-- The solvers answer true or false on every box. -/
def Config.Answers (cfg : Config) : Prop :=
  ∀ i < cfg.shapes, ∀ c, (cfg.pos i c .yes ∨ cfg.pos i c .no) ∧ (cfg.neg i c .yes ∨ cfg.neg i c .no)

/-- `idx_solver` is an index of the solvers or one more. -/
def Pc.InLoop (k : ℕ) : Pc → Prop
  | .working _ (.visiting i _) => i ≤ k
  | _ => True

theorem Process.inLoop {b b' : BoundingBox} {st st' : Stage} (h : Process cfg b st b' st') (n : ℕ) :
    (Pc.working n st').InLoop cfg.shapes := by
  cases h with
  | enter => exact Nat.zero_le _
  | skip hi => exact hi
  | certify hi => exact hi
  | inconclusive hi => exact hi
  | _ => trivial

theorem Shared.enter_inLoop (sh : Shared) (k : ℕ) : sh.enter.2.InLoop k := by
  unfold Shared.enter
  cases sh.currBox with
  | none => dsimp only; split_ifs <;> trivial
  | some m => dsimp only; split_ifs <;> trivial

theorem Act.inLoop (h : Act cfg sh pc sh' pc') : pc'.InLoop cfg.shapes := by
  cases h with
  | enter => exact sh.enter_inLoop _
  | wake => exact Shared.enter_inLoop _ _
  | process hp => exact hp.inLoop _
  | _ => trivial

/-- What holds of the threads and the list at any time. -/
structure Monitor.Inv (cfg : Config) (q : Monitor) : Prop where
  layout : ∃ taken pending kept, Layout q.state taken pending kept
  awake : q.Awake
  inLoop : ∀ pc ∈ q.state.threads, pc.InLoop cfg.shapes

theorem Monitor.Inv.init (cfg : Config) {l : Ll} {seq : List ℕ} (hl : l.Holds seq) {nThreads : ℕ} (hn : 0 < nThreads) :
    (Monitor.init l nThreads).Inv cfg := by
  have hstart : ∀ p ∈ (Monitor.init l nThreads).threads, p = (.start, false) := fun p hp => (List.mem_replicate.1 hp).2
  refine ⟨?_, ⟨fun hm => absurd (hstart _ hm) nofun, fun _ => ?_⟩, ?_⟩
  · obtain ⟨taken, pending, kept, hlay, -⟩ := abs_init hl nThreads
    exact ⟨taken, pending, kept, state_init l nThreads ▸ hlay⟩
  · exact Int.natCast_pos.2 hn
  · intro pc hpc
    obtain ⟨p, hp, rfl⟩ := List.mem_map.1 hpc
    rw [hstart p hp]
    trivial

theorem Monitor.Step.inv (hs : Monitor.Step cfg q q') (h : q.Inv cfg) : q'.Inv cfg := by
  obtain ⟨⟨taken, pending, kept, hlay⟩, hawake, hloop⟩ := h
  cases hs with
  | @act sh sh' pc pc' notified u v ha hwake =>
    rw [state_at] at hlay hloop
    obtain ⟨taken', pending', kept', hlay', -⟩ := ha.simulate hlay
    refine ⟨⟨taken', pending', kept', ?_⟩, hawake.act hlay.counted ha, ?_⟩
    · rwa [state_at, map_fst_signal, map_fst_signal]
    · rw [state_at, map_fst_signal, map_fst_signal]
      intro p hp
      simp only [List.mem_append, List.mem_cons] at hp hloop
      rcases hp with hp | rfl | hp
      · exact hloop p (.inl hp)
      · exact ha.inLoop
      · exact hloop p (.inr (.inr hp))
  | @filter sh toP notified u v =>
    rw [state_at] at hlay hloop
    obtain ⟨taken', hlay'⟩ := hlay.remove sh.gone
    have hawake' : Monitor.Awake ⟨{ sh with frags := (sh.frags.remove toP).2 },
        signal sh (.working toP .taken) .start u ++ (.start, false) :: signal sh (.working toP .taken) .start v⟩ :=
      hawake.advance nofun nofun rfl rfl nofun
    refine ⟨⟨taken', pending, kept, ?_⟩, hawake', ?_⟩
    · rw [state_at]
      exact hlay'
    · rw [state_at]
      intro p hp
      simp only [List.mem_append, List.mem_cons] at hp hloop
      rcases hp with hp | rfl | hp
      · exact hloop p (.inl hp)
      · trivial
      · exact hloop p (.inr (.inr hp))

theorem Monitor.Steps.inv {q₀ : Monitor} {k : ℕ} (h : Monitor.Steps cfg q₀ k q) (h₀ : q₀.Inv cfg) : q.Inv cfg := by
  induction h with
  | refl => exact h₀
  | tail _ hs ih => exact hs.inv ih

/-- The work on a box goes on until something is to be done to the list. -/
theorem Process.exists_next (hans : cfg.Answers) (hvol : 0 < cfg.volLimit) (b : BoundingBox) {st : Stage}
    (hst : st = .taken ∨ st = .settle ∨ ∃ i found, st = .visiting i found ∧ i ≤ cfg.shapes) :
    ∃ b' st', Process cfg b st b' st' := by
  rcases hst with rfl | rfl | ⟨i, found, rfl, hi⟩
  · by_cases hv : cfg.integer = true ∧ b.notValid = true
    · exact ⟨_, _, .invalid hv.1 hv.2⟩
    · exact ⟨_, _, .enter fun hint => by simpa [hint] using hv⟩
  · by_cases hnorm : b.norm < cfg.volLimit
    · exact ⟨_, _, .small hnorm⟩
    · have hlong : -1 < b.norm := by linarith [not_lt.1 hnorm]
      obtain ⟨this, n, hs⟩ := BoundingBox.exists_split hlong
      exact ⟨_, _, .divide hnorm hs⟩
  · rcases hi.lt_or_eq with hi | rfl
    · by_cases hpos : 0 < b.stateAt i
      · exact ⟨_, _, .skip hi hpos⟩
      · obtain ⟨h1, h2⟩ := hans i hi b.coords
        rcases h1 with h1 | h1
        · exact ⟨_, _, .certify hi hpos h1⟩
        · rcases h2 with h2 | h2
          · exact ⟨_, _, .refute hi hpos h1 h2⟩
          · exact ⟨_, _, .inconclusive hi hpos h1 h2⟩
    · cases found with
      | inside => exact ⟨_, _, .accept⟩
      | keep => exact ⟨_, _, .undecided⟩

/-- When the mutex is free, every thread that has not returned has a next step. -/
theorem Act.exists_next (hans : cfg.Answers) (hvol : 0 < cfg.volLimit) (hfree : sh.locked = false)
    (hloop : pc.InLoop cfg.shapes) (hpc : pc ≠ .returned) : ∃ sh' pc', Act cfg sh pc sh' pc' := by
  have hprocess : ∀ {toP : ℕ} {st : Stage},
      (st = .taken ∨ st = .settle ∨ ∃ i found, st = .visiting i found ∧ i ≤ cfg.shapes) →
      ∃ sh' pc', Act cfg sh (.working toP st) sh' pc' := by
    intro toP st hst
    obtain ⟨b', st', hp⟩ := Process.exists_next hans hvol (sh.frags.box toP) hst
    exact ⟨_, _, .process hp⟩
  cases pc with
  | start => exact ⟨_, _, .enter hfree⟩
  | waiting => exact ⟨_, _, .wake hfree⟩
  | working toP st =>
    cases st with
    | taken => exact hprocess (.inl rfl)
    | visiting i found => exact hprocess (.inr (.inr ⟨i, found, rfl, hloop⟩))
    | refuted => exact ⟨_, _, .discard⟩
    | invalid => exact ⟨_, _, .drop⟩
    | settle => exact hprocess (.inr (.inl rfl))
    | finished => exact ⟨_, _, .leave⟩
    | halved b => exact ⟨_, _, .emplace hfree⟩
  | appending b => exact ⟨_, _, .append⟩
  | returned => exact absurd rfl hpc

/-- All threads have returned. -/
def Monitor.Finished (q : Monitor) : Prop := q.state.Finished

theorem Monitor.Inv.progress (hans : cfg.Answers) (hvol : 0 < cfg.volLimit) (h : q.Inv cfg) :
    q.Finished ∨ ∃ q', Monitor.Step cfg q q' := by
  obtain ⟨⟨taken, pending, kept, hlay⟩, hawake, hloop⟩ := h
  obtain ⟨sh, threads⟩ := q
  cases hfree : sh.locked with
  | true =>
    -- the thread that holds the mutex appends its half
    have hone : (threads.map Prod.fst).countP Pc.appends = 1 := by
      have := hlay.mutex
      rwa [Mutex, Monitor.state, hfree, if_pos rfl] at this
    obtain ⟨pc, hpc, happ⟩ := List.countP_pos_iff.1 (hone ▸ Nat.one_pos)
    obtain ⟨⟨pc, m⟩, hp, rfl⟩ := List.mem_map.1 hpc
    obtain ⟨u, v, rfl⟩ := List.append_of_mem hp
    cases pc with
    | appending b => exact .inr ⟨_, .act u v .append nofun⟩
    | _ => cases happ
  | false =>
    by_cases hmove : ∃ p ∈ threads, p.1 ≠ .returned ∧ p ≠ (.waiting, false)
    · obtain ⟨⟨pc, m⟩, hp, hret, hne⟩ := hmove
      obtain ⟨u, v, rfl⟩ := List.append_of_mem hp
      obtain ⟨sh', pc', ha⟩ := Act.exists_next hans hvol hfree (hloop pc (List.mem_map_of_mem hp)) hret
      refine .inr ⟨_, .act u v ha fun hw => ?_⟩
      subst hw
      simpa using hne
    · left
      push Not at hmove
      intro pc hpc
      obtain ⟨p, hp, rfl⟩ := List.mem_map.1 hpc
      by_contra hret
      -- everyone would sleep, but then no thread is active
      have hp := hmove p hp hret ▸ hp
      obtain ⟨-, hno⟩ := hawake.asleep hp
      have hpos := hawake.active hno
      rcases hlay.counted with ⟨-, hcount⟩ | ⟨hzero, -, -⟩
      · have hnone : (Monitor.state ⟨sh, threads⟩).threads.countP (· ≠ .waiting) = 0 := by
          refine List.countP_eq_zero.2 fun pc' hpc' => ?_
          obtain ⟨p', hp', rfl⟩ := List.mem_map.1 hpc'
          have hne : p'.1 ≠ .returned := fun he => hno (he ▸ hpc')
          rw [hmove p' hp' hne]
          simp
        rw [hnone] at hcount
        exact absurd hcount hpos.ne'
      · exact absurd hzero hpos.ne'

/-- **No lost wake-up.** Whatever the solvers answer and however the threads are scheduled, in every state
that is reached some thread can go on, unless all have returned. -/
theorem threads_never_stuck (hans : cfg.Answers) (hvol : 0 < cfg.volLimit) (acoords : Coords) {nThreads : ℕ}
    (hn : 0 < nThreads) {k : ℕ}
    (hrun : Monitor.Steps cfg (Monitor.init (initialList acoords cfg.shapes) nThreads) k q) :
    q.Finished ∨ ∃ q', Monitor.Step cfg q q' :=
  (hrun.inv (.init cfg (Ll.holds_new _) hn)).progress hans hvol

theorem Decided.answers (D : Decided) : D.config.Answers := by
  intro i _ c
  simp only [Decided.pos_yes, Decided.pos_no, Decided.neg_yes, Decided.neg_no]
  exact ⟨Bool.eq_false_or_eq_true _, Bool.eq_false_or_eq_true _⟩

/-- Two threads on the interval from 0 to 1: the first has taken it, the second sleeps. -/
theorem exists_asleep : ∃ q, Monitor.Steps Decided.unsure.config (Monitor.init (initialList [(0, 1)] 1) 2) 2 q ∧
    q.threads = [(.working 0 .taken, false), (.waiting, false)] := by
  have h1 : Monitor.Steps Decided.unsure.config (Monitor.init (initialList [(0, 1)] 1) 2) 1 _ :=
    .tail .refl (.act [] [(.start, false)] (.enter rfl) nofun)
  have h2 := h1.tail (.act [(.working 0 .taken, false)] [] (.enter rfl) nofun)
  exact ⟨_, h2, rfl⟩

/-- The first of them can go on. -/
theorem threads_never_stuck_asleep :
    ∃ q, Monitor.Steps Decided.unsure.config (Monitor.init (initialList [(0, 1)] 1) 2) 2 q ∧
      (.waiting, false) ∈ q.threads ∧ ∃ q', Monitor.Step Decided.unsure.config q q' := by
  obtain ⟨q, hq, hthreads⟩ := exists_asleep
  have hasleep : (.waiting, false) ∈ q.threads := by simp [hthreads]
  refine ⟨q, hq, hasleep, ?_⟩
  rcases threads_never_stuck Decided.unsure.answers (by decide) [(0, 1)] Nat.two_pos hq with hfin | hnext
  · exact absurd (hfin _ (List.mem_map_of_mem hasleep)) nofun
  · exact hnext

/-! ## Termination -/

/-- The steps that one visit of a box can take, with `k` shapes. -/
def visitSteps (k : ℕ) : ℕ := k + 7

/-- The steps that are still to come from an item. -/
def Token.work (k : ℕ) (vol : ℚ) : Token → ℕ
  | .pending b => visitSteps k * b.visits vol
  | .loose b => visitSteps k * b.visits vol + 1
  | .held b .taken => visitSteps k * (b.visits vol - 1) + k + 6
  | .held b (.visiting i _) => visitSteps k * (b.visits vol - 1) + (k - i) + 5
  | .held b .settle => visitSteps k * (b.visits vol - 1) + 4
  | .held b (.halved n) => visitSteps k * ((b.round 1).visits vol + (n.round 1).visits vol) + 2
  | .held _ _ => 1
  | .done _ => 0
  | .gone _ => 0

theorem BoundingBox.work_split (k : ℕ) (vol : ℚ) (b : BoundingBox) :
    visitSteps k * b.visits vol = visitSteps k * (b.visits vol - 1) + k + 7 := by
  obtain ⟨m, hm⟩ : ∃ m, b.visits vol = m + 1 := ⟨b.visits vol - 1, (Nat.sub_add_cancel (b.visits_pos vol)).symm⟩
  rw [hm, Nat.add_sub_cancel, Nat.mul_succ, visitSteps]
  ring

theorem Process.work_lt (hvol : 0 < cfg.volLimit) {b b' : BoundingBox} {st st' : Stage} (h : Process cfg b st b' st') :
    (Token.held b' st').work cfg.shapes cfg.volLimit < (Token.held b st).work cfg.shapes cfg.volLimit := by
  have hset : ∀ i v, (b.setState i v).visits cfg.volLimit = b.visits cfg.volLimit := fun _ _ =>
    BoundingBox.visits_congr rfl
  cases h with
  | divide hn hs =>
    obtain ⟨dir, c, hsplit⟩ := BoundingBox.split_isSplit hs
    have hle := Nat.mul_le_mul_left (visitSteps cfg.shapes) (hsplit.visits_le hvol (not_lt.1 hn))
    simp only [Token.work]
    omega
  | _ =>
    simp only [Token.work, hset]
    omega

/-- Every rule takes a step. -/
theorem Rule.work_lt (hint : cfg.integer = true) (hvol : 0 < cfg.volLimit) {t : Token} {ts : Multiset Token}
    (h : Rule cfg t ts) : (ts.map (Token.work cfg.shapes cfg.volLimit)).sum < t.work cfg.shapes cfg.volLimit := by
  cases h with
  | fetch b =>
    have := b.work_split cfg.shapes cfg.volLimit
    simp only [Multiset.map_singleton, Multiset.sum_singleton, Token.work]
    omega
  | process hp => simpa using hp.work_lt hvol
  | timeout =>
    simp only [Multiset.map_singleton, Multiset.sum_singleton, Token.work]
    omega
  | halve b n =>
    simp only [Multiset.insert_eq_cons, Multiset.map_cons, Multiset.map_singleton, Multiset.sum_cons,
      Multiset.sum_singleton, Token.work, Config.half, hint, if_true, Nat.mul_add]
    omega
  | shelve _ hreal => rw [hint] at hreal; cases hreal
  | rescore _ hreal => rw [hint] at hreal; cases hreal
  | _ => simp [Token.work]

/-- The steps that are still to come from a number of items. -/
def workLeft (cfg : Config) (M : Multiset Token) : ℕ := (M.map (Token.work cfg.shapes cfg.volLimit)).sum

theorem workLeft_add (M N : Multiset Token) : workLeft cfg (M + N) = workLeft cfg M + workLeft cfg N := by
  rw [workLeft, Multiset.map_add, Multiset.sum_add]
  rfl

theorem Fetch.work_le (cfg : Config) {k : ℕ} {M N : Multiset Token} (h : Fetch k M N) :
    k + workLeft cfg N ≤ workLeft cfg M := by
  cases h with
  | none => exact (Nat.zero_add _).le
  | one b M =>
    have hheld : workLeft cfg {Token.held b .taken} = (Token.held b .taken).work cfg.shapes cfg.volLimit :=
      Multiset.sum_singleton _
    have hpending : workLeft cfg {Token.pending b} = (Token.pending b).work cfg.shapes cfg.volLimit :=
      Multiset.sum_singleton _
    have := b.work_split cfg.shapes cfg.volLimit
    rw [workLeft_add, workLeft_add, hheld, hpending]
    simp only [Token.work]
    omega

/-- The head of the loop ends with a wait, a return or a box. -/
theorem Shared.enter_pc (sh : Shared) : sh.enter.2 = .waiting ∨ sh.enter.2 = .returned ∨ sh.enter.2.visits = 1 := by
  unfold Shared.enter
  cases sh.currBox with
  | none => dsimp only; split_ifs <;> simp
  | some m => dsimp only; split_ifs <;> simp [Pc.visits]

/-- A step uses up work, or a thread without any goes back to sleep or returns. -/
theorem Act.work (hint : cfg.integer = true) (hvol : 0 < cfg.volLimit) {u v : List Pc} {taken pending kept : List ℕ}
    (ha : Act cfg sh pc sh' pc') (h : Layout ⟨sh, u ++ pc :: v⟩ taken pending kept) :
    ∃ taken' pending' kept', Layout ⟨sh', u ++ pc' :: v⟩ taken' pending' kept' ∧
      (workLeft cfg (State.items ⟨sh', u ++ pc' :: v⟩ pending' kept') <
          workLeft cfg (State.items ⟨sh, u ++ pc :: v⟩ pending kept) ∨
        workLeft cfg (State.items ⟨sh', u ++ pc' :: v⟩ pending' kept') ≤
            workLeft cfg (State.items ⟨sh, u ++ pc :: v⟩ pending kept) ∧
          (pc = .start ∨ pc = .waiting) ∧ (pc' = .waiting ∨ pc' = .returned)) := by
  by_cases hidle : pc = .start ∨ pc = .waiting
  · obtain ⟨taken', pending', hl, hf, hpc'⟩ : ∃ taken' pending', Layout ⟨sh', u ++ pc' :: v⟩ taken' pending' kept ∧
        Fetch pc'.visits (State.items ⟨sh, u ++ pc :: v⟩ pending kept)
          (State.items ⟨sh', u ++ pc' :: v⟩ pending' kept) ∧
        (pc' = .waiting ∨ pc' = .returned ∨ pc'.visits = 1) := by
      cases ha with
      | enter hlock =>
        obtain ⟨taken', pending', hl, hf⟩ := h.enter hlock
        exact ⟨taken', pending', hl, hf, sh.enter_pc⟩
      | wake hlock =>
        obtain ⟨taken', pending', hl, hf⟩ := h.wake hlock
        exact ⟨taken', pending', hl, hf, Shared.enter_pc _⟩
      | _ => rcases hidle with h | h <;> cases h
    have hle := hf.work_le cfg
    refine ⟨taken', pending', kept, hl, ?_⟩
    rcases hpc' with hw | hr | hone
    · exact .inr ⟨by omega, hidle, .inl hw⟩
    · exact .inr ⟨by omega, hidle, .inr hr⟩
    · exact .inl (by omega)
  · rw [not_or] at hidle
    obtain ⟨taken', pending', kept', hl, hf⟩ := ha.fires h hidle.1 hidle.2
    exact ⟨taken', pending', kept', hl, .inl (hf.sum_lt fun _ _ hr => hr.work_lt hint hvol)⟩

/-- Removing a box that was taken uses up its work. -/
theorem Layout.filter_work (cfg : Config) {u v : List Pc} {taken pending kept : List ℕ} {n : ℕ}
    (h : Layout ⟨sh, u ++ .working n .taken :: v⟩ taken pending kept) :
    ∃ taken', Layout ⟨{ sh with frags := (sh.frags.remove n).2 }, u ++ .start :: v⟩ taken' pending kept ∧
      workLeft cfg (State.items ⟨{ sh with frags := (sh.frags.remove n).2 }, u ++ .start :: v⟩ pending kept) <
        workLeft cfg (State.items ⟨sh, u ++ .working n .taken :: v⟩ pending kept) := by
  obtain ⟨taken', hl⟩ := h.remove sh.gone
  refine ⟨taken', hl, ?_⟩
  have hrest : rest { sh with frags := (sh.frags.remove n).2 } u v pending kept = rest sh u v pending kept :=
    rest_congr (fun p _ => Ll.box_remove _ _ _) rfl
  have hheld : workLeft cfg (Pc.items sh.frags (.working n .taken)) =
      (Token.held (sh.frags.box n) .taken).work cfg.shapes cfg.volLimit := Multiset.sum_singleton _
  rw [items_at, items_at, hrest, workLeft_add, workLeft_add, hheld]
  exact Nat.add_lt_add_right (Nat.succ_pos _) _

/-- A thread that would run without being notified. -/
def Ready (p : Pc × Bool) : Bool := p.1 = .start ∨ p.1 = .waiting ∧ p.2 = true

/-- The threads that have not returned. -/
def Live (p : Pc × Bool) : Bool := p.1 ≠ .returned

/-- The steps that are still to come: those of the items and of the threads that return, with a wake-up of
every thread after each, and those of the threads that are ready. -/
def Monitor.stepsLeft (cfg : Config) (q : Monitor) (pending kept : List ℕ) : ℕ :=
  (workLeft cfg (q.state.items pending kept) + q.threads.countP Live) * (q.threads.length + 1) + q.threads.countP Ready

theorem length_signal (sh : Shared) (pc pc' : Pc) (threads : List (Pc × Bool)) :
    (signal sh pc pc' threads).length = threads.length := by
  unfold signal notifyAll
  split_ifs <;> simp

theorem live_signal (sh : Shared) (pc pc' : Pc) (threads : List (Pc × Bool)) :
    (signal sh pc pc' threads).countP Live = threads.countP Live := by
  unfold signal notifyAll
  split_ifs
  · rw [List.countP_map]
    rfl
  · rfl

theorem countP_pair (f : Pc × Bool → Bool) (u v : List (Pc × Bool)) (p : Pc × Bool) :
    (u ++ p :: v).countP f = u.countP f + v.countP f + if f p then 1 else 0 := by
  rw [List.countP_append, List.countP_cons, Nat.add_assoc]

/-- A step that uses up work, or the work of a thread that returns, pays for waking all the threads. -/
theorem stepsLeft_lt {w w' live live' n ready ready' : ℕ} (h : w' + live' < w + live) (hready : ready' ≤ n) :
    (w' + live') * (n + 1) + ready' < (w + live) * (n + 1) + ready := by
  have := Nat.mul_le_mul_right (n + 1) h
  rw [Nat.succ_mul] at this
  omega

theorem Monitor.Step.stepsLeft_lt (hint : cfg.integer = true) (hvol : 0 < cfg.volLimit) (hs : Monitor.Step cfg q q')
    {taken pending kept : List ℕ} (h : Layout q.state taken pending kept) :
    ∃ taken' pending' kept', Layout q'.state taken' pending' kept' ∧
      q'.stepsLeft cfg pending' kept' < q.stepsLeft cfg pending kept := by
  cases hs with
  | @act sh sh' pc pc' notified u v ha hwake =>
    rw [state_at] at h
    obtain ⟨taken', pending', kept', hl, hwork⟩ := ha.work hint hvol h
    have hpc : pc ≠ .returned := by
      rintro rfl
      cases ha
    refine ⟨taken', pending', kept', by rwa [state_at, map_fst_signal, map_fst_signal], ?_⟩
    simp only [Monitor.stepsLeft, state_at, map_fst_signal, List.length_append, List.length_cons, length_signal]
    have hlive : (u ++ (pc, notified) :: v).countP Live = u.countP Live + v.countP Live + 1 := by
      have : Live (pc, notified) = true := by simpa [Live] using hpc
      rw [countP_pair, this, if_pos rfl]
    have hlive' : (signal sh pc pc' u ++ (pc', false) :: signal sh pc pc' v).countP Live =
        u.countP Live + v.countP Live + if Live (pc', false) then 1 else 0 := by
      rw [countP_pair, live_signal, live_signal]
    have hready' : (signal sh pc pc' u ++ (pc', false) :: signal sh pc pc' v).countP Ready ≤
        u.length + (v.length + 1) := by
      refine List.countP_le_length.trans_eq ?_
      rw [List.length_append, List.length_cons, length_signal, length_signal]
    have hone : (if Live (pc', false) then 1 else 0) ≤ 1 := by split_ifs <;> omega
    rcases hwork with hlt | ⟨hle, hidle, rfl | rfl⟩
    · exact Grid.stepsLeft_lt (by omega) hready'
    · -- back to sleep: no one is woken
      have hsignal : signal sh pc .waiting = id := by
        rcases hidle with rfl | rfl <;> rfl
      have hready : Ready (pc, notified) = true := by
        rcases hidle with rfl | rfl
        · rfl
        · simp [Ready, hwake rfl]
      rw [hsignal, id, id, hlive, countP_pair, countP_pair Ready, countP_pair Ready, hready]
      have : Live (.waiting, false) = true := rfl
      have : Ready (.waiting, false) = false := rfl
      simp only [*, if_true, Bool.false_eq_true, if_false]
      have := Nat.mul_le_mul_right (u.length + (v.length + 1) + 1)
        (Nat.add_le_add_right hle (u.countP Live + v.countP Live + 1))
      omega
    · have : Live (.returned, false) = false := rfl
      rw [this] at hlive'
      exact Grid.stepsLeft_lt (by simp only [Bool.false_eq_true, if_false] at hlive'; omega) hready'
  | @filter sh toP notified u v =>
    rw [state_at] at h
    obtain ⟨taken', hl, hlt⟩ := h.filter_work cfg
    refine ⟨taken', pending, kept, by rw [state_at]; exact hl, ?_⟩
    simp only [Monitor.stepsLeft, state_at, List.length_append, List.length_cons]
    refine Grid.stepsLeft_lt ?_ (List.countP_le_length.trans_eq (by simp))
    rw [countP_pair, countP_pair]
    simpa [Live] using hlt

theorem Monitor.Steps.bounded (hint : cfg.integer = true) (hvol : 0 < cfg.volLimit) {q₀ : Monitor}
    {taken pending kept : List ℕ} (h₀ : Layout q₀.state taken pending kept) {k : ℕ} (h : Monitor.Steps cfg q₀ k q) :
    ∃ taken' pending' kept', Layout q.state taken' pending' kept' ∧
      k + q.stepsLeft cfg pending' kept' ≤ q₀.stepsLeft cfg pending kept := by
  induction h with
  | refl => exact ⟨taken, pending, kept, h₀, (Nat.zero_add _).le⟩
  | tail _ hs ih =>
    obtain ⟨taken₁, pending₁, kept₁, hl, hle⟩ := ih
    obtain ⟨taken₂, pending₂, kept₂, hl', hlt⟩ := hs.stepsLeft_lt hint hvol hl
    exact ⟨taken₂, pending₂, kept₂, hl', by omega⟩

/-- **Every run ends.** Whatever the solvers answer and however the threads are scheduled, `run_threads`
takes no more steps than the visits of the initial box allow, with a wake-up of every thread after each. -/
theorem steps_bounded (hint : cfg.integer = true) (hvol : 0 < cfg.volLimit) (acoords : Coords) (nThreads : ℕ) {k : ℕ}
    (hrun : Monitor.Steps cfg (Monitor.init (initialList acoords cfg.shapes) nThreads) k q) :
    k ≤ ((cfg.shapes + 7) * (2 ^ ((BoundingBox.new acoords).cells cfg.volLimit + 1) - 1) + nThreads) * (nThreads + 1) +
      nThreads := by
  obtain ⟨taken, pending, kept, hlay, hitems⟩ :=
    abs_init (Ll.holds_new _) (l := initialList acoords cfg.shapes) nThreads
  rw [← state_init] at hlay hitems
  obtain ⟨taken', pending', kept', -, hle⟩ := hrun.bounded hint hvol hlay
  refine (Nat.le_add_right k _).trans (hle.trans ?_)
  have hwork : workLeft cfg ((initialList acoords cfg.shapes).boxes.map Token.pending : List Token) =
      (cfg.shapes + 7) * (2 ^ ((BoundingBox.new acoords).cells cfg.volLimit + 1) - 1) := Multiset.sum_singleton _
  have hlen : (Monitor.init (initialList acoords cfg.shapes) nThreads).threads.length = nThreads :=
    List.length_replicate
  have hcount : ∀ f, (Monitor.init (initialList acoords cfg.shapes) nThreads).threads.countP f ≤ nThreads := fun f =>
    List.countP_le_length.trans_eq hlen
  unfold Monitor.stepsLeft
  rw [← hitems, hwork, hlen]
  exact Nat.add_le_add (Nat.mul_le_mul_right _ (Nat.add_le_add_left (hcount Live) _)) (hcount Ready)

theorem steps_bounded_asleep :
    ∃ q, Monitor.Steps Decided.unsure.config (Monitor.init (initialList [(0, 1)] 1) 2) 2 q ∧
      2 ≤ ((Decided.unsure.config.shapes + 7) *
        (2 ^ ((BoundingBox.new [(0, 1)]).cells Decided.unsure.config.volLimit + 1) - 1) + 2) * (2 + 1) + 2 := by
  obtain ⟨q, hq, -⟩ := exists_asleep
  exact ⟨q, hq, steps_bounded rfl (by decide) [(0, 1)] 2 hq⟩

end GridSolve.Grid
