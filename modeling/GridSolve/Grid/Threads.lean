/-
`run_threads` and `run_thread_int` (`approximation.cpp`): any number of threads work on one list of
boxes with a shared cursor. A step of the machine is a region under the cursor's mutex, an operation
of the list, or a piece of a thread's work on its own box. A region that calls the list twice is two
steps, between which other threads may use the list but not the cursor.

The machine refines the rules for single boxes: the nodes before the cursor are those taken, each of
them held by exactly one thread or finished, and the nodes from the cursor on are waiting.
-/
import GridSolve.Grid.Ll
import GridSolve.Grid.Refine

namespace GridSolve.Grid

open GridSolve.Rewriting

/-- Where a thread is in `run_thread_int`. -/
inductive Pc
  /-- at the head of the loop -/
  | start
  /-- in `wait_queue.wait` -/
  | waiting
  /-- processing `to_p` -/
  | working (toP : ℕ) (stage : Stage)
  /-- inside the region that puts the halves on the list, before `add_node` -/
  | appending (b : BoundingBox)
  | returned
  deriving DecidableEq, Repr

/-- What the threads share. -/
structure Shared where
  frags : Ll
  currBox : Option ℕ
  nThreadsActive : ℤ
  /-- `data_mutex` is held by a thread between two of its steps. -/
  locked : Bool
  /-- The boxes removed on the answer of a negative solver; no step reads it. -/
  gone : List BoundingBox

structure State where
  shared : Shared
  threads : List Pc

/-- The region at the head of the loop, up to a wait, the return, or a node taken from the cursor. -/
def Shared.enter (sh : Shared) : Shared × Pc :=
  match sh.currBox with
  | none =>
    if 0 < sh.nThreadsActive then
      let sh := { sh with nThreadsActive := sh.nThreadsActive - 1 }
      if sh.nThreadsActive = 0 then (sh, .returned) else (sh, .waiting)
    else (sh, .returned)
  | some toP =>
    if sh.nThreadsActive = 0 then (sh, .returned)
    else ({ sh with currBox := sh.frags.next toP }, .working toP .taken)

/-- The region after a wait: the thread counts as active again. -/
def Shared.wake (sh : Shared) : Shared × Pc := { sh with nThreadsActive := sh.nThreadsActive + 1 }.enter

/-- The region that puts `to_p` back, up to `add_node`: both halves are rounded, `to_p` moves to the
end, and becomes the cursor if there is none. -/
def Shared.emplace (cfg : Config) (toP : ℕ) (sh : Shared) : Shared :=
  let frags := sh.frags.setBox toP (cfg.half (sh.frags.box toP))
  { sh with
    frags := (frags.emplaceNode toP).2
    currBox := match sh.currBox with
      | none => some toP
      | some c => some c
    locked := true }

/-- One step of a thread. -/
inductive Act (cfg : Config) : Shared → Pc → Shared → Pc → Prop
  | enter {sh : Shared} : sh.locked = false → Act cfg sh .start sh.enter.1 sh.enter.2
  -- a waiting thread may wake at any time, notified or not
  | wake {sh : Shared} : sh.locked = false → Act cfg sh .waiting sh.wake.1 sh.wake.2
  | process {sh : Shared} {toP : ℕ} {st st' : Stage} {b' : BoundingBox} :
      Process cfg (sh.frags.box toP) st b' st' →
      Act cfg sh (.working toP st) { sh with frags := sh.frags.setBox toP b' } (.working toP st')
  | drop {sh : Shared} {toP : ℕ} :
      Act cfg sh (.working toP .invalid) { sh with frags := (sh.frags.remove toP).2 } .start
  | discard {sh : Shared} {toP : ℕ} :
      Act cfg sh (.working toP .refuted)
        { sh with frags := (sh.frags.remove toP).2, gone := sh.frags.box toP :: sh.gone } .start
  | leave {sh : Shared} {toP : ℕ} : Act cfg sh (.working toP .finished) sh .start
  | emplace {sh : Shared} {toP : ℕ} {b : BoundingBox} : sh.locked = false →
      Act cfg sh (.working toP (.halved b)) (sh.emplace cfg toP) (.appending (cfg.half b))
  | append {sh : Shared} {b : BoundingBox} :
      Act cfg sh (.appending b) { sh with frags := sh.frags.addNode b, locked := false } .start

/-- One thread takes a step. -/
inductive Step (cfg : Config) : State → State → Prop
  | intro {sh sh' : Shared} {pc pc' : Pc} (u v : List Pc) (h : Act cfg sh pc sh' pc') :
      Step cfg ⟨sh, u ++ pc :: v⟩ ⟨sh', u ++ pc' :: v⟩

/-- The list that the constructor of `fragmentation_intersection` makes: one box, no shape certified. -/
def initialList (acoords : Coords) (shapes : ℕ) : Ll :=
  .new ((BoundingBox.new acoords).initCurrStateVec (List.replicate shapes 0))

/-- `run_threads` with the cursor at `HEAD`: all threads at the head of their loops. -/
def init (l : Ll) (nThreads : ℕ) : State :=
  { shared := { frags := l, currBox := l.head, nThreadsActive := nThreads, locked := false, gone := [] }
    threads := List.replicate nThreads .start }

/-- Any interleaving of the threads. -/
def Reaches (cfg : Config) : State → State → Prop := Relation.ReflTransGen (Step cfg)

/-! ## Running a schedule -/

namespace Decided

variable (D : Decided)

/-- The next step of a thread, unless it waits for the mutex or has returned. -/
def act (sh : Shared) : Pc → Option (Shared × Pc)
  | .start => if sh.locked then none else some sh.enter
  | .waiting => if sh.locked then none else some sh.wake
  | .working toP .invalid => some ({ sh with frags := (sh.frags.remove toP).2 }, .start)
  | .working toP .refuted =>
    some ({ sh with frags := (sh.frags.remove toP).2, gone := sh.frags.box toP :: sh.gone }, .start)
  | .working _ .finished => some (sh, .start)
  | .working toP (.halved b) =>
    if sh.locked then none else some (sh.emplace D.config toP, .appending (D.config.half b))
  | .working toP st =>
    (D.process (sh.frags.box toP) st).map fun q =>
      ({ sh with frags := sh.frags.setBox toP q.1 }, .working toP q.2)
  | .appending b => some ({ sh with frags := sh.frags.addNode b, locked := false }, .start)
  | .returned => none

/-- Thread `t` takes its next step. -/
def step (t : ℕ) (s : State) : Option State :=
  match s.threads[t]? with
  | none => none
  | some pc => (D.act s.shared pc).map fun q => ⟨q.1, s.threads.set t q.2⟩

/-- The threads take steps in the order of the schedule. -/
def run (schedule : List ℕ) (s : State) : Option State := schedule.foldlM (fun s t => D.step t s) s

theorem act_sound {sh sh' : Shared} {pc pc' : Pc} (h : D.act sh pc = some (sh', pc')) :
    Act D.config sh pc sh' pc' := by
  cases pc with
  | start =>
    cases hl : sh.locked with
    | true => simp [act, hl] at h
    | false =>
      rw [act, hl, if_neg Bool.false_ne_true, Option.some.injEq] at h
      have ha : Act D.config sh .start sh.enter.1 sh.enter.2 := .enter hl
      rwa [h] at ha
  | waiting =>
    cases hl : sh.locked with
    | true => simp [act, hl] at h
    | false =>
      rw [act, hl, if_neg Bool.false_ne_true, Option.some.injEq] at h
      have ha : Act D.config sh .waiting sh.wake.1 sh.wake.2 := .wake hl
      rwa [h] at ha
  | working toP st =>
    cases st with
    | invalid => cases h; exact .drop
    | refuted => cases h; exact .discard
    | finished => cases h; exact .leave
    | halved b =>
      simp only [act] at h
      split_ifs at h with hl
      cases h
      exact .emplace (by simpa using hl)
    | _ =>
      simp only [act] at h
      obtain ⟨⟨b', st'⟩, hq, he⟩ := Option.map_eq_some_iff.1 h
      cases he
      exact .process (D.process_sound hq)
  | appending b => cases h; exact .append
  | returned => cases h

theorem step_sound {t : ℕ} {s s' : State} (h : D.step t s = some s') : Step D.config s s' := by
  unfold step at h
  cases ht : s.threads[t]? with
  | none => rw [ht] at h; cases h
  | some pc =>
    rw [ht] at h
    obtain ⟨⟨sh', pc'⟩, hq, rfl⟩ := Option.map_eq_some_iff.1 h
    obtain ⟨hlt, rfl⟩ := List.getElem?_eq_some_iff.1 ht
    have hthreads : s.threads = s.threads.take t ++ s.threads[t] :: s.threads.drop (t + 1) := by simp
    have hset : s.threads.set t pc' = s.threads.take t ++ pc' :: s.threads.drop (t + 1) := by
      rw [List.set_eq_take_append_cons_drop, if_pos hlt]
    have hstep := Step.intro (s.threads.take t) (s.threads.drop (t + 1)) (D.act_sound hq)
    rwa [← hthreads, ← hset] at hstep

theorem run_reaches : ∀ {schedule : List ℕ} {s s' : State}, D.run schedule s = some s' → Reaches D.config s s'
  | [], s, s', h => by cases h; exact .refl
  | t :: schedule, s, s', h => by
    obtain ⟨s₁, h1, h2⟩ := Option.bind_eq_some_iff.1 h
    exact .head (D.step_sound h1) (run_reaches h2)

/-- One shape on which no solver is ever sure, and boxes split down to integer points. -/
def unsure : Decided := { shapes := 1, volLimit := 1, pos := fun _ _ => false, neg := fun _ _ => false }

end Decided

/-! ## The items of a state -/

/-- The nodes a thread holds. -/
def Pc.held : Pc → List ℕ
  | .working toP _ => [toP]
  | _ => []

def Pc.items (l : Ll) : Pc → Multiset Token
  | .working toP st => {.held (l.box toP) st}
  | .appending b => {.loose b}
  | _ => 0

def Pc.appends : Pc → Bool
  | .appending _ => true
  | _ => false

/-- 1 for a thread that has just taken a box from the cursor. -/
def Pc.visits : Pc → ℕ
  | .working _ .taken => 1
  | _ => 0

/-- The nodes the threads work on. -/
def State.held (s : State) : List ℕ := s.threads.flatMap Pc.held

/-- The items apart from those of one thread; `u` and `v` are the others. -/
def rest (sh : Shared) (u v : List Pc) (pending kept : List ℕ) : Multiset Token :=
  (pending.map fun n => Token.pending (sh.frags.box n) : List Token) +
    (kept.map fun n => Token.done (sh.frags.box n) : List Token) +
    (sh.gone.map Token.gone : List Token) + ((u ++ v : List Pc) : Multiset Pc).bind (Pc.items sh.frags)

/-- The items of a state. -/
def State.items (s : State) (pending kept : List ℕ) : Multiset Token := rest s.shared s.threads [] pending kept

/-- The counter: as long as no thread has returned it is the number of threads that do not wait;
after that there is nothing left to do. -/
def Counted (sh : Shared) (threads : List Pc) : Prop :=
  (.returned ∉ threads ∧ sh.nThreadsActive = threads.countP (· ≠ .waiting)) ∨
    (sh.nThreadsActive = 0 ∧ sh.currBox = none ∧ ∀ pc ∈ threads, pc = .waiting ∨ pc = .returned)

/-- The mutex is held between steps by the one thread that is about to append, if there is one. -/
def Mutex (sh : Shared) (threads : List Pc) : Prop := threads.countP Pc.appends = if sh.locked then 1 else 0

/-- The nodes are cut by the cursor into those taken and those pending, and a taken node is held by
one thread or kept. While the mutex is held there is a pending node. -/
structure Layout (s : State) (taken pending kept : List ℕ) : Prop where
  holds : s.shared.frags.Holds (taken ++ pending)
  cursor : s.shared.currBox = pending.head?
  perm : taken.Perm (kept ++ s.held)
  mutex : Mutex s.shared s.threads
  busy : s.shared.locked = true → pending ≠ []
  counted : Counted s.shared s.threads

/-- A state and its items. -/
def Abs (s : State) (M : Multiset Token) : Prop :=
  ∃ taken pending kept, Layout s taken pending kept ∧ M = s.items pending kept

variable {cfg : Config} {sh sh' : Shared} {u v : List Pc} {pc pc' : Pc} {taken pending kept : List ℕ} {n : ℕ}
  {st : Stage}

theorem items_at (sh : Shared) (u v : List Pc) (pc : Pc) (pending kept : List ℕ) :
    State.items ⟨sh, u ++ pc :: v⟩ pending kept = pc.items sh.frags + rest sh u v pending kept := by
  simp only [State.items, rest, List.append_nil, ← Multiset.coe_add, ← Multiset.cons_coe, Multiset.add_bind,
    Multiset.cons_bind]
  abel

/-- The nodes of one thread and those of the others. -/
theorem held_perm (sh : Shared) (u v : List Pc) (pc : Pc) :
    (State.held ⟨sh, u ++ pc :: v⟩).Perm (pc.held ++ (u ++ v).flatMap Pc.held) := by
  simp only [State.held, List.flatMap_append, List.flatMap_cons]
  exact List.perm_append_comm_assoc _ _ _

/-- Only the boxes of the nodes matter. -/
theorem items_congr {l l' : Ll} (h : ∀ p ∈ pc.held, l'.box p = l.box p) : pc.items l' = pc.items l := by
  cases pc with
  | working toP st => simp [Pc.items, h toP (by simp [Pc.held])]
  | _ => rfl

theorem rest_congr (hbox : ∀ p ∈ pending ++ kept ++ (u ++ v).flatMap Pc.held, sh'.frags.box p = sh.frags.box p)
    (hgone : sh'.gone = sh.gone) : rest sh' u v pending kept = rest sh u v pending kept := by
  have h1 : pending.map (fun n => Token.pending (sh'.frags.box n)) =
      pending.map fun n => Token.pending (sh.frags.box n) :=
    List.map_congr_left fun p hp => by rw [hbox p (by simp [hp])]
  have h2 : kept.map (fun n => Token.done (sh'.frags.box n)) = kept.map fun n => Token.done (sh.frags.box n) :=
    List.map_congr_left fun p hp => by rw [hbox p (by simp [hp])]
  have h3 : ((u ++ v : List Pc) : Multiset Pc).bind (Pc.items sh'.frags) =
      ((u ++ v : List Pc) : Multiset Pc).bind (Pc.items sh.frags) :=
    Multiset.bind_congr fun pc hpc => items_congr fun p hp =>
      hbox p (List.mem_append_right _ (List.mem_flatMap.2 ⟨pc, hpc, hp⟩))
  rw [rest, rest, h1, h2, h3, hgone]

theorem rest_pending_cons (sh : Shared) (u v : List Pc) (n : ℕ) (pending kept : List ℕ) :
    rest sh u v (n :: pending) kept = {Token.pending (sh.frags.box n)} + rest sh u v pending kept := by
  simp only [rest, List.map_cons, ← Multiset.cons_coe, ← Multiset.singleton_add]
  abel

theorem rest_pending_concat (sh : Shared) (u v : List Pc) (n : ℕ) (pending kept : List ℕ) :
    rest sh u v (pending ++ [n]) kept = {Token.pending (sh.frags.box n)} + rest sh u v pending kept := by
  rw [← rest_pending_cons]
  simp only [rest, List.map_append, List.map_cons, List.map_nil]
  rw [Multiset.coe_eq_coe.2 (List.perm_append_singleton _ _)]

theorem rest_kept_cons (sh : Shared) (u v : List Pc) (n : ℕ) (pending kept : List ℕ) :
    rest sh u v pending (n :: kept) = {Token.done (sh.frags.box n)} + rest sh u v pending kept := by
  simp only [rest, List.map_cons, ← Multiset.cons_coe, ← Multiset.singleton_add]
  abel

theorem rest_gone_cons (sh : Shared) (b : BoundingBox) (u v : List Pc) (pending kept : List ℕ) :
    rest { sh with gone := b :: sh.gone } u v pending kept = {Token.gone b} + rest sh u v pending kept := by
  simp only [rest, List.map_cons, ← Multiset.cons_coe, ← Multiset.singleton_add]
  abel

/-! ## What the layout says about a held node -/

theorem Layout.nodup {s : State} (h : Layout s taken pending kept) : (kept ++ s.held ++ pending).Nodup :=
  (h.perm.append_right pending).nodup_iff.1 h.holds.chain.nodup

/-- The node of a thread is taken, and apart from it there are the kept ones and those of the other
threads. -/
theorem Layout.perm_cons (h : Layout ⟨sh, u ++ .working n st :: v⟩ taken pending kept) :
    taken.Perm (n :: (kept ++ (u ++ v).flatMap Pc.held)) := by
  refine h.perm.trans (((held_perm sh u v _).append_left kept).trans ?_)
  exact List.perm_middle

/-- No one else has the node of a thread. -/
theorem Layout.apart (h : Layout ⟨sh, u ++ .working n st :: v⟩ taken pending kept) :
    n ∉ pending ++ kept ++ (u ++ v).flatMap Pc.held := by
  have hnd := ((h.perm_cons.append_right pending).trans (List.perm_append_comm)).nodup_iff.1 h.holds.chain.nodup
  rw [List.nodup_middle, List.nodup_cons] at hnd
  simpa [List.append_assoc] using hnd.1

/-- The node of a thread stands among the taken ones. -/
theorem Layout.cut (h : Layout ⟨sh, u ++ .working n st :: v⟩ taken pending kept) :
    ∃ pre post, taken = pre ++ n :: post ∧ (pre ++ post).Perm (kept ++ (u ++ v).flatMap Pc.held) := by
  obtain ⟨pre, post, rfl⟩ := List.append_of_mem (h.perm_cons.mem_iff.2 List.mem_cons_self)
  exact ⟨pre, post, rfl, (List.perm_middle.symm.trans h.perm_cons).cons_inv⟩

theorem countP_at (q : Pc → Bool) : (u ++ pc :: v).countP q = (u ++ v).countP q + if q pc then 1 else 0 := by
  simp only [List.countP_append, List.countP_cons]
  omega

/-- The nodes of the items are those of the list. -/
theorem Layout.allocated {s : State} (h : Layout s taken pending kept) :
    ∀ p ∈ pending ++ kept ++ s.held, p < s.shared.frags.fresh := by
  intro p hp
  apply h.holds.allocated
  rw [List.append_assoc, List.mem_append] at hp
  rcases hp with hp | hp
  · exact List.mem_append_right _ hp
  · exact List.mem_append_left _ (h.perm.mem_iff.2 hp)

/-- A thread that neither waits nor returns leaves the counter right. -/
theorem Counted.advance (h : Counted sh (u ++ pc :: v)) (h1 : pc ≠ .waiting) (h2 : pc ≠ .returned)
    (h1' : pc' ≠ .waiting) (h2' : pc' ≠ .returned) (hact : sh'.nThreadsActive = sh.nThreadsActive) :
    Counted sh' (u ++ pc' :: v) := by
  rcases h with ⟨hret, hcount⟩ | ⟨-, -, hall⟩
  · left
    constructor
    · simp only [List.mem_append, List.mem_cons, not_or] at hret ⊢
      exact ⟨hret.1, Ne.symm h2', hret.2.2⟩
    · rw [hact, hcount, countP_at, countP_at]
      simp [h1, h1']
  · rcases hall pc (by simp) with h | h
    · exact absurd h h1
    · exact absurd h h2

theorem held_free (sh : Shared) (hpc : pc.held = []) :
    State.held ⟨sh, u ++ pc :: v⟩ = (u ++ v).flatMap Pc.held := by
  simp [State.held, hpc]

theorem Mutex.keep (h : Mutex sh (u ++ pc :: v)) (hpc : pc'.appends = pc.appends) (hlock : sh'.locked = sh.locked) :
    Mutex sh' (u ++ pc' :: v) := by
  unfold Mutex at h ⊢
  rw [hlock, ← h, countP_at, countP_at, hpc]

theorem Mutex.acquire (h : Mutex sh (u ++ pc :: v)) (hfree : sh.locked = false) (hpc : pc.appends = false)
    (hpc' : pc'.appends = true) (hlock : sh'.locked = true) : Mutex sh' (u ++ pc' :: v) := by
  unfold Mutex at h ⊢
  rw [countP_at] at h ⊢
  simp only [hpc, hfree, Bool.false_eq_true, if_false, Nat.add_zero] at h
  simp [hpc', hlock, h]

/-- Only one thread appends, so the mutex is free when it has done so. -/
theorem Mutex.release (h : Mutex sh (u ++ pc :: v)) (hpc : pc.appends = true) (hpc' : pc'.appends = false)
    (hlock : sh'.locked = false) : sh.locked = true ∧ Mutex sh' (u ++ pc' :: v) := by
  unfold Mutex at h ⊢
  rw [countP_at] at h ⊢
  simp only [hpc, if_true] at h
  cases hl : sh.locked with
  | false => simp [hl] at h
  | true =>
    simp only [hl, if_true, Nat.add_eq_right] at h
    simp [hpc', hlock, h]

/-! ## The steps -/

/-- Work on the own box. -/
theorem Layout.process (h : Layout ⟨sh, u ++ .working n st :: v⟩ taken pending kept) (st' : Stage) (b : BoundingBox) :
    Layout ⟨{ sh with frags := sh.frags.setBox n b }, u ++ .working n st' :: v⟩ taken pending kept where
  holds := h.holds.setBox n b
  cursor := h.cursor
  perm := by simpa [State.held, Pc.held] using h.perm
  mutex := h.mutex.keep rfl rfl
  busy := h.busy
  counted := h.counted.advance nofun nofun nofun nofun rfl

/-- `remove` of the own node. -/
theorem Layout.remove (h : Layout ⟨sh, u ++ .working n st :: v⟩ taken pending kept) (gone : List BoundingBox) :
    ∃ taken', Layout ⟨{ sh with frags := (sh.frags.remove n).2, gone := gone }, u ++ .start :: v⟩ taken'
      pending kept := by
  obtain ⟨pre, post, rfl, hperm⟩ := h.cut
  have hholds := h.holds
  rw [List.append_assoc, List.cons_append] at hholds
  refine ⟨pre ++ post, ?_, h.cursor, ?_, h.mutex.keep rfl rfl, h.busy,
    h.counted.advance nofun nofun nofun nofun rfl⟩
  · rw [List.append_assoc]
    exact hholds.remove.2
  · rw [held_free _ rfl]
    exact hperm

/-- The own node stays where it is. -/
theorem Layout.leave (h : Layout ⟨sh, u ++ .working n st :: v⟩ taken pending kept) :
    Layout ⟨sh, u ++ .start :: v⟩ taken pending (n :: kept) where
  holds := h.holds
  cursor := h.cursor
  perm := by
    rw [held_free _ rfl]
    exact h.perm_cons
  mutex := h.mutex.keep rfl rfl
  busy := h.busy
  counted := h.counted.advance nofun nofun nofun nofun rfl

/-- The own node is put back at the end, where it is pending again. -/
theorem Layout.emplace (h : Layout ⟨sh, u ++ .working n st :: v⟩ taken pending kept) (hlock : sh.locked = false)
    (cfg : Config) (b : BoundingBox) :
    ∃ taken', Layout ⟨sh.emplace cfg n, u ++ .appending b :: v⟩ taken' (pending ++ [n]) kept := by
  obtain ⟨pre, post, rfl, hperm⟩ := h.cut
  have hholds := h.holds.setBox n (cfg.half (sh.frags.box n))
  rw [List.append_assoc, List.cons_append] at hholds
  refine ⟨pre ++ post, ?_, ?_, ?_, h.mutex.acquire hlock rfl rfl rfl, by simp,
    h.counted.advance nofun nofun nofun nofun rfl⟩
  · have hend := hholds.emplaceNode.2
    rw [List.append_assoc, List.append_assoc] at hend
    simpa only [Shared.emplace, List.append_assoc] using hend
  · have hcur := h.cursor
    simp only at hcur
    cases pending <;> simp [Shared.emplace, hcur]
  · rw [held_free _ rfl]
    exact hperm

/-- The other half is put on the list. The cursor is not `NULL`, so the new node is pending. -/
theorem Layout.append {b : BoundingBox} (h : Layout ⟨sh, u ++ .appending b :: v⟩ taken pending kept) :
    Layout ⟨{ sh with frags := sh.frags.addNode b, locked := false }, u ++ .start :: v⟩ taken
      (pending ++ [sh.frags.fresh]) kept := by
  obtain ⟨hlocked, hmutex⟩ : sh.locked = true ∧
      Mutex { sh with frags := sh.frags.addNode b, locked := false } (u ++ .start :: v) :=
    h.mutex.release rfl rfl rfl
  constructor
  · rw [← List.append_assoc]
    exact h.holds.addNode b
  · have hcur := h.cursor
    have hne := h.busy hlocked
    simp only at hcur ⊢
    rw [hcur, List.head?_append_of_ne_nil _ hne]
  · rw [held_free _ rfl]
    simpa [State.held, Pc.held] using h.perm
  · exact hmutex
  · simp
  · exact h.counted.advance nofun nofun nofun nofun rfl

/-- A thread at the head of the loop, when no thread has returned. -/
theorem Counted.start (h : Counted sh (u ++ .start :: v)) :
    .returned ∉ u ++ v ∧ sh.nThreadsActive = (u ++ v).countP (· ≠ .waiting) + 1 := by
  rcases h with ⟨hret, hcount⟩ | ⟨-, -, hall⟩
  · constructor
    · simpa using hret
    · rw [hcount, countP_at]
      simp
  · rcases hall .start (by simp) with h | h <;> cases h

/-- A thread with nothing in hand: at the head of the loop, waiting or returned. -/
def Pc.Idle (pc : Pc) : Prop := pc = .start ∨ pc = .waiting ∨ pc = .returned

theorem Pc.Idle.facts (h : pc.Idle) : pc.held = [] ∧ (∀ l, pc.items l = 0) ∧ pc.appends = false := by
  rcases h with rfl | rfl | rfl <;> exact ⟨rfl, fun _ => rfl, rfl⟩

/-- A thread with nothing in hand changes only the counter. -/
theorem Layout.idle (h : Layout ⟨sh, u ++ pc :: v⟩ taken pending kept) (hpc : pc.Idle) (hpc' : pc'.Idle) {active : ℤ}
    (hcounted : Counted { sh with nThreadsActive := active } (u ++ pc' :: v)) :
    Layout ⟨{ sh with nThreadsActive := active }, u ++ pc' :: v⟩ taken pending kept ∧
      State.items ⟨{ sh with nThreadsActive := active }, u ++ pc' :: v⟩ pending kept =
        State.items ⟨sh, u ++ pc :: v⟩ pending kept := by
  obtain ⟨h1, h2, h3⟩ := hpc.facts
  obtain ⟨h1', h2', h3'⟩ := hpc'.facts
  refine ⟨⟨h.holds, h.cursor, ?_, h.mutex.keep (h3'.trans h3.symm) rfl, h.busy, hcounted⟩, ?_⟩
  · rw [held_free _ h1', ← held_free sh h1]
    exact h.perm
  · rw [items_at, items_at, h2, h2']
    rfl

/-- The first pending node is taken. -/
theorem Layout.take {m : ℕ} (h : Layout ⟨sh, u ++ .start :: v⟩ taken (m :: pending) kept) (hlock : sh.locked = false) :
    Layout ⟨{ sh with currBox := sh.frags.next m }, u ++ .working m .taken :: v⟩ (taken ++ [m]) pending kept where
  holds := by
    rw [List.append_assoc]
    exact h.holds
  cursor := h.holds.next_eq
  perm := by
    have hperm := h.perm
    rw [held_free _ rfl] at hperm
    refine List.perm_append_singleton m taken |>.trans ?_
    refine .trans (hperm.cons m) ?_
    refine .trans List.perm_middle.symm ?_
    exact ((held_perm _ u v (.working m .taken)).append_left kept).symm
  mutex := h.mutex.keep rfl rfl
  busy hlocked := absurd hlocked (by simp [hlock])
  counted := h.counted.advance nofun nofun nofun nofun rfl

/-- What the region at the head of the loop does to the items: nothing, or one pending box is taken. -/
inductive Fetch : ℕ → Multiset Token → Multiset Token → Prop
  | none (M : Multiset Token) : Fetch 0 M M
  | one (b : BoundingBox) (M : Multiset Token) : Fetch 1 ({.pending b} + M) ({.held b .taken} + M)

theorem Fetch.runs {k : ℕ} {M N : Multiset Token} (h : Fetch k M N) : Runs (Rule cfg) M N := by
  cases h with
  | none => exact .refl _
  | one b M => exact .fire (.fetch b) rfl rfl

/-- The region at the head of the loop: the thread waits, returns or takes the first pending node. -/
theorem Layout.enter (h : Layout ⟨sh, u ++ .start :: v⟩ taken pending kept) (hlock : sh.locked = false) :
    ∃ taken' pending', Layout ⟨sh.enter.1, u ++ sh.enter.2 :: v⟩ taken' pending' kept ∧
      Fetch sh.enter.2.visits (State.items ⟨sh, u ++ .start :: v⟩ pending kept)
        (State.items ⟨sh.enter.1, u ++ sh.enter.2 :: v⟩ pending' kept) := by
  obtain ⟨hret, hcount⟩ := h.counted.start
  have hcur := h.cursor
  simp only at hcur hcount
  cases pending with
  | nil =>
    rw [List.head?_nil] at hcur
    have hpos : 0 < sh.nThreadsActive := by omega
    by_cases hlast : sh.nThreadsActive - 1 = 0
    · -- the last active thread returns: all the others wait
      have henter : sh.enter = ({ sh with nThreadsActive := sh.nThreadsActive - 1 }, .returned) := by
        simp [Shared.enter, hcur, hpos, hlast]
      have hcounted : Counted { sh with nThreadsActive := sh.nThreadsActive - 1 } (u ++ .returned :: v) := by
        refine .inr ⟨hlast, hcur, fun pc hpc => ?_⟩
        have hzero : (u ++ v).countP (· ≠ .waiting) = 0 := by omega
        rw [List.countP_eq_zero] at hzero
        by_cases hr : pc = .returned
        · exact .inr hr
        · have hmem : pc ∈ u ++ v := by
            simp only [List.mem_append, List.mem_cons, hr, false_or] at hpc ⊢
            exact hpc
          exact .inl (by simpa using hzero pc hmem)
      obtain ⟨hl, hitems⟩ := h.idle (.inl rfl) (.inr (.inr rfl)) hcounted
      rw [henter]
      exact ⟨taken, [], hl, hitems ▸ .none _⟩
    · have henter : sh.enter = ({ sh with nThreadsActive := sh.nThreadsActive - 1 }, .waiting) := by
        simp [Shared.enter, hcur, hpos, hlast]
      have hcounted : Counted { sh with nThreadsActive := sh.nThreadsActive - 1 } (u ++ .waiting :: v) := by
        refine .inl ⟨by simpa using hret, ?_⟩
        rw [countP_at]
        simp [hcount]
      obtain ⟨hl, hitems⟩ := h.idle (.inl rfl) (.inr (.inl rfl)) hcounted
      rw [henter]
      exact ⟨taken, [], hl, hitems ▸ .none _⟩
  | cons m pending =>
    rw [List.head?_cons] at hcur
    have hne : sh.nThreadsActive ≠ 0 := by omega
    have henter : sh.enter = ({ sh with currBox := sh.frags.next m }, .working m .taken) := by
      simp [Shared.enter, hcur, hne]
    rw [henter]
    refine ⟨taken ++ [m], pending, h.take hlock, ?_⟩
    rw [items_at, items_at, rest_pending_cons, show Pc.items _ Pc.start = 0 from rfl, zero_add]
    exact .one _ _

/-- A thread that wakes is counted again; when the others have returned it returns, too. -/
theorem Layout.wake (h : Layout ⟨sh, u ++ .waiting :: v⟩ taken pending kept) (hlock : sh.locked = false) :
    ∃ taken' pending', Layout ⟨sh.wake.1, u ++ sh.wake.2 :: v⟩ taken' pending' kept ∧
      Fetch sh.wake.2.visits (State.items ⟨sh, u ++ .waiting :: v⟩ pending kept)
        (State.items ⟨sh.wake.1, u ++ sh.wake.2 :: v⟩ pending' kept) := by
  rcases h.counted with ⟨hret, hcount⟩ | ⟨hzero, hcur, hall⟩
  · have hcounted : Counted { sh with nThreadsActive := sh.nThreadsActive + 1 } (u ++ .start :: v) := by
      refine .inl ⟨by simpa using hret, ?_⟩
      simp only at hcount
      rw [countP_at] at hcount ⊢
      simp [hcount]
    obtain ⟨hl, hitems⟩ := h.idle (.inr (.inl rfl)) (.inl rfl) hcounted
    rw [← hitems]
    exact hl.enter hlock
  · simp only at hzero hcur
    have hwake : sh.wake = ({ sh with nThreadsActive := 0 }, .returned) := by
      simp [Shared.wake, Shared.enter, hcur, hzero]
    have hcounted : Counted { sh with nThreadsActive := 0 } (u ++ .returned :: v) := by
      refine .inr ⟨rfl, hcur, fun pc hpc => ?_⟩
      simp only [List.mem_append, List.mem_cons] at hpc hall
      grind
    obtain ⟨hl, hitems⟩ := h.idle (.inr (.inl rfl)) (.inr (.inr rfl)) hcounted
    rw [hwake]
    exact ⟨taken, pending, hl, hitems ▸ .none _⟩

theorem Shared.box_emplace (sh : Shared) (n p : ℕ) :
    (sh.emplace cfg n).frags.box p = if p = n then cfg.half (sh.frags.box n) else sh.frags.box p := by
  simp only [Shared.emplace, Ll.box_emplaceNode, Ll.box_setBox]

/-- A step of a thread with something in hand is one rule. -/
theorem Act.fires (ha : Act cfg sh pc sh' pc') (h : Layout ⟨sh, u ++ pc :: v⟩ taken pending kept) (hstart : pc ≠ .start)
    (hwait : pc ≠ .waiting) :
    ∃ taken' pending' kept', Layout ⟨sh', u ++ pc' :: v⟩ taken' pending' kept' ∧
      Fires (Rule cfg) (State.items ⟨sh, u ++ pc :: v⟩ pending kept)
        (State.items ⟨sh', u ++ pc' :: v⟩ pending' kept') := by
  cases ha with
  | enter => exact absurd rfl hstart
  | wake => exact absurd rfl hwait
  | @process n st st' b' hp =>
    refine ⟨taken, pending, kept, h.process st' b', ?_⟩
    rw [items_at, items_at]
    refine .of_eq (.process hp) rfl ?_
    congr 1
    · simp [Pc.items]
    · refine rest_congr (fun p hp' => ?_) rfl
      have hne : p ≠ n := fun he => h.apart (he ▸ hp')
      simp [hne]
  | @drop n =>
    obtain ⟨taken', hl⟩ := h.remove sh.gone
    refine ⟨taken', pending, kept, hl, ?_⟩
    rw [items_at, items_at]
    refine .of_eq (.drop _) rfl ?_
    congr 1
    exact rest_congr (fun p _ => Ll.box_remove _ _ _) rfl
  | @discard n =>
    obtain ⟨taken', hl⟩ := h.remove (sh.frags.box n :: sh.gone)
    refine ⟨taken', pending, kept, hl, ?_⟩
    rw [items_at, items_at]
    refine .of_eq (.discard _) rfl ?_
    rw [show Pc.items _ Pc.start = 0 from rfl, zero_add]
    refine (rest_gone_cons { sh with frags := (sh.frags.remove n).2 } _ u v pending kept).trans ?_
    congr 1
    exact rest_congr (fun p _ => Ll.box_remove _ _ _) rfl
  | @leave n =>
    refine ⟨taken, pending, n :: kept, h.leave, ?_⟩
    rw [items_at, items_at, rest_kept_cons]
    exact .of_eq (.keep _) rfl (zero_add _)
  | @emplace n b hlock =>
    obtain ⟨taken', hl⟩ := h.emplace hlock cfg (cfg.half b)
    refine ⟨taken', pending ++ [n], kept, hl, ?_⟩
    rw [items_at, items_at, rest_pending_concat]
    refine .of_eq (.halve _ _) rfl ?_
    have hrest : rest (sh.emplace cfg n) u v pending kept = rest sh u v pending kept := by
      refine rest_congr (fun p hp => ?_) rfl
      have hne : p ≠ n := fun he => h.apart (he ▸ hp)
      rw [Shared.box_emplace, if_neg hne]
    rw [hrest, Shared.box_emplace, if_pos rfl, ← add_assoc, Multiset.insert_eq_cons, ← Multiset.singleton_add]
    congr 1
    exact add_comm _ _
  | @append b =>
    refine ⟨taken, pending ++ [sh.frags.fresh], kept, h.append, ?_⟩
    rw [items_at, items_at, rest_pending_concat]
    refine .of_eq (.append _) rfl ?_
    rw [show Pc.items _ Pc.start = 0 from rfl, zero_add, Ll.box_addNode, if_pos rfl]
    congr 1
    refine rest_congr (fun p hp => ?_) rfl
    have hlt : p < sh.frags.fresh := h.allocated p (by rw [held_free _ rfl]; exact hp)
    exact (Ll.box_addNode _ _ _).trans (if_neg hlt.ne)

/-- Every step is a run of the rules. -/
theorem Act.simulate (ha : Act cfg sh pc sh' pc') (h : Layout ⟨sh, u ++ pc :: v⟩ taken pending kept) :
    ∃ taken' pending' kept', Layout ⟨sh', u ++ pc' :: v⟩ taken' pending' kept' ∧
      Runs (Rule cfg) (State.items ⟨sh, u ++ pc :: v⟩ pending kept)
        (State.items ⟨sh', u ++ pc' :: v⟩ pending' kept') := by
  have hruns : pc ≠ .start → pc ≠ .waiting → ∃ taken' pending' kept',
      Layout ⟨sh', u ++ pc' :: v⟩ taken' pending' kept' ∧ Runs (Rule cfg) (State.items ⟨sh, u ++ pc :: v⟩ pending kept)
        (State.items ⟨sh', u ++ pc' :: v⟩ pending' kept') := by
    intro h1 h2
    obtain ⟨taken', pending', kept', hl, hf⟩ := ha.fires h h1 h2
    exact ⟨taken', pending', kept', hl, .single hf⟩
  cases ha with
  | enter hlock =>
    obtain ⟨taken', pending', hl, hr⟩ := h.enter hlock
    exact ⟨taken', pending', kept, hl, hr.runs⟩
  | wake hlock =>
    obtain ⟨taken', pending', hl, hr⟩ := h.wake hlock
    exact ⟨taken', pending', kept, hl, hr.runs⟩
  | _ => exact hruns nofun nofun

/-- A state and its items; every step of a thread is a run of the rules on them. -/
theorem Step.simulate (s s' : State) (M : Multiset Token) (hs : Step cfg s s') (h : Abs s M) :
    ∃ N, Abs s' N ∧ Runs (Rule cfg) M N := by
  obtain ⟨u, v, ha⟩ := hs
  obtain ⟨taken, pending, kept, hl, rfl⟩ := h
  obtain ⟨taken', pending', kept', hl', hr⟩ := ha.simulate hl
  exact ⟨_, ⟨taken', pending', kept', hl', rfl⟩, hr⟩

/-- The initial state: every node of the list is pending. -/
theorem abs_init {l : Ll} {seq : List ℕ} (h : l.Holds seq) (nThreads : ℕ) :
    Abs (init l nThreads) (l.boxes.map Token.pending : List Token) := by
  rw [h.boxes_eq, List.map_map]
  have hstart : ∀ pc ∈ (init l nThreads).threads, pc = .start := fun pc hpc => (List.mem_replicate.1 hpc).2
  have hheld : (init l nThreads).held = [] :=
    List.flatMap_eq_nil_iff.2 fun pc hpc => by rw [hstart pc hpc]; rfl
  refine ⟨[], seq, [], ⟨h, h.head_eq, ?_, ?_, nofun, .inl ⟨?_, ?_⟩⟩, ?_⟩
  · rw [hheld]
    exact .refl _
  · exact List.countP_eq_zero.2 fun pc hpc => by rw [hstart pc hpc]; exact Bool.false_ne_true
  · exact fun hr => nomatch hstart _ hr
  · simp [init, List.countP_replicate]
  · have hnone : ((init l nThreads).threads : Multiset Pc).bind (Pc.items l) = 0 :=
      (Multiset.bind_congr fun pc hpc => by rw [hstart pc hpc]; rfl).trans (Multiset.bind_zero _)
    simp only [State.items, rest, List.append_nil]
    rw [show (init l nThreads).shared.frags = l from rfl, hnone]
    simp [init, Function.comp_def]

/-- Every state reached has its items, and they come from those of the initial list by the rules. -/
theorem Reaches.items {l : Ll} {seq : List ℕ} {s : State} {nThreads : ℕ} (hl : l.Holds seq)
    (h : Reaches cfg (init l nThreads) s) :
    ∃ M, Abs s M ∧ Runs (Rule cfg) (l.boxes.map Token.pending : List Token) M :=
  GridSolve.Rewriting.simulate Step.simulate h (abs_init hl nThreads)

/-- A property of the initial items. -/
theorem forall_initial {acoords : Coords} {shapes : ℕ} {P : Token → Prop}
    (h : P (.pending ((BoundingBox.new acoords).initCurrStateVec (List.replicate shapes 0)))) :
    ∀ t ∈ (((initialList acoords shapes).boxes.map Token.pending : List Token) : Multiset Token), P t := by
  intro t ht
  rw [List.mem_singleton.1 (Multiset.mem_coe.1 ht)]
  exact h

theorem certified_initial (p : ℕ → (ℕ → ℝ) → ℝ) (acoords : Coords) (shapes : ℕ) :
    (Token.pending ((BoundingBox.new acoords).initCurrStateVec (List.replicate shapes 0))).Certified p := by
  intro i hi
  simp only [BoundingBox.stateAt, BoundingBox.initCurrStateVec, List.getD_eq_getElem?_getD,
    List.getElem?_replicate] at hi
  split at hi <;> exact absurd hi (lt_irrefl 0)

/-! ## Points -/

/-- The new half that a thread has in hand. -/
def Pc.half : Pc → List BoundingBox
  | .working _ st => st.half
  | .appending b => [b]
  | _ => []

def State.halves (s : State) : List BoundingBox := s.threads.flatMap Pc.half

theorem mem_items {s : State} {t : Token} : t ∈ s.items pending kept ↔
    (∃ n ∈ pending, t = .pending (s.shared.frags.box n)) ∨ (∃ n ∈ kept, t = .done (s.shared.frags.box n)) ∨
      (∃ b ∈ s.shared.gone, t = .gone b) ∨ ∃ pc ∈ s.threads, t ∈ pc.items s.shared.frags := by
  simp only [State.items, rest, List.append_nil, Multiset.mem_add, Multiset.mem_coe, List.mem_map, or_assoc,
    Multiset.mem_bind, eq_comm]

theorem Pc.bind_items (l : Ll) (pc : Pc) :
    (pc.items l).bind Token.boxes = (pc.held.map l.box : List BoundingBox) + (pc.half : List BoundingBox) := by
  cases pc with
  | working toP st => simp [Pc.items, Pc.held, Pc.half, boxes_held]
  | appending b => simp [Pc.items, Pc.held, Pc.half, Token.boxes]
  | _ => rfl

theorem bind_held_half (l : Ll) : ∀ threads : List Pc,
    ((threads : Multiset Pc).bind (Pc.items l)).bind Token.boxes =
      ((threads.flatMap Pc.held).map l.box : List BoundingBox) + (threads.flatMap Pc.half : List BoundingBox)
  | [] => rfl
  | pc :: threads => by
    rw [← Multiset.cons_coe, Multiset.cons_bind, Multiset.add_bind, pc.bind_items, bind_held_half l threads]
    simp only [List.flatMap_cons, List.map_append, ← Multiset.coe_add]
    abel

/-- The boxes of the items are those of the list, the halves in hand and the discarded boxes. -/
theorem Layout.boxes {s : State} (h : Layout s taken pending kept) :
    (s.items pending kept).bind Token.boxes =
      (s.shared.frags.boxes : Multiset BoundingBox) + (s.halves : List BoundingBox) +
      (s.shared.gone : List BoundingBox) := by
  have hlist : (s.shared.frags.boxes : Multiset BoundingBox) =
      ((pending ++ (kept ++ s.held)).map s.shared.frags.box : List BoundingBox) := by
    rw [h.holds.boxes_eq, Multiset.coe_eq_coe]
    exact (List.perm_append_comm.trans (h.perm.append_left pending)).map _
  rw [hlist]
  simp only [State.items, rest, List.append_nil, Multiset.add_bind, bind_boxes_gone, bind_held_half,
    bind_boxes_map pending (fun n => (rfl : (Token.pending (s.shared.frags.box n)).boxes = {s.shared.frags.box n})),
    bind_boxes_map kept (fun n => (rfl : (Token.done (s.shared.frags.box n)).boxes = {s.shared.frags.box n})),
    List.map_append, ← Multiset.coe_add]
  simp only [State.held, State.halves]
  abel

/-- Whatever the solvers answer, at every moment every integer point of the initial box is in a box
of the list, in a half that a thread has in hand, or in a box removed on the answer of a negative
solver. -/
theorem integer_points_kept (acoords : Coords) (nThreads : ℕ) (s : State)
    (hrun : Reaches cfg (init (initialList acoords cfg.shapes) nThreads) s)
    (z : ℕ → ℤ) (hz : InBox acoords fun i => (z i : ℝ)) :
    (∃ b ∈ s.shared.frags.boxes, InBox b.coords fun i => (z i : ℝ)) ∨
      (∃ b ∈ s.halves, InBox b.coords fun i => (z i : ℝ)) ∨
      ∃ b ∈ s.shared.gone, (∃ i < cfg.shapes, cfg.neg i b.coords .yes) ∧ InBox b.coords fun i => (z i : ℝ) := by
  obtain ⟨M, ⟨taken, pending, kept, hl, rfl⟩, hruns⟩ := hrun.items (Ll.holds_new _)
  obtain ⟨t, ht, hx⟩ := hruns.exists_mem (fun _ _ hr => hr.covers (cfg.half_keeps_int z))
    ⟨_, Multiset.mem_coe.2 (List.mem_singleton_self _), hz⟩
  have href := hruns.forall_mem (fun _ _ hr => hr.refuted) (forall_initial trivial)
  obtain ⟨b, hb, hx⟩ := hx.mem_boxes
  have hparts : b ∈ (s.items pending kept).bind Token.boxes := Multiset.mem_bind.2 ⟨t, ht, hb⟩
  rw [hl.boxes, Multiset.mem_add, Multiset.mem_add] at hparts
  rcases hparts with (hb | hb) | hb
  · exact .inl ⟨b, hb, hx⟩
  · exact .inr (.inl ⟨b, hb, hx⟩)
  · exact .inr (.inr ⟨b, hb, href _ (mem_items.2 (.inr (.inr (.inl ⟨b, hb, rfl⟩)))), hx⟩)

/-- A thread has split the interval from 0 to 1 and put the half with 1 back on the list; the point 0
is in the half that it is about to append. -/
theorem integer_points_kept_split :
    ∃ s, Reaches Decided.unsure.config (init (initialList [(0, 1)] 1) 1) s ∧
      s.shared.frags.boxes = [⟨[(1, 1)], [0], 0⟩] ∧ s.halves = [⟨[(0, 0)], [0], 0⟩] ∧
      ((∃ b ∈ s.shared.frags.boxes, InBox b.coords fun _ => ((0 : ℤ) : ℝ)) ∨
        (∃ b ∈ s.halves, InBox b.coords fun _ => ((0 : ℤ) : ℝ)) ∨
        ∃ b ∈ s.shared.gone, (∃ i < Decided.unsure.config.shapes, Decided.unsure.config.neg i b.coords .yes) ∧
          InBox b.coords fun _ => ((0 : ℤ) : ℝ)) := by
  have hstate : (Decided.unsure.run (List.replicate 6 0) (init (initialList [(0, 1)] 1) 1)).map
      (fun s => (s.shared.frags.boxes, s.halves)) = some ([⟨[(1, 1)], [0], 0⟩], [⟨[(0, 0)], [0], 0⟩]) := by
    decide +kernel
  obtain ⟨s, hs, he⟩ := Option.map_eq_some_iff.1 hstate
  rw [Prod.mk.injEq] at he
  refine ⟨s, Decided.run_reaches _ hs, he.1, he.2, ?_⟩
  apply integer_points_kept [(0, 1)] 1 s (Decided.run_reaches _ hs) fun _ => 0
  rintro (_ | i) c hc
  · cases hc
    norm_num
  · cases hc

end GridSolve.Grid
