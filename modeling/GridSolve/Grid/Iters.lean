/-
`fragmentation_intersection::run_iters` (`approximation.cpp`): the refinement by one thread and
without rounding, with z3 as the solver, which may time out. The machine refines the same rules as
the threads. The boxes in the list and the discarded ones divide the initial box among them, and
the nodes from the cursor on are those not classified yet.
-/
import GridSolve.Grid.Threads

namespace GridSolve.Grid

open GridSolve.Rewriting

/-- `ll::recompute_confidence` from a node on. -/
def Ll.rescore : ℕ → Option ℕ → Ll → Ll
  | 0, _, l => l
  | _, none, l => l
  | fuel + 1, some curr, l => rescore fuel (l.next curr) (l.setBox curr (l.box curr).recomputeConfidence)

/-- `ll::recompute_confidence`. -/
def Ll.recomputeConfidence (l : Ll) : Ll := l.rescore l.fresh l.head

/-- The refinement without rounding. -/
def Config.real (cfg : Config) : Config := { cfg with integer := false }

/-- Where `run_iters` is. -/
inductive IterPc
  /-- at the head of the loop -/
  | top
  /-- in an iteration, on the box at the cursor -/
  | working (stage : Stage)
  | returned
  /-- the handler of a timeout has ended the program -/
  | exited
  deriving DecidableEq, Repr

structure IterState where
  frags : Ll
  currBox : Option ℕ
  itr : ℕ
  pc : IterPc
  /-- The solver has thrown in this iteration. -/
  caught : Bool
  /-- The boxes removed on the answer of a negative solver; no step reads it. -/
  gone : List BoundingBox
  /-- The nodes that `run_iters` has classified and passed, in their order; no step reads it. -/
  classified : List ℕ

namespace IterState

/-- The end of an iteration. The test of the cursor that the code makes here is the one made at the
head of the loop. -/
def after (s : IterState) : IterPc := if s.caught then .exited else .top

/-- The new half that is not in the list yet. -/
def half (s : IterState) : List BoundingBox :=
  match s.pc with
  | .working st => st.half
  | _ => []

end IterState

/-- The constructor and a call of `run_iters`. -/
def iterInit (l : Ll) : IterState :=
  { frags := l, currBox := l.head, itr := 0, pc := .top, caught := false, gone := [], classified := [] }

/-- The steps of `run_iters`. -/
inductive IterStep (cfg : Config) (iterLimit : ℤ) : IterState → IterState → Prop
  | enter {s : IterState} {n : ℕ} : s.pc = .top → s.itr < iterLimit → s.currBox = some n →
      IterStep cfg iterLimit s { s with pc := .working .taken }
  | process {s : IterState} {n : ℕ} {st st' : Stage} {b' : BoundingBox} : s.pc = .working st → s.currBox = some n →
      Process cfg.real (s.frags.box n) st b' st' →
      IterStep cfg iterLimit s { s with frags := s.frags.setBox n b', pc := .working st' }
  | timeout {s : IterState} {n i : ℕ} {found : Found} : s.pc = .working (.visiting i found) → s.currBox = some n →
      i < cfg.shapes → ¬ 0 < (s.frags.box n).stateAt i → cfg.Interrupted i (s.frags.box n).coords →
      IterStep cfg iterLimit s { s with pc := .working .settle, caught := true }
  | discard {s : IterState} {n : ℕ} : s.pc = .working .refuted → s.currBox = some n →
      IterStep cfg iterLimit s { s with
        frags := (s.frags.remove n).2, currBox := (s.frags.remove n).1, itr := s.itr + 1, pc := .top
        gone := s.frags.box n :: s.gone }
  | advance {s : IterState} {n : ℕ} : s.pc = .working .finished → s.currBox = some n →
      IterStep cfg iterLimit s { s with
        currBox := s.frags.next n, itr := s.itr + 1, pc := s.after, classified := s.classified ++ [n] }
  | split {s : IterState} {n : ℕ} {b : BoundingBox} : s.pc = .working (.halved b) → s.currBox = some n →
      IterStep cfg iterLimit s { s with
        frags := (s.frags.emplaceNode n).2.addNode b, currBox := (s.frags.emplaceNode n).1, itr := s.itr + 1
        pc := s.after }
  | leave {s : IterState} : s.pc = .top → (¬ s.itr < iterLimit ∨ s.currBox = none) →
      IterStep cfg iterLimit s { s with frags := s.frags.recomputeConfidence, currBox := none, pc := .returned }

/-- The states of a run. -/
def IterReaches (cfg : Config) (iterLimit : ℤ) : IterState → IterState → Prop :=
  Relation.ReflTransGen (IterStep cfg iterLimit)

/-! ## Recomputing the confidence of all boxes -/

theorem Ll.rescore_eq : ∀ (fuel : ℕ) (curr : Option ℕ) (l : Ll),
    l.rescore fuel curr = Ll.updateFrom (fun _ => BoundingBox.recomputeConfidence) fuel curr l
  | 0, _, _ => rfl
  | _ + 1, none, _ => rfl
  | fuel + 1, some curr, l => Ll.rescore_eq fuel (l.next curr) _

/-- Only the confidences change. -/
theorem Ll.Holds.recomputeConfidence {l : Ll} {seq : List ℕ} (h : l.Holds seq) :
    l.recomputeConfidence.Holds seq ∧ ∀ p ∈ seq, l.recomputeConfidence.box p = (l.box p).recomputeConfidence := by
  rw [Ll.recomputeConfidence, Ll.rescore_eq]
  exact h.updateAll _

/-! ## The items of a state -/

/-- The items behind the box in hand. -/
def behind (s : IterState) (pending : List ℕ) : Multiset Token :=
  (pending.map fun n => Token.pending (s.frags.box n) : List Token) +
    (s.classified.map fun n => Token.done (s.frags.box n) : List Token) + (s.gone.map Token.gone : List Token)

/-- Between iterations the list is made of the classified nodes and those from the cursor on. -/
def Between (s : IterState) (M : Multiset Token) : Prop :=
  ∃ pending, s.frags.Holds (s.classified ++ pending) ∧ s.currBox = pending.head? ∧ M = behind s pending

/-- Within an iteration the first node from the cursor on is the one in hand. -/
def Within (s : IterState) (st : Stage) (M : Multiset Token) : Prop :=
  ∃ n rest, s.frags.Holds (s.classified ++ n :: rest) ∧ s.currBox = some n ∧
    M = {Token.held (s.frags.box n) st} + behind s rest

/-- At the end the cursor is given up. -/
def Over (s : IterState) (M : Multiset Token) : Prop :=
  ∃ pending, s.frags.Holds (s.classified ++ pending) ∧ s.currBox = none ∧
    M = ((s.classified ++ pending).map fun n => Token.done (s.frags.box n) : List Token) +
      (s.gone.map Token.gone : List Token)

/-- A state and its items. -/
def IterAbs (s : IterState) (M : Multiset Token) : Prop :=
  match s.pc with
  | .top => Between s M
  | .exited => Between s M
  | .working st => Within s st M
  | .returned => Over s M

variable {cfg : Config} {iterLimit : ℤ}

theorem behind_cons (s : IterState) (n : ℕ) (pending : List ℕ) :
    behind s (n :: pending) = {Token.pending (s.frags.box n)} + behind s pending := by
  simp only [behind, List.map_cons, ← Multiset.cons_coe, ← Multiset.singleton_add]
  abel

theorem behind_concat (s : IterState) (n : ℕ) (pending : List ℕ) :
    behind s (pending ++ [n]) = {Token.pending (s.frags.box n)} + behind s pending := by
  rw [← behind_cons]
  simp only [behind, List.map_append, List.map_cons, List.map_nil]
  rw [Multiset.coe_eq_coe.2 (List.perm_append_singleton _ _)]

theorem behind_congr {s s' : IterState} {pending : List ℕ} (hclass : s'.classified = s.classified)
    (hgone : s'.gone = s.gone) (hbox : ∀ p ∈ s.classified ++ pending, s'.frags.box p = s.frags.box p) :
    behind s' pending = behind s pending := by
  have h1 : pending.map (fun n => Token.pending (s'.frags.box n)) = pending.map fun n => Token.pending
      (s.frags.box n) :=
    List.map_congr_left fun p hp => by rw [hbox p (List.mem_append_right _ hp)]
  have h2 : s.classified.map (fun n => Token.done (s'.frags.box n)) =
      s.classified.map fun n => Token.done (s.frags.box n) :=
    List.map_congr_left fun p hp => by rw [hbox p (List.mem_append_left _ hp)]
  rw [behind, behind, hclass, hgone, h1, h2]

/-! ## The steps -/

variable {s : IterState} {M : Multiset Token} {st : Stage} {n : ℕ}

theorem Between.enter (h : Between s M) (hcur : s.currBox = some n) :
    ∃ N, Within { s with pc := .working .taken } .taken N ∧ Runs (Rule cfg.real) M N := by
  obtain ⟨pending, hh, hc, rfl⟩ := h
  obtain ⟨rest, rfl⟩ : ∃ rest, pending = n :: rest := List.head?_eq_some_iff.1 (hc.symm.trans hcur)
  refine ⟨_, ⟨n, rest, hh, hcur, rfl⟩, ?_⟩
  rw [behind_cons]
  exact .fire (.fetch _) rfl rfl

theorem Within.process (h : Within s st M) (hcur : s.currBox = some n) {st' : Stage} {b' : BoundingBox}
    (hp : Process cfg.real (s.frags.box n) st b' st') :
    ∃ N, Within { s with frags := s.frags.setBox n b', pc := .working st' } st' N ∧ Runs (Rule cfg.real) M N := by
  obtain ⟨m, rest, hh, hc, rfl⟩ := h
  obtain rfl : m = n := Option.some.inj (hc.symm.trans hcur)
  refine ⟨_, ⟨m, rest, hh.setBox m b', hcur, rfl⟩, .fire (.process hp) rfl ?_⟩
  congr 1
  · simp
  · refine behind_congr rfl rfl fun p hp' => ?_
    have hne : p ≠ m := fun he => hh.not_mem (he ▸ hp')
    simp [hne]

theorem Within.timeout {i : ℕ} {found : Found} (h : Within s (.visiting i found) M) (hcur : s.currBox = some n)
    (hi : cfg.Interrupted i (s.frags.box n).coords) :
    ∃ N, Within { s with pc := .working .settle, caught := true } .settle N ∧ Runs (Rule cfg.real) M N := by
  obtain ⟨m, rest, hh, hc, rfl⟩ := h
  obtain rfl : m = n := Option.some.inj (hc.symm.trans hcur)
  exact ⟨_, ⟨m, rest, hh, hcur, rfl⟩, .fire (.timeout hi) rfl rfl⟩

theorem Within.discard (h : Within s .refuted M) (hcur : s.currBox = some n) :
    ∃ N, Between { s with
        frags := (s.frags.remove n).2, currBox := (s.frags.remove n).1, itr := s.itr + 1, pc := .top
        gone := s.frags.box n :: s.gone } N ∧ Runs (Rule cfg.real) M N := by
  obtain ⟨m, rest, hh, hc, rfl⟩ := h
  obtain rfl : m = n := Option.some.inj (hc.symm.trans hcur)
  refine ⟨_, ⟨rest, hh.remove.2, hh.remove.1, rfl⟩, .fire (.discard _) rfl ?_⟩
  simp only [behind, List.map_cons, ← Multiset.cons_coe, ← Multiset.singleton_add, Ll.box_remove]
  abel

theorem Within.advance (h : Within s .finished M) (hcur : s.currBox = some n) :
    ∃ N, Between { s with
        currBox := s.frags.next n, itr := s.itr + 1, pc := s.after, classified := s.classified ++ [n] } N ∧
      Runs (Rule cfg.real) M N := by
  obtain ⟨m, rest, hh, hc, rfl⟩ := h
  obtain rfl : m = n := Option.some.inj (hc.symm.trans hcur)
  refine ⟨_, ⟨rest, by simpa using hh, hh.next_eq, rfl⟩, .fire (.keep _) rfl ?_⟩
  simp only [behind, List.map_append, List.map_cons, List.map_nil, ← Multiset.coe_add, Multiset.coe_singleton]
  abel

theorem Within.split {b : BoundingBox} (h : Within s (.halved b) M) (hcur : s.currBox = some n) :
    ∃ N, Between { s with
        frags := (s.frags.emplaceNode n).2.addNode b, currBox := (s.frags.emplaceNode n).1, itr := s.itr + 1
        pc := s.after } N ∧ Runs (Rule cfg.real) M N := by
  obtain ⟨m, rest, hh, hc, rfl⟩ := h
  obtain rfl : m = n := Option.some.inj (hc.symm.trans hcur)
  obtain ⟨hlist, hret, hbox⟩ := hh.requeue b
  refine ⟨_, ⟨rest ++ [m] ++ [s.frags.fresh], hlist, hret, rfl⟩, ?_⟩
  · -- both nodes are pending, with the boxes they had in hand
    have hold : ∀ p ∈ s.classified ++ m :: rest, ((s.frags.emplaceNode m).2.addNode b).box p = s.frags.box p :=
      fun p hp => (hbox p).trans (if_neg (hh.allocated p hp).ne)
    have hrest : behind { s with
        frags := (s.frags.emplaceNode m).2.addNode b, currBox := (s.frags.emplaceNode m).1, itr := s.itr + 1
        pc := s.after } rest = behind s rest :=
      behind_congr rfl rfl fun p hp => hold p (by
        rcases List.mem_append.1 hp with hp | hp <;> simp [hp])
    rw [behind_concat, behind_concat, hrest]
    simp only
    rw [hold m (by simp), hbox s.frags.fresh, if_pos rfl]
    refine .trans (.fire (.halve _ _) rfl rfl) (.fire (.append b) ?_ rfl)
    rw [Multiset.insert_eq_cons, ← Multiset.singleton_add, add_assoc, add_left_comm]
    rfl

theorem Between.leave (h : Between s M) :
    ∃ N, Over { s with frags := s.frags.recomputeConfidence, currBox := none, pc := .returned } N ∧
      Runs (Rule cfg.real) M N := by
  obtain ⟨pending, hh, -, rfl⟩ := h
  obtain ⟨hh', hbox⟩ := hh.recomputeConfidence
  refine ⟨_, ⟨pending, hh', rfl, rfl⟩, ?_⟩
  have hshelve : Runs (Rule cfg.real) (behind s pending)
      (((s.classified ++ pending).map fun n => Token.done (s.frags.box n) : List Token) +
        (s.gone.map Token.gone : List Token)) := by
    have := Runs.map (R := Rule cfg.real) ((s.classified.map fun n => Token.done (s.frags.box n) : List Token) +
      (s.gone.map Token.gone : List Token) : Multiset Token) fun n (_ : n ∈ pending) => Rule.shelve (s.frags.box n) rfl
    rw [← add_assoc, ← add_assoc] at this
    rw [List.map_append, ← Multiset.coe_add, add_comm ((s.classified.map _ : List Token) : Multiset Token)]
    exact this
  have hlist : (s.classified ++ pending).map (fun n => Token.done (s.frags.recomputeConfidence.box n)) =
      (s.classified ++ pending).map fun n => Token.done (s.frags.box n).recomputeConfidence :=
    List.map_congr_left fun p hp => by rw [hbox p hp]
  simp only [hlist]
  exact hshelve.trans (.map _ fun n _ => .rescore (s.frags.box n) rfl)

/-- Every step is a run of the rules. -/
theorem IterStep.simulate (s s' : IterState) (M : Multiset Token) (hs : IterStep cfg iterLimit s s') (h : IterAbs s M) :
    ∃ N, IterAbs s' N ∧ Runs (Rule cfg.real) M N := by
  have hafter : ∀ {t : IterState} {N : Multiset Token}, t.pc = s.after → Between t N → IterAbs t N := by
    intro t N ht hb
    unfold IterState.after at ht
    unfold IterAbs
    split_ifs at ht <;> rw [ht] <;> exact hb
  unfold IterAbs at h
  cases hs with
  | enter hpc _ hcur => rw [hpc] at h; exact h.enter hcur
  | process hpc hcur hp => rw [hpc] at h; exact h.process hcur hp
  | timeout hpc hcur _ _ hi => rw [hpc] at h; exact h.timeout hcur hi
  | discard hpc hcur => rw [hpc] at h; exact h.discard hcur
  | advance hpc hcur =>
    rw [hpc] at h
    obtain ⟨N, hb, hr⟩ := h.advance hcur
    exact ⟨N, hafter rfl hb, hr⟩
  | split hpc hcur =>
    rw [hpc] at h
    obtain ⟨N, hb, hr⟩ := h.split hcur
    exact ⟨N, hafter rfl hb, hr⟩
  | leave hpc => rw [hpc] at h; exact h.leave

theorem IterReaches.items {l : Ll} {seq : List ℕ} {s : IterState} (hl : l.Holds seq)
    (h : IterReaches cfg iterLimit (iterInit l) s) :
    ∃ M, IterAbs s M ∧ Runs (Rule cfg.real) (l.boxes.map Token.pending : List Token) M := by
  rw [hl.boxes_eq, List.map_map]
  refine GridSolve.Rewriting.simulate IterStep.simulate h ?_
  exact ⟨seq, hl, hl.head_eq, by simp [behind, iterInit, Function.comp_def]⟩

theorem bind_boxes_pending (l : Ll) (seq : List ℕ) :
    ((seq.map fun n => Token.pending (l.box n) : List Token) : Multiset Token).bind Token.boxes =
      (seq.map l.box : List BoundingBox) :=
  bind_boxes_map seq fun _ => rfl

theorem bind_boxes_done (l : Ll) (seq : List ℕ) :
    ((seq.map fun n => Token.done (l.box n) : List Token) : Multiset Token).bind Token.boxes =
      (seq.map l.box : List BoundingBox) :=
  bind_boxes_map seq fun _ => rfl

theorem behind_boxes (s : IterState) (pending : List ℕ) :
    (behind s pending).bind Token.boxes = ((s.classified ++ pending).map s.frags.box : List BoundingBox) +
      (s.gone : List BoundingBox) := by
  simp only [behind, Multiset.add_bind, bind_boxes_pending, bind_boxes_done, bind_boxes_gone, List.map_append,
    ← Multiset.coe_add]
  abel

/-- The boxes of the items are those of the list, the half in hand and the discarded boxes. -/
theorem IterAbs.boxes (h : IterAbs s M) :
    M.bind Token.boxes = (s.frags.boxes : Multiset BoundingBox) + (s.half : List BoundingBox) +
      (s.gone : List BoundingBox) := by
  have hbetween : s.half = [] → Between s M → M.bind Token.boxes =
      (s.frags.boxes : Multiset BoundingBox) + (s.half : List BoundingBox) + (s.gone : List BoundingBox) := by
    rintro hhalf ⟨pending, hh, -, rfl⟩
    rw [behind_boxes, hh.boxes_eq, hhalf, Multiset.coe_nil, add_zero]
  unfold IterAbs at h
  cases hpc : s.pc with
  | top => rw [hpc] at h; exact hbetween (by simp [IterState.half, hpc]) h
  | exited => rw [hpc] at h; exact hbetween (by simp [IterState.half, hpc]) h
  | returned =>
    rw [hpc] at h
    obtain ⟨pending, hh, -, rfl⟩ := h
    rw [Multiset.add_bind, bind_boxes_done, bind_boxes_gone, hh.boxes_eq, IterState.half, hpc,
      Multiset.coe_nil, add_zero]
  | working st =>
    rw [hpc] at h
    obtain ⟨n, rest, hh, -, rfl⟩ := h
    have hhalf : s.half = st.half := by simp [IterState.half, hpc]
    rw [Multiset.add_bind, Multiset.singleton_bind, boxes_held, behind_boxes, hh.boxes_eq, hhalf]
    simp only [List.map_append, List.map_cons, ← Multiset.coe_add, ← Multiset.cons_coe, ← Multiset.singleton_add]
    abel

/-! ## The partition -/

/-- All the boxes of a state: those of the list, the half in hand, those discarded. -/
def IterState.parts (s : IterState) : List BoundingBox := s.frags.boxes ++ s.half ++ s.gone

/-- The cursor is `NULL` or stands behind the classified nodes, and from it on no box is confirmed. -/
theorem IterAbs.cursor (h : IterAbs s M) (hM : ∀ t ∈ M, t.Unconfirmed) :
    s.currBox = none ∨ ∃ n rest, s.currBox = some n ∧ s.frags.nodes = s.classified ++ n :: rest ∧
      (∀ m ∈ n :: rest, m ∉ s.classified) ∧ (s.pc = .top → ∀ m ∈ n :: rest, (s.frags.box m).confidence = 0) := by
  have hapart : ∀ {pending : List ℕ}, s.frags.Holds (s.classified ++ pending) → ∀ m ∈ pending, m ∉ s.classified :=
    fun hh m hm hc => List.disjoint_of_nodup_append hh.chain.nodup hc hm
  have hbetween : Between s M → s.currBox = none ∨ ∃ n rest, s.currBox = some n ∧
      s.frags.nodes = s.classified ++ n :: rest ∧ (∀ m ∈ n :: rest, m ∉ s.classified) ∧
        (s.pc = .top → ∀ m ∈ n :: rest, (s.frags.box m).confidence = 0) := by
    rintro ⟨pending, hh, hcur, rfl⟩
    cases pending with
    | nil => exact .inl hcur
    | cons n rest =>
      refine .inr ⟨n, rest, hcur, hh.nodes_eq, hapart hh, fun _ m hm => ?_⟩
      exact hM (.pending (s.frags.box m)) (Multiset.mem_add.2 (.inl (Multiset.mem_add.2 (.inl
        (Multiset.mem_coe.2 (List.mem_map_of_mem hm))))))
  unfold IterAbs at h
  cases hpc : s.pc with
  | top => rw [hpc] at h; exact hpc ▸ hbetween h
  | exited => rw [hpc] at h; exact hpc ▸ hbetween h
  | returned =>
    rw [hpc] at h
    obtain ⟨-, -, hcur, -⟩ := h
    exact .inl hcur
  | working st =>
    rw [hpc] at h
    obtain ⟨n, rest, hh, hcur, -⟩ := h
    exact .inr ⟨n, rest, hcur, hh.nodes_eq, hapart hh, nofun⟩

/-- In every state of a run the boxes of the list, the half in hand and the discarded boxes cover
exactly the initial box and have disjoint interiors, and the cursor is `NULL` or the first of the
nodes not classified. -/
theorem partition_invariant (cfg : Config) (iterLimit : ℤ) (acoords : Coords) (s : IterState)
    (hrun : IterReaches cfg iterLimit (iterInit (initialList acoords cfg.shapes)) s) :
    (∀ x, InBox acoords x ↔ ∃ b ∈ s.parts, InBox b.coords x) ∧
      (s.parts.Pairwise fun b b' => ∀ x, ¬ (Inside b.coords x ∧ Inside b'.coords x)) ∧
      (s.currBox = none ∨ ∃ n rest, s.currBox = some n ∧ s.frags.nodes = s.classified ++ n :: rest ∧
        (∀ m ∈ n :: rest, m ∉ s.classified) ∧
        (s.pc = .top → ∀ m ∈ n :: rest, (s.frags.box m).confidence = 0)) := by
  obtain ⟨M, habs, hruns⟩ := hrun.items (Ll.holds_new _)
  have hparts : M.bind Token.boxes = (s.parts : Multiset BoundingBox) := by
    rw [habs.boxes, Multiset.coe_add, Multiset.coe_add]
    rfl
  refine ⟨fun x => ⟨fun hx => ?_, ?_⟩, ?_, ?_⟩
  · obtain ⟨t, ht, hcov⟩ := hruns.exists_mem (fun _ _ hr => hr.covers (Config.half_keeps rfl x))
      ⟨_, Multiset.mem_coe.2 (List.mem_singleton_self _), hx⟩
    obtain ⟨b, hb, hxb⟩ := hcov.mem_boxes
    refine ⟨b, ?_, hxb⟩
    rw [← Multiset.mem_coe, ← hparts]
    exact Multiset.mem_bind.2 ⟨t, ht, hb⟩
  · rintro ⟨b, hb, hx⟩
    rw [← Multiset.mem_coe, ← hparts] at hb
    obtain ⟨t, ht, hb⟩ := Multiset.mem_bind.1 hb
    have hsub : ∀ t ∈ M, ∀ b ∈ t.boxes, InBox b.coords x → InBox acoords x := by
      refine hruns.forall_mem (fun _ _ hr ht t' ht' b' hb' hx' => ?_) ?_
      · obtain ⟨b, hb, hx⟩ := hr.sub t' ht' b' hb' hx'
        exact ht b hb hx
      · apply forall_initial
        intro b hb hx
        rw [Multiset.mem_singleton.1 hb] at hx
        exact hx
    exact hsub t ht b hb hx
  · apply pairwise_of_sum_inner
    intro x
    have hle := hruns.sum_le fun _ _ hr => hr.inner_le x
    rw [sum_inner, sum_inner, hparts, bind_boxes_map _ (g := id) fun _ => rfl, List.map_id, Multiset.map_coe,
      Multiset.sum_coe] at hle
    refine hle.trans ?_
    -- The initial list has one box.
    show [BoundingBox.inner x _].sum ≤ 1
    rw [List.sum_singleton, BoundingBox.inner]
    split_ifs <;> simp
  · exact habs.cursor (hruns.forall_mem (fun _ _ hr => hr.unconfirmed) (forall_initial rfl))

/-- One iteration that splits the interval from 0 to 1. -/
theorem partition_invariant_split :
    ∃ s, IterReaches Decided.unsure.config 1 (iterInit (initialList [(0, 1)] 1)) s ∧
      s.parts = [⟨[(1 / 2, 1)], [0], 0⟩, ⟨[(0, 1 / 2)], [0], 0⟩] ∧
      (∀ x, InBox [(0, 1)] x ↔ ∃ b ∈ s.parts, InBox b.coords x) ∧
      (s.parts.Pairwise fun b b' => ∀ x, ¬ (Inside b.coords x ∧ Inside b'.coords x)) ∧
      (s.currBox = none ∨ ∃ n rest, s.currBox = some n ∧ s.frags.nodes = s.classified ++ n :: rest ∧
        (∀ m ∈ n :: rest, m ∉ s.classified) ∧
        (s.pc = .top → ∀ m ∈ n :: rest, (s.frags.box m).confidence = 0)) := by
  have h1 := (Relation.ReflTransGen.refl (r := IterStep Decided.unsure.config 1)
    (a := iterInit (initialList [(0, 1)] 1))).tail (.enter rfl (by decide) rfl)
  have h2 := h1.tail (.process rfl rfl (.enter nofun))
  have h3 := h2.tail (.process rfl rfl (.inconclusive (by decide) (by decide) rfl rfl))
  have h4 := h3.tail (.process rfl rfl .undecided)
  have h5 := h4.tail (.process rfl rfl (.divide (by decide +kernel)
    (show _ = some (⟨[(1 / 2, 1)], [0], 0⟩, ⟨[(0, 1 / 2)], [0], 0⟩) by decide +kernel)))
  have h6 := h5.tail (.split rfl rfl)
  exact ⟨_, h6, by decide +kernel, partition_invariant _ _ _ _ h6⟩

/-! ## Certified shapes -/

/-- A box of certified items. -/
theorem certified_of_mem_bind {p : ℕ → (ℕ → ℝ) → ℝ} {M : Multiset Token} (hM : ∀ t ∈ M, t.Certified p)
    {b : BoundingBox} (hb : b ∈ M.bind Token.boxes) : b.Certified p := by
  obtain ⟨t, ht, hb⟩ := Multiset.mem_bind.1 hb
  exact (hM t ht).boxes b hb

/-- If the positive solvers are sound, a shape marked 1 in a state vector is non-negative on the box,
in every state of the threads and of `run_iters`, and so are all shapes on a box that is about to
be confirmed. -/
theorem certified_states (cfg : Config) (p : ℕ → (ℕ → ℝ) → ℝ)
    (hpos : ∀ i c, cfg.pos i c .yes → ∀ x, InBox c x → 0 ≤ p i x) (acoords : Coords) :
    (∀ nThreads s, Reaches cfg (init (initialList acoords cfg.shapes) nThreads) s →
      (∀ b ∈ s.shared.frags.boxes ++ s.halves, ∀ i, b.stateAt i = 1 → ∀ x, InBox b.coords x → 0 ≤ p i x) ∧
      ∀ n, .working n (.visiting cfg.shapes .inside) ∈ s.threads →
        ∀ i < cfg.shapes, ∀ x, InBox (s.shared.frags.box n).coords x → 0 ≤ p i x) ∧
    (∀ iterLimit s, IterReaches cfg iterLimit (iterInit (initialList acoords cfg.shapes)) s →
      (∀ b ∈ s.frags.boxes ++ s.half, ∀ i, b.stateAt i = 1 → ∀ x, InBox b.coords x → 0 ≤ p i x) ∧
      ∀ n, s.pc = .working (.visiting cfg.shapes .inside) → s.currBox = some n →
        ∀ i < cfg.shapes, ∀ x, InBox (s.frags.box n).coords x → 0 ≤ p i x) := by
  refine ⟨fun nThreads s hrun => ?_, fun iterLimit s hrun => ?_⟩
  · obtain ⟨M, ⟨taken, pending, kept, hl, rfl⟩, hruns⟩ := hrun.items (Ll.holds_new _)
    have hcert := hruns.forall_mem (fun _ _ hr => hr.certified hpos)
      (forall_initial (certified_initial p acoords cfg.shapes))
    refine ⟨fun b hb i hi => ?_, fun n hn => ?_⟩
    · have hmem : b ∈ (s.items pending kept).bind Token.boxes := by
        rw [hl.boxes, Multiset.coe_add]
        exact Multiset.mem_add.2 (.inl hb)
      exact certified_of_mem_bind hcert hmem i (by omega)
    · exact (hcert (.held (s.shared.frags.box n) (.visiting cfg.shapes .inside)) (mem_items.2 (.inr (.inr (.inr
        ⟨_, hn, Multiset.mem_singleton_self _⟩))))).2
  · obtain ⟨M, habs, hruns⟩ := hrun.items (Ll.holds_new _)
    have hreal : ∀ i c, cfg.real.pos i c .yes → ∀ x, InBox c x → 0 ≤ p i x := hpos
    have hcert := hruns.forall_mem (fun _ _ hr => hr.certified hreal)
      (forall_initial (certified_initial p acoords cfg.shapes))
    refine ⟨fun b hb i hi => ?_, fun n hpc hcur => ?_⟩
    · have hmem : b ∈ M.bind Token.boxes := by
        rw [habs.boxes, Multiset.coe_add]
        exact Multiset.mem_add.2 (.inl hb)
      exact certified_of_mem_bind hcert hmem i (by omega)
    · unfold IterAbs at habs
      rw [hpc] at habs
      obtain ⟨m, rest, -, hc, rfl⟩ := habs
      obtain rfl : m = n := Option.some.inj (hc.symm.trans hcur)
      exact (hcert _ (Multiset.mem_add.2 (.inl (Multiset.mem_singleton_self _)))).2

/-- One shape, the first coordinate, certified on a box whose lower bound there is not negative. -/
def Decided.firstCoord : Decided where
  shapes := 1
  volLimit := 1
  pos _ c := c.head?.any fun e => 0 ≤ e.1
  neg _ _ := false

/-- On the interval from 0 to 1 the shape is certified, in a thread and in `run_iters`. -/
theorem certified_states_firstCoord :
    (∃ s, Reaches Decided.firstCoord.config (init (initialList [(0, 1)] 1) 1) s ∧
      .working 0 (.visiting 1 .inside) ∈ s.threads ∧ s.shared.frags.boxes = [⟨[(0, 1)], [1], 0⟩] ∧
      ∀ x, InBox (s.shared.frags.box 0).coords x → 0 ≤ x 0) ∧
    ∃ s, IterReaches Decided.firstCoord.config 1 (iterInit (initialList [(0, 1)] 1)) s ∧
      s.pc = .working (.visiting 1 .inside) ∧ s.frags.boxes = [⟨[(0, 1)], [1], 0⟩] ∧
      ∀ x, InBox (s.frags.box 0).coords x → 0 ≤ x 0 := by
  have hpos : ∀ i c, Decided.firstCoord.config.pos i c .yes → ∀ x, InBox c x → 0 ≤ x 0 := by
    intro i c hyes x hx
    have hpos := Decided.pos_yes.1 hyes
    cases c with
    | nil => cases hpos
    | cons e c =>
      have he : (0 : ℚ) ≤ e.1 := by simpa [Decided.firstCoord] using hpos
      exact le_trans (by exact_mod_cast he) (hx 0 e rfl).1
  obtain ⟨hthreads, hiters⟩ := certified_states Decided.firstCoord.config (fun _ x => x 0) hpos [(0, 1)]
  constructor
  · have hstate : (Decided.firstCoord.run (List.replicate 3 0) (init (initialList [(0, 1)] 1) 1)).map
        (fun s => (s.threads, s.shared.frags.boxes)) =
          some ([.working 0 (.visiting 1 .inside)], [⟨[(0, 1)], [1], 0⟩]) := by decide +kernel
    obtain ⟨s, hs, he⟩ := Option.map_eq_some_iff.1 hstate
    rw [Prod.mk.injEq] at he
    have hrun := Decided.run_reaches _ hs
    have hmem : .working 0 (.visiting 1 .inside) ∈ s.threads := by simp [he.1]
    exact ⟨s, hrun, hmem, he.2, (hthreads 1 s hrun).2 0 hmem 0 (by decide)⟩
  · have h1 := (Relation.ReflTransGen.refl (r := IterStep Decided.firstCoord.config 1)
      (a := iterInit (initialList [(0, 1)] 1))).tail (.enter rfl (by decide) rfl)
    have h2 := h1.tail (.process rfl rfl (.enter nofun))
    have h3 := h2.tail (.process rfl rfl (.certify (by decide) (by decide) (Decided.pos_yes.2 (by decide +kernel))))
    exact ⟨_, h3, rfl, by decide +kernel, (hiters 1 _ h3).2 0 rfl rfl 0 (by decide)⟩

end GridSolve.Grid
