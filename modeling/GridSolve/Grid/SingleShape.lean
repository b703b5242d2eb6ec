/-
`class fragmentation` (`approximation.hpp`, `approximation.cpp`): the refinement for one shape.
`run_iters` visits the boxes in the order of a queue: a box that is split goes back to the end, with
its other half behind it. When the positive solver certifies a box the cursor moves on before the
mark is written, so that the mark goes to the next box in the queue, and there may be none.
-/
import GridSolve.Grid.Colors
import GridSolve.Grid.Refine

namespace GridSolve.Grid

/-! ## The code -/

/-- The longest side is cut: the new box, and what is left of this one. Without a side to cut the index
is -1, which is outside the coordinates. -/
def BoundingBox.halve (b : BoundingBox) : Option (BoundingBox × BoundingBox) :=
  match b.longestDir with
  | none => none
  | some idx => b.divide idx 0 false

/-- `class fragmentation`. -/
structure Fragmentation where
  frags : Ll
  currBox : Option ℕ
  /-- How often the solvers were asked about a box. -/
  visits : ℕ
  /-- The boxes for which the positive solver returned true, each with its node; no step reads it. -/
  certified : List (ℕ × Coords)

namespace Fragmentation

/-- The constructor. -/
def new (acoords : Coords) : Fragmentation :=
  { frags := .new (.new acoords), currBox := some 0, visits := 0, certified := [] }

/-- `curr_box=curr_box->next`, after the solvers were asked. -/
def advance (n : ℕ) (f : Fragmentation) : Fragmentation := { f with currBox := f.frags.next n, visits := f.visits + 1 }

/-- The same when the positive solver has returned true. -/
def certify (n : ℕ) (f : Fragmentation) : Fragmentation :=
  { f.advance n with certified := (n, (f.frags.box n).coords) :: f.certified }

/-- `curr_box=frags->remove(curr_box)`. -/
def discard (n : ℕ) (f : Fragmentation) : Fragmentation :=
  { f with frags := (f.frags.remove n).2, currBox := (f.frags.remove n).1, visits := f.visits + 1 }

/-- `curr_box->box().confidence_()=1`: `none` when the cursor is `NULL`. -/
def markCurr (f : Fragmentation) : Option Fragmentation :=
  match f.currBox with
  | none => none
  | some m => some { f with frags := f.frags.setBox m (f.frags.box m).confirm }

/-- The split of the box: this half to the end of the list, and the new one behind it. -/
def divideCurr (n : ℕ) (f : Fragmentation) : Option Fragmentation :=
  match (f.frags.box n).halve with
  | none => none
  | some (b, this) =>
    let moved := (f.frags.setBox n this).emplaceNode n
    some { f with frags := moved.2.addNode b, currBox := moved.1, visits := f.visits + 1 }

section

variable (pos neg : ℕ → Bool) (volLimit : ℚ)

/-- The body of the first loop, on the box of the node `n`. The answers are those of the visit. -/
def iteration (n : ℕ) (f : Fragmentation) : Option Fragmentation :=
  match Verdict.of (pos f.visits) (neg f.visits) with
  | .certified => (f.certify n).markCurr
  | .refuted => some (f.discard n)
  | .undecided => if (f.frags.box n).norm < volLimit then some (f.advance n) else f.divideCurr n

/-- The first loop, with the iterations that are left. -/
def iterations : ℕ → Fragmentation → Option Fragmentation
  | 0, f => some f
  | itr + 1, f =>
    match f.currBox with
    | none => some f
    | some n => (f.iteration pos neg volLimit n).bind (iterations itr)

/-- The second loop. -/
def sweep : ℕ → Fragmentation → Fragmentation
  | 0, f => f
  | fuel + 1, f =>
    match f.currBox with
    | none => f
    | some n =>
      match Verdict.of (pos f.visits) (neg f.visits) with
      | .certified => sweep fuel (f.certify n)
      | .refuted => sweep fuel (f.discard n)
      | .undecided => sweep fuel (f.advance n)

/-- `run_iters`: `none` when a pointer is dereferenced that is `NULL`. -/
def runIters (iterLimit : ℤ) (f : Fragmentation) : Option Fragmentation :=
  (f.iterations pos neg volLimit iterLimit.toNat).map fun f => f.sweep pos neg f.frags.fresh

/-- `run_iters` comes to its end, and only boxes that the positive solver has certified have confidence 1. -/
def Safe (iterLimit : ℤ) (f : Fragmentation) : Prop :=
  ∃ f', f.runIters pos neg volLimit iterLimit = some f' ∧ f'.currBox = none ∧
    ∀ p ∈ f'.frags.nodes, (f'.frags.box p).confidence = 1 → (p, (f'.frags.box p).coords) ∈ f'.certified

end

end Fragmentation

/-! ## The queue -/

/-- The boxes as they wait for the solvers, without the list and the confidences. -/
structure Queue where
  waiting : List (ℕ × Coords)
  fresh : ℕ
  visits : ℕ
  /-- What the solvers said the last time they were asked about a box. -/
  last : ℕ → Verdict
  /-- For every certificate of the first loop the box that was waiting behind. -/
  marks : List (Option ℕ)

namespace Queue

def new (acoords : Coords) : Queue :=
  { waiting := [(0, acoords)], fresh := 1, visits := 0, last := fun _ => .undecided, marks := [] }

/-- The first box leaves. -/
def leave (p : ℕ) (rest : List (ℕ × Coords)) (v : Verdict) (q : Queue) : Queue :=
  { q with waiting := rest, visits := q.visits + 1, last := Function.update q.last p v }

/-- The box behind the one that leaves is marked. -/
def mark (rest : List (ℕ × Coords)) (q : Queue) : Queue := { q with marks := (rest.map Prod.fst).head? :: q.marks }

/-- The first box goes to the end as two halves. -/
def requeue (p : ℕ) (rest : List (ℕ × Coords)) (upper lower : Coords) (q : Queue) : Queue :=
  { q with
    waiting := rest ++ [(p, upper), (q.fresh, lower)], fresh := q.fresh + 1, visits := q.visits + 1
    last := Function.update q.last p .undecided }

variable (pos neg : ℕ → Bool) (volLimit : ℚ)

/-- A visit of the first loop. -/
def visit (q : Queue) : Queue :=
  match q.waiting with
  | [] => q
  | (p, c) :: rest =>
    match Verdict.of (pos q.visits) (neg q.visits) with
    | .certified => (q.leave p rest .certified).mark rest
    | .refuted => q.leave p rest .refuted
    | .undecided =>
      if (BoundingBox.new c).norm < volLimit then q.leave p rest .undecided
      else
        match (BoundingBox.new c).halve with
        | none => q.leave p rest .undecided
        | some (b, this) => q.requeue p rest this.coords b.coords

/-- A visit of the second loop. -/
def lastVisit (q : Queue) : Queue :=
  match q.waiting with
  | [] => q
  | (p, _) :: rest => q.leave p rest (Verdict.of (pos q.visits) (neg q.visits))

/-- Both loops. -/
def run (iterLimit : ℤ) (q : Queue) : Queue :=
  let q := (visit pos neg volLimit)^[iterLimit.toNat] q
  (lastVisit pos neg)^[q.fresh] q

end Queue

/-! ## Halves -/

section

variable {b n this : BoundingBox} {c : Coords}

theorem norm_new (h : b.coords = c) : (BoundingBox.new c).norm = b.norm := by
  subst h
  rfl

theorem halve_new (h : b.coords = c) (hb : b.halve = some (n, this)) :
    (BoundingBox.new c).halve = some (n, { BoundingBox.new c with coords := this.coords }) ∧
    this.confidence = b.confidence ∧
      n.confidence = 0 := by
  subst h
  unfold BoundingBox.halve at hb ⊢
  rw [show (BoundingBox.new b.coords).longestDir = b.longestDir from rfl]
  cases hd : b.longestDir with
  | none => rw [hd] at hb; cases hb
  | some idx =>
    rw [hd] at hb
    simp only [BoundingBox.divide] at hb ⊢
    rw [show (BoundingBox.new b.coords).coords = b.coords from rfl]
    cases hc : b.coords[idx]? with
    | none => rw [hc] at hb; cases hb
    | some c =>
      rw [hc] at hb
      cases hb
      exact ⟨rfl, rfl, rfl⟩

theorem exists_halve (h : -1 < b.norm) : ∃ n this, b.halve = some (n, this) := by
  obtain ⟨this, n, hsplit⟩ := BoundingBox.exists_split h
  obtain ⟨dir, c, hs⟩ := BoundingBox.split_isSplit hsplit
  have hhalve : b.halve = b.divide dir 0 false := by rw [BoundingBox.halve, hs.longest]
  simp only [hhalve, BoundingBox.divide, hs.at_dir]
  exact ⟨_, _, rfl⟩

end

/-! ## The list holds the queue -/

open Fragmentation

/-- The nodes in the list are those that are through and those that wait, a node has confidence 1 when it
was marked, and of a node that is through the last answers are known. -/
structure Sim (f : Fragmentation) (q : Queue) (done : List ℕ) : Prop where
  holds : f.frags.Holds (done ++ q.waiting.map Prod.fst)
  cursor : f.currBox = (q.waiting.map Prod.fst).head?
  fresh : f.frags.fresh = q.fresh
  visits : f.visits = q.visits
  coords : ∀ e ∈ q.waiting, (f.frags.box e.1).coords = e.2
  marked : ∀ p ∈ done ++ q.waiting.map Prod.fst, (f.frags.box p).confidence = 1 ↔ some p ∈ q.marks
  some_marks : none ∉ q.marks
  known : ∀ p, some p ∈ q.marks → p ∈ done ++ q.waiting.map Prod.fst ∨ p < q.fresh ∧ q.last p = .refuted
  through : ∀ p ∈ done, q.last p ≠ .refuted ∧ ((p, (f.frags.box p).coords) ∈ f.certified ↔ q.last p = .certified)
  asked : ∀ e ∈ f.certified, e.1 ∈ done

theorem sim_new (acoords : Coords) : Sim (.new acoords) (.new acoords) [] where
  holds := Ll.holds_new _
  cursor := rfl
  fresh := rfl
  visits := rfl
  coords := by
    intro e he
    rw [List.mem_singleton.1 he]
    rfl
  marked := fun p _ => iff_of_false (by show ¬ (0 : ℤ) = 1; decide) List.not_mem_nil
  some_marks := List.not_mem_nil
  known := nofun
  through := nofun
  asked := nofun

namespace Sim

variable {f : Fragmentation} {q : Queue} {done : List ℕ} {p : ℕ} {c : Coords} {rest : List (ℕ × Coords)}

theorem holds_first (h : Sim f q done) (hq : q.waiting = (p, c) :: rest) :
    f.frags.Holds (done ++ p :: rest.map Prod.fst) := by
  have hholds := h.holds
  rwa [hq, List.map_cons] at hholds

/-- The first node in the queue is not elsewhere in the list. -/
theorem first_notMem (h : Sim f q done) (hq : q.waiting = (p, c) :: rest) : p ∉ done ∧ p ∉ rest.map Prod.fst := by
  have hnot := (h.holds_first hq).not_mem
  exact ⟨fun hp => hnot (List.mem_append_left _ hp), fun hp => hnot (List.mem_append_right _ hp)⟩

/-- The queue without its first node, which stays in the list. -/
theorem nodes_eq (done : List ℕ) (hq : q.waiting = (p, c) :: rest) :
    done ++ q.waiting.map Prod.fst = done ++ [p] ++ rest.map Prod.fst := by
  rw [hq, List.map_cons, List.append_assoc, List.singleton_append]

/-- The node leaves the queue and stays in the list, with or without a certificate. -/
theorem leave (h : Sim f q done) (hq : q.waiting = (p, c) :: rest) {v : Verdict} (hv : v ≠ .refuted)
    {certs : List (ℕ × Coords)}
    (hcerts : ∀ e, e ∈ certs ↔ e ∈ f.certified ∨ v = .certified ∧ e = (p, (f.frags.box p).coords)) :
    Sim { f.advance p with certified := certs } (q.leave p rest v) (done ++ [p]) := by
  obtain ⟨hdone, hrest⟩ := h.first_notMem hq
  have hnodes := nodes_eq done hq
  have hlast : ∀ p', p' ≠ p → (q.leave p rest v).last p' = q.last p' := fun p' hp' => Function.update_of_ne hp' _ _
  have hself : (q.leave p rest v).last p = v := Function.update_self ..
  constructor
  · exact hnodes ▸ h.holds
  · exact (h.holds_first hq).next_eq
  · exact h.fresh
  · exact congrArg (· + 1) h.visits
  · exact fun e he => h.coords e (by rw [hq]; exact List.mem_cons_of_mem _ he)
  · exact fun p' hp' => h.marked p' (hnodes ▸ hp')
  · exact h.some_marks
  · intro p' hp'
    rcases h.known p' hp' with hmem | ⟨hlt, href⟩
    · exact .inl (hnodes ▸ hmem)
    · by_cases hpp : p' = p
      · exact .inl (by rw [hpp]; simp)
      · exact .inr ⟨hlt, (hlast p' hpp).trans href⟩
  · intro p' hp'
    rcases List.mem_append.1 hp' with hp' | hp'
    · have hne : p' ≠ p := fun heq => hdone (heq ▸ hp')
      rw [hlast p' hne]
      refine ⟨(h.through p' hp').1, ?_⟩
      rw [← (h.through p' hp').2]
      refine (hcerts _).trans (or_iff_left ?_)
      rintro ⟨-, heq⟩
      exact hne (congrArg Prod.fst heq)
    · rw [List.mem_singleton.1 hp', hself]
      refine ⟨hv, (hcerts _).trans ?_⟩
      constructor
      · rintro (hmem | ⟨hcert, -⟩)
        · exact absurd (h.asked _ hmem) hdone
        · exact hcert
      · exact fun hcert => .inr ⟨hcert, rfl⟩
  · intro e he
    rcases (hcerts e).1 he with he | ⟨-, rfl⟩
    · exact List.mem_append_left _ (h.asked e he)
    · exact List.mem_append_right _ (List.mem_singleton_self _)

theorem advance (h : Sim f q done) (hq : q.waiting = (p, c) :: rest) :
    Sim (f.advance p) (q.leave p rest .undecided) (done ++ [p]) :=
  h.leave hq (by decide) fun e => (or_iff_left (by rintro ⟨⟨⟩, -⟩)).symm

theorem certify (h : Sim f q done) (hq : q.waiting = (p, c) :: rest) :
    Sim (f.certify p) (q.leave p rest .certified) (done ++ [p]) :=
  h.leave hq (by decide) fun e => by
    rw [List.mem_cons, or_comm]
    exact or_congr_right (and_iff_right rfl).symm

theorem discard (h : Sim f q done) (hq : q.waiting = (p, c) :: rest) :
    Sim (f.discard p) (q.leave p rest .refuted) done := by
  obtain ⟨hdone, hrest⟩ := h.first_notMem hq
  have hholds := h.holds_first hq
  obtain ⟨hret, hseq⟩ := hholds.remove
  have hbox : ∀ p', (f.discard p).frags.box p' = f.frags.box p' := Ll.box_remove f.frags p
  have hlast : ∀ p', p' ≠ p → (q.leave p rest .refuted).last p' = q.last p' :=
    fun p' hp' => Function.update_of_ne hp' _ _
  have hsub : ∀ p' ∈ done ++ rest.map Prod.fst, p' ∈ done ++ q.waiting.map Prod.fst := by
    intro p' hp'
    rw [hq]
    rcases List.mem_append.1 hp' with hp' | hp'
    · exact List.mem_append_left _ hp'
    · exact List.mem_append_right _ (List.mem_cons_of_mem _ hp')
  constructor
  · exact hseq
  · exact hret
  · exact (Ll.fresh_remove f.frags p).trans h.fresh
  · exact congrArg (· + 1) h.visits
  · intro e he
    rw [hbox]
    exact h.coords e (by rw [hq]; exact List.mem_cons_of_mem _ he)
  · intro p' hp'
    rw [hbox]
    exact h.marked p' (hsub p' hp')
  · exact h.some_marks
  · intro p' hp'
    by_cases hpp : p' = p
    · rw [hpp]
      exact .inr ⟨h.fresh ▸ hholds.allocated p (by simp), Function.update_self ..⟩
    · rw [hlast p' hpp]
      refine (h.known p' hp').imp_left fun hmem => ?_
      rw [hq] at hmem
      simpa [Queue.leave, hpp] using hmem
  · intro p' hp'
    rw [hbox, hlast p' fun heq => hdone (heq ▸ hp')]
    exact h.through p' hp'
  · exact h.asked

/-- The first box in the queue is marked. -/
theorem mark (h : Sim f q done) (hq : q.waiting = (p, c) :: rest) :
    Sim { f with frags := f.frags.setBox p (f.frags.box p).confirm } { q with marks := some p :: q.marks } done := by
  have hbox : ∀ p', (f.frags.setBox p (f.frags.box p).confirm).box p' =
      if p' = p then (f.frags.box p).confirm else f.frags.box p' := Ll.box_setBox p _ f.frags
  have hcoords : ∀ p', ((f.frags.setBox p (f.frags.box p).confirm).box p').coords = (f.frags.box p').coords := by
    intro p'
    rw [hbox]
    split_ifs with hp'
    · rw [hp']
      rfl
    · rfl
  constructor
  · exact h.holds.setBox p _
  · exact h.cursor
  · exact h.fresh
  · exact h.visits
  · exact fun e he => (hcoords e.1).trans (h.coords e he)
  · intro p' hp'
    by_cases hpp : p' = p
    · subst hpp
      rw [hbox, if_pos rfl]
      exact iff_of_true rfl List.mem_cons_self
    · rw [hbox, if_neg hpp, h.marked p' hp', List.mem_cons, or_iff_right]
      exact fun heq => hpp (Option.some.inj heq)
  · exact fun hmem => h.some_marks ((List.mem_cons.1 hmem).resolve_left nofun)
  · intro p' hp'
    rcases List.mem_cons.1 hp' with heq | hp'
    · rw [Option.some.inj heq]
      exact .inl (by simp [hq])
    · exact h.known p' hp'
  · intro p' hp'
    rw [hcoords]
    exact h.through p' hp'
  · exact h.asked

theorem lt_fresh (h : Sim f q done) {p' : ℕ} (hp' : p' ∈ done ++ q.waiting.map Prod.fst) : p' < q.fresh :=
  h.fresh ▸ h.holds.allocated p' hp'

/-- A node that is still to be made was never marked. -/
theorem fresh_unmarked (h : Sim f q done) : some q.fresh ∉ q.marks := by
  intro hmem
  rcases h.known _ hmem with hmem | ⟨hlt, -⟩
  · exact lt_irrefl _ (h.lt_fresh hmem)
  · exact lt_irrefl _ hlt

/-- The first box is replaced by two halves at the end of the list, of which only the new one has lost its mark. -/
theorem requeue (h : Sim f q done) (hq : q.waiting = (p, c) :: rest) {b this : BoundingBox} {l : Ll}
    (hlist : l.Holds (done ++ (rest.map Prod.fst ++ [p] ++ [q.fresh]))) (hfresh : l.fresh = q.fresh + 1)
    (hbox : ∀ p', l.box p' = if p' = q.fresh then b else if p' = p then this else f.frags.box p')
    (hthis : this.confidence = (f.frags.box p).confidence) (hb : b.confidence = 0) :
    Sim { f with frags := l, currBox := (rest.map Prod.fst ++ [p] ++ [q.fresh]).head?, visits := f.visits + 1 }
      (q.requeue p rest this.coords b.coords) done := by
  obtain ⟨hdone, hrest⟩ := h.first_notMem hq
  have hnodes : (q.requeue p rest this.coords b.coords).waiting.map Prod.fst = rest.map Prod.fst ++ [p] ++
      [q.fresh] := by
    simp [Queue.requeue]
  have hmem : ∀ p', p' ∈ done ++ (rest.map Prod.fst ++ [p] ++ [q.fresh]) ↔
      p' ∈ done ++ q.waiting.map Prod.fst ∨ p' = q.fresh := by
    intro p'
    rw [hq]
    simp only [List.map_cons, List.mem_append, List.mem_cons, List.not_mem_nil, or_false]
    tauto
  have hold : ∀ p' ∈ done ++ q.waiting.map Prod.fst, p' ≠ p → l.box p' = f.frags.box p' := by
    intro p' hp' hpp
    rw [hbox, if_neg (h.lt_fresh hp').ne, if_neg hpp]
  have hself : l.box p = this := by
    rw [hbox, if_neg (h.lt_fresh (by simp [hq])).ne, if_pos rfl]
  have hlast : ∀ p', p' ≠ p → (q.requeue p rest this.coords b.coords).last p' = q.last p' := fun p' hp' =>
    Function.update_of_ne hp' _ _
  constructor
  · rw [hnodes]
    exact hlist
  · rw [hnodes]
  · exact hfresh
  · exact congrArg (· + 1) h.visits
  · intro e he
    rcases List.mem_append.1 he with he | he
    · have hfst : e.1 ∈ rest.map Prod.fst := List.mem_map_of_mem he
      have hwait : e ∈ q.waiting := by rw [hq]; exact List.mem_cons_of_mem _ he
      rw [hold e.1 (List.mem_append_right _ (List.mem_map_of_mem hwait)) fun heq => hrest (heq ▸ hfst)]
      exact h.coords e hwait
    · rcases List.mem_pair.1 he with rfl | rfl
      · exact congrArg BoundingBox.coords hself
      · rw [hbox, if_pos rfl]
  · intro p' hp'
    rw [hnodes, hmem] at hp'
    rcases hp' with hp' | rfl
    · by_cases hpp : p' = p
      · subst hpp
        rw [hself, hthis]
        exact h.marked p' hp'
      · rw [hold p' hp' hpp]
        exact h.marked p' hp'
    · rw [hbox, if_pos rfl, hb]
      exact iff_of_false zero_ne_one h.fresh_unmarked
  · exact h.some_marks
  · intro p' hp'
    rw [hnodes, hmem]
    by_cases hpp : p' = p
    · exact .inl (.inl (by simp [hpp, hq]))
    · rw [hlast p' hpp]
      exact (h.known p' hp').imp .inl fun hout => ⟨Nat.lt_succ_of_lt hout.1, hout.2⟩
  · intro p' hp'
    have hpp : p' ≠ p := fun heq => hdone (heq ▸ hp')
    rw [hold p' (List.mem_append_left _ hp') hpp, hlast p' hpp]
    exact h.through p' hp'
  · exact h.asked

theorem divideCurr (h : Sim f q done) (hq : q.waiting = (p, c) :: rest) {b this : BoundingBox}
    (hhalve : (f.frags.box p).halve = some (b, this)) :
    ∃ f', f.divideCurr p = some f' ∧ Sim f' (q.requeue p rest this.coords b.coords) done := by
  obtain ⟨-, hthis, hb⟩ := halve_new rfl hhalve
  obtain ⟨hlist, hret, hbox⟩ := ((h.holds_first hq).setBox p this).requeue b
  have hfresh : (f.frags.setBox p this).fresh = q.fresh := h.fresh
  rw [hfresh] at hlist hret
  refine ⟨_, by rw [Fragmentation.divideCurr, hhalve], ?_⟩
  simp only [hret]
  refine h.requeue hq hlist ?_ (fun p' => ?_) hthis hb
  · rw [Ll.fresh_addNode, Ll.fresh_emplaceNode, hfresh]
  · rw [hbox, hfresh, Ll.box_setBox]

/-! ## The loops -/

variable (pos neg : ℕ → Bool) {volLimit : ℚ}

/-- An iteration is a visit, unless it marks a box behind the last one. -/
theorem iteration (h : Sim f q done) (hvol : 0 < volLimit) (hq : q.waiting = (p, c) :: rest) :
    (f.iteration pos neg volLimit p = none ∧ none ∈ (q.visit pos neg volLimit).marks) ∨
      ∃ f' done', f.iteration pos neg volLimit p = some f' ∧ Sim f' (q.visit pos neg volLimit) done' := by
  have hcoords : (f.frags.box p).coords = c := h.coords (p, c) (by rw [hq]; exact List.mem_cons_self)
  unfold Fragmentation.iteration Queue.visit
  rw [hq, h.visits]
  cases Verdict.of (pos q.visits) (neg q.visits) with
  | certified =>
    have hsim := h.certify hq
    cases rest with
    | nil =>
      have hnull : (f.certify p).currBox = none := hsim.cursor
      exact .inl ⟨by simp only [Fragmentation.markCurr, hnull], List.mem_cons_self⟩
    | cons e rest =>
      have hcurr : (f.certify p).currBox = some e.1 := hsim.cursor
      exact .inr ⟨_, _, by simp only [Fragmentation.markCurr, hcurr], hsim.mark rfl⟩
  | refuted => exact .inr ⟨_, _, rfl, h.discard hq⟩
  | undecided =>
    dsimp only
    rw [norm_new hcoords]
    split_ifs with hsmall
    · exact .inr ⟨_, _, rfl, h.advance hq⟩
    · obtain ⟨b, this, hhalve⟩ := exists_halve (b := f.frags.box p) (by linarith)
      obtain ⟨f', hf', hsim⟩ := h.divideCurr hq hhalve
      rw [(halve_new hcoords hhalve).1]
      exact .inr ⟨f', done, hf', hsim⟩

theorem marks_subset_visit (q : Queue) : q.marks ⊆ (q.visit pos neg volLimit).marks := by
  unfold Queue.visit
  split
  · exact List.Subset.refl _
  · split
    · exact List.subset_cons_self _ _
    · exact List.Subset.refl _
    · split_ifs
      · exact List.Subset.refl _
      · split <;> exact List.Subset.refl _

theorem marks_subset_visits (k : ℕ) (q : Queue) : q.marks ⊆ ((Queue.visit pos neg volLimit)^[k] q).marks := by
  induction k generalizing q with
  | zero => exact List.Subset.refl _
  | succ k ih => exact List.Subset.trans (marks_subset_visit pos neg q) (ih _)

/-- The first loop. -/
theorem iterations (hvol : 0 < volLimit) : ∀ (k : ℕ) {f : Fragmentation} {q : Queue} {done : List ℕ}, Sim f q done →
    (f.iterations pos neg volLimit k = none ∧ none ∈ ((Queue.visit pos neg volLimit)^[k] q).marks) ∨
      ∃ f' done', f.iterations pos neg volLimit k = some f' ∧ Sim f' ((Queue.visit pos neg volLimit)^[k] q) done'
  | 0, f, _, done, h => .inr ⟨f, done, rfl, h⟩
  | k + 1, f, q, done, h => by
    rw [Fragmentation.iterations, h.cursor, Function.iterate_succ_apply]
    cases hq : q.waiting with
    | nil =>
      have hidle : q.visit pos neg volLimit = q := by rw [Queue.visit, hq]
      rw [hidle, Function.iterate_fixed hidle]
      exact .inr ⟨f, done, rfl, h⟩
    | cons e rest =>
      rw [List.map_cons, List.head?_cons]
      dsimp only
      rcases h.iteration pos neg hvol hq with ⟨hnone, hmark⟩ | ⟨f', done', hsome, hsim⟩
      · rw [hnone]
        exact .inl ⟨rfl, marks_subset_visits pos neg k _ hmark⟩
      · rw [hsome]
        exact iterations hvol k hsim

/-- The second loop. -/
theorem sweep : ∀ (fuel : ℕ) {f : Fragmentation} {q : Queue} {done : List ℕ}, Sim f q done →
    ∃ done', Sim (f.sweep pos neg fuel) ((Queue.lastVisit pos neg)^[fuel] q) done'
  | 0, _, _, done, h => ⟨done, h⟩
  | fuel + 1, f, q, done, h => by
    rw [Fragmentation.sweep, h.cursor, Function.iterate_succ_apply]
    cases hq : q.waiting with
    | nil =>
      have hidle : q.lastVisit pos neg = q := by rw [Queue.lastVisit, hq]
      rw [hidle, Function.iterate_fixed hidle]
      exact ⟨done, h⟩
    | cons e rest =>
      rw [List.map_cons, List.head?_cons, Queue.lastVisit, hq]
      dsimp only
      rw [h.visits]
      cases Verdict.of (pos q.visits) (neg q.visits) with
      | certified => exact sweep fuel (h.certify hq)
      | refuted => exact sweep fuel (h.discard hq)
      | undecided => exact sweep fuel (h.advance hq)

theorem marks_lastVisits (k : ℕ) (q : Queue) : ((Queue.lastVisit pos neg)^[k] q).marks = q.marks := by
  induction k generalizing q with
  | zero => rfl
  | succ k ih =>
    rw [Function.iterate_succ_apply, ih, Queue.lastVisit]
    split <;> rfl

theorem waiting_lastVisits (k : ℕ) (q : Queue) : ((Queue.lastVisit pos neg)^[k] q).waiting = q.waiting.drop k := by
  induction k generalizing q with
  | zero => rfl
  | succ k ih =>
    rw [Function.iterate_succ_apply, ih, Queue.lastVisit]
    cases hq : q.waiting with
    | nil => simp [hq]
    | cons e rest => rfl

/-- No more boxes wait than were ever made. -/
theorem length_waiting_le (h : Sim f q done) : q.waiting.length ≤ q.fresh := by
  have hlen := h.holds.length_le
  rw [List.length_append, List.length_map, h.fresh] at hlen
  omega

/-- When no box waits, what is marked is certified exactly if the marked boxes are decided. -/
theorem certified_iff (h : Sim f q done) (hq : q.waiting = []) :
    (∀ p ∈ f.frags.nodes, (f.frags.box p).confidence = 1 → (p, (f.frags.box p).coords) ∈ f.certified) ↔
      ∀ m ∈ q.marks, ∃ p, m = some p ∧ q.last p ≠ .undecided := by
  have hlist : done ++ q.waiting.map Prod.fst = done := by simp [hq]
  have hmarked := h.marked
  have hknown := h.known
  rw [hlist] at hmarked
  simp only [hlist] at hknown
  have hholds := h.holds
  rw [hlist] at hholds
  rw [hholds.nodes_eq]
  constructor
  · intro hsafe m hm
    cases m with
    | none => exact absurd hm h.some_marks
    | some p =>
      refine ⟨p, rfl, ?_⟩
      rcases hknown p hm with hp | ⟨-, href⟩
      · rw [(h.through p hp).2.1 (hsafe p hp ((hmarked p hp).2 hm))]
        decide
      · rw [href]
        decide
  · intro hdecided p hp hone
    obtain ⟨p', heq, hlast⟩ := hdecided _ ((hmarked p hp).1 hone)
    cases heq
    apply (h.through p hp).2.2
    have href := (h.through p hp).1
    cases hv : q.last p with
    | certified => rfl
    | refuted => exact absurd hv href
    | undecided => exact absurd hv hlast

end Sim

/-! ## The marks -/

variable {pos neg : ℕ → Bool} {volLimit : ℚ}

/-- `run_iters` marks certified boxes only, and follows no `NULL`, exactly when behind every box that is certified
in the first loop another one is waiting that the solvers decide the last time they are asked about it. -/
theorem runIters_safe_iff (acoords : Coords) (iterLimit : ℤ) (hvol : 0 < volLimit) :
    (Fragmentation.new acoords).Safe pos neg volLimit iterLimit ↔
      ∀ m ∈ ((Queue.new acoords).run pos neg volLimit iterLimit).marks,
        ∃ p, m = some p ∧ ((Queue.new acoords).run pos neg volLimit iterLimit).last p ≠ .undecided := by
  unfold Fragmentation.Safe Fragmentation.runIters Queue.run
  rcases Sim.iterations pos neg hvol iterLimit.toNat (sim_new acoords) with ⟨hnone, hmark⟩ | ⟨f, done, hsome, hsim⟩
  · rw [hnone]
    refine iff_of_false (fun ⟨_, h, _⟩ => nomatch h) fun h => ?_
    obtain ⟨p, heq, -⟩ := h none (by rw [Sim.marks_lastVisits]; exact hmark)
    cases heq
  · obtain ⟨done', hend⟩ := Sim.sweep pos neg f.frags.fresh hsim
    have hq := Sim.waiting_lastVisits pos neg f.frags.fresh
      ((Queue.visit pos neg volLimit)^[iterLimit.toNat] (.new acoords))
    rw [List.drop_of_length_le (hsim.fresh ▸ hsim.length_waiting_le)] at hq
    have hcursor : (f.sweep pos neg f.frags.fresh).currBox = none := by rw [hend.cursor, hq]; rfl
    rw [hsome]
    simp only [Option.map_some, Option.some.injEq, exists_eq_left', hcursor, true_and]
    rw [hend.certified_iff hq, hsim.fresh]

/-- A box that is split, with a certificate for one half and then for the other. -/
theorem runIters_safe_halves :
    (Fragmentation.new [(0, 1)]).Safe (fun visit => visit = 1 || visit = 2) (fun _ => false) (1 / 10) 2 ∧
      ((Queue.new [(0, 1)]).run (fun visit => visit = 1 || visit = 2) (fun _ => false) (1 / 10) 2).marks =
      [some 1] := by
  have hmarks : ((Queue.new [(0, 1)]).run (fun visit => visit = 1 || visit = 2) (fun _ => false) (1 / 10) 2).marks =
      [some 1] := by
    decide +kernel
  refine ⟨(runIters_safe_iff [(0, 1)] 2 (by norm_num)).2 ?_, hmarks⟩
  rw [hmarks, List.forall_mem_singleton]
  exact ⟨1, rfl, by decide +kernel⟩

/-- A certificate for the only box: the mark goes to `NULL`. A certificate for the first of two halves: the
mark goes to the other, which is never certified. -/
theorem runIters_marks_next :
    ((Fragmentation.new [(0, 1)]).runIters (fun _ => true) (fun _ => false) (1 / 10) 1).isNone = true ∧
    ((Fragmentation.new [(0, 1)]).runIters (fun visit => visit = 1) (fun _ => false) (1 / 10) 2).map
      (fun f => (f.frags.boxes, f.certified)) =
      some ([⟨[(1 / 2, 1)], [], 0⟩, ⟨[(0, 1 / 2)], [], 1⟩], [(0, [(1 / 2, 1)])]) := by
  decide +kernel

end GridSolve.Grid
