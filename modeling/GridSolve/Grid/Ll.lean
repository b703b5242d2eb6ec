/-
`class ll`, the doubly linked list of boxes (`approximation.hpp`). Nodes are addresses into a heap
of cells; every operation works on the links as the code does. `Holds l seq` says that the nodes
from `HEAD` to `TAIL` are `seq`; each operation is then an operation on the sequence, and none of
them touches a box.
-/
import GridSolve.Grid.Box
import GridSolve.Lib.Chain

namespace GridSolve.Grid

open GridSolve.Chain

/-- `class ll_node`; a pointer is an address, `none` is `NULL`. -/
structure LlNode where
  b : BoundingBox
  next : Option ℕ
  parent : Option ℕ
  deriving DecidableEq, Repr

/-- `class ll`: the cells, the next address `new` gives, `HEAD` and `TAIL`. -/
structure Ll where
  mem : ℕ → LlNode
  fresh : ℕ
  head : Option ℕ
  tail : Option ℕ

namespace Ll

def next (l : Ll) (p : ℕ) : Option ℕ := (l.mem p).next
def parent (l : Ll) (p : ℕ) : Option ℕ := (l.mem p).parent

/-- `p->box()`. -/
def box (l : Ll) (p : ℕ) : BoundingBox := (l.mem p).b

/-- `p->next = q`. -/
def setNext (p q : Option ℕ) (l : Ll) : Ll :=
  match p with
  | none => l
  | some p => { l with mem := Function.update l.mem p { l.mem p with next := q } }

/-- `p->parent = q`. -/
def setParent (p q : Option ℕ) (l : Ll) : Ll :=
  match p with
  | none => l
  | some p => { l with mem := Function.update l.mem p { l.mem p with parent := q } }

/-- A change of `p->box()`. -/
def setBox (p : ℕ) (b : BoundingBox) (l : Ll) : Ll :=
  { l with mem := Function.update l.mem p { l.mem p with b := b } }

/-- `HEAD = q`. -/
def setHead (q : Option ℕ) (l : Ll) : Ll := { l with head := q }

/-- `TAIL = q`. -/
def setTail (q : Option ℕ) (l : Ll) : Ll := { l with tail := q }

/-- `new ll_node(&b)`, at the address `fresh`. -/
def alloc (b : BoundingBox) (l : Ll) : Ll :=
  { l with mem := Function.update l.mem l.fresh { b := b, next := none, parent := none }, fresh := l.fresh + 1 }

/-- `ll()`. -/
def empty : Ll :=
  { mem := fun _ => { b := .new [], next := none, parent := none }, fresh := 0, head := none, tail := none }

/-- `ll(bounding_box*)`. -/
def new (b : BoundingBox) : Ll :=
  { mem := fun _ => { b := b, next := none, parent := none }, fresh := 1, head := some 0, tail := some 0 }

/-- `add_node`. -/
def addNode (b : BoundingBox) (l : Ll) : Ll :=
  let toAdd := some l.fresh
  let l := l.alloc b
  match l.head with
  | none => (l.setHead toAdd).setTail toAdd
  | some _ => ((l.setNext l.tail toAdd).setParent toAdd l.tail).setTail toAdd

/-- The branch of `emplace_node` on `n->parent`: `HEAD` or the parent's link skips `n`. -/
def bypass (n : ℕ) (ans : Option ℕ) (l : Ll) : Ll :=
  match l.parent n with
  | none => l.setHead ans
  | some par => l.setNext (some par) ans

/-- `emplace_node`: moves a node to the end and returns its old successor; a node that is last
stays and is returned itself. -/
def emplaceNode (n : ℕ) (l : Ll) : Option ℕ × Ll :=
  match l.next n with
  | none => (some n, l)
  | some ans =>
    let l := bypass n (some ans) (l.setParent (some ans) (l.parent n))
    let l := ((l.setNext l.tail (some n)).setParent (some n) l.tail).setTail (some n)
    (some ans, l.setNext (some n) none)

/-- `remove`: unlinks a node and returns its successor; the node keeps its own links. -/
def remove (n : ℕ) (l : Ll) : Option ℕ × Ll :=
  match l.next n, l.parent n with
  | none, none => (none, (l.setTail none).setHead none)
  | none, some par => (none, (l.setTail (some par)).setNext (some par) none)
  | some ans, none => (some ans, (l.setHead (some ans)).setParent (some ans) none)
  | some ans, some par => (some ans, (l.setNext (some par) (some ans)).setParent (some ans) (some par))

/-- A loop over the nodes from a cursor on that changes nothing but their boxes. -/
def updateFrom (f : ℕ → BoundingBox → BoundingBox) : ℕ → Option ℕ → Ll → Ll
  | 0, _, l => l
  | _, none, l => l
  | fuel + 1, some curr, l => updateFrom f fuel (l.next curr) (l.setBox curr (f curr (l.box curr)))

/-- The nodes met on the way from `p` along `next`, at most `fuel` of them. -/
def walk (l : Ll) : ℕ → Option ℕ → List ℕ
  | 0, _ => []
  | _, none => []
  | fuel + 1, some p => p :: l.walk fuel (l.next p)

/-- The nodes from `HEAD` on. No more than were allocated can be met. -/
def nodes (l : Ll) : List ℕ := l.walk l.fresh l.head

/-- The boxes of the list. -/
def boxes (l : Ll) : List BoundingBox := l.nodes.map l.box

/-! ## Fields after an update -/

section

variable (p q : Option ℕ) (r : ℕ) (l : Ll)

@[simp] theorem next_setNext : (l.setNext p q).next r = if some r = p then q else l.next r := by
  cases p with
  | none => simp [setNext, next]
  | some p => by_cases h : r = p <;> simp [setNext, next, h]

@[simp] theorem parent_setNext : (l.setNext p q).parent r = l.parent r := by
  cases p with
  | none => rfl
  | some p => by_cases h : r = p <;> simp [setNext, parent, h]

@[simp] theorem box_setNext : (l.setNext p q).box r = l.box r := by
  cases p with
  | none => rfl
  | some p => by_cases h : r = p <;> simp [setNext, box, h]

@[simp] theorem next_setParent : (l.setParent p q).next r = l.next r := by
  cases p with
  | none => rfl
  | some p => by_cases h : r = p <;> simp [setParent, next, h]

@[simp] theorem parent_setParent : (l.setParent p q).parent r = if some r = p then q else l.parent r := by
  cases p with
  | none => simp [setParent, parent]
  | some p => by_cases h : r = p <;> simp [setParent, parent, h]

@[simp] theorem box_setParent : (l.setParent p q).box r = l.box r := by
  cases p with
  | none => rfl
  | some p => by_cases h : r = p <;> simp [setParent, box, h]

@[simp] theorem next_setHead : (l.setHead q).next r = l.next r := rfl
@[simp] theorem parent_setHead : (l.setHead q).parent r = l.parent r := rfl
@[simp] theorem box_setHead : (l.setHead q).box r = l.box r := rfl
@[simp] theorem next_setTail : (l.setTail q).next r = l.next r := rfl
@[simp] theorem parent_setTail : (l.setTail q).parent r = l.parent r := rfl
@[simp] theorem box_setTail : (l.setTail q).box r = l.box r := rfl

@[simp] theorem head_setHead : (l.setHead q).head = q := rfl
@[simp] theorem tail_setHead : (l.setHead q).tail = l.tail := rfl
@[simp] theorem fresh_setHead : (l.setHead q).fresh = l.fresh := rfl
@[simp] theorem head_setTail : (l.setTail q).head = l.head := rfl
@[simp] theorem tail_setTail : (l.setTail q).tail = q := rfl
@[simp] theorem fresh_setTail : (l.setTail q).fresh = l.fresh := rfl
@[simp] theorem head_setNext : (l.setNext p q).head = l.head := by cases p <;> rfl
@[simp] theorem tail_setNext : (l.setNext p q).tail = l.tail := by cases p <;> rfl
@[simp] theorem fresh_setNext : (l.setNext p q).fresh = l.fresh := by cases p <;> rfl
@[simp] theorem head_setParent : (l.setParent p q).head = l.head := by cases p <;> rfl
@[simp] theorem tail_setParent : (l.setParent p q).tail = l.tail := by cases p <;> rfl
@[simp] theorem fresh_setParent : (l.setParent p q).fresh = l.fresh := by cases p <;> rfl

end

@[simp] theorem next_alloc (b : BoundingBox) (l : Ll) (r : ℕ) :
    (l.alloc b).next r = if r = l.fresh then none else l.next r := by
  by_cases h : r = l.fresh <;> simp [alloc, next, h]

@[simp] theorem parent_alloc (b : BoundingBox) (l : Ll) (r : ℕ) :
    (l.alloc b).parent r = if r = l.fresh then none else l.parent r := by
  by_cases h : r = l.fresh <;> simp [alloc, parent, h]

@[simp] theorem box_alloc (b : BoundingBox) (l : Ll) (r : ℕ) :
    (l.alloc b).box r = if r = l.fresh then b else l.box r := by
  by_cases h : r = l.fresh <;> simp [alloc, box, h]

@[simp] theorem head_alloc (b : BoundingBox) (l : Ll) : (l.alloc b).head = l.head := rfl
@[simp] theorem tail_alloc (b : BoundingBox) (l : Ll) : (l.alloc b).tail = l.tail := rfl
@[simp] theorem fresh_alloc (b : BoundingBox) (l : Ll) : (l.alloc b).fresh = l.fresh + 1 := rfl

@[simp] theorem next_setBox (p : ℕ) (b : BoundingBox) (l : Ll) (r : ℕ) : (l.setBox p b).next r = l.next r := by
  by_cases h : r = p <;> simp [setBox, next, h]

@[simp] theorem parent_setBox (p : ℕ) (b : BoundingBox) (l : Ll) (r : ℕ) : (l.setBox p b).parent r = l.parent r := by
  by_cases h : r = p <;> simp [setBox, parent, h]

@[simp] theorem box_setBox (p : ℕ) (b : BoundingBox) (l : Ll) (r : ℕ) :
    (l.setBox p b).box r = if r = p then b else l.box r := by
  by_cases h : r = p <;> simp [setBox, box, h]

section

variable (n : ℕ) (ans : Option ℕ) (r : ℕ) (l : Ll)

@[simp] theorem next_bypass : (bypass n ans l).next r = if some r = l.parent n then ans else l.next r := by
  unfold bypass; cases l.parent n <;> simp

@[simp] theorem parent_bypass : (bypass n ans l).parent r = l.parent r := by
  unfold bypass; cases l.parent n <;> simp

@[simp] theorem box_bypass : (bypass n ans l).box r = l.box r := by
  unfold bypass; cases l.parent n <;> simp

@[simp] theorem head_bypass : (bypass n ans l).head = if l.parent n = none then ans else l.head := by
  unfold bypass; cases l.parent n <;> simp

@[simp] theorem tail_bypass : (bypass n ans l).tail = l.tail := by
  unfold bypass; cases l.parent n <;> simp

@[simp] theorem fresh_bypass : (bypass n ans l).fresh = l.fresh := by
  unfold bypass; cases l.parent n <;> simp

end

/-! ## The sequence a list holds -/

/-- The nodes of the list, from `HEAD` to `TAIL`, are `seq`. -/
structure Holds (l : Ll) (seq : List ℕ) : Prop where
  chain : IsChain l.next l.parent seq
  head_eq : l.head = seq.head?
  tail_eq : l.tail = seq.getLast?
  allocated : ∀ p ∈ seq, p < l.fresh

variable {l : Ll} {seq pre post : List ℕ} {n : ℕ}

theorem holds_empty : empty.Holds [] where
  chain := isChain_nil _ _
  head_eq := rfl
  tail_eq := rfl
  allocated := by simp

theorem holds_new (b : BoundingBox) : (new b).Holds [0] where
  chain := by
    refine ⟨List.nodup_singleton 0, fun pre a post h => ?_⟩
    obtain ⟨rfl, rfl, rfl⟩ : pre = [] ∧ a = 0 ∧ post = [] := by
      rcases pre with _ | ⟨p, pre⟩ <;> simp_all
    exact ⟨rfl, rfl⟩
  head_eq := rfl
  tail_eq := rfl
  allocated := by simp [new]

theorem Holds.setBox (h : l.Holds seq) (p : ℕ) (b : BoundingBox) : (l.setBox p b).Holds seq where
  chain := by
    have h1 : (l.setBox p b).next = l.next := funext fun r => next_setBox p b l r
    have h2 : (l.setBox p b).parent = l.parent := funext fun r => parent_setBox p b l r
    rw [h1, h2]; exact h.chain
  head_eq := h.head_eq
  tail_eq := h.tail_eq
  allocated := h.allocated

/-- The link of a node to the rest of the list. -/
theorem Holds.next_eq (h : l.Holds (pre ++ n :: post)) : l.next n = post.head? := (h.chain.links pre n post rfl).1

theorem Holds.parent_eq (h : l.Holds (pre ++ n :: post)) : l.parent n = pre.getLast? := (h.chain.links pre n post rfl).2

theorem Holds.not_mem (h : l.Holds (pre ++ n :: post)) : n ∉ pre ++ post := by
  have := h.chain.nodup
  rw [List.nodup_middle, List.nodup_cons] at this
  exact this.1

theorem Holds.allocated_cut (h : l.Holds (pre ++ n :: post)) : ∀ p ∈ pre ++ post, p < l.fresh := fun p hp =>
  h.allocated p (by rcases List.mem_append.1 hp with hp | hp <;> simp [hp])

/-- The walk from a node of the list meets the nodes from it on. -/
theorem Holds.walk_eq : ∀ {pre post : List ℕ} (_ : l.Holds (pre ++ post)) {fuel : ℕ} (_ : post.length ≤ fuel),
    l.walk fuel post.head? = post
  | pre, [], _, 0, _ => rfl
  | pre, [], _, _ + 1, _ => rfl
  | pre, n :: post, h, fuel + 1, hf => by
    have hrest : l.Holds ((pre ++ [n]) ++ post) := by simpa using h
    rw [List.head?_cons, walk, h.next_eq, hrest.walk_eq (Nat.le_of_succ_le_succ hf)]

theorem Holds.length_le (h : l.Holds seq) : seq.length ≤ l.fresh := by
  rw [← List.toFinset_card_of_nodup h.chain.nodup, ← Finset.card_range l.fresh]
  apply Finset.card_le_card
  intro p hp
  exact Finset.mem_range.2 (h.allocated p (List.mem_toFinset.1 hp))

/-- The sequence is what a walk along the list finds. -/
theorem Holds.nodes_eq (h : l.Holds seq) : l.nodes = seq := by
  rw [nodes, h.head_eq]
  exact Holds.walk_eq (show l.Holds ([] ++ seq) from h) h.length_le

theorem Holds.self (h : l.Holds seq) : l.Holds l.nodes := h.nodes_eq ▸ h

theorem Holds.boxes_eq (h : l.Holds seq) : l.boxes = seq.map l.box := by rw [boxes, h.nodes_eq]

/-- A node that is not last can be left out when the last one is looked for. -/
theorem getLast?_skip (pre : List ℕ) (n m : ℕ) (post : List ℕ) :
    (pre ++ n :: m :: post).getLast? = (pre ++ m :: post).getLast? := by
  simp [List.getLast?_append, List.getLast?_cons_cons]

/-! ## What the operations do to it -/

/-- `add_node` appends a node that was not in the list. -/
theorem Holds.addNode (h : l.Holds seq) (b : BoundingBox) : (l.addNode b).Holds (seq ++ [l.fresh]) := by
  have hx : l.fresh ∉ seq := fun hm => lt_irrefl _ (h.allocated _ hm)
  have hne : ∀ p ∈ seq, p ≠ l.fresh := fun p hp he => hx (he ▸ hp)
  cases seq with
  | nil =>
    have hh : l.head = none := h.head_eq
    constructor
    · apply (isChain_nil l.next l.parent).concat <;> simp [Ll.addNode, hh]
    all_goals simp [Ll.addNode, hh]
  | cons q seq =>
    have hh : l.head = some q := h.head_eq
    constructor
    · apply h.chain.concat hx
      · intro p hp
        simp [Ll.addNode, hh, h.tail_eq, hne p hp]
      · intro p hp
        simp [Ll.addNode, hh, hne p hp]
      · have hlast : ¬ some l.fresh = (q :: seq).getLast? := fun he =>
          hx (List.mem_of_mem_getLast? (Option.mem_def.2 he.symm))
        simp [Ll.addNode, hh, h.tail_eq, hlast]
      · simp [Ll.addNode, hh, h.tail_eq]
    · simp [Ll.addNode, hh]
    · simp only [Ll.addNode, head_alloc, hh, tail_setTail, List.getLast?_append]; rfl
    · intro p hp
      rw [show (l.addNode b).fresh = l.fresh + 1 by simp [Ll.addNode, hh]]
      rcases List.mem_append.1 hp with hp | hp
      · exact Nat.lt_succ_of_lt (h.allocated p hp)
      · rw [List.mem_singleton.1 hp]; exact Nat.lt_succ_self _

theorem box_addNode (b : BoundingBox) (l : Ll) (p : ℕ) : (l.addNode b).box p = if p = l.fresh then b else l.box p := by
  unfold Ll.addNode
  cases hh : l.head <;> simp [hh]

theorem fresh_addNode (b : BoundingBox) (l : Ll) : (l.addNode b).fresh = l.fresh + 1 := by
  unfold Ll.addNode
  cases hh : l.head <;> simp [hh]

theorem Holds.boxes_addNode (h : l.Holds seq) (b : BoundingBox) : (l.addNode b).boxes = l.boxes ++ [b] := by
  have hmap : seq.map (l.addNode b).box = seq.map l.box :=
    List.map_congr_left fun p hp => by rw [box_addNode, if_neg (h.allocated p hp).ne]
  rw [(h.addNode b).boxes_eq, h.boxes_eq, List.map_append, hmap, List.map_cons, List.map_nil, box_addNode, if_pos rfl]

/-- `remove` unlinks the node and returns the one after it. -/
theorem Holds.remove (h : l.Holds (pre ++ n :: post)) :
    (l.remove n).1 = post.head? ∧ (l.remove n).2.Holds (pre ++ post) := by
  have hn := h.next_eq
  have hp := h.parent_eq
  have halloc := h.allocated_cut
  have hhead := h.head_eq
  have htail := h.tail_eq
  cases post with
  | nil =>
    rcases List.eq_nil_or_concat' pre with rfl | ⟨u, par, rfl⟩
    · -- the only node
      simp only [List.head?_nil, List.getLast?_nil] at hn hp
      simp only [Ll.remove, hn, hp]
      exact ⟨rfl, isChain_nil _ _, rfl, rfl, by simp⟩
    · -- the last node: its parent becomes the tail
      rw [List.getLast?_concat] at hp
      simp only [Ll.remove, hn, hp, List.head?_nil]
      refine ⟨trivial, ?_, ?_, ?_, ?_⟩
      · apply h.chain.unlink <;> simp
      · rw [head_setNext, head_setTail, hhead]; cases u <;> rfl
      · simp
      · simpa using halloc
  | cons m post =>
    rcases List.eq_nil_or_concat' pre with rfl | ⟨u, par, rfl⟩
    · -- the first node: its successor becomes the head
      simp only [List.head?_cons, List.getLast?_nil] at hn hp
      simp only [Ll.remove, hn, hp, List.head?_cons]
      refine ⟨trivial, ?_, ?_, ?_, ?_⟩
      · apply h.chain.unlink <;> simp
      · simp
      · simpa using htail
      · simpa using halloc
    · rw [List.getLast?_concat] at hp
      simp only [Ll.remove, hn, hp, List.head?_cons]
      refine ⟨trivial, ?_, ?_, ?_, ?_⟩
      · apply h.chain.unlink <;> simp
      · rw [head_setParent, head_setNext, hhead]; cases u <;> rfl
      · rw [tail_setParent, tail_setNext, htail, getLast?_skip]
      · simpa using halloc

theorem box_remove (l : Ll) (n p : ℕ) : (l.remove n).2.box p = l.box p := by
  unfold Ll.remove
  split <;> simp

theorem fresh_remove (l : Ll) (n : ℕ) : (l.remove n).2.fresh = l.fresh := by
  unfold Ll.remove
  split <;> simp

/-- `emplace_node` moves the node to the end and returns the node now in its place. -/
theorem Holds.emplaceNode (h : l.Holds (pre ++ n :: post)) :
    (l.emplaceNode n).1 = (post ++ [n]).head? ∧ (l.emplaceNode n).2.Holds (pre ++ post ++ [n]) := by
  have hn := h.next_eq
  have hp := h.parent_eq
  cases post with
  | nil =>
    simp only [Ll.emplaceNode, hn, List.head?_nil]
    exact ⟨rfl, by simpa using h⟩
  | cons m post =>
    have hne : ∀ p ∈ pre ++ m :: post, p ≠ n := fun p hp he => h.not_mem (he ▸ hp)
    have hm : n ≠ m := (hne m (by simp)).symm
    have htail : l.tail = (pre ++ m :: post).getLast? := by rw [h.tail_eq, getLast?_skip]
    -- the chain without the node, to which it is then appended
    have hcut : IsChain (fun p => if some p = pre.getLast? then some m else l.next p)
        (fun p => if some p = some m then pre.getLast? else l.parent p) (pre ++ m :: post) :=
      h.chain.unlink (fun p _ => rfl) (fun p _ => rfl)
    simp only [Ll.emplaceNode, hn, List.head?_cons]
    refine ⟨rfl, ?_, ?_, ?_, ?_⟩
    · apply hcut.concat h.not_mem
      · intro p hp'
        simp [hne p hp', htail, hp, hm]
      · intro p hp'
        simp [hne p hp', hp]
      · simp
      · simp [htail]
    · simp only [head_setNext, head_setTail, head_setParent, head_bypass, parent_setParent,
        Option.some.injEq, hm, if_false, hp, h.head_eq]
      rcases pre with _ | ⟨q, pre⟩ <;> simp [List.getLast?_cons]
    · rw [tail_setNext, tail_setTail, List.getLast?_concat]
    · intro p hp'
      simp only [fresh_setNext, fresh_setTail, fresh_setParent, fresh_bypass]
      apply h.allocated
      rcases List.mem_append.1 hp' with hp' | hp'
      · rcases List.mem_append.1 hp' with hp' | hp' <;> simp [hp']
      · simp [List.mem_singleton.1 hp']

theorem box_emplaceNode (l : Ll) (n p : ℕ) : (l.emplaceNode n).2.box p = l.box p := by
  unfold Ll.emplaceNode
  cases l.next n with
  | none => rfl
  | some m =>
    simp

theorem fresh_emplaceNode (l : Ll) (n : ℕ) : (l.emplaceNode n).2.fresh = l.fresh := by
  unfold Ll.emplaceNode
  cases l.next n with
  | none => rfl
  | some m => simp

/-- A node goes to the end of the list, and a new one behind it. -/
theorem Holds.requeue (h : l.Holds (pre ++ n :: post)) (b : BoundingBox) :
    ((l.emplaceNode n).2.addNode b).Holds (pre ++ (post ++ [n] ++ [l.fresh])) ∧
      (l.emplaceNode n).1 = (post ++ [n] ++ [l.fresh]).head? ∧
      ∀ p, ((l.emplaceNode n).2.addNode b).box p = if p = l.fresh then b else l.box p := by
  obtain ⟨hret, hseq⟩ := h.emplaceNode
  have hfresh := fresh_emplaceNode l n
  refine ⟨?_, ?_, fun p => ?_⟩
  · have hadd := hseq.addNode b
    rw [hfresh] at hadd
    simpa only [List.append_assoc] using hadd
  · exact hret.trans (List.head?_append_of_ne_nil _ (by simp)).symm
  · rw [box_addNode, hfresh, box_emplaceNode]

/-- The loop comes to every node once. -/
theorem Holds.updateFrom (f : ℕ → BoundingBox → BoundingBox) :
    ∀ {post pre : List ℕ} {l : Ll} (_ : l.Holds (pre ++ post)) {fuel : ℕ} (_ : post.length ≤ fuel),
      (updateFrom f fuel post.head? l).Holds (pre ++ post) ∧
      ∀ p, (updateFrom f fuel post.head? l).box p = if p ∈ post then f p (l.box p) else l.box p
  | [], pre, l, h, 0, _ => ⟨h, fun p => by simp [Ll.updateFrom]⟩
  | [], pre, l, h, _ + 1, _ => ⟨h, fun p => by simp [Ll.updateFrom]⟩
  | n :: post, pre, l, h, fuel + 1, hf => by
    have hset : (l.setBox n (f n (l.box n))).Holds ((pre ++ [n]) ++ post) := by
      simpa using h.setBox n (f n (l.box n))
    obtain ⟨h1, h2⟩ := Holds.updateFrom f hset (Nat.le_of_succ_le_succ hf)
    have hn : n ∉ post := fun hn => h.not_mem (List.mem_append_right _ hn)
    rw [List.head?_cons, Ll.updateFrom, h.next_eq]
    refine ⟨by simpa using h1, fun p => ?_⟩
    rw [h2, box_setBox]
    by_cases hp : p = n
    · subst hp
      simp [hn]
    · simp [hp]

/-- From `HEAD` on. -/
theorem Holds.updateAll (h : l.Holds seq) (f : ℕ → BoundingBox → BoundingBox) :
    (Ll.updateFrom f l.fresh l.head l).Holds seq ∧
      ∀ p ∈ seq, (Ll.updateFrom f l.fresh l.head l).box p = f p (l.box p) := by
  obtain ⟨h1, h2⟩ := Holds.updateFrom f (show l.Holds ([] ++ seq) from h) h.length_le
  rw [← h.head_eq] at h1 h2
  exact ⟨h1, fun p hp => (h2 p).trans (if_pos hp)⟩

/-! ## Every sequence of operations -/

/-- The pointers of a list: `HEAD` has no parent and `TAIL` no successor, `next` and `parent` undo each
other, the nodes are what `next` leads to from `HEAD`, and it leads to `TAIL`. -/
structure WellFormed (l : Ll) : Prop where
  parent_head : ∀ p, l.head = some p → l.parent p = none
  next_tail : ∀ p, l.tail = some p → l.next p = none
  next_parent : ∀ p ∈ l.nodes, ∀ q, l.next p = some q → q ∈ l.nodes ∧ l.parent q = some p
  parent_next : ∀ q ∈ l.nodes, ∀ p, l.parent q = some p → p ∈ l.nodes ∧ l.next p = some q
  mem_nodes : ∀ p, p ∈ l.nodes ↔ ∃ h, l.head = some h ∧ Relation.ReflTransGen (fun a b => l.next a = some b) h p
  reaches : ∀ h, l.head = some h →
    ∃ t, l.tail = some t ∧ Relation.ReflTransGen (fun a b => l.next a = some b) h t
  null_iff : l.head = none ↔ l.tail = none

/-- The lists that the constructors and the operations make, a node being moved or removed only while
it is in the list. -/
inductive Reached : Ll → Prop
  | empty : Reached empty
  | new (b : BoundingBox) : Reached (new b)
  | add {l : Ll} (b : BoundingBox) : Reached l → Reached (l.addNode b)
  | emplace {l : Ll} {n : ℕ} : Reached l → n ∈ l.nodes → Reached (l.emplaceNode n).2
  | remove {l : Ll} {n : ℕ} : Reached l → n ∈ l.nodes → Reached (l.remove n).2

/-- The links between neighbours. -/
theorem Holds.links (h : l.Holds (pre ++ n :: post)) :
    (∀ q, l.next n = some q → q ∈ post ∧ l.parent q = some n) ∧
      ∀ p, l.parent n = some p → p ∈ pre ∧ l.next p = some n := by
  constructor
  · intro q hq
    rw [h.next_eq] at hq
    obtain ⟨post, rfl⟩ := List.head?_eq_some_iff.1 hq
    have hcut : l.Holds ((pre ++ [n]) ++ q :: post) := by simpa using h
    exact ⟨List.mem_cons_self, by rw [hcut.parent_eq, List.getLast?_concat]⟩
  · intro p hp
    rw [h.parent_eq] at hp
    obtain ⟨pre, rfl⟩ := List.getLast?_eq_some_iff.1 hp
    have hcut : l.Holds (pre ++ p :: (n :: post)) := by simpa using h
    exact ⟨by simp, by rw [hcut.next_eq, List.head?_cons]⟩

/-- From a node `next` leads to itself and to the nodes after it. -/
theorem Holds.reaches_iff : ∀ {pre post : List ℕ} {n : ℕ} (_ : l.Holds (pre ++ n :: post)) {p : ℕ},
    Relation.ReflTransGen (fun a b => l.next a = some b) n p ↔ p ∈ n :: post
  | pre, [], n, h, p => by
    rw [Relation.ReflTransGen.cases_head_iff, List.mem_singleton, h.next_eq, eq_comm (a := n)]
    simp
  | pre, m :: post, n, h, p => by
    have hrest : l.Holds ((pre ++ [n]) ++ m :: post) := by simpa using h
    rw [Relation.ReflTransGen.cases_head_iff, List.mem_cons, h.next_eq, eq_comm (a := n)]
    simp only [List.head?_cons, Option.some.injEq, exists_eq_left', hrest.reaches_iff]

/-- The list seen from its first node. -/
theorem Holds.of_head (h : l.Holds seq) {n : ℕ} (hn : l.head = some n) :
    ∃ post, seq = n :: post ∧ l.Holds ([] ++ n :: post) := by
  rw [h.head_eq] at hn
  obtain ⟨post, rfl⟩ := List.head?_eq_some_iff.1 hn
  exact ⟨post, rfl, h⟩

/-- The list seen from any of its nodes. -/
theorem Holds.of_mem (h : l.Holds seq) {p : ℕ} (hp : p ∈ l.nodes) :
    ∃ pre post, l.nodes = pre ++ p :: post ∧ l.Holds (pre ++ p :: post) := by
  obtain ⟨pre, post, hs⟩ := List.mem_iff_append.1 hp
  exact ⟨pre, post, hs, hs ▸ h.self⟩

theorem Holds.wellFormed (h : l.Holds seq) : l.WellFormed := by
  constructor
  · intro p hp
    obtain ⟨post, -, hholds⟩ := h.of_head hp
    exact hholds.parent_eq
  · intro p hp
    rw [h.tail_eq] at hp
    obtain ⟨pre, rfl⟩ := List.getLast?_eq_some_iff.1 hp
    exact h.next_eq
  · intro p hp q hq
    obtain ⟨pre, post, hs, hholds⟩ := h.of_mem hp
    obtain ⟨hmem, hpar⟩ := hholds.links.1 q hq
    exact ⟨by rw [hs]; simp [hmem], hpar⟩
  · intro q hq p hp
    obtain ⟨pre, post, hs, hholds⟩ := h.of_mem hq
    obtain ⟨hmem, hnext⟩ := hholds.links.2 p hp
    exact ⟨by rw [hs]; simp [hmem], hnext⟩
  · intro p
    rw [h.nodes_eq]
    constructor
    · intro hp
      cases seq with
      | nil => cases hp
      | cons n post =>
        obtain ⟨_, ⟨⟩, hholds⟩ := h.of_head (h.head_eq.trans List.head?_cons)
        exact ⟨n, h.head_eq, hholds.reaches_iff.2 hp⟩
    · rintro ⟨n, hn, hreach⟩
      obtain ⟨post, rfl, hholds⟩ := h.of_head hn
      exact hholds.reaches_iff.1 hreach
  · intro n hn
    obtain ⟨post, rfl, hholds⟩ := h.of_head hn
    refine ⟨(n :: post).getLast (List.cons_ne_nil n post), ?_, ?_⟩
    · rw [h.tail_eq, List.getLast?_eq_some_getLast]
    · exact hholds.reaches_iff.2 (List.getLast_mem _)
  · rw [h.head_eq, h.tail_eq, List.head?_eq_none_iff, List.getLast?_eq_none_iff]

theorem Reached.holds (h : Reached l) : l.Holds l.nodes := by
  induction h with
  | empty => exact holds_empty.self
  | new b => exact (holds_new b).self
  | add b _ ih => exact (ih.addNode b).self
  | emplace _ hn ih =>
    obtain ⟨pre, post, hs⟩ := List.mem_iff_append.1 hn
    rw [hs] at ih
    exact ih.emplaceNode.2.self
  | remove _ hn ih =>
    obtain ⟨pre, post, hs⟩ := List.mem_iff_append.1 hn
    rw [hs] at ih
    exact ih.remove.2.self

/-- **The list is a sequence**: after every sequence of operations it is well formed, and the next one
appends a new node, moves a node to the end or deletes it, with the other nodes in their order and
every box as it was. What `emplace_node` and `remove` return is the node that followed. -/
theorem refines_sequence (h : Reached l) : l.WellFormed ∧
    (∀ b, l.fresh ∉ l.nodes ∧ (l.addNode b).nodes = l.nodes ++ [l.fresh] ∧
      ∀ p, (l.addNode b).box p = if p = l.fresh then b else l.box p) ∧
    ∀ pre n post, l.nodes = pre ++ n :: post →
      (l.emplaceNode n).2.nodes = pre ++ post ++ [n] ∧ (l.emplaceNode n).1 = some (post.head?.getD n) ∧
      (l.remove n).2.nodes = pre ++ post ∧ (l.remove n).1 = post.head? ∧
      ∀ p, (l.emplaceNode n).2.box p = l.box p ∧ (l.remove n).2.box p = l.box p := by
  have hl := h.holds
  refine ⟨hl.wellFormed, fun b => ?_, fun pre n post hs => ?_⟩
  · refine ⟨fun hm => lt_irrefl _ (hl.allocated _ hm), (hl.addNode b).nodes_eq, box_addNode b l⟩
  · rw [hs] at hl
    obtain ⟨hret, hseq⟩ := hl.emplaceNode
    obtain ⟨hret', hseq'⟩ := hl.remove
    refine ⟨hseq.nodes_eq, ?_, hseq'.nodes_eq, hret', fun p => ⟨box_emplaceNode l n p, box_remove l n p⟩⟩
    rw [hret]
    cases post <;> rfl

/-- Two nodes; the first is moved to the end. -/
theorem refines_sequence_two : ((new (.new [])).addNode (.new [(0, 1)])).nodes = [0, 1] ∧
    (((new (.new [])).addNode (.new [(0, 1)])).emplaceNode 0).2.nodes = [1, 0] ∧
    (((new (.new [])).addNode (.new [(0, 1)])).emplaceNode 0).1 = some 1 := by
  have hnodes : ((new (.new [])).addNode (.new [(0, 1)])).nodes = [] ++ 0 :: [1] := by decide +kernel
  have hstep := (refines_sequence (.add (.new [(0, 1)]) (.new (.new [])))).2.2 [] 0 [1] hnodes
  exact ⟨hnodes, hstep.1, hstep.2.1⟩

end Ll

end GridSolve.Grid
