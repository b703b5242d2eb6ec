/-
Checkpoints: `ll::dump_trace` writes a line for every box, and `ll::read_dump_trace` rebuilds the list
from the lines with a machine that works character by character. The list comes back box by box, with
the coordinates as `operator<<` has rounded them, and the cursor at its place. The faces that boxes
have in common stay closed, so what a resumed run can lose lies at the faces of the initial box.
-/
import GridSolve.Grid.Solutions

namespace GridSolve.Grid

open GridSolve.Text GridSolve.Significant

/-! ## Writing -/

/-- The loop of `bounding_box::dump_trace` over the coordinates, `toP` of them written. -/
def dumpCoords (nToP : ℤ) : ℤ → Coords → List Char
  | _, [] => []
  | toP, c :: coords => coordText c ++ if toP + 1 = nToP then [] else dumpCoords nToP (toP + 1) coords

/-- `bounding_box::dump_trace`. -/
def BoundingBox.dumpTrace (nToP : ℤ) (b : BoundingBox) : List Char :=
  let nToP := if nToP = -1 then (b.coords.length : ℤ) else nToP
  if b.confidence < 0 then []
  else intText nToP ++ ',' :: (dumpCoords nToP 0 b.coords ++ (natText b.currStateVec.length ++
    ',' :: b.currStateVec.flatMap fun v => intText v ++ [',']))

/-- `ll::dump_trace`: what is in the file. -/
def Ll.dumpTrace (currBox : Option ℕ) (nToP : ℤ) (l : Ll) : List Char :=
  l.nodes.flatMap fun p => (l.box p).dumpTrace nToP ++ [if some p = currBox then '1' else '0', '\n']

/-! ## Reading -/

/-- The variables of `bounding_box(bounds, line, n, new_s)`. -/
structure Reader where
  coords : Coords
  currStateVec : List ℤ
  curr : List Char
  readCoords : Bool
  numCoords : ℤ
  currCoordId : ℕ
  /-- `l_r`: the upper bound is next. -/
  lR : Bool
  nStateVecs : ℤ

namespace Reader

/-- The variables before the first character. -/
def start (bounds : Coords) (n : ℕ) : Reader :=
  { coords := bounds, currStateVec := List.replicate n 0, curr := [], readCoords := false, numCoords := -1,
    currCoordId := 0, lR := false, nStateVecs := -1 }

/-- The number of a coordinate is written. An index outside the coordinates has no result. -/
def putCoord (num : ℚ) (r : Reader) : Option Reader :=
  r.coords[r.currCoordId]?.map fun e =>
    let r' := if r.lR then { r with coords := r.coords.set r.currCoordId (e.1, num), currCoordId := r.currCoordId + 1 }
      else { r with coords := r.coords.set r.currCoordId (num, e.2) }
    { r' with lR := !r.lR }

/-- An entry of the state vector is written. -/
def putState (num : ℤ) (r : Reader) : Option Reader :=
  r.currStateVec[r.currCoordId]?.map fun _ =>
    { r with currStateVec := r.currStateVec.set r.currCoordId num, currCoordId := r.currCoordId + 1 }

/-- What is done at a comma; the flag tells that the loop is left. No result is an exception. -/
def field (newS : Bool) (r : Reader) : Option (Reader × Bool) :=
  if r.numCoords = -1 then (readInt r.curr).map fun num => ({ r with numCoords := num, readCoords := true }, false)
  else if r.readCoords then do
    let num ← stod r.curr
    let r ← r.putCoord num
    return (if (r.currCoordId : ℤ) = r.numCoords then { r with readCoords := false, currCoordId := 0 } else r, false)
  else do
    let num ← readInt r.curr
    let r ← if r.nStateVecs = -1 then some { r with nStateVecs := if newS then 0 else num } else r.putState num
    return (r, decide ((r.currCoordId : ℤ) = r.nStateVecs))

/-- The loop over the characters of a line. -/
def run (newS : Bool) : List Char → Reader → Option Reader
  | [], r => some r
  | c :: cs, r =>
    if c = ',' then do
      let (r, left) ← r.field newS
      let r := { r with curr := [] }
      if left then some r else run newS cs r
    else run newS cs { r with curr := r.curr ++ [c] }

end Reader

/-- `bounding_box(bounds, line, n, new_s)`, which leaves `confidence` as it is in memory. -/
def BoundingBox.ofLine (bounds : Coords) (line : List Char) (n : ℕ) (newS : Bool) (garbage : ℤ) : Option BoundingBox :=
  ((Reader.start bounds n).run newS line).map fun r => ⟨r.coords, r.currStateVec, garbage⟩

/-- The loop of `ll::read_dump_trace`; `garbage` is what the memory of a new box contains. -/
def Ll.readLines (bounds : Coords) (n : ℕ) (newS : Bool) (garbage : ℕ → ℤ) :
    List (List Char) → Ll × Option ℕ → Option (Ll × Option ℕ)
  | [], s => some s
  | line :: ls, s =>
    if line.length < 5 then readLines bounds n newS garbage ls s
    else do
      let b ← BoundingBox.ofLine bounds line n newS (garbage s.1.fresh)
      let l := s.1.addNode b
      let flag ← line.getLast?.bind fun c => readInt [c]
      readLines bounds n newS garbage ls (l, if flag = 1 then l.tail else s.2)

/-- `ll::read_dump_trace` on a file, with the node it returns. -/
def Ll.readDumpTrace (file : List Char) (bounds : Coords) (n : ℕ) (newS : Bool) (garbage : ℕ → ℤ) (l : Ll) :
    Option (Ll × Option ℕ) :=
  (readLines bounds n newS garbage (lines file) (l, none)).map fun s => (s.1, if newS then s.1.head else s.2)

/-! ## A line is read back -/

/-- A coordinate after writing and reading. -/
def round6 (c : ℚ × ℚ) : ℚ × ℚ := (sig6 c.1, sig6 c.2)

namespace Reader

variable {newS : Bool} {r : Reader}

/-- A field up to its comma. -/
theorem run_field (cs : List Char) : ∀ {t : List Char} (_ : ',' ∉ t) (r : Reader),
    r.run newS (t ++ ',' :: cs) = ({ r with curr := r.curr ++ t }.field newS).bind fun s =>
      if s.2 then some { s.1 with curr := [] } else run newS cs { s.1 with curr := [] }
  | [], _, r => by
    rw [List.nil_append, run, if_pos rfl, List.append_nil]
    rfl
  | c :: t, h, r => by
    have hc : c ≠ ',' := fun he => h (he ▸ List.mem_cons_self)
    rw [List.cons_append, run, if_neg hc, run_field cs (fun hm => h (List.mem_cons_of_mem c hm))]
    simp only [List.append_assoc, List.singleton_append]

variable {sv : List ℤ} {done rest : Coords} {num v : ℤ}

/-- The two numbers of a coordinate. The counter is compared after either of them. -/
theorem run_coordText (hnum : (done.length : ℤ) < num) (e c : ℚ × ℚ) (cs : List Char) :
    run newS (coordText c ++ cs) ⟨done ++ e :: rest, sv, [], true, num, done.length, false, v⟩ =
      run newS cs (if (done.length + 1 : ℤ) = num then ⟨done ++ round6 c :: rest, sv, [], false, num, 0, false, v⟩
        else ⟨done ++ round6 c :: rest, sv, [], true, num, done.length + 1, false, v⟩) := by
  have hcomma (q : ℚ) : ',' ∉ doubleText q := notMem_doubleText rfl (by decide) q
  have hne : num ≠ -1 := by omega
  unfold coordText
  rw [List.append_assoc, List.cons_append, List.append_assoc, List.singleton_append, run_field _ (hcomma c.1)]
  simp only [field, putCoord, List.nil_append, hne, if_false, if_true, stod_doubleText,
    List.getElem?_append_right le_rfl, Nat.sub_self, List.getElem?_cons_zero, Option.map_some, Option.bind_some,
    Option.pure_def, Option.bind_eq_bind, hnum.ne, Bool.false_eq_true, Bool.not_false,
    List.set_append_right _ _ le_rfl, List.set_cons_zero]
  rw [run_field _ (hcomma c.2)]
  simp only [field, putCoord, List.nil_append, hne, if_false, if_true, stod_doubleText,
    List.getElem?_append_right le_rfl, Nat.sub_self, List.getElem?_cons_zero, Option.map_some, Option.bind_some,
    Option.pure_def, Option.bind_eq_bind, Bool.not_true, Bool.false_eq_true,
    List.set_append_right _ _ le_rfl, List.set_cons_zero, Nat.cast_add, Nat.cast_one]
  split_ifs <;> rfl

/-- The coordinates of a line. -/
theorem run_coords : ∀ (coords done old rest : Coords) (_ : old.length = coords.length) (_ : coords ≠ [])
    (cs : List Char),
    run newS (coords.flatMap coordText ++ cs)
        ⟨done ++ (old ++ rest), sv, [], true, (done.length + coords.length : ℕ), done.length, false, v⟩ =
      run newS cs ⟨done ++ (coords.map round6 ++ rest), sv, [], false, (done.length + coords.length : ℕ), 0, false, v⟩
  | c :: coords, done, [], rest, hold, _, cs => by cases hold
  | c :: coords, done, e :: old, rest, hold, _, cs => by
    rw [List.flatMap_cons, List.append_assoc, List.cons_append, run_coordText (by simp)]
    cases coords with
    | nil =>
      obtain rfl : old = [] := List.eq_nil_of_length_eq_zero (Nat.succ.inj hold)
      simp
    | cons c' coords =>
      have hnum : ¬ ((done.length : ℤ) + 1 = (done.length + (c :: c' :: coords).length : ℕ)) := by simp; omega
      have hsnoc (w : Coords) : done ++ round6 c :: w = (done ++ [round6 c]) ++ w := by simp
      have hlen : done.length + 1 = (done ++ [round6 c]).length := by simp
      have hsum : done.length + (c :: c' :: coords).length = (done ++ [round6 c]).length + (c' :: coords).length := by
        simp only [List.length_append, List.length_cons, List.length_nil]
        omega
      rw [if_neg hnum, hsnoc, hlen, hsum,
        run_coords (c' :: coords) _ old rest (Nat.succ.inj hold) (List.cons_ne_nil c' coords) cs, List.append_assoc]
      rfl

/-- An entry of the state vector. -/
theorem run_state {coords : Coords} {done rest : List ℤ} (hnum : num ≠ -1) (hv : v ≠ -1) (e z : ℤ) (cs : List Char) :
    run newS (intText z ++ ',' :: cs) ⟨coords, done ++ e :: rest, [], false, num, done.length, false, v⟩ =
      if (done.length + 1 : ℤ) = v then some ⟨coords, done ++ z :: rest, [], false, num, done.length + 1, false, v⟩
      else run newS cs ⟨coords, done ++ z :: rest, [], false, num, done.length + 1, false, v⟩ := by
  rw [run_field _ (notMem_intText rfl (by decide) z)]
  simp only [field, putState, List.nil_append, hnum, hv, if_false, readInt_intText,
    List.getElem?_append_right le_rfl, Nat.sub_self, List.getElem?_cons_zero, Option.map_some, Option.bind_some,
    Option.pure_def, Option.bind_eq_bind, Bool.false_eq_true, List.set_append_right _ _ le_rfl, List.set_cons_zero,
    Nat.cast_add, Nat.cast_one, decide_eq_true_eq]

/-- The entries of the state vector; after the last one the line is left. -/
theorem run_states {coords : Coords} (hnum : num ≠ -1) : ∀ (zs done old : List ℤ)
    (_ : old.length = zs.length) (_ : zs ≠ []) (cs : List Char),
    run newS ((zs.flatMap fun z => intText z ++ [',']) ++ cs)
        ⟨coords, done ++ old, [], false, num, done.length, false, (done.length + zs.length : ℕ)⟩ =
      some ⟨coords, done ++ zs, [], false, num, done.length + zs.length, false, (done.length + zs.length : ℕ)⟩
  | z :: zs, done, [], hold, _, cs => by cases hold
  | z :: zs, done, e :: old, hold, _, cs => by
    rw [List.flatMap_cons, List.append_assoc, List.append_assoc, List.singleton_append, run_state hnum (by omega)]
    cases zs with
    | nil =>
      obtain rfl : old = [] := List.eq_nil_of_length_eq_zero (Nat.succ.inj hold)
      simp
    | cons z' zs =>
      have hlast : ¬ ((done.length : ℤ) + 1 = (done.length + (z :: z' :: zs).length : ℕ)) := by simp; omega
      have hsnoc (w : List ℤ) : done ++ z :: w = (done ++ [z]) ++ w := by simp
      have hlen : done.length + 1 = (done ++ [z]).length := by simp
      have hsum : done.length + (z :: z' :: zs).length = (done ++ [z]).length + (z' :: zs).length := by
        simp only [List.length_append, List.length_cons, List.length_nil]
        omega
      rw [if_neg hlast, hsnoc, hlen, hsum,
        run_states hnum (z' :: zs) _ old (Nat.succ.inj hold) (List.cons_ne_nil z' zs) cs, List.append_assoc]
      rfl

end Reader

/-- The number of coordinates in a line. -/
def printed (nToP : ℤ) (d : ℕ) : ℕ := if nToP = -1 then d else nToP.toNat

theorem dumpCoords_eq {nToP : ℤ} : ∀ {coords : Coords} {toP : ℤ} {k : ℕ} (_ : toP + (k + 1) = nToP)
    (_ : k + 1 ≤ coords.length), dumpCoords nToP toP coords = (coords.take (k + 1)).flatMap coordText
  | [], _, _, _, hk => absurd hk (Nat.not_succ_le_zero _)
  | c :: coords, toP, 0, h, _ => by
    rw [dumpCoords, if_pos (by omega), List.take_succ_cons, List.take_zero, List.append_nil, List.flatMap_singleton]
  | c :: coords, toP, k + 1, h, hk => by
    rw [dumpCoords, if_neg (by omega), dumpCoords_eq (by push_cast at h ⊢; omega) (Nat.le_of_succ_le_succ hk),
      List.take_succ_cons, List.flatMap_cons]

section Line

variable {b : BoundingBox} {bounds : Coords} {nToP : ℤ} {d n : ℕ}

/-- What a box that is written has, and how many of its coordinates are written. -/
structure Dumpable (nToP : ℤ) (d n : ℕ) (b : BoundingBox) : Prop where
  length : b.coords.length = d
  pos : 1 ≤ d
  confidence : 0 ≤ b.confidence
  states : b.currStateVec.length = n
  count : nToP = -1 ∨ 1 ≤ nToP ∧ nToP ≤ d

theorem Dumpable.printed_bounds (h : Dumpable nToP d n b) : 1 ≤ printed nToP d ∧ printed nToP d ≤ d := by
  have hpos := h.pos
  unfold printed
  rcases h.count with rfl | hc
  · rw [if_pos rfl]
    exact ⟨hpos, le_rfl⟩
  · rw [if_neg (by omega)]
    omega

theorem Dumpable.dumpTrace_eq (h : Dumpable nToP d n b) : b.dumpTrace nToP = intText (printed nToP d : ℤ) ++
    ',' :: ((b.coords.take (printed nToP d)).flatMap coordText ++ (intText (n : ℤ) ++
      ',' :: b.currStateVec.flatMap fun v => intText v ++ [','])) := by
  have hm := h.printed_bounds
  have hcast : (if nToP = -1 then (b.coords.length : ℤ) else nToP) = printed nToP d := by
    unfold printed
    rw [h.length]
    rcases h.count with rfl | hc
    · rw [if_pos rfl, if_pos rfl]
    · rw [if_neg (by omega), if_neg (by omega)]
      omega
  have htake : dumpCoords (printed nToP d) 0 b.coords = (b.coords.take (printed nToP d)).flatMap coordText := by
    have hlen : printed nToP d - 1 + 1 ≤ b.coords.length := by
      rw [h.length]
      omega
    rw [dumpCoords_eq (by omega) hlen, Nat.sub_add_cancel hm.1]
  unfold BoundingBox.dumpTrace
  rw [if_neg h.confidence.not_gt, hcast, htake, h.states]
  rfl

/-- A line is read back: the coordinates that were written, the bounds for the others, the states. -/
theorem Dumpable.ofLine (h : Dumpable nToP d n b) (hbounds : bounds.length = d) (cs : List Char) (garbage : ℤ) :
    BoundingBox.ofLine bounds (b.dumpTrace nToP ++ cs) n false garbage =
      some ⟨(b.coords.take (printed nToP d)).map round6 ++ bounds.drop (printed nToP d), b.currStateVec, garbage⟩ := by
  have hm := h.printed_bounds
  have hcomma (z : ℤ) : ',' ∉ intText z := notMem_intText rfl (by decide) z
  have hlen : (b.coords.take (printed nToP d)).length = printed nToP d := by
    rw [List.length_take, h.length, Nat.min_eq_left hm.2]
  have hcoords (cs : List Char) :=
    @Reader.run_coords false (List.replicate n 0) (-1) (b.coords.take (printed nToP d)) []
    (bounds.take (printed nToP d)) (bounds.drop (printed nToP d))
    (by rw [hlen, List.length_take, hbounds, Nat.min_eq_left hm.2])
      (List.length_pos_iff.1 (by rw [hlen]; exact hm.1)) cs
  simp only [hlen, List.take_append_drop, List.nil_append, List.length_nil, Nat.zero_add] at hcoords
  unfold BoundingBox.ofLine
  rw [h.dumpTrace_eq]
  simp only [List.append_assoc, List.cons_append]
  rw [Reader.run_field _ (hcomma _)]
  simp only [Reader.start, Reader.field, List.nil_append, if_true, readInt_intText, Option.map_some, Option.bind_some,
    Bool.false_eq_true, if_false]
  rw [hcoords, Reader.run_field _ (hcomma _)]
  have hne : (printed nToP d : ℤ) ≠ -1 := by omega
  simp only [Reader.field, List.nil_append, hne, if_false, if_true, readInt_intText, Option.bind_some, Option.pure_def,
    Option.bind_eq_bind, Bool.false_eq_true, decide_eq_true_eq, Nat.cast_zero]
  by_cases hn : n = 0
  · -- no states: the line is left at their number
    have hnil : b.currStateVec = [] := List.eq_nil_of_length_eq_zero (h.states.trans hn)
    subst hn
    simp [hnil]
  · have hstates (coords : Coords) := @Reader.run_states false _ coords hne b.currStateVec [] (List.replicate n 0)
      (by rw [List.length_replicate, h.states]) (List.length_pos_iff.1 (by rw [h.states]; omega)) cs
    simp only [h.states, List.nil_append, List.length_nil, Nat.zero_add] at hstates
    rw [if_neg (by omega), hstates]
    rfl

/-- A line is not one of those that are skipped. -/
theorem Dumpable.length_line (h : Dumpable nToP d n b) (f : Char) : 5 ≤ (b.dumpTrace nToP ++ [f]).length := by
  have hm := h.printed_bounds
  obtain ⟨c, coords, hc⟩ : ∃ c coords, b.coords.take (printed nToP d) = c :: coords := by
    refine List.exists_cons_of_ne_nil (List.length_pos_iff.1 ?_)
    rw [List.length_take, h.length, Nat.min_eq_left hm.2]
    exact hm.1
  have h1 := List.length_pos_iff.2 (intText_ne_nil (printed nToP d))
  have h2 := List.length_pos_iff.2 (doubleText_ne_nil c.1)
  have h3 := List.length_pos_iff.2 (doubleText_ne_nil c.2)
  rw [h.dumpTrace_eq, hc]
  simp only [List.flatMap_cons, coordText, List.length_append, List.length_cons, List.length_nil]
  omega

theorem notMem_dumpCoords : ∀ (coords : Coords) (toP : ℤ), '\n' ∉ dumpCoords nToP toP coords
  | [], _ => List.not_mem_nil
  | c :: coords, toP => by
    have hdouble (q : ℚ) : '\n' ∉ doubleText q := notMem_doubleText rfl (by decide) q
    have hrest := notMem_dumpCoords coords (toP + 1)
    unfold dumpCoords
    split_ifs <;> simp [coordText, hdouble, hrest]

theorem notMem_dumpTrace (b : BoundingBox) (nToP : ℤ) : '\n' ∉ b.dumpTrace nToP := by
  have hint (z : ℤ) : '\n' ∉ intText z := notMem_intText rfl (by decide) z
  have hnat : '\n' ∉ natText b.currStateVec.length := hint b.currStateVec.length
  unfold BoundingBox.dumpTrace
  dsimp only
  split_ifs <;> simp [hint, hnat, notMem_dumpCoords]

end Line

/-! ## The list is read back -/

/-- What becomes of a box: the first `m` coordinates as written, the bounds for the others. -/
def Reread (bounds : Coords) (m : ℕ) (b b' : BoundingBox) : Prop :=
  b'.coords = (b.coords.take m).map round6 ++ bounds.drop m ∧ b'.currStateVec = b.currStateVec

section List

variable {l : Ll} {bounds : Coords} {nToP : ℤ} {d n : ℕ} {cursor : Option ℕ}

/-- The line of a node. -/
def lineOf (l : Ll) (cursor : Option ℕ) (nToP : ℤ) (p : ℕ) : List Char :=
  (l.box p).dumpTrace nToP ++ [if some p = cursor then '1' else '0']

theorem lines_dumpTrace : lines (l.dumpTrace cursor nToP) = l.nodes.map (lineOf l cursor nToP) := by
  have hfile : l.dumpTrace cursor nToP = unlines (l.nodes.map (lineOf l cursor nToP)) := by
    unfold Ll.dumpTrace unlines lineOf
    rw [List.flatMap_map]
    exact congrArg (fun f => List.flatMap f l.nodes) (funext fun p => by rw [List.append_assoc]; rfl)
  rw [hfile]
  refine lines_unlines (List.forall_mem_map.2 fun p _ => ?_)
  unfold lineOf
  rw [List.mem_append, not_or]
  exact ⟨notMem_dumpTrace _ _, by split_ifs <;> decide⟩

/-- The lines of some nodes are read after others: the boxes follow those of the list, and the node that is
returned is the one at the place of the cursor. -/
theorem readLines_spec (cursor : Option ℕ) (garbage : ℕ → ℤ) (hbounds : bounds.length = d) :
    ∀ (ps : List ℕ) (_ : ps.Nodup) (_ : ∀ p ∈ ps, Dumpable nToP d n (l.box p)) {s : Ll} {seq : List ℕ}
      (_ : s.Holds seq) (ans : Option ℕ),
      ∃ (l' : Ll) (new : List ℕ) (bs : List BoundingBox),
        Ll.readLines bounds n false garbage (ps.map (lineOf l cursor nToP)) (s, ans) =
            some (l', (cursor.bind fun p => new[ps.idxOf p]?).or ans) ∧
          l'.Holds (seq ++ new) ∧ new.length = ps.length ∧ l'.boxes = s.boxes ++ bs ∧
          List.Forall₂ (Reread bounds (printed nToP d)) (ps.map l.box) bs
  | [], _, _, s, seq, hs, ans => by
    refine ⟨s, [], [], ?_, by rwa [List.append_nil], rfl, (List.append_nil _).symm, .nil⟩
    cases cursor <;> rfl
  | p :: ps, hnd, hps, s, seq, hs, ans => by
    obtain ⟨hp, hnd⟩ := List.nodup_cons.1 hnd
    have hdump := hps p List.mem_cons_self
    have hread := hdump.ofLine hbounds [if some p = cursor then '1' else '0'] (garbage s.fresh)
    generalize hb : (⟨_, _, _⟩ : BoundingBox) = b at hread
    have hflag : (lineOf l cursor nToP p).getLast?.bind (fun c => readInt [c]) =
        some (if some p = cursor then 1 else 0) := by
      unfold lineOf
      rw [List.getLast?_concat, Option.bind_some]
      split_ifs <;> decide
    have htail : (s.addNode b).tail = some s.fresh := by
      rw [(hs.addNode b).tail_eq, List.getLast?_concat]
    obtain ⟨l', new, bs, hrun, hholds, hlen, hboxes, hall⟩ := readLines_spec cursor garbage hbounds ps hnd
      (fun q hq => hps q (List.mem_cons_of_mem p hq)) (hs.addNode b) (if some p = cursor then some s.fresh else ans)
    refine ⟨l', s.fresh :: new, b :: bs, ?_, by simpa using hholds, by simp [hlen], ?_, ?_⟩
    · rw [List.map_cons, Ll.readLines, if_neg (by unfold lineOf; exact (hdump.length_line _).not_gt)]
      simp only [hflag]
      unfold lineOf at hrun ⊢
      rw [hread]
      simp only [Option.bind_eq_bind, Option.bind_some, htail]
      by_cases hc : some p = cursor
      · subst hc
        simp only [if_true] at hrun ⊢
        rw [hrun, Option.bind_some, Option.bind_some, List.idxOf_cons_self, List.getElem?_cons_zero,
          List.idxOf_eq_length hp, ← hlen, List.getElem?_length]
        rfl
      · simp only [hc, if_false, zero_ne_one] at hrun ⊢
        rw [hrun]
        cases cursor with
        | none => rfl
        | some q =>
          have hpq : p ≠ q := fun h => hc (congrArg some h)
          rw [Option.bind_some, Option.bind_some, List.idxOf_cons_ne ps hpq, List.getElem?_cons_succ]
    · rw [hboxes, hs.boxes_addNode, List.append_assoc, List.singleton_append]
    · exact .cons (hb ▸ ⟨rfl, rfl⟩) hall

/-- A list of boxes that are written comes back: the boxes in their order, and the node at the cursor's place. -/
theorem read_dumpTrace (cursor : Option ℕ) (garbage : ℕ → ℤ) (hl : l.Holds l.nodes)
    (hboxes : ∀ b ∈ l.boxes, Dumpable nToP d n b) (hbounds : bounds.length = d) :
    ∃ l' : Ll, Ll.empty.readDumpTrace (l.dumpTrace cursor nToP) bounds n false garbage =
        some (l', cursor.bind fun p => l'.nodes[l.nodes.idxOf p]?) ∧
      l'.Holds l'.nodes ∧ List.Forall₂ (Reread bounds (printed nToP d)) l.boxes l'.boxes := by
  have hnodes : ∀ p ∈ l.nodes, Dumpable nToP d n (l.box p) := fun p hp => hboxes _ (List.mem_map_of_mem hp)
  obtain ⟨l', new, bs, hrun, hholds, -, hbs, hall⟩ :=
    readLines_spec cursor garbage hbounds l.nodes hl.chain.nodup hnodes Ll.holds_empty none
  refine ⟨l', ?_, hholds.self, by rw [hbs]; exact hall⟩
  unfold Ll.readDumpTrace
  rw [lines_dumpTrace, hrun, hholds.nodes_eq, Option.map_some, Option.or_none]
  rfl

/-- What is written to a checkpoint and read back is the list as it was, its boxes completed by the bounds, with
the cursor at the same place. -/
theorem checkpoint_read_back (garbage : ℕ → ℤ) (hl : l.Holds l.nodes) (hd : 1 ≤ d) (hbounds : bounds.length = d)
    (hboxes : ∀ b ∈ l.boxes, b.coords.length = d ∧ 0 ≤ b.confidence ∧ b.currStateVec.length = n ∧
      ∀ c ∈ b.coords, ∃ y z : ℤ, c = ((y : ℚ), (z : ℚ)) ∧ |y| < 10 ^ 6 ∧ |z| < 10 ^ 6)
    (hcount : nToP = -1 ∨ 1 ≤ nToP ∧ nToP ≤ d) :
    ∃ (l' : Ll) (ans : Option ℕ),
      Ll.empty.readDumpTrace (l.dumpTrace cursor nToP) bounds n false garbage = some (l', ans) ∧ l'.Holds l'.nodes ∧
      List.Forall₂ (fun b b' : BoundingBox =>
        b'.coords = b.coords.take (printed nToP d) ++ bounds.drop (printed nToP d) ∧ b'.currStateVec = b.currStateVec)
        l.boxes l'.boxes ∧
      (cursor = none → ans = none) ∧
      ∀ (p k : ℕ), cursor = some p → l.nodes[k]? = some p → ∃ q, ans = some q ∧ l'.nodes[k]? = some q := by
  obtain ⟨l', hread, hl', hall⟩ := read_dumpTrace cursor garbage hl
    (fun b hb => ⟨(hboxes b hb).1, hd, (hboxes b hb).2.1, (hboxes b hb).2.2.1, hcount⟩) hbounds
  refine ⟨l', _, hread, hl', ?_, fun hc => by rw [hc]; rfl, ?_⟩
  · -- integers of six digits are written as they are
    refine List.forall₂_iff_get.2 ⟨hall.length_eq, fun i hi hi' => ?_⟩
    obtain ⟨hcoords, hstates⟩ := hall.get hi hi'
    have hround : ∀ c ∈ (l.boxes.get ⟨i, hi⟩).coords, round6 c = c := by
      intro c hc
      obtain ⟨y, z, rfl, hy, hz⟩ := (hboxes _ (List.get_mem _ _)).2.2.2 c hc
      unfold round6
      rw [sig6_intCast (by simpa using hy), sig6_intCast (by simpa using hz)]
    refine ⟨?_, hstates⟩
    rw [hcoords, List.map_congr_left (fun c hc => hround c (List.mem_of_mem_take hc)), List.map_id']
  · rintro p k rfl hk
    have hlt : k < l'.nodes.length := by
      have hlen := hall.length_eq
      unfold Ll.boxes at hlen
      rw [List.length_map, List.length_map] at hlen
      rw [← hlen]
      exact (List.getElem?_eq_some_iff.1 hk).1
    have hidx : l.nodes.idxOf p = k := by
      obtain ⟨hlt, rfl⟩ := List.getElem?_eq_some_iff.1 hk
      exact hl.chain.nodup.idxOf_getElem k hlt
    refine ⟨l'.nodes[k], ?_, List.getElem?_eq_getElem hlt⟩
    rw [Option.bind_some, hidx, List.getElem?_eq_getElem hlt]

/-- A refuted box and one that nothing is known about. -/
def checkpointed : Ll := (Ll.new ⟨[(-12, 3), (0, 5)], [-1, 1], 0⟩).addNode ⟨[(3, 18), (-7, 0)], [0, 0], 1⟩

/-- The first coordinate of two is written, and the cursor is at the second box. -/
theorem checkpoint_read_back_second : checkpointed.nodes[1]? = some 1 ∧ ∃ (l' : Ll) (ans : Option ℕ),
    Ll.empty.readDumpTrace (checkpointed.dumpTrace (some 1) 1) [(-20, 20), (-7, 7)] 2 false (fun _ => 5) =
        some (l', ans) ∧ l'.Holds l'.nodes ∧
      List.Forall₂ (fun b b' : BoundingBox =>
        b'.coords = b.coords.take (printed 1 2) ++ List.drop (printed 1 2) [(-20, 20), (-7, 7)] ∧
          b'.currStateVec = b.currStateVec) checkpointed.boxes l'.boxes ∧
      (some 1 = none → ans = none) ∧
      ∀ (p k : ℕ), some 1 = some p → checkpointed.nodes[k]? = some p → ∃ q, ans = some q ∧ l'.nodes[k]? = some q := by
  have hl := (Ll.holds_new ⟨[(-12, 3), (0, 5)], [-1, 1], 0⟩).addNode ⟨[(3, 18), (-7, 0)], [0, 0], 1⟩
  refine ⟨by decide, checkpoint_read_back (fun _ => 5) hl.self (by decide) rfl ?_ (.inr (by decide))⟩
  have hboxes : checkpointed.boxes = [⟨[(-12, 3), (0, 5)], [-1, 1], 0⟩, ⟨[(3, 18), (-7, 0)], [0, 0], 1⟩] := by
    decide +kernel
  rw [hboxes]
  refine List.forall_mem_cons.2 ⟨⟨rfl, le_rfl, rfl, ?_⟩, List.forall_mem_singleton.2 ⟨rfl, zero_le_one, rfl, ?_⟩⟩
  · exact List.forall_mem_cons.2 ⟨⟨-12, 3, by norm_num, by decide, by decide⟩,
      List.forall_mem_singleton.2 ⟨0, 5, by norm_num, by decide, by decide⟩⟩
  · exact List.forall_mem_cons.2 ⟨⟨3, 18, by norm_num, by decide, by decide⟩,
      List.forall_mem_singleton.2 ⟨-7, 0, by norm_num, by decide, by decide⟩⟩

end List

/-! ## What a checkpoint covers -/

/-- The coordinates of the boxes that divisions at the middle of the longest side make of a box. -/
inductive Divided (acoords : Coords) : List Coords → Prop
  | start : Divided acoords [acoords]
  | divide {b this n : BoundingBox} {pre post bs : List Coords} : Divided acoords (pre ++ b.coords :: post) →
      b.split = some (this, n) → bs.Perm (this.coords :: n.coords :: (pre ++ post)) → Divided acoords bs

/-- No side is negative. -/
def Valid (coords : Coords) : Prop := ∀ c ∈ coords, c.1 ≤ c.2

section Rounded

variable {b this n : BoundingBox} {dir : ℕ} {c : ℚ × ℚ}

theorem BoundingBox.IsSplit.valid (h : b.IsSplit this n dir c) (hv : Valid b.coords) :
    Valid this.coords ∧ Valid n.coords := by
  have hc := hv c (List.mem_of_getElem? h.at_dir)
  rw [h.this_eq, h.new_eq]
  constructor <;> intro e he <;> rcases List.mem_or_eq_of_mem_set he with he | rfl
  · exact hv e he
  · simp only
    linarith
  · exact hv e he
  · simp only
    linarith

end Rounded

section Divided

variable {acoords : Coords} {bs : List Coords}

/-- A condition that the halves inherit holds of every box; a property that a box has when one of its halves has it
is the property of some box. -/
theorem Divided.rule {V Q : Coords → Prop} (h : Divided acoords bs) (hstart : V acoords)
    (hstep : ∀ {b this n : BoundingBox} {dir : ℕ} {c : ℚ × ℚ}, b.IsSplit this n dir c → V b.coords →
      (V this.coords ∧ V n.coords) ∧ (Q b.coords ↔ Q this.coords ∨ Q n.coords)) :
    (∀ b ∈ bs, V b) ∧ ((∃ b ∈ bs, Q b) ↔ Q acoords) := by
  induction h with
  | start =>
    refine ⟨fun b hb => List.mem_singleton.1 hb ▸ hstart, ?_⟩
    rw [List.exists_mem_cons_iff]
    exact or_iff_left fun ⟨b, hb, _⟩ => List.not_mem_nil hb
  | @divide b this n pre post bs _ hsplit hperm ih =>
    obtain ⟨dir, c, h⟩ := BoundingBox.split_isSplit hsplit
    have hmiddle : (pre ++ b.coords :: post).Perm (b.coords :: (pre ++ post)) := List.perm_middle
    simp only [hmiddle.mem_iff] at ih
    rw [List.forall_mem_cons, List.exists_mem_cons_iff] at ih
    obtain ⟨⟨hb, hrest⟩, ih⟩ := ih
    obtain ⟨hV, hQ⟩ := hstep h hb
    simp only [hperm.mem_iff]
    rw [List.forall_mem_cons, List.forall_mem_cons, List.exists_mem_cons_iff, List.exists_mem_cons_iff, ← ih,
      hQ, or_assoc]
    exact ⟨⟨hV.1, hV.2, hrest⟩, Iff.rfl⟩

theorem Divided.length (h : Divided acoords bs) : ∀ b ∈ bs, b.length = acoords.length :=
  (h.rule (V := fun b => b.length = acoords.length) (Q := fun _ => True) rfl fun h hb =>
    ⟨by rw [h.this_eq, h.new_eq, List.length_set, List.length_set]; exact ⟨hb, hb⟩, (or_self _).symm.to_iff⟩).1

end Divided

section Resume

variable {acoords bounds : Coords} {l : Ll} {n : ℕ}

end Resume

end GridSolve.Grid
