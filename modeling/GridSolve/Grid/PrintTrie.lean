/-
`trie_node::print_trie` (`approximation.hpp`), which `write_json` writes for every driver: an object
for every node, with two entries for every branch, its condition and the object below. `print_trie`
and `print_code` make the same branches in the same order, so there is one tree for both, and the
conditions of the first can be read as those of the second.
-/
import GridSolve.Grid.PrintCode
import GridSolve.Grid.SmtPrint
import GridSolve.Lib.Json
import GridSolve.Lib.Text

namespace GridSolve.Grid

open GridSolve.Bisection GridSolve.Core GridSolve.Decision GridSolve.Text GridSolve.Json GridSolve.Sexpr
open GridSolve.Loops

/-! ## The code -/

/-- `std::to_string` of `std::ceil`, which keeps the sign of the number at zero. -/
def ceilText (q : ℚ) : List Char := signedText (q < 0) ⌈q⌉

/-- `std::to_string` of `std::floor`. -/
def floorText (q : ℚ) : List Char := signedText (q < 0) ⌊q⌋

/-- `[lo<=xi<=hi]`, either side possibly strict. -/
def condText (dim : ℕ) (lo : List Char) (loStrict : Bool) (hi : List Char) (hiStrict : Bool) : List Char :=
  "[".toList ++ lo ++ (if loStrict then "<x".toList else "<=x".toList) ++ natText (dim + 1) ++
    (if hiStrict then "<".toList else "<=".toList) ++ hi ++ "]".toList

/-- The name of a leaf: the bounds of the dimensions behind `idx`, none if the loop starts below zero, where the
comparison with a size fails. -/
def leafName (bounds : Coords) (idx : ℤ) : List Char :=
  "leaf".toList ++ ((List.range bounds.length).filter fun i : ℕ => 0 ≤ idx + 1 ∧ idx + 1 ≤ i).flatMap fun i =>
    let c := bounds.getD i (0, 0)
    condText i (ceilText c.1) false (floorText c.2) false ++ " ".toList

/-- The name of a node. -/
def nodeName (isLeaf : Bool) (bounds : Coords) (idx : ℤ) : List Char :=
  if isLeaf then leafName bounds idx else "*".toList

/-- The first entry of an object. -/
def openText (name : List Char) : List Char := "\x7b\"string\":".toList ++ "\"".toList ++ name ++ "\",\n".toList

/-- The two entries of a branch. -/
def edgeText (childNum : ℕ) (name sub : List Char) : List Char :=
  "\"edge_name".toList ++ natText childNum ++ "\":\"".toList ++ name ++ "\",\n".toList ++
    "\"edge".toList ++ natText childNum ++ "\":".toList ++ sub ++ ",\n".toList

/-- The variables of `print_trie`. -/
structure Drawer where
  bounds : Coords
  nBounds : Coords
  ans : List Char
  tempAns : List Char
  childNum : ℕ
  nodeNum : ℕ

/-- A call of `print_trie` on another node: what it returns, and `n_bounds`. -/
abbrev TrieCall := Trie ℤ → Coords → Coords → ℤ → Option (List Char × Coords)

/-- A branch is written. -/
def Drawer.add (name : List Char) (r : List Char × Coords) (p : Drawer) : Drawer :=
  { p with nBounds := r.2, ans := p.ans ++ edgeText p.childNum name r.1, tempAns := r.1, childNum := p.childNum + 1 }

/-- The face between the halves of dimension `i`; the flag is `ignore_center`. -/
def drawCenter (call : TrieCall) (n fuel i : ℕ) (next : ℤ → Trie ℤ) (p : Drawer) : Option (Drawer × Bool) :=
  let c := p.bounds.getD i (0, 0)
  let x := (c.1 + c.2) * (1 / 2)
  if !(next (label i true)).isNull && !(next (label i false)).isNull && nearInteger x then do
    let un ← union_ n fuel (child i false (next (label i true))) (child i true (next (label i false))) p.bounds
    if un.isNull then return (p, true)
    -- there are two halves
    let r ← call un p.bounds p.nBounds (i + 1)
    return (p.add (condText i (signedText (x < 0) x) false (signedText (x < 0) x) false) r, true)
  else some (p, false)

/-- A half of dimension `i`, `idx` the index for the names of its leaves. -/
def drawSide (call : TrieCall) (i : ℕ) (idx : ℤ) (upper ignoreCenter : Bool) (t : Trie ℤ) (p : Drawer) :
    Option Drawer :=
  if t.isNull then some p
  else do
    let bounds := if upper then upperHalf i p.bounds else lowerHalf i p.bounds
    let r ← call t bounds p.nBounds idx
    let c := (if t.isLeaf then r.2 else bounds).getD i (0, 0)
    let p := p.add (condText i (ceilText c.1) (ignoreCenter && upper) (floorText c.2) (ignoreCenter && !upper)) r
    return { p with bounds := if upper then undoUpper i bounds else undoLower i bounds, nodeNum := i }

/-- The loop body for dimension `i`. -/
def drawDim (call : TrieCall) (n fuel : ℕ) (next : ℤ → Trie ℤ) (p : Drawer) (i : ℕ) : Option Drawer := do
  let idx : ℤ := if !(next (label i true)).isNull && !(next (label i false)).isNull then i + 1 else i
  let (p, ignoreCenter) ← drawCenter call n fuel i next p
  let p ← drawSide call i idx true ignoreCenter (next (label i true)) p
  drawSide call i idx false ignoreCenter (next (label i false)) p

/-- What is returned after the loop. -/
def drawEnd (n : ℕ) (next : ℤ → Trie ℤ) (p : Drawer) : List Char × Coords :=
  let ans := p.ans ++ "\x7d".toList
  if p.childNum = 1 then
    let t := if (next (label p.nodeNum false)).isNull then next (label p.nodeNum true) else next (label p.nodeNum false)
    if nodeCount n t = 1 && (!(t.next (label p.nodeNum false)).isNull || !(t.next (label p.nodeNum true)).isNull) then
      (p.tempAns, p.nBounds)
    else (ans, p.nBounds)
  else if p.childNum = 0 then (ans, p.bounds)
  else (ans, p.nBounds)

/-- `print_trie`. The trie that `union_` makes is no part of the node, hence the fuel. -/
def printTrie (n : ℕ) : ℕ → TrieCall
  | 0, _, _, _, _ => none
  | _ + 1, .null, _, _, _ => none
  | fuel + 1, .node isLeaf next, bounds, nBounds, idx => do
    let p ← (List.range n).foldlM (drawDim (printTrie n fuel) n fuel next)
      ⟨bounds, nBounds, openText (nodeName isLeaf bounds idx), [], 0, 0⟩
    return drawEnd n next p

/-- What `write_json` writes. -/
def writeJson (n fuel : ℕ) (t : Trie ℤ) (bounds : Coords) : Option (List Char) :=
  (printTrie n fuel t bounds bounds (-1)).map Prod.fst

/-! ## Conditions as texts -/

/-- The blanks at which `split()` of Python divides a text. -/
def blank (c : Char) : Bool :=
  c.toNat ∈ [9, 10, 11, 12, 13, 28, 29, 30, 31, 32, 133, 160, 5760, 8192, 8193, 8194, 8195, 8196, 8197,
    8198, 8199, 8200, 8201, 8202, 8232, 8233, 8239, 8287, 12288]

/-- `''.join(data.split())`. -/
def unblank (data : List Char) : List Char := data.filter fun c => !blank c

/-- A number with its sign. -/
def signedNumber (cs : List Char) : Option ℚ :=
  match expect '-' cs with
  | some cs => (number cs).map Neg.neg
  | none => number cs

/-- The sign between two terms: whether it is strict, and what follows. -/
def readSign (cs : List Char) : Option (Bool × List Char) := do
  let cs ← expect '<' cs
  match expect '=' cs with
  | some cs => some (false, cs)
  | none => some (true, cs)

/-- A condition as a reader of the text understands it. -/
def readCond (cs : List Char) : Option Guard := do
  let cs ← expect '[' cs
  let lo ← signedNumber (cs.takeWhile (· != '<'))
  let (loStrict, cs) ← readSign (cs.dropWhile (· != '<'))
  let cs ← expect 'x' cs
  let (hiStrict, hi) ← readSign (cs.dropWhile (· != '<'))
  let hi ← signedNumber (hi.takeWhile (· != ']'))
  return ⟨val (cs.takeWhile (· != '<')) - 1, lo, loStrict, hi, hiStrict⟩

/-- A text that stays as it is inside of quotes. -/
def Unquoted (s : List Char) : Prop := ∀ c ∈ s, c ≠ '"' ∧ c ≠ '\\' ∧ c ≠ ',' ∧ 32 ≤ c.toNat

/-- The text of a number. -/
structure Decimal (s : List Char) (q : ℚ) : Prop where
  value : signedNumber s = some q
  chars : ∀ c ∈ s, c.isDigit = true ∨ c = '.' ∨ c = '-'

/-- The text of a condition. -/
structure Labels (g : Guard) (name : List Char) : Prop where
  unquoted : Unquoted name
  unblank : unblank name = name
  read : readCond name = some g

/-- The test of every character. -/
theorem unquoted_of_all {s : List Char}
    (h : (s.all fun c => c != '"' && (c != '\\' && (c != ',' && 32 ≤ c.toNat))) = true) : Unquoted s := by
  intro c hc
  simpa using List.all_eq_true.1 h c hc

theorem Unquoted.append {s t : List Char} (hs : Unquoted s) (ht : Unquoted t) : Unquoted (s ++ t) :=
  List.forall_mem_append.2 ⟨hs, ht⟩

theorem expect_notMem {c : Char} {cs : List Char} (h : c ∉ cs) : expect c cs = none := by
  cases cs with
  | nil => rfl
  | cons d cs => exact expect_ne (fun hd => h (List.mem_cons.2 (.inl hd.symm))) cs

theorem toNat_of_isDigit {c : Char} (h : c.isDigit = true) : 48 ≤ c.toNat ∧ c.toNat ≤ 57 := by
  rw [Char.isDigit, Bool.and_eq_true, decide_eq_true_eq, decide_eq_true_eq] at h
  exact ⟨UInt32.le_iff_toNat_le.1 h.1, UInt32.le_iff_toNat_le.1 h.2⟩

theorem not_blank_of_isDigit {c : Char} (h : c.isDigit = true) : (!blank c) = true := by
  have hrange := toNat_of_isDigit h
  rw [Bool.not_eq_true', blank, decide_eq_false_iff_not]
  simp only [List.mem_cons, List.not_mem_nil, or_false]
  omega

/-- A text up to a character that ends it. -/
theorem span_ne {c : Char} {s : List Char} (h : c ∉ s) (rest : List Char) :
    (s ++ c :: rest).takeWhile (· != c) = s ∧ (s ++ c :: rest).dropWhile (· != c) = c :: rest := by
  have hs : ∀ d ∈ s, (d != c) = true := fun d hd => bne_iff_ne.2 fun he => h (he ▸ hd)
  rw [List.takeWhile_append_of_pos hs, List.dropWhile_append_of_pos hs]
  simp

theorem Decimal.notMem {s : List Char} {q : ℚ} (h : Decimal s q) {d : Char} (hdigit : d.isDigit = false)
    (hpoint : d ≠ '.') (hminus : d ≠ '-') : d ∉ s := by
  intro hd
  rcases h.chars d hd with hc | hc | hc
  · exact ne_of_isDigit hc hdigit rfl
  · exact hpoint hc
  · exact hminus hc

theorem decimal_signedText {negative : Bool} {c : ℚ} (hpos : negative = false → 0 ≤ c)
    (hneg : negative = true → c ≤ 0) : Decimal (signedText negative c) (toStringVal c) := by
  have hnumber := number_fixedText (abs_nonneg c)
  have hdigit : '-' ∉ fixedText |c| := fun h => by
    rcases mem_fixedText h with hd | hd
    · exact absurd hd (by decide)
    · exact absurd hd (by decide)
  refine ⟨?_, fun d hd => mem_signedText hd⟩
  unfold signedText
  cases negative with
  | false =>
    rw [if_neg Bool.false_ne_true, signedNumber, expect_notMem hdigit]
    exact hnumber.trans (by rw [abs_of_nonneg (hpos rfl)])
  | true =>
    rw [if_pos rfl, signedNumber, expect_self]
    simp only [hnumber, Option.map_some]
    rw [abs_of_nonpos (hneg rfl), toStringVal_neg, neg_neg]

theorem decimal_ceilText (q : ℚ) : Decimal (ceilText q) (toStringVal ⌈q⌉) := by
  refine decimal_signedText (fun h => ?_) fun h => ?_
  · exact_mod_cast Int.ceil_nonneg (not_lt.1 (of_decide_eq_false h))
  · exact_mod_cast Int.ceil_le.2 (by simpa using (of_decide_eq_true h).le)

theorem decimal_floorText (q : ℚ) : Decimal (floorText q) (toStringVal ⌊q⌋) := by
  refine decimal_signedText (fun h => ?_) fun h => ?_
  · exact_mod_cast Int.floor_nonneg.2 (not_lt.1 (of_decide_eq_false h))
  · exact (Int.floor_le q).trans (of_decide_eq_true h).le

theorem decimal_middle (x : ℚ) : Decimal (signedText (x < 0) x) (toStringVal x) :=
  decimal_signedText (fun h => not_lt.1 (of_decide_eq_false h)) fun h => (of_decide_eq_true h).le

/-- The characters of a condition besides the digits. -/
def condSigns : List Char := "[<=x].-".toList

section Cond

variable {lo hi : List Char} {a b : ℚ} (dim : ℕ) (loStrict hiStrict : Bool)

theorem mem_condText (hlo : Decimal lo a) (hhi : Decimal hi b) {c : Char}
    (h : c ∈ condText dim lo loStrict hi hiStrict) : c.isDigit = true ∨ c ∈ condSigns := by
  have hdec : ∀ {s q}, Decimal s q → c ∈ s → c.isDigit = true ∨ c ∈ condSigns := fun hs hc =>
    (hs.chars c hc).imp_right fun h => by rcases h with rfl | rfl <;> decide
  have hopen : "[".toList ⊆ condSigns := by decide
  have hclose : "]".toList ⊆ condSigns := by decide
  have hsign : ∀ s : Bool, (if s then "<x".toList else "<=x".toList) ⊆ condSigns ∧
      (if s then "<".toList else "<=".toList) ⊆ condSigns := by decide
  simp only [condText, List.mem_append] at h
  rcases h with (((((h | h) | h) | h) | h) | h) | h
  · exact .inr (hopen h)
  · exact hdec hlo h
  · exact .inr ((hsign loStrict).1 h)
  · exact .inl (isDigit_natText _ c h)
  · exact .inr ((hsign hiStrict).2 h)
  · exact hdec hhi h
  · exact .inr (hclose h)

theorem readCond_condText (hlo : Decimal lo a) (hhi : Decimal hi b) :
    readCond (condText dim lo loStrict hi hiStrict) = some ⟨dim, a, loStrict, b, hiStrict⟩ := by
  obtain ⟨rest, hrest, hnext⟩ : ∃ rest, condText dim lo loStrict hi hiStrict = '[' :: (lo ++ '<' :: rest) ∧
      readSign ('<' :: rest) = some (loStrict, 'x' :: (natText (dim + 1) ++
        (if hiStrict then "<".toList else "<=".toList) ++ hi ++ "]".toList)) := by
    cases loStrict with
    | false => exact ⟨'=' :: 'x' :: (natText (dim + 1) ++ (if hiStrict then "<".toList else "<=".toList) ++ hi ++
        "]".toList), by simp [condText], rfl⟩
    | true => exact ⟨'x' :: (natText (dim + 1) ++ (if hiStrict then "<".toList else "<=".toList) ++ hi ++ "]".toList),
        by simp [condText], rfl⟩
  obtain ⟨rest', hrest', hnext'⟩ : ∃ rest', natText (dim + 1) ++ (if hiStrict then "<".toList else "<=".toList) ++ hi ++
      "]".toList = natText (dim + 1) ++ '<' :: rest' ∧ readSign ('<' :: rest') = some (hiStrict, hi ++ "]".toList) := by
    cases hiStrict with
    | false => exact ⟨'=' :: (hi ++ "]".toList), by simp, rfl⟩
    | true =>
      refine ⟨hi ++ "]".toList, by simp, ?_⟩
      have hne : '=' ∉ hi ++ "]".toList := fun h => by
        rcases List.mem_append.1 h with h | h
        · exact hhi.notMem rfl (by decide) (by decide) h
        · exact absurd h (by decide)
      simp only [readSign, expect_self, Option.bind_eq_bind, Option.bind_some, expect_notMem hne]
  obtain ⟨htake, hdrop⟩ := span_ne (hlo.notMem rfl (by decide) (by decide) : '<' ∉ lo) rest
  obtain ⟨htake', hdrop'⟩ :=
    span_ne (fun h => absurd (isDigit_natText (dim + 1) _ h) (by decide) : '<' ∉ natText (dim + 1)) rest'
  obtain ⟨hend, -⟩ := span_ne (hhi.notMem rfl (by decide) (by decide) : ']' ∉ hi) []
  have hend' : (hi ++ "]".toList).takeWhile (· != ']') = hi := hend
  rw [hrest, readCond, expect_self]
  simp only [Option.bind_eq_bind, Option.bind_some, htake, hdrop, hlo.value, hnext, hrest', expect_self, htake',
    hdrop', hnext', hend', hhi.value, val_natText, Nat.add_sub_cancel]
  rfl

theorem labels_condText (hlo : Decimal lo a) (hhi : Decimal hi b) :
    Labels ⟨dim, a, loStrict, b, hiStrict⟩ (condText dim lo loStrict hi hiStrict) := by
  have hsigns : Unquoted condSigns := unquoted_of_all rfl
  have hblank : (condSigns.all fun c => !blank c) = true := rfl
  refine ⟨fun c hc => ?_, List.filter_eq_self.2 fun c hc => ?_, readCond_condText dim loStrict hiStrict hlo hhi⟩
  · rcases mem_condText dim loStrict hiStrict hlo hhi hc with hdigit | hc
    · exact ⟨ne_of_isDigit hdigit (by decide), ne_of_isDigit hdigit (by decide), ne_of_isDigit hdigit (by decide),
        le_trans (by decide) (toNat_of_isDigit hdigit).1⟩
    · exact hsigns c hc
  · rcases mem_condText dim loStrict hiStrict hlo hhi hc with hdigit | hc
    · exact not_blank_of_isDigit hdigit
    · exact List.all_eq_true.1 hblank c hc

end Cond

theorem unquoted_nodeName (isLeaf : Bool) (bounds : Coords) (idx : ℤ) : Unquoted (nodeName isLeaf bounds idx) := by
  unfold nodeName
  split_ifs
  · refine Unquoted.append (unquoted_of_all rfl) fun c hc => ?_
    obtain ⟨i, -, hc⟩ := List.mem_flatMap.1 hc
    exact (labels_condText i false false (decimal_ceilText _) (decimal_floorText _)).unquoted.append
      (unquoted_of_all rfl) c hc
  · exact unquoted_of_all rfl

/-! ## What is drawn -/

/-- The tree of a text: the name of a node, and its branches, each with the condition, its text and the tree below. -/
inductive Tree
  | node (name : List Char) (edges : List (Guard × List Char × Tree))

mutual

/-- The text of a tree. -/
def Tree.json : Tree → List Char
  | .node name es => openText name ++ edgesJson 0 es ++ "\x7d".toList

/-- The entries of the branches from the one with number `k` on. -/
def edgesJson : ℕ → List (Guard × List Char × Tree) → List Char
  | _, [] => []
  | k, (_, name, t) :: es => edgeText k name t.json ++ edgesJson (k + 1) es

end

mutual

/-- The program of a tree: a node without branches accepts. -/
def Tree.code : Tree → Code Guard
  | .node _ [] => .accept
  | .node _ ((g, _, t) :: es) => .branch g t.code (edgesCode es)

def edgesCode : List (Guard × List Char × Tree) → Code Guard
  | [] => .reject
  | (g, _, t) :: es => .branch g t.code (edgesCode es)

end

mutual

/-- The names stand in quotes, and those of the branches are the conditions. -/
def Tree.Named : Tree → Prop
  | .node name es => Unquoted name ∧ EdgesNamed es

def EdgesNamed : List (Guard × List Char × Tree) → Prop
  | [] => True
  | (g, name, t) :: es => Labels g name ∧ t.Named ∧ EdgesNamed es

end

theorem edgesCode_eq_chain : ∀ es : List (Guard × List Char × Tree),
    edgesCode es = chain (es.map fun e => (e.1, e.2.2.code))
  | [] => rfl
  | (g, name, t) :: es => by
    rw [edgesCode, edgesCode_eq_chain es]
    rfl

theorem edgesJson_concat (e : Guard × List Char × Tree) : ∀ (k : ℕ) (es : List (Guard × List Char × Tree)),
    edgesJson k (es ++ [e]) = edgesJson k es ++ edgeText (k + es.length) e.2.1 e.2.2.json
  | k, [] => by simp [edgesJson]
  | k, (g, name, t) :: es => by
    rw [List.cons_append, edgesJson, edgesJson, edgesJson_concat e (k + 1) es, List.append_assoc, List.length_cons]
    congr 3
    omega

theorem edgesNamed_concat {e : Guard × List Char × Tree} : ∀ {es : List (Guard × List Char × Tree)},
    EdgesNamed es → Labels e.1 e.2.1 → e.2.2.Named → EdgesNamed (es ++ [e])
  | [], _, h1, h2 => ⟨h1, h2, trivial⟩
  | (_, _, _) :: _, ⟨h, h', hes⟩, h1, h2 => ⟨h, h', edgesNamed_concat hes h1 h2⟩

/-! ## The program of the picture -/

/-- The two loops are at the same place: `es` are the branches written so far. -/
structure Sync (name : List Char) (p : Drawer) (s : Printer) (es : List (Guard × List Char × Tree)) : Prop where
  bounds : p.bounds = s.bounds
  nBounds : p.nBounds = s.nBounds
  nodeNum : p.nodeNum = s.nodeNum
  childNum : p.childNum = es.length
  ans : p.ans = openText name ++ edgesJson 0 es
  printed : Printed s (es.map fun e => (e.1, e.2.2.code))
  temp : ∀ e, es = [e] → p.tempAns = e.2.2.json ∧ s.tempAns = e.2.2.code.text
  named : EdgesNamed es

/-- What the two functions return for a node: the text of a tree and the program of it, and the same `n_bounds`. -/
structure SameTree (t : Tree) (r : List Char × Coords) (r' : Text × Coords) : Prop where
  json : r.1 = t.json
  code : r'.1 = t.code.text
  nBounds : r.2 = r'.2
  named : t.Named

/-- The calls on other nodes do so. -/
def CallsAgree (draw : TrieCall) (call : Call) : Prop :=
  ∀ t bounds nBounds idx, Option.Rel (fun r r' => ∃ tree, SameTree tree r r') (draw t bounds nBounds idx)
    (call t bounds nBounds)

section Sync

variable {name : List Char} {p : Drawer} {s : Printer} {es : List (Guard × List Char × Tree)} {draw : TrieCall}
  {call : Call} {n fuel i : ℕ} {next : ℤ → Trie ℤ}

theorem Sync.add (h : Sync name p s es) {g : Guard} {edge : List Char} (hedge : Labels g edge) {r : List Char × Coords}
    {r' : Text × Coords} {t : Tree} (hr : SameTree t r r') :
    Sync name (p.add edge r) (s.add g r') (es ++ [(g, edge, t)]) := by
  obtain ⟨hjson, hcode, hnb, hnamed⟩ := hr
  refine ⟨h.bounds, hnb, h.nodeNum, ?_, ?_, ?_, fun e he => ?_, edgesNamed_concat h.named hedge hnamed⟩
  · simp [Drawer.add, h.childNum]
  · simp only [Drawer.add, h.ans, h.childNum, hjson, edgesJson_concat, Nat.zero_add, List.append_assoc]
  · obtain ⟨text, nb⟩ := r'
    obtain rfl : text = t.code.text := hcode
    rw [List.map_append]
    exact h.printed.add g t.code nb
  · obtain ⟨rfl, rfl⟩ : es = [] ∧ (g, edge, t) = e := by
      cases es with
      | nil => exact ⟨rfl, List.singleton_inj.1 he⟩
      | cons a es => simp at he
    exact ⟨hjson, hcode⟩

/-- After a branch both go back to the bounds of the node. -/
theorem Sync.back (h : Sync name p s es) {bounds bounds' : Coords} (hb : bounds = bounds') (i : ℕ) :
    Sync name { p with bounds := bounds, nodeNum := i } { s with bounds := bounds', nodeNum := i } es :=
  ⟨hb, h.nBounds, rfl, h.childNum, h.ans, h.printed, h.temp, h.named⟩

theorem Sync.after_center (h : Sync name p s es) (hagree : CallsAgree draw call) :
    Option.Rel (fun a b => a.2 = b.2 ∧ ∃ es, Sync name a.1 b.1 es) (drawCenter draw n fuel i next p)
      (center call n fuel i next s) := by
  unfold drawCenter center
  rw [h.bounds, h.nBounds]
  dsimp only
  split_ifs
  · cases union_ n fuel (child i false (next (label i true))) (child i true (next (label i false))) s.bounds with
    | none => exact .none
    | some un =>
      simp only [Option.bind_eq_bind, Option.bind_some]
      split_ifs
      · exact .some ⟨rfl, es, h⟩
      · refine rel_bind (hagree un s.bounds s.nBounds (i + 1)) fun r r' ⟨t, hr⟩ => .some ⟨rfl, _, h.add ?_ hr⟩
        exact labels_condText i false false (decimal_middle _) (decimal_middle _)
  · exact .some ⟨rfl, es, h⟩

theorem Sync.after_side (h : Sync name p s es) (hagree : CallsAgree draw call) (idx : ℤ) (upper ignoreCenter : Bool)
    (t : Trie ℤ) : Option.Rel (fun a b => ∃ es, Sync name a b es) (drawSide draw i idx upper ignoreCenter t p)
      (side call i upper ignoreCenter t s) := by
  unfold drawSide side
  rw [h.bounds, h.nBounds]
  split
  · exact .some ⟨es, h⟩
  · refine rel_bind (hagree t _ s.nBounds idx) fun r r' ⟨t', hr⟩ => .some ⟨_, (h.add ?_ hr).back rfl i⟩
    rw [hr.nBounds]
    exact labels_condText i _ _ (decimal_ceilText _) (decimal_floorText _)

theorem Sync.after_dim (h : Sync name p s es) (hagree : CallsAgree draw call) (i : ℕ) :
    Option.Rel (fun a b => ∃ es, Sync name a b es) (drawDim draw n fuel next p i) (printDim call n fuel next s i) := by
  unfold drawDim printDim
  refine rel_bind (h.after_center hagree) ?_
  rintro ⟨p₁, flag⟩ ⟨s₁, _⟩ ⟨rfl, es₁, h₁⟩
  refine rel_bind (h₁.after_side hagree _ true flag _) ?_
  rintro p₂ s₂ ⟨es₂, h₂⟩
  exact h₂.after_side hagree _ false flag _

theorem Sync.after_dims (hagree : CallsAgree draw call) : ∀ (is : List ℕ) {p : Drawer} {s : Printer}
    {es : List (Guard × List Char × Tree)}, Sync name p s es →
    Option.Rel (fun a b => ∃ es, Sync name a b es) (is.foldlM (drawDim draw n fuel next) p)
      (is.foldlM (printDim call n fuel next) s)
  | [], _, _, es, h => .some ⟨es, h⟩
  | i :: is, _, _, _, h => by
    rw [List.foldlM_cons, List.foldlM_cons]
    refine rel_bind (h.after_dim hagree i) ?_
    rintro p' s' ⟨es', h'⟩
    exact after_dims hagree is h'

/-- A node with its branches. -/
theorem Sync.sameTree (h : Sync name p s es) (hname : Unquoted name) (hes : es ≠ []) {nBounds nBounds' : Coords}
    (hnb : nBounds = nBounds') :
    SameTree (.node name es) (p.ans ++ "\x7d".toList, nBounds) (s.ans ++ [.no], nBounds') := by
  refine ⟨by rw [Tree.json, h.ans], ?_, hnb, hname, h.named⟩
  have hcode : (Tree.node name es).code = edgesCode es := by
    cases es with
    | nil => exact absurd rfl hes
    | cons e es =>
      rw [Tree.code]
      rfl
  rw [hcode, edgesCode_eq_chain, text_chain, h.printed.1]

/-- At the end both return the tree of the node, or that of its only branch. -/
theorem Sync.after_end (h : Sync name p s es) (hname : Unquoted name) (n : ℕ) (next : ℤ → Trie ℤ) :
    ∃ t, SameTree t (drawEnd n next p) (finish n next s) := by
  have hnum : s.childNum = es.length := h.printed.2.trans (List.length_map _)
  unfold drawEnd finish
  simp only [h.childNum, hnum, h.nodeNum, h.bounds]
  match es, h with
  | [], h =>
    refine ⟨.node name [], ?_, ?_, rfl, hname, trivial⟩
    · simp [h.ans, Tree.json]
    · have hans : s.ans = [] := h.printed.1
      simp [hans, Tree.code, Code.text]
  | [e], h =>
    obtain ⟨hjson, hcode⟩ := h.temp e rfl
    simp only [List.length_singleton, if_true]
    generalize (if (next (label s.nodeNum false)).isNull then next (label s.nodeNum true)
      else next (label s.nodeNum false)) = below
    split_ifs
    · exact ⟨e.2.2, hjson, hcode, h.nBounds, h.named.2.1⟩
    · exact ⟨_, h.sameTree hname (List.cons_ne_nil _ _) h.nBounds⟩
  | e :: e' :: es, h =>
    simp only [List.length_cons]
    rw [if_neg (by omega), if_neg (by omega), if_neg (by omega), if_neg (by omega)]
    exact ⟨_, h.sameTree hname (List.cons_ne_nil _ _) h.nBounds⟩

end Sync

/-- `print_trie` and `print_code` follow each other. -/
theorem callsAgree (n : ℕ) : ∀ fuel, CallsAgree (printTrie n fuel) (printCode n fuel)
  | 0 => fun _ _ _ _ => .none
  | fuel + 1 => fun t bounds nBounds idx => by
    cases t with
    | null => exact .none
    | node isLeaf next =>
      rw [printTrie, printCode]
      have hstart : Sync (nodeName isLeaf bounds idx) ⟨bounds, nBounds, openText (nodeName isLeaf bounds idx), [], 0, 0⟩
          ⟨bounds, nBounds, [], [], 0, 0⟩ [] :=
        ⟨rfl, rfl, rfl, rfl, (List.append_nil _).symm, ⟨rfl, rfl⟩,
          fun _ he => absurd he.symm (List.cons_ne_nil _ _), trivial⟩
      refine rel_bind (Sync.after_dims (callsAgree n fuel) (List.range n) hstart) ?_
      rintro p s ⟨es, h⟩
      exact .some (h.after_end (unquoted_nodeName _ _ _) n next)

end GridSolve.Grid
