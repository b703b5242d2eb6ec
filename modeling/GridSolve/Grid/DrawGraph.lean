/-
`draw_graph.py` on the file that `write_json` has written. `clean_data` removes the blanks and the
commas before a closing brace; what is left is the JSON text of the tree, and `create_graph` numbers
its nodes in the order in which they are written and draws an edge for every branch. So the picture
is the program that `print_code` writes for the trie, and decides the same points.
-/
import GridSolve.Grid.PrintMeans
import GridSolve.Grid.PrintTrie
import GridSolve.Lib.Keyed

namespace GridSolve.Grid

open GridSolve.Bisection GridSolve.Core GridSolve.Decision GridSolve.Text GridSolve.Json GridSolve.Loops

/-! ## The code -/

/-- A comma before a closing brace. -/
def commaEnd : List Char → Option (List Char × ℕ)
  | c :: d :: _ => if c = ',' ∧ d = '\x7d' then some (['\x7d'], 1) else none
  | _ => none

/-- `clean_data`. -/
def cleanData (data : List Char) : List Char := replaceFrom commaEnd 0 (unblank data)

/-- The calls of `dot`. -/
inductive Stmt
  | node (num : ℕ) (label : List Char)
  | edge (a b : ℕ) (label : List Char)
  deriving DecidableEq, Repr

/-- A value that is a string. -/
def Value.toStr : Value → Option (List Char)
  | .str s => some s
  | .obj _ => none

mutual

/-- `create_graph`: the calls made so far and the next number. A key that is missing has no result. -/
def createGraph : Value → ℕ → List Stmt → Option (List Stmt × ℕ)
  | .str _, _, _ => none
  | .obj node, num, dot => do
    let string ← node.lookup "string".toList
    let string ← Value.toStr string
    createEdges node num node (num + 1) (dot ++ [.node num string])

/-- The loop over the keys of the node with number `curr`. -/
def createEdges (node : List (List Char × Value)) (curr : ℕ) :
    List (List Char × Value) → ℕ → List Stmt → Option (List Stmt × ℕ)
  | [], num, dot => some (dot, num)
  | (name, v) :: keys, num, dot =>
    if name.take 4 = "edge".toList then do
      let c ← name[4]?
      if c = '_' then createEdges node curr keys num dot
      else
        let (dot, next) ← createGraph v num dot
        let string ← node.lookup ("edge".toList ++ "_name".toList ++ name.drop 4)
        let string ← Value.toStr string
        createEdges node curr keys next (dot ++ [.edge curr num string])
    else createEdges node curr keys num dot

end

/-- The script on the text of a file, up to the rendering. -/
def drawGraph (file : List Char) : Option (List Stmt) := do
  let root ← loads (cleanData file)
  let r ← createGraph root 0 []
  return r.1

/-! ## The value of a file -/

/-- The key of the name of a branch. -/
def nameKey (k : ℕ) : List Char := "edge_name".toList ++ natText k

/-- The key of a branch. -/
def edgeKey (k : ℕ) : List Char := "edge".toList ++ natText k

mutual

/-- The object of a tree. -/
def Tree.value : Tree → Value
  | .node name es => .obj (("string".toList, .str (unblank name)) :: edgeFields 0 es)

def edgeFields : ℕ → List (Guard × List Char × Tree) → List (List Char × Value)
  | _, [] => []
  | k, (_, name, t) :: es => (nameKey k, .str (unblank name)) :: (edgeKey k, t.value) :: edgeFields (k + 1) es

end

theorem natText_injective : Function.Injective natText := fun a b h => by
  rw [← val_natText a, ← val_natText b, h]

theorem edgeKey_inj {j k : ℕ} (h : edgeKey j = edgeKey k) : j = k := natText_injective (List.append_cancel_left h)

theorem nameKey_inj {j k : ℕ} (h : nameKey j = nameKey k) : j = k := natText_injective (List.append_cancel_left h)

/-- The first character of a number. -/
theorem exists_natText_cons (k : ℕ) : ∃ c cs, natText k = c :: cs ∧ c.isDigit = true := by
  cases h : natText k with
  | nil => exact absurd h (natText_ne_nil k)
  | cons c cs => exact ⟨c, cs, rfl, isDigit_natText k c (h ▸ List.mem_cons_self)⟩

theorem nameKey_ne_edgeKey (j k : ℕ) : nameKey j ≠ edgeKey k := by
  obtain ⟨c, cs, hk, hdigit⟩ := exists_natText_cons k
  intro h
  have hfive : (nameKey j)[4]? = (edgeKey k)[4]? := by rw [h]
  rw [edgeKey, hk] at hfive
  have hc : some '_' = some c := hfive
  rw [← Option.some.inj hc] at hdigit
  exact absurd hdigit (by decide)

/-- The keys of the branches from `k` on. -/
theorem mem_edgeFields_key : ∀ {es : List (Guard × List Char × Tree)} {k : ℕ} {key : List Char},
    key ∈ (edgeFields k es).map Prod.fst → ∃ j ≥ k, key = nameKey j ∨ key = edgeKey j
  | [], _, _, h => by simp [edgeFields] at h
  | (_, _, _) :: es, k, key, h => by
    rw [edgeFields, List.map_cons, List.map_cons, List.mem_cons, List.mem_cons] at h
    rcases h with rfl | rfl | h
    · exact ⟨k, le_rfl, .inl rfl⟩
    · exact ⟨k, le_rfl, .inr rfl⟩
    · obtain ⟨j, hj, hkey⟩ := mem_edgeFields_key h
      exact ⟨j, (Nat.le_succ k).trans hj, hkey⟩

theorem nodup_edgeFields : ∀ (es : List (Guard × List Char × Tree)) (k : ℕ), ((edgeFields k es).map Prod.fst).Nodup
  | [], _ => by simp [edgeFields]
  | (_, _, _) :: es, k => by
    rw [edgeFields, List.map_cons, List.map_cons, List.nodup_cons, List.nodup_cons, List.mem_cons, not_or]
    refine ⟨⟨nameKey_ne_edgeKey k k, fun h => ?_⟩, fun h => ?_, nodup_edgeFields es (k + 1)⟩
    · obtain ⟨j, hj, hkey | hkey⟩ := mem_edgeFields_key h
      · have := nameKey_inj hkey
        omega
      · exact nameKey_ne_edgeKey k j hkey
    · obtain ⟨j, hj, hkey | hkey⟩ := mem_edgeFields_key h
      · exact nameKey_ne_edgeKey j k hkey.symm
      · have := edgeKey_inj hkey
        omega

/-! ## Cleaning -/

theorem unblank_append (s t : List Char) : unblank (s ++ t) = unblank s ++ unblank t := List.filter_append ..

theorem unblank_natText (k : ℕ) : unblank (natText k) = natText k :=
  List.filter_eq_self.2 fun c hc => not_blank_of_isDigit (isDigit_natText k c hc)

theorem unblank_openText (name : List Char) :
    unblank (openText name) = '\x7b' :: (quote "string".toList ++ ':' :: (quote (unblank name) ++ [','])) := by
  have hopen : unblank "\x7b\"string\":".toList = '\x7b' :: (quote "string".toList ++ [':']) := rfl
  have hquote : unblank "\"".toList = ['"'] := rfl
  have hend : unblank "\",\n".toList = ['"', ','] := rfl
  unfold openText
  simp only [unblank_append, hopen, hquote, hend, quote_append, List.append_assoc, List.cons_append, List.nil_append]

theorem unblank_edgeText (k : ℕ) (name sub : List Char) : unblank (edgeText k name sub) =
    quote (nameKey k) ++ ':' ::
      (quote (unblank name) ++ ',' :: (quote (edgeKey k) ++ ':' :: (unblank sub ++ [',']))) := by
  have hname : unblank "\"edge_name".toList = '"' :: "edge_name".toList := rfl
  have hcolon : unblank "\":\"".toList = ['"', ':', '"'] := rfl
  have hend : unblank "\",\n".toList = ['"', ','] := rfl
  have hedge : unblank "\"edge".toList = '"' :: "edge".toList := rfl
  have hsub : unblank "\":".toList = ['"', ':'] := rfl
  have hcomma : unblank ",\n".toList = [','] := rfl
  unfold edgeText nameKey edgeKey
  simp only [unblank_append, unblank_natText, hname, hcolon, hend, hedge, hsub, hcomma, quote_append, List.append_assoc,
    List.cons_append, List.nil_append]

theorem replaces_commaFree {t : List Char} (h : ',' ∉ t) : Replaces commaEnd t t := by
  refine replaces_self fun c hc rest => ?_
  have hne : c ≠ ',' := fun he => h (he ▸ hc)
  cases rest with
  | nil => rfl
  | cons d rest => exact if_neg fun hand => hne hand.1

/-- A comma before a quote stays. -/
theorem replaces_commaQuote : Replaces commaEnd [',', '"'] [',', '"'] := fun rest => by
  cases rest with
  | nil => rfl
  | cons d rest => rfl

theorem commaFree_natText (k : ℕ) : ',' ∉ natText k := fun h => absurd (isDigit_natText k _ h) (by decide)

theorem commaFree_nameKey (k : ℕ) : ',' ∉ nameKey k := fun h => by
  rcases List.mem_append.1 h with h | h
  · exact absurd h (by decide)
  · exact commaFree_natText k h

theorem commaFree_edgeKey (k : ℕ) : ',' ∉ edgeKey k := fun h => by
  rcases List.mem_append.1 h with h | h
  · exact absurd h (by decide)
  · exact commaFree_natText k h

theorem commaFree_unblank {s : List Char} (h : Unquoted s) : ',' ∉ unblank s :=
  fun hc => (h _ (List.mem_of_mem_filter hc)).2.2.1 rfl

/-- Text without commas before the rest. -/
theorem replaces_behind {s t u : List Char} (h : Replaces commaEnd t u) (hs : ',' ∉ s) :
    Replaces commaEnd (s ++ t) (s ++ u) :=
  (replaces_commaFree hs).append h

mutual

theorem replaces_json : ∀ {t : Tree}, t.Named → Replaces commaEnd (unblank t.json) t.value.text
  | .node name es, ⟨hname, hes⟩ => by
    have hfree : ',' ∉ '\x7b' :: (quote "string".toList ++ ':' :: quote (unblank name)) := by
      have hunblank := commaFree_unblank hname
      simp [quote, hunblank]
    have hrest := replaces_behind (replaces_edges 0 hes) hfree
    have hbrace : unblank "\x7d".toList = ['\x7d'] := rfl
    rw [Tree.json, unblank_append, unblank_append, unblank_openText, hbrace, Tree.value, Value.text, Value.text]
    simp only [quote_append, List.append_assoc, List.cons_append, List.nil_append] at hrest ⊢
    exact hrest

theorem replaces_edges : ∀ {es : List (Guard × List Char × Tree)} (k : ℕ), EdgesNamed es →
    Replaces commaEnd (',' :: (unblank (edgesJson k es) ++ ['\x7d'])) (restText (edgeFields k es))
  | [], k, _ => by
    rw [edgeFields, restText]
    exact replaces_token fun _ => rfl
  | (g, name, t) :: es, k, ⟨hlabel, ht, hes⟩ => by
    have hname : ',' ∉ nameKey k ++ '"' :: ':' :: quote (unblank name) := by
      have hkey := commaFree_nameKey k
      have hunblank := commaFree_unblank hlabel.unquoted
      simp [quote, hkey, hunblank]
    have hedge : ',' ∉ edgeKey k ++ ['"', ':'] := by
      have hkey := commaFree_edgeKey k
      simp [hkey]
    have hrest := replaces_behind ((replaces_json ht).append (replaces_edges (k + 1) hes)) hedge
    have hall := replaces_commaQuote.append (replaces_behind (replaces_commaQuote.append hrest) hname)
    rw [edgesJson, unblank_append, unblank_edgeText, edgeFields, restText, Value.text, restText]
    simp only [quote_append, List.append_assoc, List.cons_append, List.nil_append] at hall ⊢
    exact hall

end

/-- `clean_data` leaves the text of the tree's object. -/
theorem cleanData_json {t : Tree} (h : t.Named) : cleanData t.json = t.value.text := (replaces_json h).replaceFrom

/-! ## Reading -/

theorem Unquoted.plainText {s : List Char} (h : Unquoted s) : PlainText (unblank s) := fun c hc =>
  have hc := h c (List.mem_of_mem_filter hc)
  ⟨hc.1, hc.2.1, hc.2.2.2⟩

theorem plainText_natText (k : ℕ) : PlainText (natText k) := fun c hc => by
  have hdigit := isDigit_natText k c hc
  exact ⟨ne_of_isDigit hdigit (by decide), ne_of_isDigit hdigit (by decide),
    le_trans (by decide) (toNat_of_isDigit hdigit).1⟩

theorem plainText_nameKey (k : ℕ) : PlainText (nameKey k) :=
  List.forall_mem_append.2 ⟨plainText_of_all rfl, plainText_natText k⟩

theorem plainText_edgeKey (k : ℕ) : PlainText (edgeKey k) :=
  List.forall_mem_append.2 ⟨plainText_of_all rfl, plainText_natText k⟩

theorem string_notMem (es : List (Guard × List Char × Tree)) (k : ℕ) :
    "string".toList ∉ (edgeFields k es).map Prod.fst := by
  intro h
  obtain ⟨j, -, hkey | hkey⟩ := mem_edgeFields_key h
  · have hhead : some 's' = some 'e' := congrArg List.head? hkey
    exact absurd hhead (by decide)
  · have hhead : some 's' = some 'e' := congrArg List.head? hkey
    exact absurd hhead (by decide)

mutual

theorem plain_value : ∀ {t : Tree}, t.Named → t.value.Plain
  | .node name es, ⟨hname, hes⟩ => by
    rw [Tree.value, Value.Plain]
    refine ⟨?_, plainText_of_all rfl, hname.plainText, plain_edgeFields 0 hes⟩
    rw [List.map_cons, List.nodup_cons]
    exact ⟨string_notMem es 0, nodup_edgeFields es 0⟩

theorem plain_edgeFields :
    ∀ {es : List (Guard × List Char × Tree)} (k : ℕ), EdgesNamed es → PlainFields (edgeFields k es)
  | [], _, _ => by
    rw [edgeFields]
    trivial
  | (g, name, t) :: es, k, ⟨hlabel, ht, hes⟩ => by
    rw [edgeFields]
    exact ⟨plainText_nameKey k, hlabel.unquoted.plainText, plainText_edgeKey k, plain_value ht,
      plain_edgeFields (k + 1) hes⟩

end

theorem loads_cleanData {t : Tree} (h : t.Named) : loads (cleanData t.json) = some t.value := by
  rw [cleanData_json h]
  exact loads_text (plain_value h)

/-! ## The picture of a tree -/

mutual

/-- The number of nodes. -/
def Tree.size : Tree → ℕ
  | .node _ es => edgesSize es + 1

def edgesSize : List (Guard × List Char × Tree) → ℕ
  | [] => 0
  | (_, _, t) :: es => t.size + edgesSize es

end

mutual

/-- The calls for a tree whose root gets the number `num`. -/
def Tree.stmts : Tree → ℕ → List Stmt
  | .node name es, num => .node num (unblank name) :: edgesStmts num es (num + 1)

def edgesStmts (curr : ℕ) : List (Guard × List Char × Tree) → ℕ → List Stmt
  | [], _ => []
  | (_, name, t) :: es, num => t.stmts num ++ .edge curr num (unblank name) :: edgesStmts curr es (num + t.size)

end

/-- Where the branches of a node lead, the first child with number `num`. -/
def edgeEnds : List (Guard × List Char × Tree) → ℕ → List (ℕ × List Char)
  | [], _ => []
  | (_, name, t) :: es, num => (num, unblank name) :: edgeEnds es (num + t.size)

section Keys

variable {node keys : List (List Char × Value)} {curr k num : ℕ} {dot : List Stmt}

/-- The name of a branch is skipped. -/
theorem createEdges_nameKey (v : Value) :
    createEdges node curr ((nameKey k, v) :: keys) num dot = createEdges node curr keys num dot := by
  have htake : (nameKey k).take 4 = "edge".toList := rfl
  have hfive : (nameKey k)[4]? = some '_' := rfl
  rw [createEdges, if_pos htake, hfive, Option.bind_eq_bind, Option.bind_some, if_pos rfl]

theorem createEdges_edgeKey {v : Value} {dot' : List Stmt} {next : ℕ} {string : List Char}
    (hv : createGraph v num dot = some (dot', next)) (hname : node.lookup (nameKey k) = some (.str string)) :
    createEdges node curr ((edgeKey k, v) :: keys) num dot =
      createEdges node curr keys next (dot' ++ [.edge curr num string]) := by
  obtain ⟨c, cs, hk, hdigit⟩ := exists_natText_cons k
  have htake : (edgeKey k).take 4 = "edge".toList := rfl
  have hfive : (edgeKey k)[4]? = some c := by
    rw [edgeKey, hk]
    rfl
  have hback : "edge".toList ++ "_name".toList ++ (edgeKey k).drop 4 = nameKey k := rfl
  have hne : c ≠ '_' := ne_of_isDigit hdigit rfl
  rw [createEdges, if_pos htake, hfive, hv, hback, hname]
  exact if_neg hne

end Keys

mutual

theorem createGraph_value : ∀ (t : Tree) (num : ℕ) (dot : List Stmt),
    createGraph t.value num dot = some (dot ++ t.stmts num, num + t.size)
  | .node name es, num, dot => by
    have hn : ((("string".toList, Value.str (unblank name)) :: edgeFields 0 es).map Prod.fst).Nodup := by
      rw [List.map_cons, List.nodup_cons]
      exact ⟨string_notMem es 0, nodup_edgeFields es 0⟩
    have hedges := createEdges_fields num es 0 (num + 1) (dot ++ [.node num (unblank name)])
      fun f hf => Keyed.lookup_of_mem hn (List.mem_cons_of_mem _ hf)
    rw [Tree.value, createGraph, Keyed.lookup_of_mem hn List.mem_cons_self]
    simp only [Option.bind_eq_bind, Option.bind_some, Value.toStr]
    rw [createEdges, if_neg (by decide), hedges, Tree.stmts, Tree.size, List.append_assoc, List.singleton_append]
    congr 2
    omega

/-- The loop from the branch with number `k` on. -/
theorem createEdges_fields {node : List (List Char × Value)} (curr : ℕ) :
    ∀ (es : List (Guard × List Char × Tree)) (k num : ℕ) (dot : List Stmt),
      (∀ f ∈ edgeFields k es, node.lookup f.1 = some f.2) →
    createEdges node curr (edgeFields k es) num dot = some (dot ++ edgesStmts curr es num, num + edgesSize es)
  | [], k, num, dot, _ => by
    rw [edgeFields, createEdges, edgesStmts, edgesSize, List.append_nil, Nat.add_zero]
  | (g, name, t) :: es, k, num, dot, h => by
    rw [edgeFields] at h ⊢
    have hname := h _ List.mem_cons_self
    have hedges := createEdges_fields curr es (k + 1) (num + t.size)
      (dot ++ t.stmts num ++ [.edge curr num (unblank name)]) fun f hf =>
        h f (List.mem_cons_of_mem _ (List.mem_cons_of_mem _ hf))
    rw [createEdges_nameKey, createEdges_edgeKey (createGraph_value t num dot) hname, hedges, edgesStmts, edgesSize]
    congr 2
    · simp only [List.append_assoc, List.singleton_append]
    · omega

end

/-- The file of a tree is drawn. -/
theorem drawGraph_json {t : Tree} (h : t.Named) : drawGraph t.json = some (t.stmts 0) := by
  rw [drawGraph, loads_cleanData h]
  simp only [Option.bind_eq_bind, Option.bind_some, createGraph_value, List.nil_append]
  rfl

/-! ## Reading the picture -/

/-- The branches drawn from node `a`, in their order: where they lead, and their labels. -/
def branches (dot : List Stmt) (a : ℕ) : List (ℕ × List Char) :=
  dot.filterMap fun s => match s with
    | .node _ _ => none
    | .edge a' b label => if a' = a then some (b, label) else none

/-- The first branch whose condition holds; there is no result if a label is no condition. -/
def firstTrue (x : ℕ → ℤ) : List (ℕ × List Char) → Option (Option ℕ)
  | [] => some none
  | (b, label) :: es => do
    let g ← readCond label
    if g.holds x then some (some b) else firstTrue x es

/-- Goes on at a node, or rejects. -/
def goOn (next : ℕ → Option Bool) : Option ℕ → Option Bool
  | none => some false
  | some b => next b

/-- Reads the picture at a point from node `a` on: a node without branches accepts, the first branch whose condition
holds is taken, and without one the point is rejected. -/
def follow (dot : List Stmt) (x : ℕ → ℤ) : ℕ → ℕ → Option Bool
  | 0, _ => none
  | fuel + 1, a =>
    if branches dot a = [] then some true
    else (firstTrue x (branches dot a)).bind (goOn (follow dot x fuel))

/-- The answer of the picture at a point. -/
def pictureAt (dot : List Stmt) (x : ℕ → ℤ) : Option Bool := follow dot x dot.length 0

theorem branches_append (dot dot' : List Stmt) (a : ℕ) : branches (dot ++ dot') a = branches dot a ++ branches dot' a :=
  List.filterMap_append

theorem branches_node (num a : ℕ) (label : List Char) (dot : List Stmt) :
    branches (.node num label :: dot) a = branches dot a := rfl

theorem branches_edge_self (a b : ℕ) (label : List Char) (dot : List Stmt) :
    branches (.edge a b label :: dot) a = (b, label) :: branches dot a := List.filterMap_cons_some (if_pos rfl)

theorem branches_edge_ne {a' a : ℕ} (h : a' ≠ a) (b : ℕ) (label : List Char) (dot : List Stmt) :
    branches (.edge a' b label :: dot) a = branches dot a := List.filterMap_cons_none (if_neg h)

mutual

/-- A tree draws branches from its own nodes only. -/
theorem branches_stmts_eq_nil : ∀ (t : Tree) {num a : ℕ}, a < num ∨ num + t.size ≤ a → branches (t.stmts num) a = []
  | .node name es, num, a, h => by
    rw [Tree.size] at h
    rw [Tree.stmts, branches_node]
    exact branches_edgesStmts_eq_nil es (by omega) (by omega)

theorem branches_edgesStmts_eq_nil : ∀ (es : List (Guard × List Char × Tree)) {curr num a : ℕ}, a ≠ curr →
    a < num ∨ num + edgesSize es ≤ a → branches (edgesStmts curr es num) a = []
  | [], _, _, _, _, _ => by rw [edgesStmts]; rfl
  | (_, _, t) :: es, curr, num, a, hne, h => by
    rw [edgesSize] at h
    rw [edgesStmts, branches_append, branches_edge_ne hne.symm, branches_stmts_eq_nil t (by omega),
      branches_edgesStmts_eq_nil es hne (by omega), List.append_nil]

end

/-- The branches of the node itself. -/
theorem branches_edgesStmts_self : ∀ (es : List (Guard × List Char × Tree)) {curr num : ℕ}, curr < num →
    branches (edgesStmts curr es num) curr = edgeEnds es num
  | [], _, _, _ => by rw [edgesStmts]; rfl
  | (_, _, t) :: es, curr, num, h => by
    rw [edgesStmts, branches_append, branches_edge_self, branches_stmts_eq_nil t (.inl h), List.nil_append,
      branches_edgesStmts_self es (by omega), edgeEnds]

theorem branches_stmts_self (name : List Char) (es : List (Guard × List Char × Tree)) (num : ℕ) :
    branches (Tree.stmts (.node name es) num) num = edgeEnds es (num + 1) := by
  rw [Tree.stmts, branches_node]
  exact branches_edgesStmts_self es (Nat.lt_succ_self num)

theorem size_pos : ∀ t : Tree, 0 < t.size
  | .node _ es => by
    rw [Tree.size]
    exact Nat.succ_pos _

mutual

/-- Where the picture `dot` shows the tree, it is read as its program. -/
theorem follow_tree {dot : List Stmt} {x : ℕ → ℤ} : ∀ {t : Tree} {num fuel : ℕ}, t.Named → t.size ≤ fuel →
    (∀ a, num ≤ a → a < num + t.size → branches dot a = branches (t.stmts num) a) →
    follow dot x fuel num = some (t.code.eval (Guard.holds x))
  | t, _, 0, _, hfuel, _ => absurd (size_pos t) (by omega)
  | .node name [], num, fuel + 1, _, _, hdot => by
    have hself := (hdot num le_rfl (by simp [Tree.size])).trans (branches_stmts_self name [] num)
    rw [edgeEnds] at hself
    rw [follow, if_pos hself, Tree.code]
    rfl
  | .node name (e :: es), num, fuel + 1, hnamed, hfuel, hdot => by
    rw [Tree.size] at hfuel hdot
    have hself := (hdot num le_rfl (by omega)).trans (branches_stmts_self name (e :: es) num)
    have hcode : (Tree.node name (e :: es)).code = edgesCode (e :: es) := by
      rw [Tree.code]
      rfl
    have hne : edgeEnds (e :: es) (num + 1) ≠ [] := by
      rw [edgeEnds]
      exact List.cons_ne_nil _ _
    rw [follow, hself, if_neg hne, hcode]
    refine follow_edges (Nat.lt_succ_self num) hnamed.2 (Nat.le_of_succ_le_succ hfuel) fun a hlow hhigh => ?_
    rw [hdot a (by omega) (by omega), Tree.stmts, branches_node]

theorem follow_edges {dot : List Stmt} {x : ℕ → ℤ} {curr : ℕ} : ∀ {es : List (Guard × List Char × Tree)} {num fuel : ℕ},
    curr < num → EdgesNamed es → edgesSize es ≤ fuel →
    (∀ a, num ≤ a → a < num + edgesSize es → branches dot a = branches (edgesStmts curr es num) a) →
    (firstTrue x (edgeEnds es num)).bind (goOn (follow dot x fuel)) = some ((edgesCode es).eval (Guard.holds x))
  | [], _, _, _, _, _, _ => by
    rw [edgeEnds, edgesCode]
    rfl
  | (g, name, t) :: es, num, fuel, hcurr, ⟨hlabel, ht, hes⟩, hfuel, hdot => by
    rw [edgesSize] at hfuel hdot
    have hbelow : follow dot x fuel num = some (t.code.eval (Guard.holds x)) := by
      refine follow_tree ht (by omega) fun a hlow hhigh => ?_
      rw [hdot a hlow (by omega), edgesStmts, branches_append, branches_edge_ne (by omega),
        branches_edgesStmts_eq_nil es (by omega) (.inl hhigh), List.append_nil]
    have hrest : (firstTrue x (edgeEnds es (num + t.size))).bind (goOn (follow dot x fuel)) =
        some ((edgesCode es).eval (Guard.holds x)) := by
      refine follow_edges (hcurr.trans_le (Nat.le_add_right _ _)) hes (by omega) fun a hlow hhigh => ?_
      rw [hdot a (by omega) (by omega), edgesStmts, branches_append, branches_edge_ne (by omega),
        branches_stmts_eq_nil t (.inr hlow), List.nil_append]
    rw [edgeEnds, firstTrue, hlabel.unblank, hlabel.read, Option.bind_eq_bind, Option.bind_some, edgesCode, Code.eval]
    by_cases hg : g.holds x = true
    · rw [if_pos hg, if_pos hg]
      exact hbelow
    · rw [if_neg hg, if_neg hg]
      exact hrest

end

mutual

theorem size_le_length : ∀ (t : Tree) (num : ℕ), t.size ≤ (t.stmts num).length
  | .node _ es, num => by
    have := edgesSize_le_length num es (num + 1)
    rw [Tree.size, Tree.stmts, List.length_cons]
    omega

theorem edgesSize_le_length (curr : ℕ) : ∀ (es : List (Guard × List Char × Tree)) (num : ℕ),
    edgesSize es ≤ (edgesStmts curr es num).length
  | [], _ => by
    rw [edgesSize]
    exact Nat.zero_le _
  | (_, _, t) :: es, num => by
    have htree := size_le_length t num
    have hrest := edgesSize_le_length curr es (num + t.size)
    rw [edgesSize, edgesStmts, List.length_append, List.length_cons]
    omega

end

/-- The picture of a tree is read as its program. -/
theorem pictureAt_stmts {t : Tree} (h : t.Named) (x : ℕ → ℤ) :
    pictureAt (t.stmts 0) x = some (t.code.eval (Guard.holds x)) :=
  follow_tree h (size_le_length t 0) fun _ _ _ => rfl

/-! ## From the trie to the picture -/

/-- On every trie `print_trie` returns when `print_code` does, with the same `n_bounds`. Its text is drawn, and the
picture answers at every point as the program of `print_code` does. -/
theorem print_trie_draws_code (n fuel : ℕ) (t : Trie ℤ) (bounds nBounds : Coords) (idx : ℤ) :
    Option.Rel (fun r r' => r.2 = r'.2 ∧ ∃ dot code, drawGraph r.1 = some dot ∧ read r'.1 = some code ∧
      ∀ x, pictureAt dot x = some (code.eval (Guard.holds x)))
      (printTrie n fuel t bounds nBounds idx) (printCode n fuel t bounds nBounds) := by
  refine rel_imp (callsAgree n fuel t bounds nBounds idx) ?_
  rintro ⟨file, nb⟩ ⟨text, nb'⟩ ⟨tree, hjson, hcode, hnb, hnamed⟩
  refine ⟨hnb, tree.stmts 0, tree.code, ?_, ?_, pictureAt_stmts hnamed⟩
  · exact (congrArg drawGraph hjson).trans (drawGraph_json hnamed)
  · exact (congrArg read hcode).trans (read_text tree.code)

/-- For the trie of a list of boxes, if it is plain, the file of `write_json` is drawn, and the picture accepts the
integer points of the bounds that lie in a box listed by `get_ll`, and rejects the others. -/
theorem picture_means_boxes {fuel n : ℕ} {l : Ll} {bounds : Coords} {t : Trie ℤ} (hn : n ≤ bounds.length)
    (ht : makeTrie fuel l n bounds = some t) (hp : Plain t bounds) :
    ∃ fuel₀, ∀ fuel' ≥ fuel₀, ∃ file dot, writeJson n fuel' t bounds = some file ∧ drawGraph file = some dot ∧
      ∀ x : ℕ → ℤ, InBox bounds (point x) → ∃ answer, pictureAt dot x = some answer ∧
        (answer = true ↔ Covered (getLl n t bounds Ll.empty).boxes (point x)) := by
  obtain ⟨hne, ho⟩ := ordered_makeTrie ht
  refine ⟨depth n t, fun fuel' hfuel => ?_⟩
  obtain ⟨code, nb, hrun, -, hmeans⟩ := printCode_writes n fuel' hne hfuel ho hp hn bounds
  have hrel := callsAgree n fuel' t bounds bounds (-1)
  rw [hrun] at hrel
  obtain ⟨r, hdraw, tree, hjson, hcode, -, hnamed⟩ : ∃ r, printTrie n fuel' t bounds bounds (-1) = some r ∧
      ∃ tree, SameTree tree r (code.text, nb) := by
    generalize printTrie n fuel' t bounds bounds (-1) = a at hrel
    cases hrel with
    | some h => exact ⟨_, rfl, h⟩
  -- a text is that of one program only
  have htree : tree.code = code := by
    have hread := congrArg read hcode
    rw [read_text, read_text] at hread
    exact (Option.some.inj hread).symm
  refine ⟨r.1, tree.stmts 0, ?_, (congrArg drawGraph hjson).trans (drawGraph_json hnamed), fun x hx => ?_⟩
  · rw [writeJson, hdraw]
    rfl
  · refine ⟨_, pictureAt_stmts hnamed x, ?_⟩
    rw [htree]
    exact (hmeans.inside x hx).trans covered_iff_cells.symm

/-- The two outer quarters of an interval: their trie has both halves, and the face between them is drawn first. -/
theorem picture_means_boxes_outerQuarters : ∃ t, makeTrie 2 outerQuarters 1 [(0, 4)] = some t ∧ Plain t [(0, 4)] ∧
    ∃ fuel₀, ∀ fuel' ≥ fuel₀, ∃ file dot, writeJson 1 fuel' t [(0, 4)] = some file ∧ drawGraph file = some dot ∧
      ∀ x : ℕ → ℤ, InBox [(0, 4)] (point x) → ∃ answer, pictureAt dot x = some answer ∧
        (answer = true ↔ Covered (getLl 1 t [(0, 4)] Ll.empty).boxes (point x)) :=
  ⟨_, makeTrie_outerQuarters, plain_outerQuarters,
    picture_means_boxes le_rfl makeTrie_outerQuarters plain_outerQuarters⟩

end GridSolve.Grid
