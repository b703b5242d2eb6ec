/-
What the program of `print_code` means. Read with the first true condition deciding, the text of a
plain trie accepts the integer points of its cells, and no others; nodes that branch in several
dimensions, or faces where both sides go on, can get the wrong answer. The induction is on the fuel:
one round of the loop over the dimensions writes the branches of the only dimension that has any.
-/
import GridSolve.Grid.PrintCode

namespace GridSolve.Grid

open GridSolve.Bisection GridSolve.Core GridSolve.Decision GridSolve.Loops

/-! ## What the programs mean -/

/-- The node has one branch, in dimension `i`. -/
def Single (n i : ℕ) (t : Trie ℤ) : Prop :=
  nodeCount n t = 1 ∧ (t.next (label i false) ≠ .null ∨ t.next (label i true) ≠ .null)

/-- The program means the cells of a trie. A node with one branch answers no to every point beside its bounds in that
dimension; this is what allows the node above to leave out its own condition. -/
structure Means (n : ℕ) (t : Trie ℤ) (bounds : Coords) (code : Code Guard) : Prop where
  inside : ∀ x, InBox bounds (point x) → (code.eval (Guard.holds x) = true ↔ Cells n t bounds x)
  outside : ∀ i c, Single n i t → bounds[i]? = some c → ∀ x : ℕ → ℤ, ¬ (c.1 ≤ x i ∧ x i ≤ c.2) →
    code.eval (Guard.holds x) = false

section Means

variable {n i k : ℕ} {bounds : Coords} {c : ℚ × ℚ} {isLeaf : Bool} {next : ℤ → Trie ℤ}

theorem half_subset {b : Bool} {y : ℚ} (h : (half b c).1 ≤ y ∧ y ≤ (half b c).2) : c.1 ≤ y ∧ y ≤ c.2 := by
  obtain ⟨h1, h2⟩ := h
  unfold half at h1 h2
  split_ifs at h1 h2 <;> constructor <;> linarith

/-- The dimension of a single branch is that of the branches. -/
theorem Plain.eq_of_single (hp : Plain (.node isLeaf next) bounds) {b : Bool} (hne : next (label i b) ≠ .null) {j : ℕ}
    (h : Single n j (.node isLeaf next)) : j = i := by
  obtain ⟨⟨i₀, hdim⟩, -⟩ := hp
  rw [hdim i b hne]
  rcases h.2 with h | h
  · exact hdim j false h
  · exact hdim j true h

/-- Both halves are two branches. -/
theorem not_single_of_both {j : ℕ} (ho : Ordered n k (.node isLeaf next)) (hr : next (label i true) ≠ .null)
    (hl : next (label i false) ≠ .null) : ¬ Single n j (.node isLeaf next) := by
  rintro ⟨hcount, -⟩
  obtain ⟨a, ha⟩ := List.length_eq_one_iff.1 hcount
  have hmem : ∀ b, next (label i b) ≠ .null → label i b = a := by
    intro b hb
    have h : label i b ∈ (labels n).filter fun d => !(next d).isNull :=
      List.mem_filter.2 ⟨(ho.2 _ hb).1, by rw [Trie.isNull_eq_false_iff.2 hb]; rfl⟩
    exact List.mem_singleton.1 (ha ▸ h)
  have heq := (hmem true hr).trans (hmem false hl).symm
  simp only [label, if_true, Bool.false_eq_true, if_false] at heq
  omega

variable (ho : Ordered n k (.node isLeaf next)) (hp : Plain (.node isLeaf next) bounds) (hn : n ≤ bounds.length)
  (hc : bounds[i]? = some c)

include ho hp hn hc

/-- A node with one branch. -/
theorem means_single {b : Bool} (hne : next (label i b) ≠ .null) (hother : next (label i (!b)) = .null)
    {code : Code Guard} (h : Means n (next (label i b)) (halve (label i b) bounds) code) :
    Means n (.node isLeaf next) bounds (chain [(sideGuard i b false (half b c), code)]) ∧
      (Single n i (next (label i b)) → Means n (.node isLeaf next) bounds code) := by
  have hc' := getElem?_halve_self hc b
  have hlen : n ≤ (halve (label i b) bounds).length := by rwa [halve_eq_set hc, List.length_set]
  have hcells : ∀ x, Cells n (.node isLeaf next) bounds x ↔
      Cells n (next (label i b)) (halve (label i b) bounds) x := by
    intro x
    rw [(cells_plain ho hp hne).2, hother, or_iff_left not_cells_null]
  have hwithin : ∀ {x}, InBox bounds (point x) → Cells n (.node isLeaf next) bounds x →
      (half b c).1 ≤ x i ∧ x i ≤ (half b c).2 := fun hx h =>
    (inBox_halve_point hc b hx).1 (cells_within hlen ((hcells _).1 h))
  refine ⟨⟨fun x hx => ?_, fun j e hj he x hout => ?_⟩, fun hsingle => ⟨fun x hx => ?_, fun j e hj he x hout => ?_⟩⟩
  · simp only [chain, List.foldr_cons, List.foldr_nil, Code.eval]
    split_ifs with hg
    · rw [h.inside x ((inBox_halve_point hc b hx).2 ((holds_sideGuard b).1 hg)), hcells]
    · exact iff_of_false not_false fun hcell => hg ((holds_sideGuard b).2 (hwithin hx hcell))
  · obtain rfl := hp.eq_of_single hne hj
    rw [hc, Option.some.injEq] at he
    subst he
    simp only [chain, List.foldr_cons, List.foldr_nil, Code.eval]
    rw [if_neg fun hg => hout (half_subset ((holds_sideGuard b).1 hg))]
  · by_cases hin : (half b c).1 ≤ x i ∧ x i ≤ (half b c).2
    · rw [h.inside x ((inBox_halve_point hc b hx).2 hin), hcells]
    · rw [h.outside i _ hsingle hc' x hin]
      exact iff_of_false Bool.false_ne_true fun hcell => hin (hwithin hx hcell)
  · obtain rfl := hp.eq_of_single hne hj
    rw [hc, Option.some.injEq] at he
    subst he
    exact h.outside j _ hsingle hc' x fun hin => hout (half_subset hin)

section Both

variable (hr : next (label i true) ≠ .null) (hl : next (label i false) ≠ .null) {r l : Code Guard}
  (hmr : Means n (next (label i true)) (halve (label i true) bounds) r)
  (hml : Means n (next (label i false)) (halve (label i false) bounds) l)

include hr hl hmr hml

/-- Away from the middle one half decides. -/
theorem cells_half {x : ℕ → ℤ} (hx : InBox bounds (point x)) {b : Bool} (hin : (half b c).1 ≤ x i ∧ x i ≤ (half b c).2)
    (hout : ¬ ((half (!b) c).1 ≤ x i ∧ x i ≤ (half (!b) c).2)) :
    Cells n (.node isLeaf next) bounds x ↔ (if b then r else l).eval (Guard.holds x) = true := by
  have hlen : ∀ b, n ≤ (halve (label i b) bounds).length := fun b => by rwa [halve_eq_set hc, List.length_set]
  have hx' := (inBox_halve_point hc b hx).2 hin
  have hno : ¬ Cells n (next (label i (!b))) (halve (label i (!b)) bounds) x := fun h =>
    hout ((inBox_halve_point hc _ hx).1 (cells_within (hlen _) h))
  cases b
  · rw [(cells_plain ho hp hl).2, or_iff_left hno, ← hml.inside x hx']
    rfl
  · rw [(cells_plain ho hp hr).2, or_iff_left hno, ← hmr.inside x hx']
    rfl

/-- Both halves, the middle not an integer. -/
theorem means_both (hmid : ∀ z : ℤ, (c.1 + c.2) / 2 ≠ z) : Means n (.node isLeaf next) bounds
    (chain [(sideGuard i true false (half true c), r), (sideGuard i false false (half false c), l)]) := by
  refine ⟨fun x hx => ?_, fun j e hj => absurd hj (not_single_of_both ho hr hl)⟩
  obtain ⟨hx1, hx2⟩ := coord_of_inBox hc hx
  simp only [chain, List.foldr_cons, List.foldr_nil, Code.eval, holds_sideGuard]
  by_cases hge : (c.1 + c.2) / 2 ≤ x i
  · have hgt : (c.1 + c.2) / 2 < x i := lt_of_le_of_ne hge (hmid _)
    have hin : (half true c).1 ≤ x i ∧ x i ≤ (half true c).2 := ⟨hge, hx2⟩
    rw [if_pos hin]
    exact (cells_half ho hp hn hc hr hl hmr hml hx hin fun h => hgt.not_ge h.2).symm
  · have hin : (half false c).1 ≤ x i ∧ x i ≤ (half false c).2 := ⟨hx1, (not_le.1 hge).le⟩
    have hout : ¬ ((half true c).1 ≤ x i ∧ x i ≤ (half true c).2) := fun h => hge h.1
    rw [if_neg hout, if_pos hin]
    exact (cells_half ho hp hn hc hr hl hmr hml hx hin hout).symm

/-- Both halves, the middle an integer; `face` are the branches written for the face. -/
theorem means_face {z : ℤ} (hz : (c.1 + c.2) * (1 / 2) = z) {face : List (Guard × Code Guard)}
    (hguard : ∀ x : ℕ → ℤ, x i ≠ z → ∀ b ∈ face, b.1.holds x = false)
    (hface : ∀ x, InBox bounds (point x) → x i = z →
      ((chain face).eval (Guard.holds x) = true ↔ Cells n (.node isLeaf next) bounds x)) :
    Means n (.node isLeaf next) bounds
      (chain (face ++ [(sideGuard i true true (half true c), r), (sideGuard i false true (half false c), l)])) := by
  refine ⟨fun x hx => ?_, fun j e hj => absurd hj (not_single_of_both ho hr hl)⟩
  obtain ⟨hx1, hx2⟩ := coord_of_inBox hc hx
  obtain ⟨hgr, hgl⟩ := @holds_sideGuard_strict x i c z hz
  have hmid : (c.1 + c.2) / 2 = z := by rw [← hz]; ring
  rcases lt_trichotomy (x i) z with hlt | heq | hgt
  · have hltq : (x i : ℚ) < z := by exact_mod_cast hlt
    have hin : (half false c).1 ≤ x i ∧ x i ≤ (half false c).2 := ⟨hx1, hltq.le.trans hmid.ge⟩
    have hout : ¬ ((half true c).1 ≤ x i ∧ x i ≤ (half true c).2) := fun h => (hltq.trans_le hmid.ge).not_ge h.1
    rw [eval_chain_append_left (hguard x hlt.ne), cells_half ho hp hn hc hr hl hmr hml hx hin hout]
    simp only [chain, List.foldr_cons, List.foldr_nil, Code.eval, hgr, hgl]
    rw [if_neg fun h => hlt.not_gt h.1, if_pos ⟨hx1, hlt⟩]
    rfl
  · -- on the face both halves are left out
    have hsides : ∀ b ∈ [(sideGuard i true true (half true c), r), (sideGuard i false true (half false c), l)],
        b.1.holds x = false := by
      refine List.forall_mem_cons.2 ⟨?_, List.forall_mem_singleton.2 ?_⟩
      · exact Bool.eq_false_iff.2 fun h => (hgr.1 h).1.ne' heq
      · exact Bool.eq_false_iff.2 fun h => (hgl.1 h).2.ne heq
    rw [eval_chain_append_right hsides, hface x hx heq]
  · have hgtq : (z : ℚ) < x i := by exact_mod_cast hgt
    have hin : (half true c).1 ≤ x i ∧ x i ≤ (half true c).2 := ⟨hmid.le.trans hgtq.le, hx2⟩
    have hout : ¬ ((half false c).1 ≤ x i ∧ x i ≤ (half false c).2) := fun h => (hmid.le.trans_lt hgtq).not_ge h.2
    rw [eval_chain_append_left (hguard x hgt.ne'), cells_half ho hp hn hc hr hl hmr hml hx hin hout]
    simp only [chain, List.foldr_cons, List.foldr_nil, Code.eval, hgr]
    rw [if_pos ⟨hgt, hx2⟩]
    rfl

end Both

/-- On the face between the halves, one side. -/
theorem cells_edge {x : ℕ → ℤ} {b : Bool} (hne : next (label i b) ≠ .null) (hlt : c.1 < c.2)
    (hx : InBox bounds (point x)) (hmid : (x i : ℚ) = (c.1 + c.2) / 2) :
    Cells n (next (label i b)) (halve (label i b) bounds) x ↔
      Cells n (child i (!b) (next (label i b))) bounds x := by
  have hlen : n ≤ (halve (label i b) bounds).length := by rwa [halve_eq_set hc, List.length_set]
  have hend : (x i : ℚ) = if !b then (half b c).2 else (half b c).1 := by cases b <;> exact hmid
  have hin : (half b c).1 ≤ x i ∧ x i ≤ (half b c).2 := by
    have h := half_lt hlt b
    rw [hend]
    cases b
    · exact ⟨h.le, le_rfl⟩
    · exact ⟨le_rfl, h.le⟩
  have hx' := (inBox_halve_point hc b hx).2 hin
  have hbelow := (ho.2 _ hne).2.2
  rw [natAbs_label] at hbelow
  rw [cells_child (!b) hlen hbelow (hp.2.2 i b) (getElem?_halve_self hc b) (half_lt hlt b) hx' hend]
  have hfree := ordered_child (!b) hbelow
  constructor
  · exact cells_congr hfree (agreeOff_halve bounds b) fun e he => coord_of_inBox he hx
  · exact cells_congr hfree (agreeOff_halve bounds b).symm fun e he => coord_of_inBox he hx'

end Means

/-! ## The face -/

section Face

variable {n k fuel : ℕ} {bounds : Coords} {a b t : Trie ℤ}

theorem getPath_self (hn : n ≤ bounds.length) : getPath (fuel + 1) bounds bounds n = some [] := by
  have hpieces : (List.range n).mapM
        (fun i => bounds[i]?.bind fun c => bounds[i]?.bind fun e => pathFrom i c (fuel + 1) e) =
      some ((List.range n).map fun _ => []) := by
    refine mapM_eq_some fun i hi => ?_
    rw [List.getElem?_eq_getElem ((List.mem_range.1 hi).trans_le hn), Option.bind_some, Option.bind_some, pathFrom,
      if_neg (by rw [not_bisects_self]; exact Bool.false_ne_true)]
  unfold getPath
  simp only [Option.bind_eq_bind, hpieces, Option.bind_some, Option.pure_def, Option.some.injEq]
  simp

theorem Ordered.eq_of_isLeaf (h : Ordered n k t) (hleaf : t.isLeaf = true) : t = Trie.new := by
  cases t with
  | null => cases hleaf
  | node isLeaf next =>
    obtain rfl : isLeaf = true := hleaf
    exact congrArg (Trie.node true) (funext fun d => h.1.1 rfl d)

/-- What `union_` makes of the two sides of a simple face. -/
theorem union_simple (hn : n ≤ bounds.length) (ha : Ordered n k a) (hb : Ordered n k b) (hpa : Plain a bounds)
    (hpb : Plain b bounds) (h : a = .null ∨ b = .null ∨ a.isLeaf = true ∧ b.isLeaf = true) :
    ∃ un, union_ n (fuel + 1) a b bounds = some un ∧ Ordered n k un ∧ Plain un bounds ∧
      depth n un ≤ max (depth n a) (depth n b) ∧
      ∀ x, Cells n un bounds x ↔ Cells n a bounds x ∨ Cells n b bounds x := by
  unfold union_
  by_cases hnull : a = .null
  · subst hnull
    exact ⟨b, rfl, hb, hpb, le_max_right _ _, fun x => (or_iff_right not_cells_null).symm⟩
  rw [if_neg fun h => hnull (Trie.isNull_iff.1 h)]
  by_cases hnull' : b = .null
  · subst hnull'
    exact ⟨a, rfl, ha, hpa, le_max_left _ _, fun x => (or_iff_left not_cells_null).symm⟩
  rw [if_neg fun h => hnull' (Trie.isNull_iff.1 h)]
  obtain ⟨hleafa, hleafb⟩ := (h.resolve_left hnull).resolve_left hnull'
  obtain rfl := ha.eq_of_isLeaf hleafa
  obtain rfl := hb.eq_of_isLeaf hleafb
  -- the list holds the bounds twice, and the path of the bounds is empty
  obtain ⟨hholds, hboxes⟩ := boxes_getLl n Trie.new bounds Ll.holds_empty.self
  have htwo := (boxes_getLl n Trie.new bounds hholds).2
  rw [hboxes, Ll.holds_empty.boxes_eq] at htwo
  have hpaths : List.Forall₂ (fun (b : BoundingBox) w => getPath (fuel + 1) b.coords bounds n = some w)
      (getLl n Trie.new bounds (getLl n Trie.new bounds Ll.empty)).boxes [[], []] := by
    rw [htwo]
    exact .cons (getPath_self hn) (.cons (getPath_self hn) .nil)
  refine ⟨_, makeTrie_of_paths hpaths, ha, hpa, le_max_left _ _, fun x => (or_self_iff).symm⟩

end Face

/-! ## The whole program -/

/-- The call writes a program that means the cells. On a leaf it also sets `n_bounds`. -/
def Writes (call : Call) (n : ℕ) (t : Trie ℤ) (bounds : Coords) : Prop :=
  ∀ nBounds, ∃ code nb, call t bounds nBounds = some (Code.text code, nb) ∧ (t.isLeaf = true → nb = bounds) ∧
    Means n t bounds code

section Run

variable {call : Call} {n fuel i k : ℕ} {isLeaf : Bool} {next : ℤ → Trie ℤ} {s : Printer} {c : ℚ × ℚ}

/-- A half, written by a call that is right. -/
theorem side_means {t : Trie ℤ} (ht : t ≠ .null) (upper ignoreCenter : Bool) (hc : s.bounds[i]? = some c)
    (hcall : Writes call n t (halve (label i upper) s.bounds)) : ∃ code nb,
      side call i upper ignoreCenter t s =
        some { s.add (sideGuard i upper ignoreCenter (half upper c)) (Code.text code, nb) with nodeNum := i } ∧
      Means n t (halve (label i upper) s.bounds) code := by
  obtain ⟨code, nb, hrun, hleaf, hmeans⟩ := hcall s.nBounds
  exact ⟨code, nb, side_eq ht upper ignoreCenter hc hrun hleaf, hmeans⟩

theorem nearInteger_intCast (z : ℤ) : nearInteger (z : ℚ) = true := by simp [nearInteger]

/-- No face is written unless both halves are there and the middle is close to an integer. -/
theorem center_skip (hc : s.bounds[i]? = some c)
    (h : next (label i true) = .null ∨ next (label i false) = .null ∨ nearInteger ((c.1 + c.2) * (1 / 2)) = false) :
    center call n fuel i next s = some (s, false) := by
  unfold center
  simp only [List.getD_eq_getElem?_getD, hc, Option.getD_some]
  apply if_neg
  rw [Bool.and_eq_true, Bool.and_eq_true]
  rintro ⟨⟨hr, hl⟩, hnear⟩
  rcases h with h | h | h
  · rw [h] at hr
    cases hr
  · rw [h] at hl
    cases hl
  · rw [h] at hnear
    cases hnear

/-- A dimension with one branch. -/
theorem printDim_single {b : Bool} (hc : s.bounds[i]? = some c) (hne : next (label i b) ≠ .null)
    (hother : next (label i (!b)) = .null) (hcall : Writes call n (next (label i b)) (halve (label i b) s.bounds)) :
    ∃ code nb,
      printDim call n fuel next s i =
        some { s.add (sideGuard i b false (half b c)) (Code.text code, nb) with nodeNum := i } ∧
      Means n (next (label i b)) (halve (label i b) s.bounds) code := by
  obtain ⟨code, nb, hside, hmeans⟩ := side_means hne b false hc hcall
  refine ⟨code, nb, ?_, hmeans⟩
  unfold printDim
  cases b
  · rw [center_skip hc (.inl hother)]
    rw [Bool.not_false] at hother
    simp only [Option.bind_eq_bind, Option.bind_some, hother, side_null]
    exact hside
  · rw [center_skip hc (.inr (.inl hother))]
    rw [Bool.not_true] at hother
    simp only [Option.bind_eq_bind, Option.bind_some, hother, side_null, hside]

variable (ho : Ordered n k (.node isLeaf next)) (hp : Plain (.node isLeaf next) s.bounds) (hn : n ≤ s.bounds.length)
  (hc : s.bounds[i]? = some c)
  (hcall : ∀ {t : Trie ℤ} {k : ℕ} {bounds : Coords}, t ≠ .null → depth n t < depth n (.node isLeaf next) →
    Ordered n k t → Plain t bounds → n ≤ bounds.length → Writes call n t bounds)

include ho hp hn hc hcall

theorem writes_half {b : Bool} (hne : next (label i b) ≠ .null) :
    Writes call n (next (label i b)) (halve (label i b) s.bounds) := by
  obtain ⟨hlab, -, hbelow⟩ := ho.2 _ hne
  refine hcall hne (depth_next hlab) hbelow (hp.2.2 i b) ?_
  rwa [halve_eq_set hc, List.length_set]

section Both

variable (hr : next (label i true) ≠ .null) (hl : next (label i false) ≠ .null)

include hr hl

/-- The face is written for the points on it. -/
theorem center_face {z : ℤ} (hz : (c.1 + c.2) * (1 / 2) = z) (hlt : c.1 < c.2)
    (hsimple : child i false (next (label i true)) = .null ∨ child i true (next (label i false)) = .null ∨
      (child i false (next (label i true))).isLeaf = true ∧ (child i true (next (label i false))).isLeaf = true)
    {bs : List (Guard × Code Guard)} (hs : Printed s bs) : ∃ s' face,
      center call n (fuel + 1) i next s = some (s', true) ∧ s'.bounds = s.bounds ∧ Printed s' (bs ++ face) ∧
      (∀ x : ℕ → ℤ, x i ≠ z → ∀ b ∈ face, b.1.holds x = false) ∧
      ∀ x, InBox s.bounds (point x) → x i = z →
        ((chain face).eval (Guard.holds x) = true ↔ Cells n (.node isLeaf next) s.bounds x) := by
  have hmid : (c.1 + c.2) / 2 = z := by rw [← hz]; ring
  -- the two sides of the face
  obtain ⟨hlabr, -, hbelowr⟩ := ho.2 _ hr
  obtain ⟨hlabl, -, hbelowl⟩ := ho.2 _ hl
  rw [natAbs_label] at hbelowr hbelowl
  obtain ⟨un, hun, hou, hpu, hdepth, hcells⟩ :=
    @union_simple n (i + 2) fuel s.bounds _ _ hn (ordered_child false hbelowr) (ordered_child true hbelowl)
    (plain_child false hbelowr (agreeOff_halve s.bounds true) (hp.2.2 i true))
    (plain_child true hbelowl (agreeOff_halve s.bounds false) (hp.2.2 i false)) hsimple
  have hface : ∀ x, InBox s.bounds (point x) → x i = z →
      (Cells n un s.bounds x ↔ Cells n (.node isLeaf next) s.bounds x) := by
    intro x hx hxz
    have hxm : (x i : ℚ) = (c.1 + c.2) / 2 := by rw [hmid, hxz]
    rw [hcells, (cells_plain ho hp hr).2, cells_edge ho hp hn hc hr hlt hx hxm, Bool.not_true,
      cells_edge ho hp hn hc hl hlt hx hxm]
    rfl
  have hunion : center call n (fuel + 1) i next s =
      if un.isNull then some (s, true)
      else (call un s.bounds s.nBounds).bind fun r => some (s.add (faceGuard i z) r, true) := by
    unfold center
    simp only [List.getD_eq_getElem?_getD, hc, Option.getD_some, hz, nearInteger_intCast, Trie.isNull_eq_false_iff.2 hr,
      Trie.isNull_eq_false_iff.2 hl, Bool.not_false, Bool.and_self, if_true, hun, Option.bind_eq_bind, Option.bind_some,
      Option.pure_def]
    rfl
  rw [hunion]
  by_cases hnull : un = .null
  · subst hnull
    refine ⟨s, [], rfl, rfl, by rwa [List.append_nil], fun x _ b hb => absurd hb List.not_mem_nil, fun x hx hxz => ?_⟩
    rw [← hface x hx hxz]
    exact iff_of_false Bool.false_ne_true not_cells_null
  · have hless : depth n un < depth n (.node isLeaf next) := by
      refine hdepth.trans_lt (max_lt ?_ ?_)
      · exact (depth_child false hbelowr).trans_lt (depth_next hlabr)
      · exact (depth_child true hbelowl).trans_lt (depth_next hlabl)
    obtain ⟨code, nb, hrun, -, hmeans⟩ := hcall hnull hless hou hpu hn s.nBounds
    rw [if_neg fun h => hnull (Trie.isNull_iff.1 h), hrun, Option.bind_some]
    refine ⟨_, [(faceGuard i z, code)], rfl, rfl, hs.add _ code nb, fun x hxz => ?_, fun x hx hxz => ?_⟩
    · exact List.forall_mem_singleton.2 (Bool.eq_false_iff.2 fun h => hxz (holds_faceGuard.1 h))
    · rw [← hface x hx hxz, ← hmeans.inside x hx]
      simp only [chain, List.foldr_cons, List.foldr_nil, Code.eval]
      rw [if_pos (holds_faceGuard.2 hxz)]

/-- The two halves, written after the face. -/
theorem sides_means (ignoreCenter : Bool) {s₁ : Printer} (hb : s₁.bounds = s.bounds) {bs : List (Guard × Code Guard)}
    (hs : Printed s₁ bs) : ∃ s' r l,
      ((side call i true ignoreCenter (next (label i true)) s₁).bind fun s₂ =>
        side call i false ignoreCenter (next (label i false)) s₂) = some s' ∧
      Printed s'
        (bs ++ [(sideGuard i true ignoreCenter (half true c), r), (sideGuard i false ignoreCenter (half false c), l)]) ∧
      Means n (next (label i true)) (halve (label i true) s.bounds) r ∧
      Means n (next (label i false)) (halve (label i false) s.bounds) l := by
  have hwrites : ∀ {b}, next (label i b) ≠ .null → Writes call n (next (label i b)) (halve (label i b) s.bounds) :=
    fun h => writes_half ho hp hn hc hcall h
  rw [← hb] at hc hwrites ⊢
  obtain ⟨r, nb, hright, hmr⟩ := side_means hr true ignoreCenter hc (hwrites hr)
  obtain ⟨l, nb', hleft, hml⟩ := @side_means call n i
    { s₁.add (sideGuard i true ignoreCenter (half true c)) (r.text, nb) with nodeNum := i } c _ hl false ignoreCenter hc
    (hwrites hl)
  rw [hright, Option.bind_some, hleft]
  refine ⟨_, r, l, rfl, ?_, hmr, hml⟩
  have hprinted := (hs.add (sideGuard i true ignoreCenter (half true c)) r nb).add
    (sideGuard i false ignoreCenter (half false c)) l nb'
  rwa [List.append_assoc] at hprinted

/-- A dimension with both branches. -/
theorem printDim_both (hs : Printed s []) : ∃ s' bs,
    printDim call n (fuel + 1) next s i = some s' ∧ Printed s' bs ∧ 2 ≤ bs.length ∧
      Means n (.node isLeaf next) s.bounds (chain bs) := by
  obtain ⟨hlt, hface⟩ := hp.2.1 i c hc hr hl
  unfold printDim
  rcases hface with hfar | ⟨⟨z, hz⟩, hsimple⟩
  · have hmid : ∀ z : ℤ, (c.1 + c.2) / 2 ≠ z := by
      intro z hz
      have hz' : (c.1 + c.2) * (1 / 2) = z := by rw [← hz]; ring
      rw [hz', nearInteger_intCast] at hfar
      cases hfar
    obtain ⟨s', r, l, hrun, hprinted, hmr, hml⟩ := sides_means ho hp hn hc hcall hr hl false rfl hs
    rw [center_skip hc (.inr (.inr hfar))]
    exact ⟨s', _, hrun, hprinted, le_rfl, means_both ho hp hn hc hr hl hmr hml hmid⟩
  · obtain ⟨s₁, face, hcenter, hb, hs₁, hguard, hmeans⟩ := center_face ho hp hn hc hcall hr hl hz hlt hsimple hs
    obtain ⟨s', r, l, hrun, hprinted, hmr, hml⟩ := sides_means ho hp hn hc hcall hr hl true hb hs₁
    rw [hcenter]
    refine ⟨s', _, hrun, hprinted, ?_, means_face ho hp hn hc hr hl hmr hml hz hguard hmeans⟩
    rw [List.length_append]
    exact Nat.le_add_left 2 _

end Both

end Run

section Finish

variable {n i : ℕ} {next : ℤ → Trie ℤ} {s : Printer}

/-- Several branches are a chain. -/
theorem finish_many {bs : List (Guard × Code Guard)} (hs : Printed s bs) (hlen : 2 ≤ bs.length) :
    finish n next s = ((chain bs).text, s.nBounds) := by
  obtain ⟨hans, hnum⟩ := hs
  unfold finish
  rw [if_neg (by omega), if_neg (by omega), hans, text_chain]

/-- One branch keeps its condition, unless the node below has a single branch in the same dimension. -/
theorem finish_single {b : Bool} (hne : next (label i b) ≠ .null) (hother : next (label i (!b)) = .null) {g : Guard}
    {code : Code Guard} (hs : Printed s [(g, code)]) (hnum : s.nodeNum = i) (htemp : s.tempAns = code.text) :
    finish n next s = ((chain [(g, code)]).text, s.nBounds) ∨
      Single n i (next (label i b)) ∧ finish n next s = (code.text, s.nBounds) := by
  obtain ⟨hans, hcount⟩ := hs
  have hone : s.childNum = 1 := hcount
  have hbranch : (if (next (label i false)).isNull then next (label i true) else next (label i false)) = next
      (label i b) := by
    cases b
    · exact if_neg fun h => hne (Trie.isNull_iff.1 h)
    · exact if_pos (Trie.isNull_iff.2 hother)
  unfold finish
  rw [if_pos hone]
  simp only [hnum, hbranch]
  split_ifs with h
  · right
    rw [Bool.and_eq_true, Bool.or_eq_true, decide_eq_true_eq] at h
    refine ⟨⟨h.1, ?_⟩, by rw [htemp]⟩
    exact h.2.imp (fun h => Trie.isNull_eq_false_iff.1 (by simpa using h)) fun h => Trie.isNull_eq_false_iff.1
      (by simpa using h)
  · left
    rw [hans, text_chain]

end Finish

/-- `print_code` on an ordered, plain trie; the fuel has to reach the leaves. -/
theorem printCode_writes (n : ℕ) : ∀ (fuel : ℕ) {t : Trie ℤ} {k : ℕ} {bounds : Coords}, t ≠ .null → depth n t ≤ fuel →
    Ordered n k t → Plain t bounds → n ≤ bounds.length → Writes (printCode n fuel) n t bounds
  | _, .null, _, _, hne, _, _, _, _ => absurd rfl hne
  | 0, .node isLeaf next, _, _, _, hfuel, _, _, _ => absurd hfuel (Nat.not_succ_le_zero _)
  | fuel + 1, .node isLeaf next, k, bounds, _, hfuel, ho, hp, hn => by
    intro nBounds
    have hcall : ∀ {t : Trie ℤ} {k : ℕ} {bounds : Coords}, t ≠ .null → depth n t < depth n (.node isLeaf next) →
        Ordered n k t → Plain t bounds → n ≤ bounds.length → Writes (printCode n fuel) n t bounds :=
      fun ht hd => printCode_writes n fuel ht (Nat.le_of_lt_succ (hd.trans_le hfuel))
    have hstart : Printed ⟨bounds, nBounds, [], [], 0, 0⟩ [] := ⟨rfl, rfl⟩
    rw [printCode]
    by_cases hleaf : ∀ d, next d = .null
    · -- no branch: the loop does nothing
      have hloop := foldlM_only (i := n) (f := printDim (printCode n fuel) n fuel next)
        (s := ⟨bounds, nBounds, [], [], 0, 0⟩) (fun s j _ => printDim_null (hleaf _) (hleaf _))
        (List.nodup_range (n := n))
      rw [hloop, if_neg fun h => lt_irrefl n (List.mem_range.1 h)]
      obtain rfl := ho.1.2 hleaf
      refine ⟨.accept, bounds, rfl, fun _ => rfl, fun x hx => iff_of_true rfl (cells_leaf.2 hx), fun i c hi => ?_⟩
      exact absurd (hi.2.elim (fun h => h (hleaf _)) fun h => h (hleaf _)) not_false
    · obtain ⟨d, hd⟩ := not_forall.1 hleaf
      obtain ⟨i, b, hi, rfl⟩ := mem_labels (ho.2 d hd).1
      have hinner : isLeaf ≠ true := fun h => hd (ho.1.1 h _)
      have hc := List.getElem?_eq_getElem (hi.trans_le hn)
      obtain ⟨⟨i₀, hdim⟩, -⟩ := id hp
      obtain rfl := hdim i b hd
      -- the other dimensions write nothing
      have hnull : ∀ j b', j ≠ i → next (label j b') = .null := fun j b' hj => by_contra fun h => hj (hdim j b' h)
      have hloop := foldlM_only (i := i) (f := printDim (printCode n fuel) n fuel next)
        (s := ⟨bounds, nBounds, [], [], 0, 0⟩) (fun s j hj => printDim_null (hnull j _ hj) (hnull j _ hj))
        (List.nodup_range (n := n))
      rw [hloop, if_pos (List.mem_range.2 hi)]
      by_cases hother : next (label i (!b)) = .null
      · obtain ⟨code, nb, hrun, hmeans⟩ := @printDim_single (printCode n fuel) n fuel i next
          ⟨bounds, nBounds, [], [], 0, 0⟩ _ b hc hd hother (@writes_half _ n i k isLeaf next
            ⟨bounds, nBounds, [], [], 0, 0⟩ _ ho hp hn hc hcall b hd)
        obtain ⟨hchain, hshort⟩ := means_single ho hp hn hc hd hother hmeans
        rw [hrun]
        have hprinted := hstart.add (sideGuard i b false (half b bounds[i])) code nb
        rcases @finish_single n i next { Printer.add (sideGuard i b false (half b bounds[i])) (code.text, nb)
          ⟨bounds, nBounds, [], [], 0, 0⟩ with nodeNum := i } b hd hother _ code hprinted rfl rfl with h | ⟨hsingle, h⟩
        · exact ⟨_, _, congrArg some h, fun h => absurd h hinner, hchain⟩
        · exact ⟨_, _, congrArg some h, fun h => absurd h hinner, hshort hsingle⟩
      · have hboth : ∀ b', next (label i b') ≠ .null := fun b' => by
          by_cases h : b' = b
          · rwa [h]
          · rwa [Bool.eq_not_of_ne h]
        -- a node with branches is not a leaf, so fuel is left for the face
        obtain ⟨fuel, rfl⟩ : ∃ f, fuel = f + 1 := by
          have hless := (depth_next (ho.2 _ hd).1).trans_le hfuel
          have hpos := depth_pos n hd
          exact Nat.exists_eq_succ_of_ne_zero (by omega)
        obtain ⟨s', bs, hrun, hprinted, hlen, hmeans⟩ := @printDim_both (printCode n (fuel + 1)) n fuel i k isLeaf next
          ⟨bounds, nBounds, [], [], 0, 0⟩ _ ho hp hn hc hcall (hboth true) (hboth false) hstart
        rw [hrun]
        exact ⟨_, _, congrArg some (finish_many hprinted hlen), fun h => absurd h hinner, hmeans⟩

/-- The cells are what `get_ll` lists. -/
theorem covered_iff_cells {n : ℕ} {t : Trie ℤ} {bounds : Coords} {x : ℕ → ℤ} :
    Covered (getLl n t bounds Ll.empty).boxes (point x) ↔ Cells n t bounds x := by
  unfold Covered Cells
  rw [(boxes_getLl n t bounds Ll.holds_empty.self).2, Ll.holds_empty.boxes_eq, List.map_nil, List.nil_append]
  constructor
  · rintro ⟨_, hb, hx⟩
    obtain ⟨c, hc, rfl⟩ := List.mem_map.1 hb
    exact ⟨c, hc, hx⟩
  · rintro ⟨c, hc, hx⟩
    exact ⟨_, List.mem_map_of_mem hc, hx⟩

/-- For the trie of a list of boxes, if it is plain, `print_code` writes a program that accepts the integer points of
the bounds that lie in a box listed by `get_ll`, and no others. -/
theorem print_code_means {fuel n : ℕ} {l : Ll} {bounds : Coords} {t : Trie ℤ} (hn : n ≤ bounds.length)
    (ht : makeTrie fuel l n bounds = some t) (hp : Plain t bounds) (nBounds : Coords) :
    ∃ fuel₀, ∀ fuel' ≥ fuel₀, ∃ text nb code, printCode n fuel' t bounds nBounds = some (text, nb) ∧
      read text = some code ∧ ∀ x : ℕ → ℤ, InBox bounds (point x) →
        (code.eval (Guard.holds x) = true ↔ Covered (getLl n t bounds Ll.empty).boxes (point x)) := by
  obtain ⟨hne, ho⟩ := ordered_makeTrie ht
  refine ⟨depth n t, fun fuel' hfuel => ?_⟩
  obtain ⟨code, nb, hrun, -, hmeans⟩ := printCode_writes n fuel' hne hfuel ho hp hn nBounds
  exact ⟨code.text, nb, code, hrun, read_text code, fun x hx => (hmeans.inside x hx).trans covered_iff_cells.symm⟩

theorem plain_new (bounds : Coords) : Plain Trie.new bounds :=
  ⟨⟨0, fun _ _ h => absurd rfl h⟩, fun _ _ _ h => absurd rfl h, fun _ _ => trivial⟩

/-- The two outer quarters of the interval from 0 to 4. -/
def outerQuarters : Ll := (Ll.new (.new [(0, 1)])).addNode (.new [(3, 4)])

theorem makeTrie_outerQuarters : makeTrie 2 outerQuarters 1 [(0, 4)] = some (Trie.ofWords [[-1], [1]]) := by
  refine makeTrie_of_paths ?_
  have hboxes : outerQuarters.boxes = [.new [(0, 1)], .new [(3, 4)]] := by decide +kernel
  rw [hboxes]
  exact .cons (by decide +kernel) (.cons (by decide +kernel) .nil)

/-- Their trie has both halves as leaves, with a face between them. -/
theorem plain_outerQuarters : Plain (Trie.ofWords [[-1], [1]]) [(0, 4)] := by
  have hnext : ∀ i b, (Trie.ofWords [[-1], [1]]).next (label i b) = if i = 0 then Trie.new else .null := by
    intro i b
    by_cases hi : i = 0
    · subst hi
      cases b <;> rfl
    · have hne : label i b ≠ -1 ∧ label i b ≠ 1 := by
        unfold label
        split_ifs <;> omega
      exact (Function.update_of_ne hne.2 _ _).trans ((Function.update_of_ne hne.1 _ _).trans (if_neg hi).symm)
  refine ⟨⟨0, fun j b h => ?_⟩, fun i c hc hr hl => ?_, fun i b => ?_⟩
  · by_contra hj
    exact h ((hnext j b).trans (if_neg hj))
  · have hi : i = 0 := by
      by_contra hi
      exact hr ((hnext i true).trans (if_neg hi))
    subst hi
    obtain rfl : (0, 4) = c := Option.some.inj hc
    exact ⟨by norm_num, .inr ⟨⟨2, by norm_num⟩, .inr (.inr ⟨rfl, rfl⟩)⟩⟩
  · refine (congrArg (Plain · _) (hnext i b)).mpr ?_
    split_ifs
    · exact plain_new _
    · trivial

/-- The face at 2 is written first. -/
theorem print_code_means_outerQuarters : ∃ t, makeTrie 2 outerQuarters 1 [(0, 4)] = some t ∧ Plain t [(0, 4)] ∧
    ∃ fuel₀, ∀ fuel' ≥ fuel₀, ∃ text nb code, printCode 1 fuel' t [(0, 4)] [(0, 4)] = some (text, nb) ∧
      read text = some code ∧ ∀ x : ℕ → ℤ, InBox [(0, 4)] (point x) →
        (code.eval (Guard.holds x) = true ↔ Covered (getLl 1 t [(0, 4)] Ll.empty).boxes (point x)) :=
  ⟨_, makeTrie_outerQuarters, plain_outerQuarters,
    print_code_means le_rfl makeTrie_outerQuarters plain_outerQuarters [(0, 4)]⟩

/-- A corner of the square from 0 to 8, and its lower quarter. -/
def cornerAndStrip : Ll := (Ll.new (.new [(0, 2), (6, 8)])).addNode (.new [(0, 8), (0, 2)])

/-- The trie has a branch in the first dimension for the corner and one in the second for the strip. The condition of
the first is tested first, and for a point of the strip that meets it the answer is no. -/
theorem print_code_rejects_strip : ∃ t, makeTrie 2 cornerAndStrip 2 [(0, 8), (0, 8)] = some t ∧
    InBox [(0, 8), (0, 8)] (point fun _ => 1) ∧
    Covered (getLl 2 t [(0, 8), (0, 8)] Ll.empty).boxes (point fun _ => 1) ∧
    ∃ text nb code, printCode 2 3 t [(0, 8), (0, 8)] [(0, 8), (0, 8)] = some (text, nb) ∧
      read text = some code ∧ code.eval (Guard.holds fun _ => 1) = false := by
  have ht : makeTrie 2 cornerAndStrip 2 [(0, 8), (0, 8)] = some (Trie.ofWords [[-1, 2], [-2]]) := by
    refine makeTrie_of_paths ?_
    have hboxes : cornerAndStrip.boxes = [.new [(0, 2), (6, 8)], .new [(0, 8), (0, 2)]] := by decide +kernel
    rw [hboxes]
    exact .cons (by decide +kernel) (.cons (by decide +kernel) .nil)
  have hlist : (getLl 2 (Trie.ofWords [[-1, 2], [-2]]) [(0, 8), (0, 8)] Ll.empty).boxes =
      [.new [(0, 4), (4, 8)], .new [(0, 8), (0, 4)]] := by decide +kernel
  have hrun : ((printCode 2 3 (Trie.ofWords [[-1, 2], [-2]]) [(0, 8), (0, 8)] [(0, 8), (0, 8)]).bind
      fun r => read r.1).map (Code.eval (Guard.holds fun _ => 1)) = some false := by decide +kernel
  obtain ⟨code, hcode, heval⟩ := Option.map_eq_some_iff.1 hrun
  obtain ⟨⟨text, nb⟩, hprint, hread⟩ := Option.bind_eq_some_iff.1 hcode
  have hin : InBox [(0, 8), (0, 8)] (point fun _ => 1) ∧ InBox [(0, 8), (0, 4)] (point fun _ => 1) := by
    unfold point
    constructor
    all_goals
      rintro (_ | _ | i) c hc
      · obtain rfl := Option.some.inj hc
        norm_num
      · obtain rfl := Option.some.inj hc
        norm_num
      · cases hc
  refine ⟨_, ht, hin.1, ⟨.new [(0, 8), (0, 4)], ?_, hin.2⟩, text, nb, code, hprint, hread, heval⟩
  rw [hlist]
  exact List.mem_cons_of_mem _ List.mem_cons_self

end GridSolve.Grid
