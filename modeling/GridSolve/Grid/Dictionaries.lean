/-
`count_solutions.py` on Python values. A value is the number 1 or a dictionary, and asking the number
for its keys ends the program. The dictionaries that `process_row` builds have one level for every
coordinate, so that this does not happen, and hold the union of the rows. `count_max_solns` adds up
over the last of the free coordinates where it should take the maximum.
-/
import GridSolve.Grid.Solutions
import GridSolve.Lib.Beginnings
import GridSolve.Lib.Loops

namespace GridSolve.Grid.CountSolutions

open GridSolve.Beginnings GridSolve.Loops

/-! ## The code -/

/-- What a dictionary of the script holds: the number 1 or another dictionary. -/
inductive PyVal
  | one
  | dict (entries : List (ℤ × PyVal))

/-- The keys with their values; `none` when there is no `.keys()`. -/
def PyVal.entries : PyVal → Option (List (ℤ × PyVal))
  | one => none
  | dict d => some d

namespace Py

/-- `make_dict`. -/
def makeDict : ℕ → List (List Char) → Option PyVal
  | 0, _ => some .one
  | 1, row => do
    let lo ← field row 0
    let hi ← field row 1
    return .dict ((range lo (hi + 1)).map fun j => (j, .one))
  | cnt + 2, row => do
    let lo ← field row 0
    let hi ← field row 1
    return .dict (← (range lo (hi + 1)).mapM fun j => (makeDict (cnt + 1) (row.drop 2)).map fun c => (j, c))

/-- `add_pt`. -/
def addPt : ℕ → List (List Char) → PyVal → Option PyVal
  | 0, _, v => some v
  | cnt + 1, row, v => do
    let lo ← field row 0
    let hi ← field row 1
    (range lo (hi + 1)).foldlM (fun v j => do
      let d ← v.entries
      (setKey (addPt cnt (row.drop 2)) (makeDict cnt (row.drop 2)) d j).map .dict) v

/-- `count_dict`. -/
def countDict : ℕ → PyVal → Option ℕ
  | 0, _ => some 0
  | 1, v => v.entries.map List.length
  | n + 2, v => do (← v.entries).foldlM (fun ans e => (countDict (n + 1) e.2).map (ans + ·)) 0

/-- `count_max_solns`, for `N` and `free_vars`. The depth starts at `free_vars`, at least 1, and stops there. -/
def countMaxSolns (n freeVars : ℕ) : ℕ → PyVal → Option ℕ
  | 0, _ => none
  | 1, v => do (← v.entries).foldlM (fun ans e => (countDict (n - freeVars) e.2).map (ans + ·)) 0
  | dep + 2, v => do (← v.entries).foldlM (fun ans e => (countMaxSolns n freeVars (dep + 1) e.2).map (max ans)) 0

/-- `process_row`: the new `total_dict`. -/
def processRow (n : ℕ) (totalDict : PyVal) (row : List (List Char)) : Option PyVal := addPt n row totalDict

/-- `total_dict` after `process_row` on every row. -/
def processRows (n : ℕ) (rows : List (List (List Char))) : Option PyVal := rows.foldlM (processRow n) (.dict [])

end Py

/-! ## Values of one depth -/

namespace PyVal

/-- The keys of the path lead through the dictionaries. -/
def KeyPath : List ℤ → PyVal → Prop
  | [], _ => True
  | x :: z, v => ∃ d c, v = .dict d ∧ (x, c) ∈ d ∧ KeyPath z c

/-- Dictionaries on `n` levels, no key twice in any of them, and below them the number 1. -/
def Depth : ℕ → PyVal → Prop
  | 0, v => v = .one
  | n + 1, v => ∃ d, v = .dict d ∧ Keyed (Depth n) d

/-- Python's `==`: the same keys, with equal values. -/
inductive Equal : PyVal → PyVal → Prop
  | one : Equal .one .one
  | dict {d e : List (ℤ × PyVal)} : (∀ x, x ∈ d.map Prod.fst ↔ x ∈ e.map Prod.fst) →
      (∀ x a b, (x, a) ∈ d → (x, b) ∈ e → Equal a b) → Equal (.dict d) (.dict e)

theorem keyPath_dict {d : List (ℤ × PyVal)} {x : ℤ} {z : List ℤ} :
    KeyPath (x :: z) (.dict d) ↔ ∃ c, (x, c) ∈ d ∧ KeyPath z c := by
  constructor
  · rintro ⟨d', c, hd, hc, hz⟩
    cases hd
    exact ⟨c, hc, hz⟩
  · rintro ⟨c, hc, hz⟩
    exact ⟨d, c, rfl, hc, hz⟩

theorem mem_keys_iff {d : List (ℤ × PyVal)} {x : ℤ} : x ∈ d.map Prod.fst ↔ KeyPath [x] (.dict d) := by
  rw [keyPath_dict, List.mem_map]
  constructor
  · rintro ⟨e, he, rfl⟩
    exact ⟨e.2, he, trivial⟩
  · rintro ⟨c, hc, -⟩
    exact ⟨_, hc, rfl⟩

theorem keyPath_below {d : List (ℤ × PyVal)} (hd : (d.map Prod.fst).Nodup) {x : ℤ} {c : PyVal} (hc : (x, c) ∈ d)
    (z : List ℤ) : KeyPath (x :: z) (.dict d) ↔ KeyPath z c := by
  rw [keyPath_dict]
  constructor
  · rintro ⟨b, hb, hz⟩
    cases List.inj_on_of_nodup_map hd hb hc rfl
    exact hz
  · exact fun hz => ⟨c, hc, hz⟩

/-- Values of one depth are told apart by their paths. -/
theorem equal_of_keyPath : ∀ {n : ℕ} {v w : PyVal}, Depth n v → Depth n w → (∀ z, KeyPath z v ↔ KeyPath z w) → Equal v w
  | 0, _, _, rfl, rfl, _ => .one
  | n + 1, _, _, ⟨d, rfl, hd⟩, ⟨e, rfl, he⟩, h => by
    refine .dict (fun x => ?_) fun x a b ha hb => ?_
    · rw [mem_keys_iff, mem_keys_iff, h]
    · refine equal_of_keyPath (hd.2 _ ha) (he.2 _ hb) fun z => ?_
      rw [← keyPath_below hd.1 ha, ← keyPath_below he.1 hb, h]

end PyVal

/-- The Python value of a dictionary. -/
def toPy : (n : ℕ) → Dict n → PyVal
  | 0, _ => .one
  | n + 1, d => .dict (List.map (fun e => (e.1, toPy n e.2)) d)

theorem keyPath_toPy : ∀ {n : ℕ} {d : Dict n} {z : List ℤ}, PyVal.KeyPath z (toPy n d) ↔ HasPath n d z
  | 0, _, [] => Iff.rfl
  | _ + 1, _, [] => Iff.rfl
  | 0, _, _ :: _ => iff_of_false (fun ⟨_, _, h, _⟩ => nomatch h) id
  | n + 1, d, x :: z => by
    rw [toPy, PyVal.keyPath_dict, HasPath, Below]
    constructor
    · rintro ⟨c, hc, hz⟩
      obtain ⟨e, he, heq⟩ := List.mem_map.1 hc
      cases heq
      exact ⟨e.2, he, keyPath_toPy.1 hz⟩
    · rintro ⟨c, hc, hz⟩
      exact ⟨toPy n c, List.mem_map.2 ⟨_, hc, rfl⟩, keyPath_toPy.2 hz⟩

theorem depth_toPy : ∀ {n : ℕ} {d : Dict n}, Proper n d → PyVal.Depth n (toPy n d)
  | 0, _, _ => rfl
  | n + 1, d, h => by
    refine ⟨_, rfl, ?_, ?_⟩
    · rw [List.map_map]
      exact h.1
    · intro e he
      obtain ⟨e', he', rfl⟩ := List.mem_map.1 he
      exact depth_toPy (h.2 e' he')

/-! ## The script does not see the difference -/

section Levels

variable {α β γ : Type} {f : α → β} {add : α → Option α} {add' : β → Option β} {make : Option α}

theorem lookup_map_snd (f : α → β) (j : ℤ) : ∀ d : List (ℤ × α),
    (d.map fun e => (e.1, f e.2)).lookup j = (d.lookup j).map f
  | [] => rfl
  | (x, c) :: d => by
    rw [List.map_cons, List.lookup_cons, List.lookup_cons, lookup_map_snd f j d]
    cases j == x <;> rfl

theorem setKey_map (hadd : ∀ c, add' (f c) = (add c).map f) (d : List (ℤ × α)) (j : ℤ) :
    setKey add' (make.map f) (d.map fun e => (e.1, f e.2)) j =
      (setKey add make d j).map fun d' => d'.map fun e => (e.1, f e.2) := by
  unfold setKey
  rw [lookup_map_snd]
  cases List.lookup j d with
  | none => cases make <;> simp
  | some c =>
    simp only [Option.map_some, hadd, Option.map_map]
    congr 1
    funext c'
    simp only [Function.comp_apply, List.map_map]
    refine List.map_congr_left fun e _ => ?_
    by_cases he : e.1 = j <;> simp [he]

end Levels

/-- The two ends of an interval are read, and then the values correspond. -/
theorem bind_ends {α β : Type} {f : α → β} (lo hi : Option ℤ) {F : ℤ → ℤ → Option β} {G : ℤ → ℤ → Option α}
    (h : ∀ l r, F l r = (G l r).map f) : (do F (← lo) (← hi)) = (do G (← lo) (← hi)).map f := by
  cases lo with
  | none => rfl
  | some l =>
    cases hi with
    | none => rfl
    | some r => exact h l r

theorem makeDict_toPy : ∀ (n : ℕ) (row : List (List Char)), Py.makeDict n row = (makeDict n row).map (toPy n)
  | 0, _ => rfl
  | 1, row => by
    apply bind_ends
    intro l r
    simp only [makeDict, mapM_pair]
    split_ifs with h
    · rw [h]
      rfl
    · simp [toPy]
  | n + 2, row => by
    apply bind_ends
    intro l r
    simp only [makeDict_toPy (n + 1), mapM_pair]
    split_ifs with h
    · rfl
    · cases makeDict (n + 1) (row.drop 2) <;> simp [toPy]

theorem addPt_toPy : ∀ (n : ℕ) (row : List (List Char)) (d : Dict n),
    Py.addPt n row (toPy n d) = (addPt n row d).map (toPy n)
  | 0, _, _ => rfl
  | n + 1, row, d => by
    apply bind_ends
    intro l r
    simp only [Option.bind_eq_bind, makeDict_toPy n]
    generalize range l (r + 1) = js
    -- key after key, the dictionary stays one of depth `n + 1`
    induction js generalizing d with
    | nil => rfl
    | cons j js ih =>
      rw [List.foldlM_cons, List.foldlM_cons, toPy, PyVal.entries, Option.bind_some,
        setKey_map (addPt_toPy n (row.drop 2))]
      cases setKey (addPt n (row.drop 2)) (makeDict n (row.drop 2)) d j with
      | none => rfl
      | some d' => exact ih d'

theorem countDict_toPy : ∀ (n : ℕ) (d : Dict n), Py.countDict n (toPy n d) = some (countDict n d)
  | 0, _ => rfl
  | 1, d => congrArg some (List.length_map _)
  | n + 2, d => by
    have hone : ∀ e ∈ (d : List (ℤ × Dict (n + 1))),
        Py.countDict (n + 1) (toPy (n + 1) e.2) = some (countDict (n + 1) e.2) :=
      fun e _ => countDict_toPy (n + 1) e.2
    rw [Py.countDict, toPy, PyVal.entries, Option.bind_eq_bind, Option.bind_some, List.foldlM_map,
      foldlM_map_some (· + ·) hone, countDict, List.sum_eq_foldl, List.foldl_map]

/-! ## The union of the rows -/

/-- A row of `n` intervals: its fields, and the intervals they spell. -/
structure Row (n : ℕ) where
  fields : List (List Char)
  sides : List (ℤ × ℤ)
  length_eq : sides.length = n
  spells : Spells fields sides

/-- The tuples that some row contains. -/
def union {n : ℕ} (rows : List (Row n)) : Set (List ℤ) := {z | z.length = n ∧ ∃ r ∈ rows, Within r.sides z}

theorem foldlM_processRow {n : ℕ} : ∀ (rows : List (Row n)) {d : Dict n}, Proper n d →
    ∃ d', (rows.map Row.fields).foldlM (Py.processRow n) (toPy n d) = some (toPy n d') ∧ Proper n d' ∧
      ∀ z, HasPath n d' z ↔ HasPath n d z ∨ ∃ r ∈ rows, Within r.sides z
  | [], d, hd => ⟨d, rfl, hd, by simp⟩
  | r :: rows, d, hd => by
    obtain ⟨d₁, h1, hd₁, hp₁⟩ := addPt_paths r.length_eq r.spells d hd
    obtain ⟨d₂, h2, hd₂, hp₂⟩ := foldlM_processRow rows hd₁
    refine ⟨d₂, ?_, hd₂, fun z => ?_⟩
    · rw [List.map_cons, List.foldlM_cons, Py.processRow, addPt_toPy, h1]
      exact h2
    · rw [hp₂, hp₁, List.exists_mem_cons_iff, or_assoc]

/-- `total_dict` is a dictionary of the depth of the rows, with their paths. -/
theorem processRows_paths {n : ℕ} (rows : List (Row (n + 1))) :
    ∃ d : Dict (n + 1), Py.processRows (n + 1) (rows.map Row.fields) = some (toPy (n + 1) d) ∧ Proper (n + 1) d ∧
      (∀ z, HasPath (n + 1) d z ↔ z = [] ∨ ∃ r ∈ rows, Within r.sides z) ∧ {z | z ∈ points (n + 1) d} = union rows := by
  obtain ⟨d, h, hd, hp⟩ := foldlM_processRow rows (Dict.proper_empty (n + 1))
  have hempty : ∀ z, HasPath (n + 1) (Dict.empty (n + 1)) z ↔ z = [] := by
    rintro (_ | ⟨x, z⟩)
    · exact iff_of_true trivial rfl
    · exact iff_of_false (fun ⟨c, hc, _⟩ => List.not_mem_nil hc) (List.cons_ne_nil x z)
  simp only [hempty] at hp
  refine ⟨d, h, hd, hp, Set.ext fun z => ?_⟩
  rw [Set.mem_ofPred_eq, mem_points_iff, hp]
  refine and_congr_right fun hz => or_iff_right ?_
  rintro rfl
  cases hz

theorem Proper.ncard_points {n : ℕ} {d : Dict n} (hd : Proper n d) :
    {z | z ∈ points n d}.ncard = (points n d).length := by
  rw [← List.toFinset_card_of_nodup hd.nodup, ← Set.ncard_coe_finset, List.coe_toFinset]

/-- Neither the order of the rows nor how often one is there matters. -/
theorem same_paths {n : ℕ} {rows rows' : List (Row n)} (h : ∀ s, (∃ r ∈ rows, r.sides = s) ↔ ∃ r ∈ rows', r.sides = s)
    (z : List ℤ) : (∃ r ∈ rows, Within r.sides z) ↔ ∃ r ∈ rows', Within r.sides z := by
  constructor
  · rintro ⟨r, hr, hz⟩
    obtain ⟨r', hr', heq⟩ := (h r.sides).1 ⟨r, hr, rfl⟩
    exact ⟨r', hr', heq ▸ hz⟩
  · rintro ⟨r, hr, hz⟩
    obtain ⟨r', hr', heq⟩ := (h r.sides).2 ⟨r, hr, rfl⟩
    exact ⟨r', hr', heq ▸ hz⟩

/-- For any rows, `total_dict` has a level for every coordinate, its key paths are the tuples that some row
contains, and `count_dict` gives their number. Rows with the same intervals in another order, or more often,
give an equal dictionary. -/
theorem processRows_union {n : ℕ} (hn : 1 ≤ n) (rows : List (Row n)) :
    ∃ v, Py.processRows n (rows.map Row.fields) = some v ∧ v.Depth n ∧
      (∀ z : List ℤ, z.length = n → (v.KeyPath z ↔ ∃ r ∈ rows, Within r.sides z)) ∧
      Py.countDict n v = some (union rows).ncard ∧
      ∀ rows' : List (Row n), (∀ s, (∃ r ∈ rows, r.sides = s) ↔ ∃ r ∈ rows', r.sides = s) →
        ∃ v', Py.processRows n (rows'.map Row.fields) = some v' ∧ v.Equal v' ∧
          Py.countDict n v' = Py.countDict n v := by
  obtain ⟨n, rfl⟩ := Nat.exists_eq_succ_of_ne_zero (Nat.one_le_iff_ne_zero.1 hn)
  obtain ⟨d, h, hd, hp, hpoints⟩ := processRows_paths rows
  have hcount : ∀ (rows : List (Row (n + 1))) (d : Dict (n + 1)), Proper (n + 1) d →
      {z | z ∈ points (n + 1) d} = union rows →
      Py.countDict (n + 1) (toPy (n + 1) d) = some (union rows).ncard := by
    intro rows d hd hpoints
    rw [countDict_toPy, countDict_eq, ← hpoints, hd.ncard_points]
  refine ⟨toPy (n + 1) d, h, depth_toPy hd, fun z hz => ?_, hcount rows d hd hpoints, fun rows' hsame => ?_⟩
  · rw [keyPath_toPy, hp]
    refine or_iff_right ?_
    rintro rfl
    cases hz
  · obtain ⟨d', h', hd', hp', hpoints'⟩ := processRows_paths rows'
    have hunion : union rows' = union rows := by
      ext z
      exact and_congr_right fun _ => (same_paths hsame z).symm
    refine ⟨toPy (n + 1) d', h', ?_, ?_⟩
    · refine PyVal.equal_of_keyPath (depth_toPy hd) (depth_toPy hd') fun z => ?_
      rw [keyPath_toPy, keyPath_toPy, hp, hp', same_paths hsame]
    · rw [hcount rows' d' hd' hpoints', hunion, hcount rows d hd hpoints]

/-- The points (0, 0) and (0, 1). -/
def column : Row 2 :=
  ⟨[['0'], ['0'], ['0'], ['1']], [(0, 0), (0, 1)], rfl, by decide +kernel, by decide +kernel, fun _ =>
  ⟨by decide +kernel, by decide +kernel, fun _ => trivial⟩⟩

/-- The points (0, 0) and (1, 0). -/
def line : Row 2 := ⟨[['0'], ['1'], ['0'], ['0']], [(0, 1), (0, 0)], rfl, by decide +kernel, by decide +kernel, fun _ =>
  ⟨by decide +kernel, by decide +kernel, fun _ => trivial⟩⟩

theorem processRows_cross : ∃ v v', Py.processRows 2 ([column, line].map Row.fields) = some v ∧
    Py.processRows 2 ([line, column, line].map Row.fields) = some v' ∧ v.Equal v' ∧ v.KeyPath [1, 0] := by
  obtain ⟨v, h, -, hpaths, -, hrows⟩ := processRows_union (by decide) [column, line]
  obtain ⟨v', h', heq, -⟩ := hrows [line, column, line] fun s => by
    simp only [List.mem_cons, List.not_mem_nil, or_false, exists_eq_or_imp, exists_eq_left]
    tauto
  refine ⟨v, v', h, h', heq, (hpaths [1, 0] rfl).2 ⟨line, by simp, ?_⟩⟩
  exact ⟨by decide, by decide, trivial⟩

/-! ## The largest number of points for one input -/

/-- `count_max_solns` on `m` coordinates below `k + 1` free ones. -/
def countMax (m : ℕ) : (k : ℕ) → Dict (m + k + 1) → ℕ
  | 0, d => (List.map (fun e => countDict m e.2) d).sum
  | k + 1, d => (List.map (fun e => countMax m k e.2) d).foldl max 0

theorem countMaxSolns_toPy {n freeVars m : ℕ} (hm : n - freeVars = m) : ∀ (k : ℕ) (d : Dict (m + k + 1)),
    Py.countMaxSolns n freeVars (k + 1) (toPy (m + k + 1) d) = some (countMax m k d)
  | 0, d => by
    have hone : ∀ e ∈ (d : List (ℤ × Dict m)), Py.countDict m (toPy m e.2) = some (countDict m e.2) :=
      fun e _ => countDict_toPy m e.2
    rw [Py.countMaxSolns, toPy, PyVal.entries, Option.bind_eq_bind, Option.bind_some, List.foldlM_map, hm]
    refine (foldlM_map_some (· + ·) hone 0).trans ?_
    rw [countMax, List.sum_eq_foldl, List.foldl_map]
  | k + 1, d => by
    have hone : ∀ e ∈ (d : List (ℤ × Dict (m + k + 1))),
        Py.countMaxSolns n freeVars (k + 1) (toPy (m + k + 1) e.2) = some (countMax m k e.2) :=
      fun e _ => countMaxSolns_toPy hm k e.2
    rw [Py.countMaxSolns, toPy, PyVal.entries, Option.bind_eq_bind, Option.bind_some, List.foldlM_map]
    refine (foldlM_map_some max hone 0).trans ?_
    rw [countMax, List.foldl_map]

section Starting

variable {n : ℕ} {d : Dict (n + 1)} {x : ℤ} {c : Dict n} {t : List ℤ}

/-- The points that begin with a key are those of its value. -/
theorem ncard_starting_cons (hd : Proper (n + 1) d) (hc : (x, c) ∈ (d : List (ℤ × Dict n))) :
    (starting {z | z ∈ points (n + 1) d} (x :: t)).ncard = (starting {z | z ∈ points n c} t).ncard := by
  have himage : starting {z | z ∈ points (n + 1) d} (x :: t) = (x :: ·) '' starting {z | z ∈ points n c} t := by
    ext z
    constructor
    · rintro ⟨hz, z', rfl⟩
      obtain ⟨b, hb, hz⟩ := mem_points_cons.1 hz
      cases List.inj_on_of_nodup_map hd.1 hb hc rfl
      exact ⟨t ++ z', ⟨hz, List.prefix_append t z'⟩, rfl⟩
    · rintro ⟨z, ⟨hz, ht⟩, rfl⟩
      exact ⟨mem_points_cons.2 ⟨c, hc, hz⟩, List.cons_prefix_cons.2 ⟨rfl, ht⟩⟩
  rw [himage, Set.ncard_image_of_injective _ (List.cons_injective)]

theorem ncard_starting_absent (hx : x ∉ List.map Prod.fst d) :
    (starting {z | z ∈ points (n + 1) d} (x :: t)).ncard = 0 := by
  have hempty : starting {z | z ∈ points (n + 1) d} (x :: t) = ∅ := by
    refine Set.eq_empty_of_forall_notMem ?_
    rintro z ⟨hz, z', rfl⟩
    obtain ⟨b, hb, -⟩ := mem_points_cons.1 hz
    exact hx (List.mem_map.2 ⟨_, hb, rfl⟩)
  rw [hempty, Set.ncard_empty]

end Starting

/-- The maximum is over the beginnings without the last free coordinate. -/
theorem countMax_greatest {m : ℕ} (hm : 1 ≤ m) : ∀ (k : ℕ) {d : Dict (m + k + 1)}, Proper (m + k + 1) d →
    IsGreatest (counts {z | z ∈ points (m + k + 1) d} k) (countMax m k d)
  | 0, d, hd => by
    obtain ⟨m, rfl⟩ := Nat.exists_eq_succ_of_ne_zero (Nat.one_le_iff_ne_zero.1 hm)
    have hall : (starting {z | z ∈ points (m + 1 + 0 + 1) d} []).ncard = countMax (m + 1) 0 d := by
      rw [starting_nil, hd.ncard_points]
      exact (countDict_eq (m + 1) d).symm
    refine ⟨⟨[], rfl, hall.symm⟩, ?_⟩
    rintro c ⟨t, ht, rfl⟩
    rw [List.length_eq_zero_iff.1 ht, hall]
  | k + 1, d, hd => by
    obtain ⟨-, hle, hmem⟩ := foldl_max_spec (List.map (fun e => countMax m k e.2) d) 0
    have hone : ∀ e ∈ (d : List (ℤ × Dict (m + k + 1))), IsGreatest (counts {z | z ∈ points (m + k + 1) e.2} k)
        (countMax m k e.2) :=
      fun e he => countMax_greatest hm k (hd.2 e he)
    -- what is reached below a key is reached with the key in front
    have hreach : ∀ e ∈ (d : List (ℤ × Dict (m + k + 1))),
        countMax m k e.2 ∈ counts {z | z ∈ points (m + k + 1 + 1) d} (k + 1) := by
      intro e he
      obtain ⟨t, ht, heq⟩ := (hone e he).1
      exact ⟨e.1 :: t, congrArg (· + 1) ht, heq.trans (ncard_starting_cons hd he).symm⟩
    constructor
    · show List.foldl max 0 _ ∈ _
      rcases hmem with hzero | hmem
      · -- nothing is counted below any key
        rw [hzero]
        rcases List.eq_nil_or_concat d with rfl | ⟨d', e, rfl⟩
        · exact ⟨List.replicate (k + 1) 0, List.length_replicate, (ncard_starting_absent List.not_mem_nil).symm⟩
        · have he : e ∈ d'.concat e := by simp
          have hle' := hle _ (List.mem_map.2 ⟨e, he, rfl⟩)
          rw [hzero, Nat.le_zero] at hle'
          exact hle' ▸ hreach e he
      · obtain ⟨e, he, heq⟩ := List.mem_map.1 hmem
        rw [← heq]
        exact hreach e he
    · rintro c ⟨t, ht, rfl⟩
      obtain ⟨x, t, rfl⟩ := List.exists_cons_of_length_eq_add_one ht
      by_cases hx : x ∈ List.map Prod.fst d
      · obtain ⟨e, he, rfl⟩ := List.mem_map.1 hx
        rw [ncard_starting_cons hd he]
        exact ((hone e he).2 ⟨t, Nat.succ.inj ht, rfl⟩).trans (hle _ (List.mem_map.2 ⟨e, he, rfl⟩))
      · rw [ncard_starting_absent hx]
        exact Nat.zero_le _

/-- `count_max_solns` gives the maximum over the tuples of all free coordinates exactly when some tuple of all
but the last of them that begins the most points leaves only one value for the last. -/
theorem countMaxSolns_greatest_iff {n freeVars : ℕ} (hpos : 1 ≤ freeVars) (hlt : freeVars < n) (rows : List (Row n)) :
    ∃ v M, Py.processRows n (rows.map Row.fields) = some v ∧ Py.countMaxSolns n freeVars freeVars v = some M ∧
      (IsGreatest (counts (union rows) freeVars) M ↔ ∃ t x, t.length = freeVars - 1 ∧
        (∀ t', t'.length = freeVars - 1 → (starting (union rows) t').ncard ≤ (starting (union rows) t).ncard) ∧
        ∀ z ∈ union rows, t <+: z → t ++ [x] <+: z) := by
  obtain ⟨k, rfl⟩ := Nat.exists_eq_succ_of_ne_zero (Nat.one_le_iff_ne_zero.1 hpos)
  obtain ⟨m, rfl⟩ : ∃ m, n = m + k + 1 := ⟨n - (k + 1), by omega⟩
  obtain ⟨d, h, hd, -, hpoints⟩ := processRows_paths rows
  have hfinite : (union rows).Finite := hpoints ▸ List.finite_toSet _
  have hgreatest := countMax_greatest (m := m) (by omega) k hd
  rw [hpoints] at hgreatest
  refine ⟨_, _, h, countMaxSolns_toPy (by omega) k d, ?_⟩
  exact isGreatest_succ_iff hfinite hgreatest

theorem countMaxSolns_column : ∃ v M, Py.processRows 2 ([column].map Row.fields) = some v ∧
    Py.countMaxSolns 2 1 1 v = some M ∧ IsGreatest (counts (union [column]) 1) M := by
  obtain ⟨v, M, h, hM, hiff⟩ := countMaxSolns_greatest_iff (le_refl 1) Nat.one_lt_two [column]
  refine ⟨v, M, h, hM, hiff.2 ⟨[], 0, rfl, fun t' ht' => ?_, ?_⟩⟩
  · rw [List.length_eq_zero_iff.1 ht']
  · rintro z ⟨hz, r, hr, hw⟩ -
    rw [List.mem_singleton.1 hr] at hw
    obtain ⟨x, z, rfl⟩ := List.exists_cons_of_length_eq_add_one hz
    have hx : x = 0 := le_antisymm hw.1.2 hw.1.1
    rw [hx]
    exact ⟨z, rfl⟩

/-- Two inputs with one solution each: 2 is printed where the maximum is 1. -/
theorem countMaxSolns_line : (Py.processRows 2 ([line].map Row.fields)).bind (Py.countMaxSolns 2 1 1) = some 2 ∧
    IsGreatest (counts (union [line]) 1) 1 := by
  have hunion : ∀ z ∈ union [line], ∃ x, z = [x, 0] := by
    rintro z ⟨hz, r, hr, hw⟩
    rw [List.mem_singleton.1 hr] at hw
    obtain ⟨x, y, rfl⟩ := List.length_eq_two.1 hz
    exact ⟨x, by rw [le_antisymm hw.2.1.2 hw.2.1.1]⟩
  have hstart : ∀ x, starting (union [line]) [x] ⊆ {[x, 0]} := by
    rintro x z ⟨hz, hx⟩
    obtain ⟨y, rfl⟩ := hunion z hz
    rw [(List.cons_prefix_cons.1 hx).1]
    rfl
  have hle : ∀ x, (starting (union [line]) [x]).ncard ≤ 1 := fun x =>
    (Set.ncard_le_ncard (hstart x) (Set.finite_singleton _)).trans (Set.ncard_singleton _).le
  have hzero : starting (union [line]) [0] = {[0, 0]} := by
    refine (hstart 0).antisymm (Set.singleton_subset_iff.2 ⟨⟨rfl, line, List.mem_singleton_self _, ?_⟩, ⟨[0], rfl⟩⟩)
    exact ⟨by decide, by decide, trivial⟩
  refine ⟨by decide +kernel, ⟨[0], rfl, by rw [hzero, Set.ncard_singleton]⟩, ?_⟩
  rintro c ⟨t, ht, rfl⟩
  obtain ⟨x, rfl⟩ := List.length_eq_one_iff.1 ht
  exact hle x

end GridSolve.Grid.CountSolutions
