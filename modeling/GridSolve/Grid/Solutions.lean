/-
Counting the solutions that were written. `ll::print` writes a line for every box, and
`count_solutions.py` reads the lines into nested dictionaries, one level for every coordinate, and
counts the innermost keys. The first line is taken for a header and not counted, and a number that
`operator<<` writes with an exponent is no integer for Python.
-/
import GridSolve.Grid.Ll
import GridSolve.Lib.Significant
import Mathlib.Data.Set.Card

namespace GridSolve.Grid

open GridSolve.Text GridSolve.Significant

/-! ## The code -/

/-- The fields of a coordinate, each with the comma that follows. -/
def coordText (c : ℚ × ℚ) : List Char := doubleText c.1 ++ ',' :: (doubleText c.2 ++ [','])

/-- `bounding_box::print`. -/
def BoundingBox.print (b : BoundingBox) : List Char :=
  if b.confidence < 0 then [] else b.coords.flatMap coordText ++ intText b.confidence ++ ['\n']

/-- `ll::print`: what is in the file. -/
def Ll.print (l : Ll) : List Char := l.boxes.flatMap BoundingBox.print

namespace CountSolutions

/-- A row of `csv.reader`; there are no quotes in the file. -/
def csvRow (line : List Char) : List (List Char) := if line.isEmpty then [] else line.splitOn ','

/-- `range(a, b)`. -/
def range (a b : ℤ) : List ℤ := (List.range (b - a).toNat).map fun k : ℕ => a + k

/-- Dictionaries nested `n` deep; the innermost value is the constant 1. -/
abbrev Dict : ℕ → Type
  | 0 => Unit
  | n + 1 => List (ℤ × Dict n)

/-- `int(row[i])`: `none` when Python raises an exception. -/
def field (row : List (List Char)) (i : ℕ) : Option ℤ := row[i]?.bind parseInt

/-- `make_dict`. -/
def makeDict : (cnt : ℕ) → List (List Char) → Option (Dict cnt)
  | 0, _ => some ()
  | cnt + 1, row => do
    let lo ← field row 0
    let hi ← field row 1
    (range lo (hi + 1)).mapM fun j => (makeDict cnt (row.drop 2)).map fun c => (j, c)

/-- `curr_dict[j] = ...`, with `add` for a key that is there and `make` for a new one. -/
def setKey {α : Type} (add : α → Option α) (make : Option α) (d : List (ℤ × α)) (j : ℤ) : Option (List (ℤ × α)) :=
  match d.lookup j with
  | some c => (add c).map fun c' => d.map fun e => if e.1 = j then (j, c') else e
  | none => make.map fun c => d ++ [(j, c)]

/-- `add_pt`. -/
def addPt : (cnt : ℕ) → List (List Char) → Dict cnt → Option (Dict cnt)
  | 0, _, d => some d
  | cnt + 1, row, d => do
    let lo ← field row 0
    let hi ← field row 1
    (range lo (hi + 1)).foldlM (setKey (addPt cnt (row.drop 2)) (makeDict cnt (row.drop 2))) d

/-- `count_dict`. -/
def countDict : (n : ℕ) → Dict n → ℕ
  | 0, _ => 0
  | 1, d => List.length d
  | n + 2, d => (List.map (fun e => countDict (n + 1) e.2) d).sum

/-- `total_dict` at the start. -/
def Dict.empty : (n : ℕ) → Dict n
  | 0 => ()
  | _ + 1 => []

/-- `main` on a file: the number of solutions that is printed, `none` when an exception ends the program. -/
def main (file : List Char) : Option ℕ :=
  match (lines file).map csvRow with
  | [] => none
  | header :: rows =>
    let n := (header.length - 1) / 2
    (rows.foldlM (fun d row => addPt n row d) (Dict.empty n)).map (countDict n)

/-! ## The points of a dictionary -/

/-- The paths through the keys. -/
def points : (n : ℕ) → Dict n → List (List ℤ)
  | 0, _ => [[]]
  | n + 1, d => List.flatMap (fun e => (points n e.2).map (e.1 :: ·)) d

/-- No key is there twice, on any level. -/
def Proper : (n : ℕ) → Dict n → Prop
  | 0, _ => True
  | n + 1, d => (List.map Prod.fst d).Nodup ∧ ∀ e ∈ (d : List (ℤ × Dict n)), Proper n e.2

theorem countDict_eq : ∀ (n : ℕ) (d : Dict (n + 1)), countDict (n + 1) d = (points (n + 1) d).length
  | 0, d => by
    show List.length d = (List.flatMap (fun e : ℤ × Dict 0 => ([[]] : List (List ℤ)).map (e.1 :: ·)) d).length
    simp [List.length_flatMap]
  | n + 1, d => by
    show (List.map (fun e : ℤ × Dict (n + 1) => countDict (n + 1) e.2) d).sum = _
    simp only [points, List.length_flatMap, List.length_map, countDict_eq n]

theorem mem_points_cons {n : ℕ} {d : Dict (n + 1)} {x : ℤ} {z : List ℤ} :
    x :: z ∈ points (n + 1) d ↔ ∃ c, (x, c) ∈ (d : List (ℤ × Dict n)) ∧ z ∈ points n c := by
  simp only [points, List.mem_flatMap, List.mem_map, List.cons.injEq]
  constructor
  · rintro ⟨e, he, z', hz, rfl, rfl⟩
    exact ⟨e.2, he, hz⟩
  · rintro ⟨c, hc, hz⟩
    exact ⟨(x, c), hc, z, hz, rfl, rfl⟩

theorem nil_notMem_points {n : ℕ} (d : Dict (n + 1)) : [] ∉ points (n + 1) d := by
  simp [points]

theorem Proper.nodup : ∀ {n : ℕ} {d : Dict n}, Proper n d → (points n d).Nodup
  | 0, _, _ => List.nodup_singleton _
  | n + 1, d, h => by
    refine List.nodup_flatMap.2 ⟨fun e he => (h.2 e he).nodup.map fun a b hab => (List.cons.inj hab).2, ?_⟩
    refine (List.pairwise_map.1 h.1).imp fun hne => ?_
    rw [Function.onFun, List.disjoint_left]
    rintro z hz hz'
    obtain ⟨a, -, rfl⟩ := List.mem_map.1 hz
    obtain ⟨b, -, hb⟩ := List.mem_map.1 hz'
    exact hne (List.cons.inj hb).1.symm

/-! ## Rows -/

/-- The integer points of a box, as lists. -/
def InRow (coords : Coords) (z : List ℤ) : Prop :=
  List.Forall₂ (fun (c : ℚ × ℚ) (x : ℤ) => c.1 ≤ (x : ℚ) ∧ (x : ℚ) ≤ c.2) coords z

/-- The fields of the coordinates of a box. -/
def fields (coords : Coords) : List (List Char) := coords.flatMap fun c => [doubleText c.1, doubleText c.2]

/-- The numbers that Python gets to see are written without an exponent: those of a coordinate are
only read when no earlier coordinate is empty. -/
def Readable : Coords → Prop
  | [] => True
  | c :: coords => |c.1| < 1000000 ∧ |c.2| < 1000000 ∧ (c.1 ≤ c.2 → Readable coords)

theorem mem_range {a b x : ℤ} : x ∈ range a (b + 1) ↔ a ≤ x ∧ x ≤ b := by
  simp only [range, List.mem_map, List.mem_range]
  constructor
  · rintro ⟨k, hk, rfl⟩
    omega
  · rintro ⟨h1, h2⟩
    exact ⟨(x - a).toNat, by omega, by omega⟩

theorem nodup_range (a b : ℤ) : (range a b).Nodup := by
  refine List.nodup_range.map fun i j hij => ?_
  simpa using hij

theorem field_doubleText (z : ℤ) :
    (some (doubleText (z : ℚ))).bind parseInt = if |(z : ℚ)| < 1000000 then some z else none := by
  have hcast : |(z : ℚ)| < 1000000 ↔ |z| < 1000000 := by exact_mod_cast Iff.rfl
  simp only [Option.bind_some, parseInt_doubleText, hcast]

theorem fields_cons (c : ℚ × ℚ) (coords : Coords) (rest : List (List Char)) :
    fields (c :: coords) ++ rest = doubleText c.1 :: doubleText c.2 :: (fields coords ++ rest) := rfl

theorem mapM_pair {α : Type} (o : Option α) : ∀ js : List ℤ,
    (js.mapM fun j => o.map fun c => (j, c)) = if js = [] then some [] else o.map fun c => js.map fun j => (j, c)
  | [] => rfl
  | j :: js => by
    rw [List.mapM_cons, mapM_pair o js]
    cases o <;> cases js <;> rfl

section Level

variable {α : Type} {Ok : α → Prop} {Has : α → List ℤ → Prop} {add : α → Option α} {make : Option α} {Q : List ℤ → Prop}
  {d : List (ℤ × α)} {j : ℤ} {c c' : α}

/-- No key is there twice, and the values are `Ok`. -/
def Keyed (Ok : α → Prop) (d : List (ℤ × α)) : Prop := (d.map Prod.fst).Nodup ∧ ∀ e ∈ d, Ok e.2

/-- The value of the key `x` has the path `z`. -/
def Below (Has : α → List ℤ → Prop) (d : List (ℤ × α)) (x : ℤ) (z : List ℤ) : Prop := ∃ c, (x, c) ∈ d ∧ Has c z

theorem lookup_mem (h : d.lookup j = some c) : (j, c) ∈ d := by
  obtain ⟨l₁, l₂, rfl, -⟩ := List.lookup_eq_some_iff.1 h
  exact List.mem_append_right _ List.mem_cons_self

theorem lookup_none (h : d.lookup j = none) : j ∉ d.map Prod.fst := by
  intro hj
  obtain ⟨x, hx, rfl⟩ := List.mem_map.1 hj
  simpa using List.lookup_eq_none_iff.1 h x hx

theorem mem_map_replace (hmem : (j, c) ∈ d) (c' : α) (x : ℤ) (b : α) :
    (x, b) ∈ (d.map fun e => if e.1 = j then (j, c') else e) ↔ (x ≠ j ∧ (x, b) ∈ d) ∨ (x = j ∧ b = c') := by
  rw [List.mem_map]
  constructor
  · rintro ⟨e, he, heq⟩
    split_ifs at heq with hj
    · cases heq
      exact .inr ⟨rfl, rfl⟩
    · subst heq
      exact .inl ⟨hj, he⟩
  · rintro (⟨hx, hb⟩ | ⟨rfl, rfl⟩)
    · exact ⟨_, hb, if_neg hx⟩
    · exact ⟨_, hmem, if_pos rfl⟩

/-- A key that is there gets another value, with the paths `Q` added. -/
theorem replaceKey_spec (hd : Keyed Ok d) (hmem : (j, c) ∈ d) (hok : Ok c') (hpaths : ∀ z, Has c' z ↔ Has c z ∨ Q z) :
    Keyed Ok (d.map fun e => if e.1 = j then (j, c') else e) ∧
      ∀ x z, Below Has (d.map fun e => if e.1 = j then (j, c') else e) x z ↔ Below Has d x z ∨ x = j ∧ Q z := by
  have hkeys : (d.map fun e => if e.1 = j then (j, c') else e).map Prod.fst = d.map Prod.fst := by
    rw [List.map_map]
    refine List.map_congr_left fun e _ => ?_
    by_cases he : e.1 = j <;> simp [he]
  -- the only entry at the key is the one that is replaced
  have honly : ∀ b, (j, b) ∈ d → b = c := fun b hb =>
    congrArg Prod.snd (List.inj_on_of_nodup_map hd.1 hb hmem rfl)
  refine ⟨⟨hkeys ▸ hd.1, ?_⟩, fun x z => ?_⟩
  · rintro ⟨x, b⟩ he
    rcases (mem_map_replace hmem c' x b).1 he with ⟨-, hb⟩ | ⟨-, rfl⟩
    · exact hd.2 _ hb
    · exact hok
  · simp only [Below, mem_map_replace hmem]
    constructor
    · rintro ⟨b, ⟨-, hb⟩ | ⟨rfl, rfl⟩, hz⟩
      · exact .inl ⟨b, hb, hz⟩
      · exact ((hpaths z).1 hz).imp (fun h => ⟨c, hmem, h⟩) fun h => ⟨rfl, h⟩
    · rintro (⟨b, hb, hz⟩ | ⟨rfl, hz⟩)
      · by_cases hx : x = j
        · subst hx
          rw [honly b hb] at hz
          exact ⟨c', .inr ⟨rfl, rfl⟩, (hpaths z).2 (.inl hz)⟩
        · exact ⟨b, .inl ⟨hx, hb⟩, hz⟩
      · exact ⟨c', .inr ⟨rfl, rfl⟩, (hpaths z).2 (.inr hz)⟩

/-- A new key gets a value with the paths `Q`. -/
theorem addKey_spec (hd : Keyed Ok d) (hnew : j ∉ d.map Prod.fst) (hok : Ok c) (hpaths : ∀ z, Has c z ↔ Q z) :
    Keyed Ok (d ++ [(j, c)]) ∧ ∀ x z, Below Has (d ++ [(j, c)]) x z ↔ Below Has d x z ∨ x = j ∧ Q z := by
  refine ⟨⟨?_, ?_⟩, fun x z => ?_⟩
  · rw [List.map_append, List.map_singleton]
    exact List.nodup_append.2 ⟨hd.1, List.nodup_singleton _, fun a ha b hb => by
      rw [List.mem_singleton.1 hb]
      rintro rfl
      exact hnew ha⟩
  · intro e he
    rcases List.mem_append.1 he with he | he
    · exact hd.2 e he
    · rw [List.mem_singleton.1 he]
      exact hok
  · simp only [Below, List.mem_append, List.mem_singleton, Prod.mk.injEq]
    constructor
    · rintro ⟨b, hb | ⟨rfl, rfl⟩, hz⟩
      · exact .inl ⟨b, hb, hz⟩
      · exact .inr ⟨rfl, (hpaths z).1 hz⟩
    · rintro (⟨b, hb, hz⟩ | ⟨rfl, hz⟩)
      · exact ⟨b, .inl hb, hz⟩
      · exact ⟨c, .inr ⟨rfl, rfl⟩, (hpaths z).2 hz⟩

/-- One key: its paths are added. -/
theorem setKey_spec (hadd : ∀ c, Ok c → ∃ c', add c = some c' ∧ Ok c' ∧ ∀ z, Has c' z ↔ Has c z ∨ Q z)
    (hmake : ∃ c, make = some c ∧ Ok c ∧ ∀ z, Has c z ↔ Q z) (hd : Keyed Ok d) (j : ℤ) :
    ∃ d', setKey add make d j = some d' ∧ Keyed Ok d' ∧ ∀ x z, Below Has d' x z ↔ Below Has d x z ∨ x = j ∧ Q z := by
  unfold setKey
  cases hl : List.lookup j d with
  | some c =>
    have hmem := lookup_mem hl
    obtain ⟨c', hc', hok, hpaths⟩ := hadd c (hd.2 _ hmem)
    exact ⟨_, by simp only [hc', Option.map_some], replaceKey_spec hd hmem hok hpaths⟩
  | none =>
    obtain ⟨c, rfl, hok, hpaths⟩ := hmake
    exact ⟨_, rfl, addKey_spec hd (lookup_none hl) hok hpaths⟩

theorem foldlM_setKey (hadd : ∀ c, Ok c → ∃ c', add c = some c' ∧ Ok c' ∧ ∀ z, Has c' z ↔ Has c z ∨ Q z)
    (hmake : ∃ c, make = some c ∧ Ok c ∧ ∀ z, Has c z ↔ Q z) : ∀ (js : List ℤ) {d : List (ℤ × α)}, Keyed Ok d →
    ∃ d', js.foldlM (setKey add make) d = some d' ∧ Keyed Ok d' ∧
      ∀ x z, Below Has d' x z ↔ Below Has d x z ∨ x ∈ js ∧ Q z
  | [], d, hd => ⟨d, rfl, hd, by simp⟩
  | j :: js, d, hd => by
    obtain ⟨d₁, h1, hd₁, hp₁⟩ := setKey_spec hadd hmake hd j
    obtain ⟨d₂, h2, hd₂, hp₂⟩ := foldlM_setKey hadd hmake js hd₁
    refine ⟨d₂, by rw [List.foldlM_cons, h1]; exact h2, hd₂, fun x z => ?_⟩
    rw [hp₂, hp₁, List.mem_cons, or_and_right, or_assoc]

/-- A key that cannot be set ends the program. -/
theorem foldlM_setKey_none (hadd : ∀ c, add c = none) (hmake : make = none) {js : List ℤ} (h : js ≠ [])
    (d : List (ℤ × α)) : js.foldlM (setKey add make) d = none := by
  obtain ⟨j, js, rfl⟩ := List.exists_cons_of_ne_nil h
  have hset : setKey add make d j = none := by
    unfold setKey
    split
    · rw [hadd]
      rfl
    · rw [hmake]
      rfl
  rw [List.foldlM_cons, hset]
  rfl

end Level

/-! ## Rows and dictionaries -/

/-- The keys of `z` lead through the dictionary, all the way or part of it. -/
def HasPath : (n : ℕ) → Dict n → List ℤ → Prop
  | _, _, [] => True
  | 0, _, _ :: _ => False
  | n + 1, d, x :: z => Below (HasPath n) d x z

/-- The integers of `z` lie in the intervals, as far as `z` goes. -/
def Within : List (ℤ × ℤ) → List ℤ → Prop
  | _, [] => True
  | [], _ :: _ => False
  | (l, r) :: sides, x :: z => (l ≤ x ∧ x ≤ r) ∧ Within sides z

/-- The fields of a row spell the ends of the intervals. After an empty interval nothing is read. -/
def Spells : List (List Char) → List (ℤ × ℤ) → Prop
  | _, [] => True
  | row, (l, r) :: sides => field row 0 = some l ∧ field row 1 = some r ∧ (l ≤ r → Spells (row.drop 2) sides)

theorem mem_points_iff : ∀ {n : ℕ} {d : Dict n} {z : List ℤ}, z ∈ points n d ↔ z.length = n ∧ HasPath n d z
  | 0, _, [] => iff_of_true (List.mem_singleton_self _) ⟨rfl, trivial⟩
  | 0, _, x :: z => iff_of_false (by simp [points]) fun h => h.2
  | n + 1, d, [] => iff_of_false (nil_notMem_points d) fun h => by simp at h
  | n + 1, d, x :: z => by
    rw [mem_points_cons, List.length_cons, Nat.add_right_cancel_iff, HasPath]
    constructor
    · rintro ⟨c, hc, hz⟩
      obtain ⟨hlen, hz⟩ := (@mem_points_iff n c z).1 hz
      exact ⟨hlen, c, hc, hz⟩
    · rintro ⟨hlen, c, hc, hz⟩
      exact ⟨c, hc, (@mem_points_iff n c z).2 ⟨hlen, hz⟩⟩

theorem range_ne_nil {l r : ℤ} : range l (r + 1) ≠ [] ↔ l ≤ r := by
  constructor
  · intro h
    obtain ⟨x, hx⟩ := List.exists_mem_of_ne_nil _ h
    have := mem_range.1 hx
    omega
  · exact fun h => List.ne_nil_of_mem (mem_range.2 ⟨le_rfl, h⟩)

/-- A row becomes a dictionary with its paths. -/
theorem makeDict_paths : ∀ {n : ℕ} {sides : List (ℤ × ℤ)} (_ : sides.length = n) {row : List (List Char)}
    (_ : Spells row sides), ∃ d, makeDict n row = some d ∧ Proper n d ∧ ∀ z, HasPath n d z ↔ Within sides z
  | 0, [], _, row, _ => ⟨(), rfl, trivial, fun z => by cases z <;> exact Iff.rfl⟩
  | n + 1, (l, r) :: sides, hn, row, h => by
    obtain ⟨h0, h1, hrest⟩ := h
    rw [makeDict]
    simp only [h0, h1, Option.bind_eq_bind, Option.bind_some, mapM_pair]
    by_cases hempty : range l (r + 1) = []
    · rw [if_pos hempty]
      refine ⟨[], rfl, ⟨List.nodup_nil, nofun⟩, ?_⟩
      rintro (_ | ⟨x, z⟩)
      · exact Iff.rfl
      · refine iff_of_false (fun ⟨c, hc, _⟩ => List.not_mem_nil hc) fun hz => ?_
        exact range_ne_nil.2 (hz.1.1.trans hz.1.2) hempty
    · obtain ⟨c, hc, hproper, hpaths⟩ := makeDict_paths (Nat.succ.inj hn) (hrest (range_ne_nil.1 hempty))
      rw [if_neg hempty, hc, Option.map_some]
      refine ⟨_, rfl, ⟨?_, ?_⟩, ?_⟩
      · rw [List.map_map]
        simpa [Function.comp_def] using nodup_range l (r + 1)
      · intro e he
        obtain ⟨j, -, rfl⟩ := List.mem_map.1 he
        exact hproper
      · rintro (_ | ⟨x, z⟩)
        · exact Iff.rfl
        · rw [HasPath, Within, ← hpaths, ← mem_range]
          simp only [Below, List.mem_map, Prod.mk.injEq]
          constructor
          · rintro ⟨b, ⟨j, hj, rfl, rfl⟩, hz⟩
            exact ⟨hj, hz⟩
          · rintro ⟨hx, hz⟩
            exact ⟨c, ⟨x, hx, rfl, rfl⟩, hz⟩

/-- A row adds its paths. -/
theorem addPt_paths : ∀ {n : ℕ} {sides : List (ℤ × ℤ)} (_ : sides.length = n) {row : List (List Char)}
    (_ : Spells row sides) (d : Dict n), Proper n d →
    ∃ d', addPt n row d = some d' ∧ Proper n d' ∧ ∀ z, HasPath n d' z ↔ HasPath n d z ∨ Within sides z
  | 0, [], _, row, _, d, hd => ⟨d, rfl, hd, fun z => by cases z <;> simp [HasPath, Within]⟩
  | n + 1, (l, r) :: sides, hn, row, h, d, hd => by
    obtain ⟨h0, h1, hrest⟩ := h
    simp only [addPt, h0, h1, Option.bind_eq_bind, Option.bind_some]
    by_cases hempty : range l (r + 1) = []
    · rw [hempty]
      refine ⟨d, rfl, hd, fun z => (or_iff_left_of_imp fun hz => ?_).symm⟩
      cases z with
      | nil => trivial
      | cons x z => exact absurd hempty (range_ne_nil.2 (hz.1.1.trans hz.1.2))
    · have hsides := hrest (range_ne_nil.1 hempty)
      obtain ⟨d', h1, h2, h3⟩ :=
        foldlM_setKey (addPt_paths (Nat.succ.inj hn) hsides) (makeDict_paths (Nat.succ.inj hn) hsides)
          (range l (r + 1)) hd
      refine ⟨d', h1, h2, ?_⟩
      rintro (_ | ⟨x, z⟩)
      · exact iff_of_true trivial (.inl trivial)
      · rw [HasPath, h3, mem_range]
        exact Iff.rfl

/-! ## Rows of boxes -/

section Row

variable {l r : ℤ} {coords : Coords} {rest : List (List Char)}

/-- What is done with the first two fields of a row. -/
theorem bind_fields {α : Type} (F : ℤ → ℤ → Option α) :
    ((field (fields (((l : ℚ), (r : ℚ)) :: coords) ++ rest) 0).bind fun lo =>
      (field (fields (((l : ℚ), (r : ℚ)) :: coords) ++ rest) 1).bind fun hi => F lo hi) =
      if |(l : ℚ)| < 1000000 ∧ |(r : ℚ)| < 1000000 then F l r else none := by
  have h0 : field (fields (((l : ℚ), (r : ℚ)) :: coords) ++ rest) 0 = _ := field_doubleText l
  have h1 : field (fields (((l : ℚ), (r : ℚ)) :: coords) ++ rest) 1 = _ := field_doubleText r
  rw [h0, h1]
  by_cases hl : |(l : ℚ)| < 1000000 <;> by_cases hr : |(r : ℚ)| < 1000000 <;> simp [hl, hr]

theorem drop_fields {c : ℚ × ℚ} : (fields (c :: coords) ++ rest).drop 2 = fields coords ++ rest := rfl

theorem inRow_cons {c : ℚ × ℚ} {x : ℤ} {z : List ℤ} :
    InRow (c :: coords) (x :: z) ↔ (c.1 ≤ (x : ℚ) ∧ (x : ℚ) ≤ c.2) ∧ InRow coords z :=
  List.forall₂_cons

theorem not_inRow_cons_nil {c : ℚ × ℚ} : ¬ InRow (c :: coords) [] := nofun

end Row

/-- The integers between the ends. -/
def sides (coords : Coords) : List (ℤ × ℤ) := coords.map fun c => (⌈c.1⌉, ⌊c.2⌋)

theorem inRow_iff_within : ∀ {coords : Coords} {z : List ℤ},
    InRow coords z ↔ z.length = coords.length ∧ Within (sides coords) z
  | [], [] => iff_of_true .nil ⟨rfl, trivial⟩
  | [], x :: z => iff_of_false nofun fun h => h.2
  | c :: coords, [] => iff_of_false nofun fun h => by simp at h
  | c :: coords, x :: z => by
    rw [inRow_cons, inRow_iff_within, List.length_cons, List.length_cons, Nat.add_right_cancel_iff, ← Int.ceil_le,
      ← Int.le_floor]
    exact and_left_comm

/-- A row that can be read spells the sides of its box. -/
theorem spells_fields : ∀ {coords : Coords} (_ : IntCoords coords) (_ : Readable coords) (rest : List (List Char)),
    Spells (fields coords ++ rest) (sides coords)
  | [], _, _, _ => trivial
  | c :: coords, hint, hread, rest => by
    rw [IntCoords, List.forall_mem_cons] at hint
    obtain ⟨⟨l, r, rfl⟩, hint⟩ := hint
    obtain ⟨hl, hr, hread⟩ := hread
    rw [sides, List.map_cons, Int.ceil_intCast, Int.floor_intCast]
    refine ⟨(field_doubleText l).trans (if_pos hl), (field_doubleText r).trans (if_pos hr), fun hlr => ?_⟩
    exact spells_fields hint (hread (Int.cast_le.2 hlr)) rest

/-- A row that can be read adds its points. -/
theorem addPt_points {coords : Coords} (hint : IntCoords coords) (hread : Readable coords) (rest : List (List Char))
    (d : Dict coords.length) (hd : Proper _ d) :
    ∃ d', addPt coords.length (fields coords ++ rest) d = some d' ∧ Proper _ d' ∧
      ∀ z, z ∈ points _ d' ↔ z ∈ points _ d ∨ InRow coords z := by
  have hlen : (sides coords).length = coords.length := List.length_map _
  obtain ⟨d', h1, h2, h3⟩ := addPt_paths hlen (spells_fields hint hread rest) d hd
  refine ⟨d', h1, h2, fun z => ?_⟩
  rw [mem_points_iff, mem_points_iff, h3, inRow_iff_within, and_or_left]

/-- Any other row ends the program. -/
theorem makeDict_eq_none : ∀ {coords : Coords} (_ : IntCoords coords) (_ : ¬ Readable coords) (rest : List (List Char)),
    makeDict coords.length (fields coords ++ rest) = none
  | [], _, hbad, _ => absurd trivial hbad
  | c :: coords, hint, hbad, rest => by
    rw [IntCoords, List.forall_mem_cons] at hint
    obtain ⟨⟨l, r, rfl⟩, hint⟩ := hint
    rw [Readable, ← and_assoc] at hbad
    rw [List.length_cons, makeDict, drop_fields]
    simp only [Option.bind_eq_bind, mapM_pair, bind_fields]
    split_ifs with hsmall hempty
    · exact absurd ⟨hsmall, fun hlr => absurd hempty (range_ne_nil.2 (Int.cast_le.1 hlr))⟩ hbad
    · rw [makeDict_eq_none hint (fun hread => hbad ⟨hsmall, fun _ => hread⟩) rest]
      rfl
    · rfl

theorem addPt_eq_none : ∀ {coords : Coords} (_ : IntCoords coords) (_ : ¬ Readable coords) (rest : List (List Char)) d,
    addPt coords.length (fields coords ++ rest) d = none
  | [], _, hbad, _ => absurd trivial hbad
  | c :: coords, hint, hbad, rest => by
    rw [IntCoords, List.forall_mem_cons] at hint
    obtain ⟨⟨l, r, rfl⟩, hint⟩ := hint
    rw [Readable, ← and_assoc] at hbad
    rw [List.length_cons]
    intro d
    simp only [addPt, drop_fields, Option.bind_eq_bind, bind_fields]
    split_ifs with hsmall
    · have hlr : (l : ℚ) ≤ r := by
        by_contra hlr
        exact hbad ⟨hsmall, fun h => absurd h hlr⟩
      have hdeep : ¬ Readable coords := fun hread => hbad ⟨hsmall, fun _ => hread⟩
      exact foldlM_setKey_none (addPt_eq_none hint hdeep rest) (makeDict_eq_none hint hdeep rest)
        (range_ne_nil.2 (Int.cast_le.1 hlr)) d
    · rfl

/-! ## The file -/

/-- The line of a box, without its end. -/
def lineText (b : BoundingBox) : List Char := b.coords.flatMap coordText ++ intText b.confidence

theorem lineText_eq (t : List Char) : ∀ coords : Coords,
    coords.flatMap coordText ++ t = [','].intercalate (fields coords ++ [t])
  | [] => by simp [fields, List.intercalate]
  | c :: coords => by
    have ih := lineText_eq t coords
    obtain ⟨f, fs, hf⟩ := List.exists_cons_of_ne_nil (show fields coords ++ [t] ≠ [] by simp)
    rw [List.flatMap_cons, List.append_assoc, ih, fields_cons, hf, coordText]
    simp [List.intercalate, List.intersperse]

theorem comma_notMem_fields {coords : Coords} {t : List Char} (ht : ',' ∉ t) : ∀ f ∈ fields coords ++ [t], ',' ∉ f := by
  intro f hf
  rcases List.mem_append.1 hf with hf | hf
  · obtain ⟨c, -, hf⟩ := List.mem_flatMap.1 hf
    simp only [List.mem_cons, List.not_mem_nil, or_false] at hf
    rcases hf with rfl | rfl <;> exact notMem_doubleText (by decide) (by decide) _
  · rw [List.mem_singleton.1 hf]
    exact ht

theorem csvRow_lineText (b : BoundingBox) : csvRow (lineText b) = fields b.coords ++ [intText b.confidence] := by
  have hne : (lineText b).isEmpty = false :=
    List.isEmpty_eq_false_iff.2 fun h => intText_ne_nil _ (List.append_eq_nil_iff.1 h).2
  rw [csvRow, hne, if_neg Bool.false_ne_true, lineText, lineText_eq]
  exact List.splitOn_intercalate ',' (comma_notMem_fields (notMem_intText (by decide) (by decide) _)) (by simp)

theorem newline_notMem_lineText (b : BoundingBox) : '\n' ∉ lineText b := by
  intro h
  rcases List.mem_append.1 h with h | h
  · obtain ⟨c, -, h⟩ := List.mem_flatMap.1 h
    have hd : ∀ q, '\n' ∉ doubleText q := notMem_doubleText (by decide) (by decide)
    simp [coordText, hd] at h
  · exact notMem_intText (by decide) (by decide) _ h

/-- The rows that Python reads are those of the boxes. -/
theorem rows_print {l : Ll} (hl : ∀ b ∈ l.boxes, 0 ≤ b.confidence) :
    (lines l.print).map csvRow = l.boxes.map fun b => fields b.coords ++ [intText b.confidence] := by
  have hprint : l.print = unlines (l.boxes.map lineText) := by
    rw [Ll.print, unlines, List.flatMap_map]
    refine List.flatMap_congr fun b hb => ?_
    rw [BoundingBox.print, if_neg (hl b hb).not_gt, lineText]
  rw [hprint, lines_unlines (List.forall_mem_map.2 fun b _ => newline_notMem_lineText b), List.map_map]
  exact List.map_congr_left fun b _ => csvRow_lineText b

/-- All rows after the header. -/
theorem foldlM_addPt {n : ℕ} : ∀ {bs : List BoundingBox}, (∀ b ∈ bs, IntCoords b.coords ∧ b.coords.length = n) →
    ((∀ b ∈ bs, Readable b.coords) → ∀ d, Proper n d →
      ∃ d', (bs.map fun b => fields b.coords ++ [intText b.confidence]).foldlM (fun d row => addPt n row d) d =
          some d' ∧ Proper n d' ∧ ∀ z, z ∈ points n d' ↔ z ∈ points n d ∨ ∃ b ∈ bs, InRow b.coords z) ∧
    (¬ (∀ b ∈ bs, Readable b.coords) → ∀ d,
      (bs.map fun b => fields b.coords ++ [intText b.confidence]).foldlM (fun d row => addPt n row d) d = none)
  | [], _ => ⟨fun _ d hd => ⟨d, rfl, hd, by simp⟩, fun h => absurd (by simp) h⟩
  | b :: bs, h => by
    rw [List.forall_mem_cons] at h
    obtain ⟨⟨hint, rfl⟩, hbs⟩ := h
    obtain ⟨ihyes, ihno⟩ := foldlM_addPt hbs
    rw [List.forall_mem_cons, List.map_cons]
    constructor
    · rintro ⟨hb, hrest⟩ d hd
      obtain ⟨d₁, h1, hd₁, hp₁⟩ := addPt_points hint hb [intText b.confidence] d hd
      obtain ⟨d₂, h2, hd₂, hp₂⟩ := ihyes hrest d₁ hd₁
      refine ⟨d₂, by rw [List.foldlM_cons, h1]; exact h2, hd₂, fun z => ?_⟩
      rw [hp₂, hp₁, List.exists_mem_cons_iff, or_assoc]
    · intro hbad d
      rw [List.foldlM_cons]
      cases hadd : addPt b.coords.length (fields b.coords ++ [intText b.confidence]) d with
      | none => rfl
      | some d' =>
        refine ihno (fun hrest => hbad ⟨?_, hrest⟩) d'
        by_contra hb
        rw [addPt_eq_none hint hb _ d] at hadd
        cases hadd

/-! ## The number of solutions -/

/-- The integer points of dimension `n` in the boxes. -/
def solutions (n : ℕ) (bs : List BoundingBox) : Set (List ℤ) :=
  {z | z.length = n ∧ ∃ b ∈ bs, InBox b.coords fun i => (z.getD i 0 : ℝ)}

theorem inRow_iff : ∀ {coords : Coords} {z : List ℤ},
    InRow coords z ↔ z.length = coords.length ∧ InBox coords fun i => (z.getD i 0 : ℝ)
  | [], [] => iff_of_true .nil ⟨rfl, inBox_nil _⟩
  | [], x :: z => iff_of_false nofun fun h => by simp at h
  | c :: coords, [] => iff_of_false nofun fun h => by simp at h
  | c :: coords, x :: z => by
    have hcoord : (c.1 ≤ (x : ℚ) ∧ (x : ℚ) ≤ c.2) ↔ (c.1 : ℝ) ≤ (x : ℝ) ∧ (x : ℝ) ≤ c.2 := by
      constructor <;> rintro ⟨h1, h2⟩ <;> exact ⟨by exact_mod_cast h1, by exact_mod_cast h2⟩
    rw [inRow_cons, inRow_iff, hcoord, List.length_cons, List.length_cons, Nat.add_right_cancel_iff]
    constructor
    · rintro ⟨hx, hlen, hz⟩
      refine ⟨hlen, ?_⟩
      rintro (_ | i) e he
      · cases he
        exact hx
      · exact hz i e he
    · rintro ⟨hlen, hz⟩
      exact ⟨hz 0 c rfl, hlen, fun i e he => hz (i + 1) e he⟩

theorem mem_solutions {n : ℕ} {bs : List BoundingBox} (h : ∀ b ∈ bs, b.coords.length = n) {z : List ℤ} :
    z ∈ solutions n bs ↔ ∃ b ∈ bs, InRow b.coords z := by
  constructor
  · rintro ⟨hlen, b, hb, hz⟩
    exact ⟨b, hb, inRow_iff.2 ⟨hlen.trans (h b hb).symm, hz⟩⟩
  · rintro ⟨b, hb, hz⟩
    obtain ⟨hlen, hz⟩ := inRow_iff.1 hz
    exact ⟨hlen.trans (h b hb), b, hb, hz⟩

theorem finite_inRow : ∀ coords : Coords, {z | InRow coords z}.Finite
  | [] => by
    refine (Set.finite_singleton []).subset fun z hz => ?_
    exact List.forall₂_nil_left_iff.1 hz
  | c :: coords => by
    refine ((Set.finite_Icc ⌈c.1⌉ ⌊c.2⌋).image2 List.cons (finite_inRow coords)).subset ?_
    rintro (_ | ⟨x, z⟩) hz
    · exact absurd hz not_inRow_cons_nil
    · obtain ⟨⟨h1, h2⟩, hz⟩ := inRow_cons.1 hz
      exact ⟨x, ⟨Int.ceil_le.2 h1, Int.le_floor.2 h2⟩, z, hz, rfl⟩

theorem finite_solutions {n : ℕ} {bs : List BoundingBox} (h : ∀ b ∈ bs, b.coords.length = n) :
    (solutions n bs).Finite := by
  refine (Set.Finite.biUnion (List.finite_toSet bs) fun b _ => finite_inRow b.coords).subset fun z hz => ?_
  obtain ⟨b, hb, hz⟩ := (mem_solutions h).1 hz
  exact Set.mem_biUnion hb hz

theorem Dict.proper_empty : ∀ n, Proper n (Dict.empty n)
  | 0 => trivial
  | _ + 1 => ⟨List.nodup_nil, nofun⟩

/-- What is printed: the number of points in the boxes after the first, if they can be read. -/
theorem main_print {l : Ll} {n : ℕ}
    (hl : ∀ b ∈ l.boxes, IntCoords b.coords ∧ b.coords.length = n + 1 ∧ 0 ≤ b.confidence) (hne : l.boxes ≠ []) :
    ((∀ b ∈ l.boxes.tail, Readable b.coords) → main l.print = some (solutions (n + 1) l.boxes.tail).ncard) ∧
    (¬ (∀ b ∈ l.boxes.tail, Readable b.coords) → main l.print = none) := by
  obtain ⟨b, bs, hboxes⟩ := List.exists_cons_of_ne_nil hne
  have hrows := rows_print fun b hb => (hl b hb).2.2
  rw [hboxes, List.forall_mem_cons] at hl
  obtain ⟨⟨-, hlen, -⟩, hbs⟩ := hl
  have hcolumns : ((fields b.coords ++ [intText b.confidence]).length - 1) / 2 = n + 1 := by
    have hfields : (fields b.coords).length = b.coords.length * 2 := by simp [fields, List.length_flatMap]
    rw [List.length_append, List.length_singleton, hfields, hlen]
    omega
  obtain ⟨hyes, hno⟩ := foldlM_addPt fun b hb => ⟨(hbs b hb).1, (hbs b hb).2.1⟩
  unfold main
  rw [hrows, hboxes]
  simp only [List.map_cons, List.tail_cons]
  rw [hcolumns]
  constructor
  · intro hread
    obtain ⟨d, hd, hproper, hpoints⟩ := hyes hread (Dict.empty (n + 1)) (Dict.proper_empty _)
    rw [hd, Option.map_some, countDict_eq]
    -- the points of the dictionary, each once
    have hset : solutions (n + 1) bs = ((points (n + 1) d).toFinset : Set (List ℤ)) := by
      ext z
      rw [mem_solutions fun b hb => (hbs b hb).2.1, List.coe_toFinset, Set.mem_ofPred_eq, hpoints]
      exact (or_iff_right (by simp [Dict.empty, points])).symm
    rw [hset, Set.ncard_coe_finset, List.toFinset_card_of_nodup hproper.nodup]
  · intro hread
    rw [hno hread]
    rfl

/-- The number printed is that of the integer points in all boxes exactly when every box after the first
can be read and every point of the first box lies in a later one. -/
theorem solutions_counted_iff {l : Ll} {n : ℕ} (hn : 0 < n) (hne : l.boxes ≠ [])
    (hl : ∀ b ∈ l.boxes, IntCoords b.coords ∧ b.coords.length = n ∧ 0 ≤ b.confidence) :
    main l.print = some (solutions n l.boxes).ncard ↔
      (∀ b ∈ l.boxes.tail, Readable b.coords) ∧ ∀ z ∈ solutions n (l.boxes.take 1), z ∈ solutions n l.boxes.tail := by
  obtain ⟨n, rfl⟩ := Nat.exists_eq_succ_of_ne_zero hn.ne'
  obtain ⟨hyes, hno⟩ := main_print hl hne
  obtain ⟨b, bs, hboxes⟩ := List.exists_cons_of_ne_nil hne
  have hlen : ∀ b ∈ l.boxes, b.coords.length = n + 1 := fun b hb => (hl b hb).2.1
  have hsub : solutions (n + 1) l.boxes.tail ⊆ solutions (n + 1) l.boxes := by
    rintro z ⟨hz, b, hb, hx⟩
    exact ⟨hz, b, List.mem_of_mem_tail hb, hx⟩
  have hfirst : (∀ z ∈ solutions (n + 1) (l.boxes.take 1), z ∈ solutions (n + 1) l.boxes.tail) ↔
      solutions (n + 1) l.boxes ⊆ solutions (n + 1) l.boxes.tail := by
    rw [hboxes]
    constructor
    · rintro h z ⟨hz, b', hb', hx⟩
      rcases List.mem_cons.1 hb' with rfl | hb'
      · exact h z ⟨hz, b', by simp, hx⟩
      · exact ⟨hz, b', hb', hx⟩
    · rintro h z ⟨hz, b', hb', hx⟩
      exact h ⟨hz, b', List.mem_of_mem_take hb', hx⟩
  rw [hfirst]
  constructor
  · intro h
    have hread : ∀ b ∈ l.boxes.tail, Readable b.coords := by
      by_contra hbad
      rw [hno hbad] at h
      cases h
    rw [hyes hread, Option.some.injEq] at h
    exact ⟨hread, (Set.eq_of_subset_of_ncard_le hsub h.ge (finite_solutions hlen)).ge⟩
  · rintro ⟨hread, h⟩
    rw [hyes hread, Set.Subset.antisymm h hsub]

/-- The boxes from 0 to 1 and from 0 to 2. -/
def twoIntervals : Ll := (Ll.new ⟨[(0, 1)], [], 1⟩).addNode ⟨[(0, 2)], [], 1⟩

/-- The second box is counted, and has the points of the first. -/
theorem solutions_counted_two : main twoIntervals.print = some (solutions 1 twoIntervals.boxes).ncard := by
  have hboxes : twoIntervals.boxes = [⟨[(0, 1)], [], 1⟩, ⟨[(0, 2)], [], 1⟩] := by decide +kernel
  have hread : Readable [(0, 2)] := ⟨by norm_num, by norm_num, fun _ => trivial⟩
  rw [solutions_counted_iff Nat.zero_lt_one (by rw [hboxes]; exact List.cons_ne_nil _ _), hboxes]
  · refine ⟨List.forall_mem_singleton.2 hread, ?_⟩
    rintro z ⟨hz, b, hb, hx⟩
    rw [List.mem_singleton.1 hb, inBox_singleton] at hx
    refine ⟨hz, _, List.mem_singleton_self _, inBox_singleton.2 ⟨by simpa using hx.1, ?_⟩⟩
    exact hx.2.trans (by norm_num)
  · rw [hboxes]
    simp only [List.forall_mem_cons]
    exact ⟨⟨List.forall_mem_singleton.2 ⟨0, 1, by norm_num⟩, rfl, by decide⟩,
      ⟨List.forall_mem_singleton.2 ⟨0, 2, by norm_num⟩, rfl, by decide⟩, List.forall_mem_nil _⟩

/-- A single box is taken for the header: 0 solutions are printed for the point 3. -/
theorem solutions_header_lost : (main (Ll.new ⟨[(3, 3)], [], 1⟩).print = some 0) ∧
    [3] ∈ solutions 1 (Ll.new ⟨[(3, 3)], [], 1⟩).boxes := by
  have hboxes : (Ll.new ⟨[(3, 3)], [], 1⟩).boxes = [⟨[(3, 3)], [], 1⟩] := by decide +kernel
  refine ⟨by decide +kernel, rfl, _, by rw [hboxes]; exact List.mem_singleton_self _, inBox_singleton.2 ?_⟩
  norm_num

end CountSolutions

end GridSolve.Grid
