/-
JSON texts without blanks, made of strings and objects. An object is a dictionary: reading it, a key
that comes again keeps its place and gets the later value. Strings with escapes, numbers, lists and
the constants are not read. A value whose strings are plain and whose keys differ is read back from
its text.
-/
import Mathlib.Tactic

namespace GridSolve.Json

/-- A string or an object with its fields in order. -/
inductive Value
  | str (s : List Char)
  | obj (fields : List (List Char × Value))

/-- `d[key] = v`. -/
def assign (key : List Char) (v : Value) : List (List Char × Value) → List (List Char × Value)
  | [] => [(key, v)]
  | (k, u) :: d => if k = key then (k, v) :: d else (k, u) :: assign key v d

/-- The text behind the character `c`. -/
def expect (c : Char) : List Char → Option (List Char)
  | [] => none
  | d :: cs => if d = c then some cs else none

/-- The rest of a string up to its quote, and what follows. -/
def quoted : List Char → Option (List Char × List Char)
  | [] => none
  | c :: cs =>
    if c = '"' then some ([], cs)
    else if c = '\\' || c.toNat < 32 then none
    else (quoted cs).map fun r => (c :: r.1, r.2)

mutual

/-- Reads a value from the front of a text. -/
def readValue : ℕ → List Char → Option (Value × List Char)
  | 0, _ => none
  | fuel + 1, cs =>
    match expect '"' cs, expect '\x7b' cs with
    | some cs, _ => (quoted cs).map fun r => (.str r.1, r.2)
    | _, some cs =>
      match expect '\x7d' cs with
      | some cs => some (.obj [], cs)
      | none => (readMembers fuel [] cs).map fun r => (.obj r.1, r.2)
    | _, _ => none

/-- Reads the fields of an object up to its end, `d` those read so far. -/
def readMembers : ℕ → List (List Char × Value) → List Char → Option (List (List Char × Value) × List Char)
  | 0, _, _ => none
  | fuel + 1, d, cs => do
    let cs ← expect '"' cs
    let (key, cs) ← quoted cs
    let cs ← expect ':' cs
    let (v, cs) ← readValue fuel cs
    match expect ',' cs with
    | some cs => readMembers fuel (assign key v d) cs
    | none => (expect '\x7d' cs).map fun cs => (assign key v d, cs)

end

/-- A text that is one value. -/
def loads (cs : List Char) : Option Value :=
  match readValue cs.length cs with
  | some (v, []) => some v
  | _ => none

/-! ## Texts -/

/-- A string in its quotes. -/
def quote (s : List Char) : List Char := '"' :: (s ++ ['"'])

mutual

/-- The text of a value. -/
def Value.text : Value → List Char
  | .str s => quote s
  | .obj [] => ['\x7b', '\x7d']
  | .obj ((k, v) :: fs) => '\x7b' :: (quote k ++ ':' :: (v.text ++ restText fs))

/-- The fields behind the first, and the end of the object. -/
def restText : List (List Char × Value) → List Char
  | [] => ['\x7d']
  | (k, v) :: fs => ',' :: (quote k ++ ':' :: (v.text ++ restText fs))

end

/-- No quote, no escape and no control character. -/
def PlainText (s : List Char) : Prop := ∀ c ∈ s, c ≠ '"' ∧ c ≠ '\\' ∧ 32 ≤ c.toNat

mutual

/-- All strings are plain, and no object has a key twice. -/
def Value.Plain : Value → Prop
  | .str s => PlainText s
  | .obj fs => (fs.map Prod.fst).Nodup ∧ PlainFields fs

def PlainFields : List (List Char × Value) → Prop
  | [] => True
  | (k, v) :: fs => PlainText k ∧ v.Plain ∧ PlainFields fs

end

/-- The test of every character. -/
theorem plainText_of_all {s : List Char} (h : (s.all fun c => c != '"' && (c != '\\' && 32 ≤ c.toNat)) = true) :
    PlainText s := by
  intro c hc
  simpa using List.all_eq_true.1 h c hc

/-! ## Reading a text back -/

theorem expect_self (c : Char) (cs : List Char) : expect c (c :: cs) = some cs := if_pos rfl

theorem expect_ne {c d : Char} (h : d ≠ c) (cs : List Char) : expect c (d :: cs) = none := if_neg h

theorem quoted_plain {s : List Char} (h : PlainText s) (rest : List Char) :
    quoted (s ++ '"' :: rest) = some (s, rest) := by
  induction s with
  | nil => simp [quoted]
  | cons c s ih =>
    obtain ⟨⟨hquote, hslash, hctrl⟩, hs⟩ := List.forall_mem_cons.1 h
    rw [List.cons_append, quoted, if_neg hquote, if_neg (by simpa [hslash] using hctrl), ih hs]
    rfl

theorem quote_append (s rest : List Char) : quote s ++ rest = '"' :: (s ++ '"' :: rest) := by simp [quote]

theorem assign_of_notMem {key : List Char} (v : Value) : ∀ {d : List (List Char × Value)}, key ∉ d.map Prod.fst →
    assign key v d = d ++ [(key, v)]
  | [], _ => rfl
  | (k, u) :: d, h => by
    rw [List.map_cons, List.mem_cons, not_or] at h
    rw [assign, if_neg (Ne.symm h.1), assign_of_notMem v h.2, List.cons_append]

theorem length_text_pos (v : Value) : 0 < v.text.length := by
  unfold Value.text
  split <;> simp [quote]

/-- The fields of an object from a new key on, if its value is read back. -/
theorem readMembers_step {k : List Char} {v : Value} {d : List (List Char × Value)} (hk : PlainText k)
    (hd : k ∉ d.map Prod.fst) {fuel : ℕ} {rest : List Char} (hv : readValue fuel (v.text ++ rest) = some (v, rest)) :
    readMembers (fuel + 1) d (quote k ++ ':' :: (v.text ++ rest)) =
      match expect ',' rest with
      | some cs => readMembers fuel (d ++ [(k, v)]) cs
      | none => (expect '\x7d' rest).map fun cs => (d ++ [(k, v)], cs) := by
  rw [readMembers, quote_append, expect_self]
  simp only [Option.bind_eq_bind, Option.bind_some, quoted_plain hk, expect_self, hv, assign_of_notMem v hd]

mutual

theorem readValue_text : ∀ (v : Value) (rest : List Char) {fuel : ℕ}, v.Plain → v.text.length ≤ fuel →
    readValue fuel (v.text ++ rest) = some (v, rest)
  | v, _, 0, _, hfuel => absurd (length_text_pos v) (by omega)
  | .str s, rest, fuel + 1, hv, _ => by
    rw [Value.text, quote_append, readValue, expect_self]
    simp only [quoted_plain hv, Option.map_some]
  | .obj [], rest, fuel + 1, _, _ => rfl
  | .obj ((k, v) :: fs), rest, fuel + 1, hv, hfuel => by
    have hlen : (quote k ++ ':' :: (v.text ++ restText fs)).length ≤ fuel := by simpa [Value.text] using hfuel
    have hmembers := readMembers_text fs k v [] rest hv.2 hv.1 hlen
    rw [Value.text, List.cons_append, readValue, expect_self, expect_ne (by decide)]
    have hnext : expect '\x7d' (quote k ++ ':' :: (v.text ++ restText fs) ++ rest) = none := expect_ne (by decide) _
    simp only [hnext]
    rw [List.append_assoc, List.cons_append, List.append_assoc, hmembers]
    rfl

theorem readMembers_text : ∀ (fs : List (List Char × Value)) (k : List Char) (v : Value) (d : List (List Char × Value))
    (rest : List Char) {fuel : ℕ}, PlainFields ((k, v) :: fs) → (d.map Prod.fst ++ k :: fs.map Prod.fst).Nodup →
    (quote k ++ ':' :: (v.text ++ restText fs)).length ≤ fuel →
    readMembers fuel d (quote k ++ ':' :: (v.text ++ (restText fs ++ rest))) = some (d ++ (k, v) :: fs, rest)
  | _, _, _, _, _, 0, _, _, hfuel => absurd hfuel (by simp [quote])
  | fs, k, v, d, rest, fuel + 1, ⟨hk, hv, hfs⟩, hd, hfuel => by
    have hnew : k ∉ d.map Prod.fst := fun hmem => (List.nodup_append.1 hd).2.2 k hmem k List.mem_cons_self rfl
    have hlen : v.text.length + (restText fs).length + 2 ≤ fuel := by
      simp only [List.length_append, List.length_cons, quote, List.length_nil] at hfuel
      omega
    rw [readMembers_step hk hnew (readValue_text v (restText fs ++ rest) hv (by omega))]
    match fs, hfs, hd, hlen with
    | [], _, _, _ => rfl
    | (k', v') :: fs, hfs, hd, hlen =>
      have hd' : ((d ++ [(k, v)]).map Prod.fst ++ k' :: fs.map Prod.fst).Nodup := by simpa using hd
      have hshort : (quote k' ++ ':' :: (v'.text ++ restText fs)).length ≤ fuel := by
        rw [restText, List.length_cons] at hlen
        omega
      have hmembers := readMembers_text fs k' v' (d ++ [(k, v)]) rest hfs hd' hshort
      rw [restText, List.cons_append, expect_self]
      simp only [List.append_assoc, List.cons_append, List.nil_append] at hmembers ⊢
      exact hmembers

end

/-- A plain value is read back from its text. -/
theorem loads_text {v : Value} (h : v.Plain) : loads v.text = some v := by
  have hread := readValue_text v [] h le_rfl
  rw [List.append_nil] at hread
  rw [loads, hread]

end GridSolve.Json
