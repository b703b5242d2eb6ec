/-
`class multinomial` and its operators (`multinomial.hpp`, `polynomial.cpp`). A multinomial is a
constant or a node: a symbol and a `std::map` from `uint16_t` exponents to coefficients that are
multinomials themselves. Coefficients are exact rationals, a map is the list of its entries in key
order. The `save` flag decides whether an operator copies its operand or updates it in place; an
operand that is consumed is not used again, so each operator returns the value that results, and
the two paths differ only in where they simplify.
-/
import Mathlib.Data.List.Sort
import Mathlib.Data.Rat.Defs
import Mathlib.Algebra.Order.Ring.Unbundled.Rat

namespace GridSolve.Poly

/-- `class symbol`: an id from the global counter and whether it is a template. -/
structure Symbol where
  id : ℕ
  isTempl : Bool
  deriving DecidableEq, Repr

/-- `class multinomial`; `const` is the case `prim_key == NULL`, where `mp[0]` holds a double. -/
inductive Multinomial where
  | const (save : Bool) (c : ℚ)
  | node (save : Bool) (primKey : Symbol) (mp : List (UInt16 × Multinomial))
  deriving Repr

/-- The entries of a node, `std::map<uint16_t, void*>`. -/
abbrev Entries := List (UInt16 × Multinomial)

mutual

def Multinomial.decEq : (p q : Multinomial) → Decidable (p = q)
  | .const s c, .const s' c' => decidable_of_iff (s = s' ∧ c = c') (by simp)
  | .const _ _, .node _ _ _ => isFalse (by simp)
  | .node _ _ _, .const _ _ => isFalse (by simp)
  | .node s k mp, .node s' k' mp' =>
    match Multinomial.decEqMp mp mp' with
    | isTrue h => decidable_of_iff (s = s' ∧ k = k') (by simp [h])
    | isFalse h => isFalse (by simp [h])

def Multinomial.decEqMp : (mp mq : Entries) → Decidable (mp = mq)
  | [], [] => isTrue rfl
  | [], _ :: _ => isFalse (by simp)
  | _ :: _, [] => isFalse (by simp)
  | (e, p) :: mp, (e', q) :: mq =>
    match Multinomial.decEq p q, Multinomial.decEqMp mp mq with
    | isTrue h, isTrue h' => decidable_of_iff (e = e') (by simp [h, h'])
    | isFalse h, _ => isFalse (by simp [h])
    | _, isFalse h => isFalse (by simp [h])

end

instance : DecidableEq Multinomial := Multinomial.decEq

/-- The loop over the entries of a map that gives each key a new coefficient. -/
def Entries.mapVals (f : UInt16 → Multinomial → Multinomial) (mp : Entries) : Entries :=
  mp.map fun x => (x.1, f x.1 x.2)

/-- `mp[k] = v`: replaces the entry of a key that is present, inserts a new one in key order. -/
def Entries.put (k : UInt16) (v : Multinomial) (mp : Entries) : Entries :=
  if (mp.lookup k).isSome then mp.mapVals fun e c => if e = k then v else c
  else mp.orderedInsert (fun x y => x.1 ≤ y.1) (k, v)

namespace Multinomial

/-- `multinomial(symbol*, bool)`: the polynomial of one symbol. -/
def var (k : Symbol) (save : Bool) : Multinomial :=
  .node save k [(0, .const save 0), (1, .const save 1)]

def save : Multinomial → Bool
  | .const s _ => s
  | .node s _ _ => s

/-- `mp`, empty for a constant. -/
def mp : Multinomial → Entries
  | .const _ _ => []
  | .node _ _ mp => mp

mutual

/-- `set_save`. -/
def setSave (asave : Bool) : Multinomial → Multinomial
  | .const _ c => .const asave c
  | .node s k mp => if s = asave then .node s k mp else .node asave k (setSaveMp asave mp)

def setSaveMp (asave : Bool) : Entries → Entries
  | [] => []
  | (e, m) :: mp => (e, setSave asave m) :: setSaveMp asave mp

end

mutual

/-- `*temp = m` for a fresh `temp`: a deep copy of a saved operand, a move of an unsaved one. -/
def copy : Multinomial → Multinomial
  | .const _ c => .const false c
  | .node true k mp => .node false k (copyMp mp)
  | .node false k mp => .node false k mp

def copyMp : Entries → Entries
  | [] => []
  | (e, m) :: mp => (e, copy m) :: copyMp mp

end

def isZero : Multinomial → Bool
  | .const _ c => c == 0
  | .node _ _ _ => false

/-- `simplify`: erases the entries that are the constant 0, collapses an empty node to the
constant 0 and puts the exponent-0 entry back. -/
def simplify : Multinomial → Multinomial
  | .node false k mp =>
    let mp' := mp.filter fun x => !x.2.isZero
    if mp'.isEmpty then .const false 0
    else if (mp'.lookup 0).isSome then .node false k mp'
    else .node false k ((0, .const false 0) :: mp')
  | m => m

mutual

/-- `operator+(const double&)`. -/
def addDouble (m : ℚ) : Multinomial → Multinomial
  | .const _ c => .const false (c + m)
  | .node false k mp =>
    let mp' := if (mp.lookup 0).isSome then addDoubleMp false m mp else (0, .const false (0 + m)) :: mp
    -- zero simplification
    if mp'.length = 1 ∧ mp'.all (·.2.isZero) then .const false 0 else .node false k mp'
  | .node true k mp => simplify (.node false k (addDoubleMp true m mp))

/-- Adds `m` to the exponent-0 entry; the saved path copies the others. -/
def addDoubleMp (saved : Bool) (m : ℚ) : Entries → Entries
  | [] => []
  | (e, a) :: mp =>
    (e, if e = 0 then addDouble m a else if saved then copy a else a) :: addDoubleMp saved m mp

end

mutual

/-- `operator*(const double&)`. -/
def mulDouble (c : ℚ) : Multinomial → Multinomial
  | .const _ v => .const false (v * c)
  | .node false k mp => if c = 0 then .const false 0 else .node false k (mulDoubleMp c mp)
  | .node true k mp => simplify (.node false k (mulDoubleMp c mp))

def mulDoubleMp (c : ℚ) : Entries → Entries
  | [] => []
  | (e, a) :: mp => (e, mulDouble c a) :: mulDoubleMp c mp

end

mutual

/-- The number of nodes, the fuel of the binary operators. -/
def size : Multinomial → ℕ
  | .const _ _ => 1
  | .node _ _ mp => 1 + sizeMp mp

def sizeMp : Entries → ℕ
  | [] => 0
  | (_, m) :: mp => size m + sizeMp mp

end

/-- The coefficient of one exponent of the left operand, `plus` adding the one `mq` has. -/
def joinCoef (plus : Multinomial → Multinomial → Multinomial) (mq : Entries) (e : UInt16) (a : Multinomial) :
    Multinomial :=
  match mq.lookup e with
  | none => a.copy
  | some b => plus a b

/-- The third branch of `operator+(multinomial&)`, two nodes of one symbol: the exponents of the
left operand, then those only the right one has. -/
def mergeMp (plus : Multinomial → Multinomial → Multinomial) (mp mq : Entries) : Entries :=
  mq.foldl (fun acc b => if (mp.lookup b.1).isNone then acc.put b.1 b.2.copy else acc)
    (mp.mapVals (joinCoef plus mq))

/-- `operator+(multinomial&)` on `fuel` levels; `add` supplies enough. -/
def addFuel : ℕ → Multinomial → Multinomial → Multinomial
  | 0, p, _ => p
  | fuel + 1, p, q =>
    match p, q with
    | .const _ c, q => addDouble c q
    | p, .const _ c => addDouble c p
    | .node sp k mp, .node sq l mq =>
      if k.id > l.id then
        .node false l (Entries.mapVals (fun e a => if e = 0 then addFuel fuel a (.node sp k mp) else a.copy) mq)
      else if k.id < l.id then
        .node false k (Entries.mapVals (fun e a => if e = 0 then addFuel fuel a (.node sq l mq) else a.copy) mp)
      else simplify (.node false k (mergeMp (addFuel fuel) mp mq))

/-- `operator+(multinomial&)`. -/
def add (p q : Multinomial) : Multinomial := addFuel (p.size + q.size) p q

/-- An operand used once for each of `sz` entries: an unsaved one is marked saved and gets its
flag back for the last use, which may consume it. -/
def held (isSave : Bool) (sz : ℕ) (last : Bool) (m : Multinomial) : Multinomial :=
  if sz > 1 ∧ isSave = false then
    if last then (m.setSave true).setSave isSave else m.setSave true
  else m

/-- The loop over the entries of a map with the flag of its last iteration. -/
def mapLast {α β : Type} (f : Bool → α → β) : List α → List β
  | [] => []
  | [x] => [f true x]
  | x :: y :: xs => f false x :: mapLast f (y :: xs)

/-- `ans->mp[k]` after one product of the double loop: set, or added to what is there. -/
def accumulate (ans : Entries) (k : UInt16) (prod : Multinomial) : Entries :=
  match ans.lookup k with
  | none => ans.put k prod
  | some x => ans.put k (add x prod)

/-- The products of the double loop over two nodes of one symbol, in the order it makes them. The
exponents are added as `int`s and narrowed to the `uint16_t` key. -/
def crossMp (times : Multinomial → Multinomial → Multinomial) (sp : Bool) (mp : Entries)
    (q : Multinomial) : List (UInt16 × Multinomial) :=
  (mapLast (fun lasta (a : UInt16 × Multinomial) =>
    let mq := (held q.save mp.length lasta q).mp
    mapLast (fun lastb (b : UInt16 × Multinomial) =>
      (a.1 + b.1, times (held sp mq.length lastb a.2) b.2)) mq) mp).flatten

/-- `operator*(multinomial&)` on `fuel` levels; `mul` supplies enough. -/
def mulFuel : ℕ → Multinomial → Multinomial → Multinomial
  | 0, p, _ => p
  | fuel + 1, p, q =>
    match p, q with
    | .const _ c, q => mulDouble c q
    | p, .const _ c => mulDouble c p
    | .node sp k mp, .node sq l mq =>
      if k.id > l.id then
        simplify (.node false l (mapLast (fun last a =>
          (a.1, mulFuel fuel a.2 (held sp mq.length last (.node sp k mp)))) mq))
      else if k.id < l.id then
        simplify (.node false k (mapLast (fun last a =>
          (a.1, mulFuel fuel a.2 (held sq mp.length last (.node sq l mq)))) mp))
      else
        simplify (.node false k ((crossMp (mulFuel fuel) sp mp (.node sq l mq)).foldl
          (fun ans x => accumulate ans x.1 x.2) []))

/-- `operator*(multinomial&)`. -/
def mul (p q : Multinomial) : Multinomial := mulFuel (p.size + q.size) p q

mutual

/-- `get_degree`, a `uint32_t`: the flag is not passed on, the coefficients are asked with its default `true`. -/
def getDegree : Bool → Multinomial → ℕ
  | _, .const _ _ => 0
  | countTemplate, .node _ k mp => if !countTemplate && k.isTempl then 0 else getDegreeMp mp

def getDegreeMp : Entries → ℕ
  | [] => 0
  | (e, m) :: mp => max ((e.toNat + getDegree true m) % 4294967296) (getDegreeMp mp)

end

mutual

/-- `reduce`: the coefficients of the monomials in the non-template symbols. -/
def reduce : Multinomial → List Multinomial
  | .const s c => [.const s c]
  | .node s k mp => if k.isTempl then [.node s k mp] else reduceMp mp

def reduceMp : Entries → List Multinomial
  | [] => []
  | (_, m) :: mp => reduce m ++ reduceMp mp

end

mutual

/-- `ret_id_arr`: the ids of the symbols, in the order of the tree. -/
def retIdArr : Multinomial → List ℕ
  | .const _ _ => []
  | .node _ k mp => k.id :: retIdArrMp mp

def retIdArrMp : Entries → List ℕ
  | [] => []
  | (_, m) :: mp => retIdArr m ++ retIdArrMp mp

end

mutual

/-- `cmp_poly`: some symbol of the polynomial has its id in `v`. -/
def cmpPoly (v : List ℕ) : Multinomial → Bool
  | .const _ _ => false
  | .node _ k mp => v.contains k.id || cmpPolyMp v mp

def cmpPolyMp (v : List ℕ) : Entries → Bool
  | [] => false
  | (_, m) :: mp => cmpPoly v m || cmpPolyMp v mp

end

mutual

/-- The symbols on the nodes of the tree. -/
def symbols : Multinomial → List Symbol
  | .const _ _ => []
  | .node _ k mp => k :: symbolsMp mp

def symbolsMp : Entries → List Symbol
  | [] => []
  | (_, m) :: mp => symbols m ++ symbolsMp mp

end

/-! ## The entry loops as list functions -/

theorem setSaveMp_eq (a : Bool) (mp : Entries) : setSaveMp a mp = mp.mapVals fun _ c => c.setSave a := by
  induction mp with
  | nil => rfl
  | cons x mp ih => simp [setSaveMp, ih, Entries.mapVals]

theorem copyMp_eq (mp : Entries) : copyMp mp = mp.mapVals fun _ c => c.copy := by
  induction mp with
  | nil => rfl
  | cons x mp ih => simp [copyMp, ih, Entries.mapVals]

theorem addDoubleMp_eq (saved : Bool) (m : ℚ) (mp : Entries) : addDoubleMp saved m mp =
    mp.mapVals fun e c => if e = 0 then c.addDouble m else if saved then c.copy else c := by
  induction mp with
  | nil => rfl
  | cons x mp ih => simp [addDoubleMp, ih, Entries.mapVals]

theorem mulDoubleMp_eq (c : ℚ) (mp : Entries) : mulDoubleMp c mp = mp.mapVals fun _ a => a.mulDouble c := by
  induction mp with
  | nil => rfl
  | cons x mp ih => simp [mulDoubleMp, ih, Entries.mapVals]

theorem size_mem {mp : Entries} {x : UInt16 × Multinomial} (h : x ∈ mp) : x.2.size ≤ sizeMp mp := by
  induction mp with
  | nil => cases h
  | cons y mp ih =>
    simp only [sizeMp]
    rcases List.mem_cons.1 h with rfl | h
    · omega
    · have := ih h; omega

theorem reduceMp_eq (mp : Entries) : reduceMp mp = mp.flatMap fun x => x.2.reduce := by
  induction mp with
  | nil => rfl
  | cons x mp ih => simp [reduceMp, ih]

theorem retIdArrMp_eq (mp : Entries) : retIdArrMp mp = mp.flatMap fun x => x.2.retIdArr := by
  induction mp with
  | nil => rfl
  | cons x mp ih => simp [retIdArrMp, ih]

theorem cmpPolyMp_eq (v : List ℕ) (mp : Entries) : cmpPolyMp v mp = mp.any fun x => x.2.cmpPoly v := by
  induction mp with
  | nil => rfl
  | cons x mp ih => simp [cmpPolyMp, ih]

theorem symbolsMp_eq (mp : Entries) : symbolsMp mp = mp.flatMap fun x => x.2.symbols := by
  induction mp with
  | nil => rfl
  | cons x mp ih => simp [symbolsMp, ih]

/-- Induction on the tree, with the hypothesis for every entry of a node. -/
@[induction_eliminator]
theorem ind {P : Multinomial → Prop} (const : ∀ s c, P (.const s c))
    (node : ∀ s k mp, (∀ x ∈ mp, P x.2) → P (.node s k mp)) (m : Multinomial) : P m :=
  @Multinomial.rec P (fun mp => ∀ x ∈ mp, P x.2) (fun x => P x.2) const node
    (fun _ h => by cases h)
    (fun _ _ hx hmp y hy => by
      rcases List.mem_cons.1 hy with rfl | hy
      · exact hx
      · exact hmp y hy)
    (fun _ _ h => h) m

end Multinomial

end GridSolve.Poly
