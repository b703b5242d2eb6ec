/-
The operators of `class multinomial` on memory (`multinomial.hpp`, `polynomial.cpp`). An object has a
symbol or none, a map from exponents to pointers and the `save` flag; a `double` is a cell of its own.
A saved operand is copied, an unsaved one is taken apart: its cells become part of the result or are
deleted, and objects that are no longer needed may be left behind. Reading, writing or deleting what has
been deleted is a fault. The entries of a map are visited in key order; the bodies of the loops do not
change the map that is visited, which is read once, but its object has to be alive in every turn.
-/
import GridSolve.Lib.Heap
import GridSolve.Lib.Keyed
import GridSolve.Poly.Multinomial

namespace GridSolve.Poly

open GridSolve.Heap GridSolve.Keyed

/-- An object of `class multinomial`. -/
structure Obj where
  primKey : Option Symbol
  mp : List (UInt16 × Addr)
  save : Bool

/-- A `double` or an object. -/
inductive Cell
  | num (c : ℚ)
  | obj (o : Obj)

namespace Mem

def getObj (p : Addr) : Prog Cell Obj := do
  match ← load p with
  | .obj o => pure o
  | .num _ => fault

def getNum (d : Addr) : Prog Cell ℚ := do
  match ← load d with
  | .num c => pure c
  | .obj _ => fault

def setObj (p : Addr) (o : Obj) : Prog Cell Unit := store p (.obj o)

/-- `*(double*)mp[0]`. -/
def value (o : Obj) : Prog Cell ℚ :=
  match o.mp.lookup 0 with
  | some d => getNum d
  | none => fault

/-- `new multinomial(c, save)`. -/
def new (c : ℚ) (save : Bool) : Prog Cell Addr := do
  let d ← alloc (.num c)
  alloc (.obj ⟨none, [(0, d)], save⟩)

/-- `p->prim_key = k`. -/
def setKey (p : Addr) (k : Option Symbol) : Prog Cell Unit := do
  let o ← getObj p
  setObj p { o with primKey := k }

/-- `p->mp[e] = x`. -/
def setEntry (p : Addr) (e : UInt16) (x : Addr) : Prog Cell Unit := do
  let o ← getObj p
  setObj p { o with mp := put e x o.mp }

def onlyIf (c : Bool) (x : Prog Cell Unit) : Prog Cell Unit := if c then x else pure ()

/-- The loop over the entries of the map of `m`. -/
def forEach (m : Addr) (body : UInt16 → Addr → Prog Cell Unit) : List (UInt16 × Addr) → Prog Cell Unit
  | [] => pure ()
  | (e, x) :: kids => do
    let _ ← getObj m
    body e x
    forEach m body kids

/-- `custom_delete`. -/
def customDelete : ℕ → Addr → Bool → Prog Cell Unit
  | 0, _, _ => fault
  | n + 1, p, nested => do
    let o ← getObj p
    setObj p { o with save := false }
    onlyIf nested (match o.primKey with
      | none => (match o.mp.lookup 0 with
        | some d => free d
        | none => pure ())
      | some _ => forEach p (fun _ x => do customDelete n x nested; free x) o.mp)
    setObj p ⟨none, [], false⟩

/-- `custom_delete(true)` and `delete`. -/
def destroy (n : ℕ) (p : Addr) : Prog Cell Unit := do
  customDelete n p true
  free p

/-- `set_save`. -/
def setSave : ℕ → Addr → Bool → Prog Cell Unit
  | 0, _, _ => fault
  | n + 1, p, asave => do
    let o ← getObj p
    if o.save = asave then pure ()
    else do
      setObj p { o with save := asave }
      match o.primKey with
      | none => pure ()
      | some _ => forEach p (fun _ x => setSave n x asave) o.mp

/-- `is_zero`. -/
def isZero (p : Addr) : Prog Cell Bool := do
  let o ← getObj p
  match o.primKey with
  | none => do
    let c ← value o
    pure (c == 0)
  | some _ => pure false

/-- The loop of `simplify`. -/
def eraseZeros (n : ℕ) (p : Addr) : List (UInt16 × Addr) → Prog Cell Unit
  | [] => pure ()
  | (e, x) :: kids => do
    let zero ← isZero x
    onlyIf zero (do
      destroy n x
      let o ← getObj p
      setObj p { o with mp := o.mp.filter fun y => y.1 != e })
    eraseZeros n p kids

/-- `simplify`. -/
def simplify (n : ℕ) (p : Addr) : Prog Cell Unit := do
  let o ← getObj p
  if o.save then pure ()
  else match o.primKey with
    | none => pure ()
    | some _ => do
      eraseZeros n p o.mp
      let o ← getObj p
      onlyIf o.mp.isEmpty (do
        let d ← alloc (.num 0)
        setObj p { o with primKey := none, mp := [(0, d)] })
      let o ← getObj p
      onlyIf (o.mp.lookup 0).isNone (do
        let z ← new 0 false
        setEntry p 0 z)

/-- `operator=`, `*t = *p`. -/
def assign : ℕ → Addr → Addr → Prog Cell Unit
  | 0, _, _ => fault
  | n + 1, t, p => do
    let rhs ← getObj p
    if rhs.save then do
      let o ← getObj t
      customDelete n t o.save
      setKey t rhs.primKey
      match rhs.primKey with
      | none => do
        let c ← value rhs
        let temp ← alloc (.num c)
        setEntry t 0 temp
      | some _ => forEach p (fun e x => do
          let temp ← new 0 false
          assign n temp x
          setEntry t e temp) rhs.mp
    else do
      setObj t rhs
      free p

/-- `new multinomial()` with a value assigned to it. -/
def copyOf (n : ℕ) (p : Addr) : Prog Cell Addr := do
  let temp ← new 0 false
  assign n temp p
  pure temp

/-- `*(double*)p->mp[0] = c`. -/
def setValue (p : Addr) (c : ℚ) : Prog Cell Unit := do
  let o ← getObj p
  match o.mp.lookup 0 with
  | some d => store d (.num c)
  | none => fault

/-- `operator+(const double&)`. -/
def addDouble : ℕ → Addr → ℚ → Prog Cell Addr
  | 0, _, _ => fault
  | n + 1, p, m => do
    let o ← getObj p
    match o.save, o.primKey with
    | false, none => do
      let c ← value o
      setValue p (c + m)
      pure p
    | false, some _ => do
      onlyIf (o.mp.lookup 0).isNone (do
        let z ← new 0 false
        setEntry p 0 z)
      let o ← getObj p
      match o.mp.lookup 0 with
      | none => fault
      | some a => do
        let r ← addDouble n a m
        setEntry p 0 r
        -- zero simplification
        let o ← getObj p
        let zero ← isZero r
        onlyIf (o.mp.length = 1 && zero) (do
          setKey p none
          destroy n r
          let d ← alloc (.num 0)
          setEntry p 0 d)
        pure p
    | true, key => do
      let ans ← new 0 false
      setKey ans key
      forEach p (fun e x =>
        if e = 0 then
          match key with
          | none => do
            let c ← getNum x
            setValue ans (c + m)
          | some _ => do
            let r ← addDouble n x m
            setEntry ans e r
        else do
          let temp ← copyOf n x
          setEntry ans e temp) o.mp
      simplify n ans
      pure ans

/-- `if(!p->save)` the tree is deleted. -/
def release (n : ℕ) (p : Addr) : Prog Cell Unit := do
  let o ← getObj p
  onlyIf (!o.save) (destroy n p)

/-- `if(!p->save)` the object is deleted, without what it points to. -/
def deleteObj (p : Addr) : Prog Cell Unit := do
  let o ← getObj p
  onlyIf (!o.save) (free p)

/-- The result of `*p + *q` for the nodes `m` at `q` and a `p` whose symbol comes later: the entries of `m`, and the
sum with `*p` at the exponent 0. -/
def addInto (n : ℕ) (add : Addr → Addr → Prog Cell Addr) (ans p q : Addr) (m : Obj) : Prog Cell Addr := do
  setKey ans m.primKey
  forEach q (fun e x => do
    let r ← if e = 0 then add x p else copyOf n x
    setEntry ans e r) m.mp
  deleteObj q
  pure ans

/-- The coefficient of one exponent of the left operand, the one of `q` added if it has one. -/
def joinCoef (n : ℕ) (add : Addr → Addr → Prog Cell Addr) (q : Addr) (e : UInt16) (x : Addr) : Prog Cell Addr := do
  let m ← getObj q
  match m.mp.lookup e with
  | none => copyOf n x
  | some y => do
    let r ← add x y
    copyOf n r

/-- The result of `*p + *q` for two nodes of one symbol: the exponents of `p`, then those only `q` has. -/
def addSame (n : ℕ) (add : Addr → Addr → Prog Cell Addr) (ans p q : Addr) (o m : Obj) : Prog Cell Addr := do
  setKey ans o.primKey
  forEach p (fun e x => do
    let r ← joinCoef n add q e x
    setEntry ans e r) o.mp
  forEach q (fun e y => do
    let o ← getObj p
    onlyIf (o.mp.lookup e).isNone (do
      let r ← copyOf n y
      setEntry ans e r)) m.mp
  deleteObj p
  onlyIf (p != q) (deleteObj q)
  simplify n ans
  pure ans

/-- `operator+(multinomial&)`. -/
def add : ℕ → Addr → Addr → Prog Cell Addr
  | 0, _, _ => fault
  | n + 1, p, q => do
    let o ← getObj p
    match o.primKey with
    | none => do
      let c ← value o
      let ans ← addDouble n q c
      release n p
      pure ans
    | some k => do
      let m ← getObj q
      match m.primKey with
      | none => do
        let c ← value m
        let ans ← addDouble n p c
        release n q
        pure ans
      | some l => do
        let ans ← new 0 false
        if k.id > l.id then addInto n (add n) ans p q m
        else if k.id < l.id then addInto n (add n) ans q p o
        else addSame n (add n) ans p q o m

/-- `operator*(const double&)`. -/
def mulDouble : ℕ → Addr → ℚ → Prog Cell Addr
  | 0, _, _ => fault
  | n + 1, p, c => do
    let o ← getObj p
    match o.save with
    | false =>
      if c = 0 then do
        let d ← alloc (.num 0)
        setObj p ⟨none, [(0, d)], false⟩
        pure p
      else
        match o.primKey with
        | none => do
          let v ← value o
          setValue p (v * c)
          pure p
        | some _ => do
          forEach p (fun e x => do
            let r ← mulDouble n x c
            setEntry p e r) o.mp
          pure p
    | true => do
      let ans ← new 0 false
      setKey ans o.primKey
      forEach p (fun e x =>
        match o.primKey with
        | none => do
          let v ← getNum x
          setValue ans (v * c)
        | some _ => do
          let r ← mulDouble n x c
          setEntry ans e r) o.mp
      simplify n ans
      pure ans

/-- The loop over the entries of `m` in a product: before its last turn `other` gets its flag back. -/
def heldLoop (n : ℕ) (m other : Addr) (isSave : Bool) (body : UInt16 → Addr → Prog Cell Unit) :
    ℕ → List (UInt16 × Addr) → Prog Cell Unit
  | _, [] => pure ()
  | sz, (e, x) :: kids => do
    let _ ← getObj m
    body e x
    onlyIf (sz - 1 = 1) (setSave n other isSave)
    heldLoop n m other isSave body (sz - 1) kids

/-- The product of nodes of two symbols, `m` at `q` the one whose symbol comes first: every entry of `m` with `*p`. -/
def mulInto (n : ℕ) (mul : Addr → Addr → Prog Cell Addr) (ans p q : Addr) (o m : Obj) : Prog Cell Addr := do
  setKey ans m.primKey
  onlyIf (m.mp.length > 1 && !o.save) (setSave n p true)
  heldLoop n q p o.save (fun e x => do
    let r ← mul x p
    setEntry ans e r) m.mp.length m.mp
  simplify n ans
  pure ans

/-- `ans->mp[e]` gets the product of two coefficients, or has it added. -/
def accumulate (n : ℕ) (mul : Addr → Addr → Prog Cell Addr) (ans : Addr) (e : UInt16) (x y : Addr) :
    Prog Cell Unit := do
  let o ← getObj ans
  match o.mp.lookup e with
  | none => do
    let r ← mul x y
    setEntry ans e r
  | some z => do
    let t ← mul x y
    let r ← add n z t
    setEntry ans e r

/-- The coefficient `x` of the exponent `a` with all `sz` coefficients of `q`. -/
def mulRow (n : ℕ) (mul : Addr → Addr → Prog Cell Addr) (ans q : Addr) (isSave : Bool) (sz : ℕ) (a : UInt16)
    (x : Addr) : Prog Cell Unit := do
  onlyIf (sz > 1 && !isSave) (setSave n x true)
  let m ← getObj q
  heldLoop n q x isSave (fun b y => accumulate n mul ans (a + b) x y) sz m.mp

/-- The product of two nodes of one symbol. -/
def mulSame (n : ℕ) (mul : Addr → Addr → Prog Cell Addr) (ans p q : Addr) (o m : Obj) : Prog Cell Addr := do
  setKey ans o.primKey
  onlyIf (o.mp.length > 1 && !m.save) (setSave n q true)
  heldLoop n p q m.save (mulRow n mul ans q o.save m.mp.length) o.mp.length o.mp
  onlyIf (!o.save) (free p)
  onlyIf (p != q && !m.save) (free q)
  simplify n ans
  pure ans

/-- `operator*(multinomial&)`. -/
def mul : ℕ → Addr → Addr → Prog Cell Addr
  | 0, _, _ => fault
  | n + 1, p, q => do
    let o ← getObj p
    let m ← getObj q
    let ans ← new 0 false
    setObj ans ⟨none, [], false⟩
    match o.primKey, m.primKey with
    | none, _ => do
      let c ← value o
      let r ← mulDouble n q c
      release n p
      pure r
    | some _, none => do
      let c ← value m
      let r ← mulDouble n p c
      onlyIf (!m.save) (destroy n q)
      pure r
    | some k, some l =>
      if k.id > l.id then mulInto n (mul n) ans p q o m
      else if k.id < l.id then mulInto n (mul n) ans q p m o
      else mulSame n (mul n) ans p q o m

/-- `operator^` at 2. -/
def square (n : ℕ) (p : Addr) : Prog Cell Addr := do
  let temp ← mulDouble n p 1
  setSave n temp true
  let ans ← mul n temp temp
  setSave n temp false
  destroy n temp
  pure ans

/-- What a turn of the loop does with the lowest bit. -/
def powBit (n cpow : ℕ) (ans temp : Addr) : Prog Cell Addr :=
  if cpow % 2 = 1 then do
    setSave n temp true
    let ans ← mul n ans temp
    setSave n temp false
    pure ans
  else pure ans

/-- The loop of `operator^`, for `cpow` of at most `turns` bits. -/
def powLoop (n : ℕ) : ℕ → ℕ → Addr → Addr → Prog Cell Addr
  | 0, _, ans, _ => pure ans
  | turns + 1, cpow, ans, temp =>
    if cpow = 0 then pure ans
    else do
      let ans ← powBit n cpow ans temp
      if cpow / 2 = 0 then pure ans
      else do
        let temp ← square n temp
        powLoop n turns (cpow / 2) ans temp

/-- `operator^`; a `uint16_t` has 16 bits. -/
def pow (n : ℕ) (p : Addr) (e : UInt16) : Prog Cell Addr :=
  if e = 2 then square n p
  else do
    let temp ← mulDouble n p 1
    if e = 1 then pure temp
    else do
      let ans ← new 1 false
      powLoop n 16 e.toNat ans temp

end Mem

end GridSolve.Poly
