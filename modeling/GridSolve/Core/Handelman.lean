/-
`class handelman_core` with the `vars` and the `solver` it writes to (`handelman_core.cpp`,
`vars.cpp`, `solver.hpp`). `gen_pol` builds the sum of products of left-hand sides and creates a
template for each product on the way, so the state it threads is the symbol counter, the variable
table and the constraint lists. The exits of the code that are not a result (the symbol limit's
`throw`, an index outside `var_arr`, a signed overflow) are errors of the model, and so is the end
of the fuel, which stands for the call depth.
-/
import GridSolve.Poly.Reduce

namespace GridSolve.Core

open GridSolve.Poly

/-- How a call ends without a result. -/
inductive Err where
  | symLimit
  | outOfRange
  | intOverflow
  | outOfFuel
  deriving DecidableEq, Repr

/-- `class vars`: the variables and the index of each name, an `int`. -/
structure Vars where
  varArr : List Multinomial
  mp : List (String × ℤ)
  deriving DecidableEq, Repr

/-- `vars::is_templ`; the entries of `var_arr` are variables. -/
def Vars.isTempl (v : Vars) (idx : ℕ) : Bool :=
  match v.varArr[idx]? with
  | some (.node _ k _) => k.isTempl
  | _ => true

/-- The constraints of `class solver`: `eq` are equations with zero, `ineq` are `≥ 0`. -/
structure Solver where
  eq : List Multinomial
  ineq : List Multinomial
  deriving DecidableEq, Repr

/-- The state `gen_pol` works on: `NUM_SYMBOLS`, the variables and the solver of the core. -/
structure World where
  numSymbols : ℕ
  v : Vars
  s : Solver
  deriving DecidableEq, Repr

/-- `SYM_LIMIT`, `UINT32_MAX`. -/
def symLimit : ℕ := 4294967295

/-- `symbol(bool)`: the next id, or the throw at the limit. -/
def World.symbol (isTempl : Bool) (w : World) : Except Err (Symbol × World) :=
  if w.numSymbols ≥ symLimit then .error .symLimit
  else .ok (⟨w.numSymbols, isTempl⟩, { w with numSymbols := w.numSymbols + 1 })

/-- `mp[name] = size`, with the size converted to `int`. -/
def Vars.setIndex (name : String) (size : ℕ) (mp : List (String × ℤ)) : List (String × ℤ) :=
  (name, (size : ℤ).bmod 4294967296) :: mp.filter fun x => x.1 ≠ name

/-- The name `add_var` uses: the given one, with the position appended if it is empty or taken. -/
def Vars.freshName (v : Vars) (aname : String) : String :=
  if aname = "" ∨ (v.mp.lookup aname).isSome then aname ++ "var_" ++ toString v.varArr.length else aname

/-- `vars::add_var(bool, std::string)`. -/
def World.addVar (aisTemplate : Bool) (aname : String) (w : World) : Except Err (String × World) := do
  let name := w.v.freshName aname
  let mp := Vars.setIndex name w.v.varArr.length w.v.mp
  let (k, w) ← w.symbol aisTemplate
  return (name, { w with v := { varArr := w.v.varArr ++ [.var k true], mp } })

/-- `vars::operator[](int)`. -/
def Vars.byIndex (v : Vars) (idx : ℤ) : Except Err Multinomial :=
  if idx < 0 then .error .outOfRange
  else match v.varArr[idx.toNat]? with
    | some m => .ok m
    | none => .error .outOfRange

/-- `vars::operator[](std::string)`. -/
def Vars.byName (v : Vars) (name : String) : Except Err Multinomial := v.byIndex ((v.mp.lookup name).getD 0)

/-- `solver::add(multinomial&, bool)`: stores a copy. -/
def Solver.add (m : Multinomial) (isIneq : Bool) (s : Solver) : Solver :=
  let t := (m.setSave true).copy
  if isIneq then { s with ineq := s.ineq ++ [t] } else { s with eq := s.eq ++ [t] }

/-- `class handelman_core`; its solver is part of the `World`. -/
structure Handelman where
  lhs : List Multinomial
  lhsDegree : List ℕ
  rhsArr : List Multinomial
  maxDeg : ℤ
  deriving DecidableEq, Repr

namespace Handelman

/-- `handelman_core(vars&)`. -/
def new : Handelman := { lhs := [], lhsDegree := [], rhsArr := [], maxDeg := 2 }

/-- The saved copy of an operand that `add_lhs` and `add_rhs` keep. -/
def stored (e : Multinomial) : Multinomial := (e.setSave true).copy.setSave true

/-- `add_lhs`. -/
def addLhs (e : Multinomial) (h : Handelman) : Handelman := { h with lhs := h.lhs ++ [stored e] }

/-- `add_rhs`. -/
def addRhs (e : Multinomial) (h : Handelman) : Handelman := { h with rhsArr := h.rhsArr ++ [stored e] }

/-- `set_max_degree`: 0 asks for the largest degree of a right-hand side. -/
def setMaxDegree (adeg : ℤ) (h : Handelman) : Handelman :=
  if adeg = 0 then { h with maxDeg := h.rhsArr.foldl (fun d rhs => max (rhs.getDegree false : ℤ) d) h.maxDeg }
  else { h with maxDeg := adeg }

/-- `make_deg_arr`. -/
def makeDegArr (h : Handelman) : Handelman := { h with lhsDegree := h.lhs.map (·.getDegree false) }

/-- `*lhs[j]`. -/
def lhsAt (h : Handelman) (j : ℕ) : Multinomial := h.lhs.getD j (.const true 0)

/-- `lhs_degree[j]`. -/
def degAt (h : Handelman) (j : ℕ) : ℕ := h.lhsDegree.getD j 0

/-- One turn of the loop of `gen_pol`, `rec` the recursive call. -/
def genStep (h : Handelman) (idArr : List ℕ) (currDeg : ℕ)
    (rec : ℕ → ℕ → World → Except Err (Multinomial × World)) (acc : Multinomial × World) (j : ℕ) :
    Except Err (Multinomial × World) :=
  if currDeg + h.degAt j ≥ 2147483648 then .error .intOverflow
  else if ((currDeg + h.degAt j : ℕ) : ℤ) ≤ h.maxDeg ∧ (h.lhsAt j).cmpPoly idArr then do
    let (p, w) ← rec (currDeg + h.degAt j) j acc.2
    return (acc.1.add ((h.lhsAt j).mul p), w)
  else .ok acc

/-- The end of `gen_pol`: a new template, its inequality, and the template as a multinomial. -/
def addTemplate (w : World) : Except Err (Multinomial × World) := do
  let (ref, w) ← w.addVar true "additive_template"
  let t ← w.v.byName ref
  return (t, { w with s := w.s.add t true })

/-- `gen_pol(curr_deg, first_index, id_arr)`. -/
def genPol (h : Handelman) (idArr : List ℕ) : ℕ → ℕ → ℕ → World → Except Err (Multinomial × World)
  | 0, _, _, _ => .error .outOfFuel
  | fuel + 1, currDeg, firstIndex, w => do
    let (ans, w) ← (List.range' firstIndex (h.lhs.length - firstIndex)).foldlM
      (genStep h idArr currDeg (genPol h idArr fuel)) (.const false 0, w)
    let (t, w) ← addTemplate w
    return (ans.add t, w)

/-- The body of the loop of `solve` over the right-hand sides. -/
def solveRhs (h : Handelman) (fuel : ℕ) (w : World) (rhs : Multinomial) : Except Err World := do
  let (p, w) ← h.genPol rhs.retIdArr fuel 0 0 w
  let toSolve := p.add (rhs.mulDouble (-1))
  return { w with s := toSolve.reduce.foldl (fun s a => s.add a false) w.s }

/-- `solve(3, silent)`: adds the constraints and calls no solver. -/
def solve (h : Handelman) (fuel : ℕ) (w : World) : Except Err World :=
  h.rhsArr.foldlM (h.makeDegArr.solveRhs fuel) w

end Handelman

end GridSolve.Core
