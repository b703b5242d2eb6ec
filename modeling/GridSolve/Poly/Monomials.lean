/-
The monomials of a tree, and what `is_zero` and `simplify` can tell of a polynomial. Along paths
with increasing ids every constant of a tree stands for a monomial of its own, so a polynomial is
zero exactly when all its constants are. `is_zero` looks at the root only: a node that cancellation
has left with no constant but 0 is zero and not recognised, at the root and as a coefficient.
-/
import GridSolve.Poly.Power

namespace GridSolve.Poly

open MvPolynomial GridSolve.Specialize

namespace Multinomial

variable {b : ℕ}

/-! ## Monomials -/

mutual

/-- The paths to the constants other than 0, each with the exponents taken on it. -/
def monomials : Multinomial → List (List (Symbol × UInt16))
  | .const _ c => if c = 0 then [] else [[]]
  | .node _ k mp => monomialsMp k mp

def monomialsMp (k : Symbol) : Entries → List (List (Symbol × UInt16))
  | [] => []
  | (e, m) :: mp => (monomials m).map ((k, e) :: ·) ++ monomialsMp k mp

end

theorem monomialsMp_eq (k : Symbol) (mp : Entries) :
    monomialsMp k mp = mp.flatMap fun x => x.2.monomials.map ((k, x.1) :: ·) := by
  induction mp with
  | nil => rfl
  | cons x mp ih => rw [monomialsMp, ih, List.flatMap_cons]

theorem mem_monomials_node {s : Bool} {k : Symbol} {mp : Entries} {path : List (Symbol × UInt16)} :
    path ∈ (node s k mp).monomials ↔ ∃ x ∈ mp, ∃ rest ∈ x.2.monomials, (k, x.1) :: rest = path := by
  simp only [monomials, monomialsMp_eq, List.mem_flatMap, List.mem_map]

/-- The exponents of a path as those of a monomial. -/
noncomputable def expsOf (path : List (Symbol × UInt16)) : ℕ →₀ ℕ :=
  (path.map fun x => Finsupp.single x.1.id x.2.toNat).sum

theorem expsOf_cons (x : Symbol × UInt16) (path : List (Symbol × UInt16)) :
    expsOf (x :: path) = Finsupp.single x.1.id x.2.toNat + expsOf path := List.sum_cons

/-- The monomials of the denotation are those of the tree. -/
theorem Increasing.coeff_ne_zero_iff {m : Multinomial} (h : Increasing b m) {d : ℕ →₀ ℕ} :
    coeff d m.toMv ≠ 0 ↔ ∃ path ∈ m.monomials, expsOf path = d := by
  classical
  induction m generalizing b d with
  | const s c =>
    rw [toMv_const, coeff_C, monomials]
    by_cases hc : c = 0
    · simp [hc]
    · simp [hc, expsOf]
  | node s k mp ih =>
    obtain ⟨-, hnodup, hkids⟩ := increasing_node_iff.1 h
    have hfree : ∀ y ∈ powersMp mp, y.2.degreeOf k.id = 0 := by
      intro y hy
      obtain ⟨x, hx, rfl⟩ := List.mem_map.1 hy
      exact h.kids_free x hx
    have hkeys : ((powersMp mp).map Prod.fst).Nodup := toNat_nodup toMv hnodup
    rw [toMv_node_byPowers, coeff_byPowers_ne_zero_iff hkeys hfree]
    constructor
    · rintro ⟨y, hy, hdk, hc⟩
      obtain ⟨x, hx, rfl⟩ := List.mem_map.1 hy
      obtain ⟨rest, hrest, hexps⟩ := (ih x hx (hkids x hx)).1 hc
      refine ⟨(k, x.1) :: rest, mem_monomials_node.2 ⟨x, hx, rest, hrest, rfl⟩, ?_⟩
      have hdk : x.1.toNat = d k.id := hdk.symm
      rw [expsOf_cons, hexps, hdk, Finsupp.single_add_erase]
    · rintro ⟨path, hpath, rfl⟩
      obtain ⟨x, hx, rest, hrest, rfl⟩ := mem_monomials_node.1 hpath
      have hc := (ih x hx (hkids x hx)).2 ⟨rest, hrest, rfl⟩
      -- the symbol of the node does not occur in the rest of the path
      have hk0 : expsOf rest k.id = 0 := by
        by_contra hne
        exact hc (coeff_of_degreeOf_eq_zero (h.kids_free x hx) hne)
      refine ⟨(x.1.toNat, x.2.toMv), List.mem_map.2 ⟨x, hx, rfl⟩, ?_, ?_⟩
      · rw [expsOf_cons, Finsupp.add_apply, Finsupp.single_eq_same, hk0, add_zero]
      · rwa [expsOf_cons, Finsupp.erase_add, Finsupp.erase_single, zero_add,
          Finsupp.erase_of_notMem_support (by simpa using hk0)]

theorem Increasing.toMv_eq_zero_iff {m : Multinomial} (h : Increasing b m) : m.toMv = 0 ↔ m.monomials = [] := by
  rw [MvPolynomial.eq_zero_iff, List.eq_nil_iff_forall_not_mem]
  constructor
  · intro h0 path hpath
    exact h.coeff_ne_zero_iff.2 ⟨path, hpath, rfl⟩ (h0 _)
  · intro h0 d
    by_contra hc
    obtain ⟨path, hpath, -⟩ := h.coeff_ne_zero_iff.1 hc
    exact h0 path hpath

/-! ## Zero -/

/-- The value is 0 under every assignment. -/
def Vanishes (m : Multinomial) : Prop :=
  ∀ vals : List ℚ, (∀ k ∈ m.symbols, k.id < vals.length) → m.substitute vals = some 0

theorem vanishes_iff {m : Multinomial} : Vanishes m ↔ m.toMv = 0 := by
  constructor
  · intro h
    refine MvPolynomial.funext fun x => ?_
    obtain ⟨vals, hvals⟩ := exists_assignment m x
    have hsub := h vals fun k hk => (hvals k hk).1
    rw [substitute_of_symbols fun k hk => (hvals k hk).1, aeval_congr_symbols fun k hk => (hvals k hk).2] at hsub
    rw [map_zero]
    exact Option.some.inj hsub
  · intro h vals hvals
    rw [substitute_of_symbols hvals, h, map_zero]

/-- The root tells whether the polynomial is zero: it is a constant, or there is some constant
other than 0 below it. -/
def RootTells : Multinomial → Prop
  | .const _ _ => True
  | .node s k mp => (node s k mp).monomials ≠ []

theorem Increasing.isZero_iff {m : Multinomial} (h : Increasing b m) :
    (m.isZero = true ↔ Vanishes m) ↔ RootTells m := by
  rw [vanishes_iff]
  cases m with
  | const s c =>
    rw [isZero, beq_iff_eq, toMv_const, C_eq_zero]
    exact iff_of_true Iff.rfl trivial
  | node s k mp =>
    rw [h.toMv_eq_zero_iff, isZero, RootTells]
    simp

theorem vanishes_of_isZero {m : Multinomial} (h : m.isZero = true) : Vanishes m :=
  vanishes_iff.2 (toMv_isZero h)

/-- `simplify` keeps the entries at positive exponents that are not the constant 0. -/
theorem mem_simplify {m : Multinomial} (hs : m.save = false) {x : UInt16 × Multinomial} (hx : x.1 ≠ 0) :
    x ∈ m.simplify.mp ↔ x ∈ m.mp ∧ x.2.isZero = false := by
  cases m with
  | const s c => simp [simplify, Multinomial.mp]
  | node s k mp =>
    obtain rfl : s = false := hs
    have hfilter : x ∈ mp.filter (fun x => !x.2.isZero) ↔ x ∈ mp ∧ x.2.isZero = false := by simp
    have hne : x ≠ (0, .const false 0) := fun h => hx (congrArg Prod.fst h)
    rw [simplify, Multinomial.mp, ← hfilter]
    split_ifs with hempty
    · rw [List.isEmpty_iff.1 hempty, Multinomial.mp]
    · rw [Multinomial.mp]
    · rw [Multinomial.mp, List.mem_cons, or_iff_right hne]

/-- **Zero is recognised exactly at roots that tell**: `is_zero` is true of the polynomials that
vanish, and `simplify` leaves none of them at a positive exponent, if and only if the root tells,
there and at the coefficients of the positive exponents. -/
theorem isZero_simplify_iff {p : Multinomial} (hp : Built p) :
    ((p.isZero = true ↔ Vanishes p) ∧ (p.save = false → ∀ x ∈ p.simplify.mp, x.1 ≠ 0 → ¬ Vanishes x.2)) ↔
      RootTells p ∧ (p.save = false → ∀ x ∈ p.mp, x.1 ≠ 0 → RootTells x.2) := by
  have hkids : ∀ x ∈ p.mp, ∃ b, Increasing b x.2 := by
    cases hwf : hp.wf with
    | const => intro x hx; cases hx
    | node _ _ _ _ hkids => exact fun x hx => ⟨_, (hkids x hx).increasing⟩
  refine and_congr hp.wf.increasing.isZero_iff (imp_congr_right fun hs => ⟨fun h x hx h0 => ?_, fun h x hx h0 hv => ?_⟩)
  · obtain ⟨b, hinc⟩ := hkids x hx
    refine hinc.isZero_iff.1 ⟨vanishes_of_isZero, fun hv => ?_⟩
    by_contra hz
    exact h x ((mem_simplify hs h0).2 ⟨hx, by simpa using hz⟩) h0 hv
  · obtain ⟨hx, hz⟩ := (mem_simplify hs h0).1 hx
    obtain ⟨b, hinc⟩ := hkids x hx
    rw [(hinc.isZero_iff.2 (h x hx h0)).2 hv] at hz
    cases hz

/-- A variable is not zero and has constants as coefficients. -/
theorem isZero_simplify_iff_var : ((var ⟨0, false⟩ false).isZero = true ↔ Vanishes (var ⟨0, false⟩ false)) ∧
    ∀ x ∈ (var ⟨0, false⟩ false).simplify.mp, x.1 ≠ 0 → ¬ Vanishes x.2 := by
  have htells : RootTells (var ⟨0, false⟩ false) := by
    have hmon : (var ⟨0, false⟩ false).monomials = [[(⟨0, false⟩, 1)]] := by decide +kernel
    exact fun h => by cases hmon.symm.trans h
  have hkids : ∀ x ∈ (var ⟨0, false⟩ false).mp, x.1 ≠ 0 → RootTells x.2 := by
    intro x hx _
    rcases List.mem_pair.1 hx with rfl | rfl
    · exact trivial
    · exact trivial
  obtain ⟨hzero, hsimp⟩ := (isZero_simplify_iff (.var ⟨0, false⟩ false)).2 ⟨htells, fun _ => hkids⟩
  exact ⟨hzero, hsimp rfl⟩

/-- `((x + y) - x) - y`. -/
def cancelled : Multinomial :=
  (((var ⟨1, false⟩ false).add (var ⟨2, false⟩ false)).add ((var ⟨1, false⟩ false).mulDouble (-1))).add
    ((var ⟨2, false⟩ false).mulDouble (-1))

theorem cancelled_eq : cancelled = .node false ⟨1, false⟩ [(0, .const false 0)] := by decide +kernel

/-- The sum cancels to a node that is not recognised as zero, and multiplied by a variable of a
smaller id it stays as the coefficient of the first power. -/
theorem cancelled_not_recognised :
    (Built cancelled ∧ Vanishes cancelled ∧ cancelled.isZero = false) ∧
    Built ((var ⟨0, false⟩ false).mul cancelled) ∧
      ∃ x ∈ ((var ⟨0, false⟩ false).mul cancelled).simplify.mp, x.1 ≠ 0 ∧ Vanishes x.2 := by
  have hbuilt : Built cancelled := by
    apply Built.add
    · exact .add (.add (.var _ _) (.var _ _)) (.mulDouble _ (.var _ _))
    · exact .mulDouble _ (.var _ _)
  have hzero : Vanishes cancelled := by
    rw [vanishes_iff, cancelled_eq, toMv_node]
    simp [toMvMp]
  have hprod : ((var ⟨0, false⟩ false).mul cancelled).simplify.mp = [(0, .const false 0), (1, cancelled)] := by
    decide +kernel
  refine ⟨⟨hbuilt, hzero, ?_⟩, .mul (.var _ _) hbuilt, (1, cancelled), ?_, by decide, hzero⟩
  · rw [cancelled_eq]
    rfl
  · rw [hprod]
    exact List.mem_cons_of_mem _ (List.mem_singleton.2 rfl)

end Multinomial

end GridSolve.Poly
