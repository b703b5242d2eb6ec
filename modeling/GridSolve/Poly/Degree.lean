/-
`get_degree` against the degrees of the monomials. The flag `count_template` is read at the root
only, the coefficients are always asked for their total degree, and a template at the root answers 0
whatever lies below. So the degree without templates is right just when it does not matter: below a
template nothing but templates counts, and elsewhere a monomial of the largest total degree is free
of templates.
-/
import GridSolve.Poly.Monomials

namespace GridSolve.Poly

open MvPolynomial

namespace Multinomial

variable {b : ℕ}

/-- The sum of the exponents on a path, with or without those of the templates. -/
def pathDegree (countTemplate : Bool) (path : List (Symbol × UInt16)) : ℕ :=
  (path.map fun x => if countTemplate || !x.1.isTempl then x.2.toNat else 0).sum

/-- The largest degree of a monomial, 0 if there is none. -/
def maxDegree (countTemplate : Bool) (m : Multinomial) : ℕ := m.monomials.toFinset.sup (pathDegree countTemplate)

/-- No subtree at a positive exponent vanishes. -/
inductive Tight : Multinomial → Prop
  | const (s : Bool) (c : ℚ) : Tight (.const s c)
  | node {s : Bool} {k : Symbol} {mp : Entries} (kids : ∀ x ∈ mp, Tight x.2)
      (nonzero : ∀ x ∈ mp, x.1 ≠ 0 → ¬ Vanishes x.2) : Tight (.node s k mp)

theorem tight_node_iff {s : Bool} {k : Symbol} {mp : Entries} :
    Tight (.node s k mp) ↔ (∀ x ∈ mp, Tight x.2) ∧ ∀ x ∈ mp, x.1 ≠ 0 → ¬ Vanishes x.2 := by
  constructor
  · rintro (_ | ⟨h1, h2⟩)
    exact ⟨h1, h2⟩
  · rintro ⟨h1, h2⟩
    exact .node h1 h2

/-! ## Degrees of paths -/

theorem pathDegree_cons (c : Bool) (x : Symbol × UInt16) (path : List (Symbol × UInt16)) :
    pathDegree c (x :: path) = (if c || !x.1.isTempl then x.2.toNat else 0) + pathDegree c path := List.sum_cons

/-- No template occurs on the path with a positive exponent. -/
def TemplateFree (path : List (Symbol × UInt16)) : Prop := ∀ x ∈ path, x.1.isTempl = true → x.2 = 0

/-- Nothing but templates occurs on the path with a positive exponent. -/
def ProgramFree (path : List (Symbol × UInt16)) : Prop := ∀ x ∈ path, x.1.isTempl = false → x.2 = 0

theorem toNat_eq_zero {e : UInt16} : e.toNat = 0 ↔ e = 0 := UInt16.toNat_inj (b := 0)

theorem pathDegree_false_le : ∀ path, pathDegree false path ≤ pathDegree true path
  | [] => le_rfl
  | x :: path => by
    have := pathDegree_false_le path
    rw [pathDegree_cons, pathDegree_cons]
    cases hx : x.1.isTempl <;> simp <;> omega

theorem templateFree_iff : ∀ {path}, TemplateFree path ↔ pathDegree false path = pathDegree true path
  | [] => iff_of_true (fun x hx => by cases hx) rfl
  | x :: path => by
    have hle := pathDegree_false_le path
    have ih := @templateFree_iff path
    unfold TemplateFree at ih ⊢
    rw [List.forall_mem_cons, ih, pathDegree_cons, pathDegree_cons, ← toNat_eq_zero]
    cases hx : x.1.isTempl <;> simp
    omega

theorem programFree_iff : ∀ {path}, ProgramFree path ↔ pathDegree false path = 0
  | [] => iff_of_true (fun x hx => by cases hx) rfl
  | x :: path => by
    have ih := @programFree_iff path
    unfold ProgramFree at ih ⊢
    rw [List.forall_mem_cons, ih, pathDegree_cons, ← toNat_eq_zero]
    cases hx : x.1.isTempl <;> simp

theorem le_maxDegree {c : Bool} {m : Multinomial} {path : List (Symbol × UInt16)} (h : path ∈ m.monomials) :
    pathDegree c path ≤ m.maxDegree c := Finset.le_sup (List.mem_toFinset.2 h)

/-- The largest degree is that of some monomial. -/
theorem exists_maxDegree (c : Bool) {m : Multinomial} (h : m.monomials ≠ []) :
    ∃ path ∈ m.monomials, pathDegree c path = m.maxDegree c := by
  have hne : m.monomials.toFinset.Nonempty := List.toFinset_nonempty_iff _ |>.2 h
  obtain ⟨path, hpath, heq⟩ := Finset.exists_mem_eq_sup _ hne (pathDegree c)
  exact ⟨path, List.mem_toFinset.1 hpath, heq.symm⟩

theorem maxDegree_of_nil {c : Bool} {m : Multinomial} (h : m.monomials = []) : m.maxDegree c = 0 := by
  rw [maxDegree, h]
  rfl

theorem maxDegree_le {c : Bool} {m : Multinomial} {n : ℕ} (h : ∀ path ∈ m.monomials, pathDegree c path ≤ n) :
    m.maxDegree c ≤ n := Finset.sup_le fun path hpath => h path (List.mem_toFinset.1 hpath)

/-! ## `get_degree` -/

theorem getDegreeMp_le {n : ℕ} : ∀ {mp : Entries},
    (∀ x ∈ mp, (x.1.toNat + x.2.getDegree true) % 4294967296 ≤ n) → getDegreeMp mp ≤ n
  | [], _ => Nat.zero_le n
  | (e, m) :: mp, h => by
    rw [List.forall_mem_cons] at h
    exact max_le h.1 (getDegreeMp_le h.2)

theorem le_getDegreeMp {x : UInt16 × Multinomial} : ∀ {mp : Entries}, x ∈ mp →
    (x.1.toNat + x.2.getDegree true) % 4294967296 ≤ getDegreeMp mp
  | (e, m) :: mp, h => by
    rcases List.mem_cons.1 h with rfl | h
    · exact le_max_left _ _
    · exact (le_getDegreeMp h).trans (le_max_right _ _)

theorem getDegree_lt (c : Bool) (m : Multinomial) : m.getDegree c < 4294967296 := by
  cases m with
  | const s v => exact Nat.zero_lt_succ _
  | node s k mp =>
    have hmp : getDegreeMp mp ≤ 4294967295 := getDegreeMp_le fun x _ => by omega
    rw [getDegree]
    split_ifs <;> omega

theorem pathDegree_entry {s : Bool} {k : Symbol} {mp : Entries} {x : UInt16 × Multinomial} (hx : x ∈ mp)
    {rest : List (Symbol × UInt16)} (hr : rest ∈ x.2.monomials) :
    ∃ path ∈ (Multinomial.node s k mp).monomials, pathDegree true path = x.1.toNat + pathDegree true rest :=
  ⟨_, mem_monomials_node.2 ⟨x, hx, rest, hr, rfl⟩, pathDegree_cons true (k, x.1) rest⟩

/-- A node, once the degrees of its coefficients are right. -/
theorem getDegree_node {s : Bool} {k : Symbol} {mp : Entries}
    (hfit : ∀ path ∈ (Multinomial.node s k mp).monomials, pathDegree true path < 4294967296)
    (hsub : ∀ x ∈ mp, x.2.getDegree true = x.2.maxDegree true) (hnz : ∀ x ∈ mp, x.1 ≠ 0 → x.2.monomials ≠ []) :
    (Multinomial.node s k mp).getDegree true = (Multinomial.node s k mp).maxDegree true := by
  -- an entry adds its exponent to the largest degree of its coefficient, unless that is zero
  have hentry : ∀ x ∈ mp, x.2.monomials ≠ [] → ∃ path ∈ (Multinomial.node s k mp).monomials,
      pathDegree true path = x.1.toNat + x.2.getDegree true := by
    intro x hx hne
    obtain ⟨rest, hr, hdeg⟩ := exists_maxDegree true hne
    rw [hsub x hx, ← hdeg]
    exact pathDegree_entry hx hr
  rw [getDegree, if_neg (by simp)]
  apply le_antisymm
  · refine getDegreeMp_le fun x hx => ?_
    by_cases hne : x.2.monomials = []
    · have he : x.1 = 0 := not_imp_comm.1 (hnz x hx) (not_not.2 hne)
      rw [hsub x hx, maxDegree_of_nil hne, he]
      exact Nat.zero_le _
    · obtain ⟨path, hp, hdeg⟩ := hentry x hx hne
      exact (Nat.mod_le _ _).trans (hdeg ▸ le_maxDegree hp)
  · refine maxDegree_le fun path hp => ?_
    obtain ⟨x, hx, rest, hr, rfl⟩ := mem_monomials_node.1 hp
    obtain ⟨top, htop, hdeg⟩ := hentry x hx (List.ne_nil_of_mem hr)
    have hle := le_getDegreeMp hx
    rw [Nat.mod_eq_of_lt (hdeg ▸ hfit top htop)] at hle
    refine le_trans ?_ hle
    rw [pathDegree_cons, hsub x hx]
    exact Nat.add_le_add_left (le_maxDegree hr) _

/-- The total degree, as long as it is a `uint32_t`. -/
theorem Tight.getDegree_true {m : Multinomial} (ht : Tight m) (h : Increasing b m)
    (hfit : ∀ path ∈ m.monomials, pathDegree true path < 4294967296) : m.getDegree true = m.maxDegree true := by
  induction m generalizing b with
  | const s c =>
    refine le_antisymm (Nat.zero_le _) (maxDegree_le fun path hpath => ?_)
    rw [monomials] at hpath
    split_ifs at hpath with hc
    · cases hpath
    · rw [List.mem_singleton.1 hpath]
      exact Nat.zero_le _
  | node s k mp ih =>
    obtain ⟨htight, hnz⟩ := tight_node_iff.1 ht
    obtain ⟨-, -, hkids⟩ := increasing_node_iff.1 h
    refine getDegree_node hfit (fun x hx => ?_) fun x hx he hnil => ?_
    · refine ih x hx (htight x hx) (hkids x hx) fun rest hr => ?_
      obtain ⟨path, hp, hdeg⟩ := pathDegree_entry (s := s) (k := k) hx hr
      have := hfit path hp
      omega
    · exact hnz x hx he (vanishes_iff.2 ((hkids x hx).toMv_eq_zero_iff.2 hnil))

/-- The symbol of the root is a template. -/
def rootTempl : Multinomial → Bool
  | .const _ _ => false
  | .node _ k _ => k.isTempl

theorem getDegree_false_of_templ {m : Multinomial} (h : m.rootTempl = true) : m.getDegree false = 0 := by
  cases m with
  | const s c => cases h
  | node s k mp => exact if_pos h

theorem getDegree_false_of_prog {m : Multinomial} (h : m.rootTempl = false) : m.getDegree false = m.getDegree true := by
  cases m with
  | const s c => rfl
  | node s k mp =>
    have hk : k.isTempl = false := h
    simp [getDegree, hk]

/-- **When `get_degree` tells the degrees of the monomials.** With templates it does as long as they
are `uint32_t`s; without templates the root decides: if it is a template there must be nothing but
templates, otherwise a monomial of the largest total degree must be free of them. -/
theorem getDegree_iff {p : Multinomial} (h : Increasing b p) (ht : Tight p) :
    (p.getDegree false = p.maxDegree false ∧ p.getDegree true = p.maxDegree true) ↔
      (∀ path ∈ p.monomials, pathDegree true path < 4294967296) ∧
      (p.rootTempl = true → ∀ path ∈ p.monomials, ProgramFree path) ∧
      (p.rootTempl = false → p.monomials = [] ∨ ∃ path ∈ p.monomials, TemplateFree path ∧
        ∀ other ∈ p.monomials, pathDegree true other ≤ pathDegree true path) := by
  constructor
  · rintro ⟨hfalse, htrue⟩
    refine ⟨fun path hp => ?_, fun hroot path hp => ?_, fun hroot => ?_⟩
    · exact (htrue ▸ le_maxDegree hp).trans_lt (getDegree_lt true p)
    · rw [getDegree_false_of_templ hroot] at hfalse
      exact programFree_iff.2 (Nat.le_zero.1 (hfalse ▸ le_maxDegree hp))
    · rw [getDegree_false_of_prog hroot, htrue] at hfalse
      refine or_iff_not_imp_left.2 fun hne => ?_
      obtain ⟨path, hp, hdeg⟩ := exists_maxDegree false hne
      have hmax : ∀ other ∈ p.monomials, pathDegree true other ≤ pathDegree false path := fun other ho => by
        rw [hdeg, ← hfalse]
        exact le_maxDegree ho
      refine ⟨path, hp, templateFree_iff.2 (le_antisymm (pathDegree_false_le path) (hmax path hp)), fun other ho => ?_⟩
      exact (hmax other ho).trans (pathDegree_false_le path)
  · rintro ⟨hfit, htempl, hprog⟩
    have htrue := ht.getDegree_true h hfit
    refine ⟨?_, htrue⟩
    cases hroot : p.rootTempl with
    | true =>
      rw [getDegree_false_of_templ hroot]
      refine le_antisymm (Nat.zero_le _) (maxDegree_le fun path hp => ?_)
      exact (programFree_iff.1 (htempl hroot path hp)).le
    | false =>
      rw [getDegree_false_of_prog hroot, htrue]
      rcases hprog hroot with hnil | ⟨path, hp, hfree, hmax⟩
      · rw [maxDegree_of_nil hnil, maxDegree_of_nil hnil]
      · apply le_antisymm
        · exact (maxDegree_le hmax).trans (templateFree_iff.1 hfree ▸ le_maxDegree hp)
        · exact maxDegree_le fun other ho => (pathDegree_false_le other).trans (le_maxDegree ho)

/-- `x * t`, with `t` a template. -/
def scaledVar : Multinomial := (var ⟨0, false⟩ false).mul (var ⟨1, true⟩ false)

theorem scaledVar_eq :
    scaledVar = .node false ⟨0, false⟩ [(0, .const false 0), (1, var ⟨1, true⟩ false)] := by decide +kernel

theorem tight_var (k : Symbol) (s : Bool) : Tight (var k s) := by
  refine .node (fun x hx => ?_) fun x hx h0 hv => ?_
  · rcases List.mem_pair.1 hx with rfl | rfl
    · exact .const s 0
    · exact .const s 1
  · rcases List.mem_pair.1 hx with rfl | rfl
    · exact h0 rfl
    · have h1 := vanishes_iff.1 hv
      rw [toMv_const, C_1] at h1
      exact one_ne_zero h1

/-- A variable has degree 1, with and without templates. -/
theorem getDegree_iff_var : (var ⟨0, false⟩ false).getDegree false = (var ⟨0, false⟩ false).maxDegree false ∧
    (var ⟨0, false⟩ false).getDegree true = (var ⟨0, false⟩ false).maxDegree true := by
  have hmon : (var ⟨0, false⟩ false).monomials = [[(⟨0, false⟩, 1)]] := by decide +kernel
  have hinc : Increasing 0 (var ⟨0, false⟩ false) := (Built.var ⟨0, false⟩ false).wf.increasing
  refine (getDegree_iff hinc (tight_var _ _)).2 ⟨?_, fun h => absurd h Bool.false_ne_true, fun _ => .inr ?_⟩
  · rw [hmon, List.forall_mem_singleton]
    decide
  · rw [hmon]
    refine ⟨_, List.mem_singleton.2 rfl, ?_, ?_⟩
    · exact templateFree_iff.2 (by decide)
    · rw [List.forall_mem_singleton]

/-- `get_degree(false)` of `x * t` is 2, while the only monomial has degree 1 without `t`. -/
theorem getDegree_scaledVar : Increasing 0 scaledVar ∧ Tight scaledVar ∧
    scaledVar.getDegree false = 2 ∧ scaledVar.maxDegree false = 1 := by
  have hbuilt : Built scaledVar := .mul (.var _ _) (.var _ _)
  refine ⟨hbuilt.wf.increasing, ?_, by decide +kernel, by decide +kernel⟩
  rw [scaledVar_eq]
  refine .node (fun x hx => ?_) fun x hx h0 hv => ?_
  · rcases List.mem_pair.1 hx with rfl | rfl
    · exact .const _ _
    · exact tight_var _ _
  · rcases List.mem_pair.1 hx with rfl | rfl
    · exact h0 rfl
    · have h1 := vanishes_iff.1 hv
      rw [toMv_var] at h1
      exact X_ne_zero 1 h1

end Multinomial

end GridSolve.Poly
