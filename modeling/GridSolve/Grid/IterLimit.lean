/-
How many iterations `run_iters` needs. Without rounding a box that is split still has a side as long
as the limit, so the visits of a box are bounded as in the integer refinement. Each iteration uses up
one of them; with an `iter_limit` that allows for all of them the loop ends because the cursor is
`NULL`, and then every box of the list has been classified: all its shapes are certified, or it is
shorter than the limit.
-/
import GridSolve.Grid.Iters
import GridSolve.Grid.Visits

namespace GridSolve.Grid

open GridSolve.Rewriting

/-! ## The visits that are left -/

/-- Both halves of a split have fewer pieces, rounded or not. -/
theorem BoundingBox.IsSplit.cells_lt_real {b this n : BoundingBox} {dir : ℕ} {c : ℚ × ℚ} (h : IsSplit b this n dir c)
    {vol : ℚ} (hvol : 0 < vol) (hnorm : vol ≤ b.norm) : this.cells vol < b.cells vol ∧ n.cells vol < b.cells vol := by
  rw [← h.norm_eq.1] at hnorm
  have hhalf := floor_half_lt hvol hnorm
  rw [h.this_eq, h.new_eq]
  constructor
  · apply sum_map_set_lt _ h.at_dir
    rwa [show c.2 - (c.2 + c.1) * (1 / 2) = (c.2 - c.1) * (1 / 2) by ring]
  · apply sum_map_set_lt _ h.at_dir
    rwa [show (c.2 + c.1) * (1 / 2) - c.1 = (c.2 - c.1) * (1 / 2) by ring]

/-- The visits that are still to come from an item when halves are not rounded. -/
def Token.realVisits (vol : ℚ) : Token → ℕ
  | .pending b => b.visits vol
  | .loose b => b.visits vol
  | .held b (.halved n) => b.visits vol + n.visits vol
  | .held _ .refuted => 0
  | .held _ .invalid => 0
  | .held _ .finished => 0
  | .held b _ => b.visits vol - 1
  | .done _ => 0
  | .gone _ => 0

/-- The halves of a box can cause the visits it could have caused but the one it has had. -/
theorem BoundingBox.visits_add_le {b b₁ b₂ : BoundingBox} {vol : ℚ} (h₁ : b₁.cells vol < b.cells vol)
    (h₂ : b₂.cells vol < b.cells vol) : b₁.visits vol + b₂.visits vol ≤ b.visits vol - 1 := by
  have hpow : ∀ b' : BoundingBox, b'.cells vol < b.cells vol → b'.visits vol ≤ 2 ^ b.cells vol - 1 := fun b' hlt =>
    Nat.sub_le_sub_right (Nat.pow_le_pow_right Nat.two_pos hlt) 1
  have h1 := hpow b₁ h₁
  have h2 := hpow b₂ h₂
  have hb : b.visits vol = 2 ^ b.cells vol * 2 - 1 := by rw [BoundingBox.visits, pow_succ]
  omega

variable {cfg : Config} {iterLimit : ℤ} {s s' : IterState} {M N : Multiset Token}

theorem Process.realVisits_le (hvol : 0 < cfg.volLimit) {b b' : BoundingBox} {st st' : Stage}
    (h : Process cfg b st b' st') :
    (Token.held b' st').realVisits cfg.volLimit ≤ (Token.held b st).realVisits cfg.volLimit := by
  cases h with
  | invalid => exact Nat.zero_le _
  | refute => exact Nat.zero_le _
  | accept => exact Nat.zero_le _
  | small => exact Nat.zero_le _
  | certify => exact (congrArg (· - 1) (BoundingBox.visits_congr rfl)).le
  | divide hn hs =>
    obtain ⟨dir, c, hsplit⟩ := BoundingBox.split_isSplit hs
    obtain ⟨h1, h2⟩ := hsplit.cells_lt_real hvol (not_lt.1 hn)
    exact BoundingBox.visits_add_le h1 h2
  | _ => exact le_rfl

theorem Rule.realVisits_le (hvol : 0 < cfg.volLimit) {t : Token} {ts : Multiset Token} (h : Rule cfg.real t ts) :
    (ts.map (Token.realVisits cfg.volLimit)).sum ≤ t.realVisits cfg.volLimit := by
  cases h with
  | process hp =>
    rw [Multiset.map_singleton, Multiset.sum_singleton]
    exact hp.realVisits_le (show 0 < cfg.real.volLimit from hvol)
  | halve b n => simp [Token.realVisits, Config.half, Config.real]
  | _ => simp [Token.realVisits]

/-- The visits that are still to come from a number of items. -/
def realVisitsLeft (vol : ℚ) (M : Multiset Token) : ℕ := (M.map (Token.realVisits vol)).sum

theorem realVisitsLeft_add (vol : ℚ) (M N : Multiset Token) :
    realVisitsLeft vol (M + N) = realVisitsLeft vol M + realVisitsLeft vol N := by
  rw [realVisitsLeft, Multiset.map_add, Multiset.sum_add]
  rfl

/-- Every pending box causes a visit. -/
theorem length_le_realVisitsLeft (vol : ℚ) (s : IterState) : ∀ pending : List ℕ,
    pending.length ≤ realVisitsLeft vol (behind s pending)
  | [] => Nat.zero_le _
  | n :: pending => by
    have hone : realVisitsLeft vol {Token.pending (s.frags.box n)} = (s.frags.box n).visits vol :=
      Multiset.sum_singleton _
    rw [behind_cons, realVisitsLeft_add, hone, List.length_cons]
    have := length_le_realVisitsLeft vol s pending
    have := (s.frags.box n).visits_pos vol
    omega

/-- The head of an iteration uses up a visit. -/
theorem Between.enter_visits (vol : ℚ) {n : ℕ} (h : Between s M) (hcur : s.currBox = some n) :
    ∃ N, Within { s with pc := .working .taken } .taken N ∧ realVisitsLeft vol N + 1 ≤ realVisitsLeft vol M := by
  obtain ⟨pending, hh, hc, rfl⟩ := h
  obtain ⟨rest, rfl⟩ : ∃ rest, pending = n :: rest := List.head?_eq_some_iff.1 (hc.symm.trans hcur)
  refine ⟨_, ⟨n, rest, hh, hcur, rfl⟩, ?_⟩
  have hheld : realVisitsLeft vol {Token.held (s.frags.box n) .taken} = (s.frags.box n).visits vol - 1 :=
    Multiset.sum_singleton _
  have hpending : realVisitsLeft vol {Token.pending (s.frags.box n)} = (s.frags.box n).visits vol :=
    Multiset.sum_singleton _
  have hbehind : behind { s with pc := .working .taken } rest = behind s rest := behind_congr rfl rfl fun _ _ => rfl
  rw [behind_cons, realVisitsLeft_add, realVisitsLeft_add, hheld, hpending, hbehind]
  have := (s.frags.box n).visits_pos vol
  omega

/-! ## Iterations -/

/-- 1 within an iteration. -/
def IterPc.begun : IterPc → ℕ
  | .working _ => 1
  | _ => 0

theorem IterState.after_begun (s : IterState) : s.after.begun = 0 := by
  unfold IterState.after
  split_ifs <;> rfl

/-- The iterations made and those still to come are within the bound, and if the limit allows for them no
box is pending at the end. -/
structure IterState.Bounded (vol : ℚ) (iterLimit : ℤ) (bound : ℕ) (s : IterState) : Prop where
  visits : ∃ M, IterAbs s M ∧ s.itr + s.pc.begun + realVisitsLeft vol M ≤ bound
  ended : (bound : ℤ) ≤ iterLimit → s.pc = .returned → s.frags.Holds s.classified

theorem IterStep.bounded (hvol : 0 < cfg.volLimit) {bound : ℕ} (hs : IterStep cfg iterLimit s s')
    (h : s.Bounded cfg.volLimit iterLimit bound) : s'.Bounded cfg.volLimit iterLimit bound := by
  obtain ⟨⟨M, habs, hle⟩, -⟩ := h
  have hruns := IterStep.simulate s s' M hs habs
  -- all steps but the first of an iteration are runs of the rules
  have hvisits : s'.itr + s'.pc.begun ≤ s.itr + s.pc.begun →
      ∃ N, IterAbs s' N ∧ s'.itr + s'.pc.begun + realVisitsLeft cfg.volLimit N ≤ bound := by
    intro hitr
    obtain ⟨N, hN, hr⟩ := hruns
    have hsum : realVisitsLeft cfg.volLimit N ≤ realVisitsLeft cfg.volLimit M :=
      hr.sum_le fun _ _ hr => hr.realVisits_le hvol
    exact ⟨N, hN, by omega⟩
  cases hs with
  | enter hpc _ hcur =>
    refine ⟨?_, fun _ => nofun⟩
    unfold IterAbs at habs
    rw [hpc] at habs hle
    obtain ⟨N, hN, hlt⟩ := habs.enter_visits cfg.volLimit hcur
    exact ⟨N, hN, by simp only [IterPc.begun] at hle ⊢; omega⟩
  | process hpc =>
    refine ⟨hvisits ?_, fun _ => nofun⟩
    rw [hpc]
    exact le_rfl
  | timeout hpc =>
    refine ⟨hvisits ?_, fun _ => nofun⟩
    rw [hpc]
    exact le_rfl
  | discard hpc =>
    refine ⟨hvisits ?_, fun _ => nofun⟩
    rw [hpc]
    exact le_rfl
  | advance hpc =>
    refine ⟨hvisits ?_, fun _ h => ?_⟩
    · rw [hpc, s.after_begun]
      exact le_rfl
    · unfold IterState.after at h
      split_ifs at h
  | split hpc =>
    refine ⟨hvisits ?_, fun _ h => ?_⟩
    · rw [hpc, s.after_begun]
      exact le_rfl
    · unfold IterState.after at h
      split_ifs at h
  | leave hpc hwhy =>
    refine ⟨hvisits (by rw [hpc]; exact le_rfl), fun hlimit _ => ?_⟩
    unfold IterAbs at habs
    rw [hpc] at habs hle
    obtain ⟨pending, hh, hcur, rfl⟩ := habs
    obtain rfl : pending = [] := by
      rcases hwhy with hmany | hnone
      · -- the limit allows for all the visits
        have := length_le_realVisitsLeft cfg.volLimit s pending
        rw [← List.length_eq_zero_iff]
        omega
      · exact List.head?_eq_none_iff.1 (hcur.symm.trans hnone)
    rw [List.append_nil] at hh
    exact hh.recomputeConfidence.1

theorem IterReaches.bounded (hvol : 0 < cfg.volLimit) {acoords : Coords}
    (h : IterReaches cfg iterLimit (iterInit (initialList acoords cfg.shapes)) s) :
    s.Bounded cfg.volLimit iterLimit (2 ^ ((BoundingBox.new acoords).cells cfg.volLimit + 1) - 1) := by
  induction h with
  | refl =>
    refine ⟨⟨_, ⟨[0], Ll.holds_new _, rfl, rfl⟩, ?_⟩, fun _ => nofun⟩
    have hinit : realVisitsLeft cfg.volLimit (behind (iterInit (initialList acoords cfg.shapes)) [0]) =
        (BoundingBox.new acoords).visits cfg.volLimit := Multiset.sum_singleton _
    rw [hinit]
    exact (Nat.zero_add _).le
  | tail _ hs ih => exact hs.bounded hvol ih

/-! ## Classified boxes -/

/-- All shapes are certified, or the box is shorter than the limit. -/
def BoundingBox.Classed (cfg : Config) (b : BoundingBox) : Prop :=
  (∀ i < cfg.shapes, 0 < b.stateAt i) ∨ b.norm < cfg.volLimit

/-- While `found` is 2 the shapes visited so far are certified; a box that stays has been classified. -/
def Stage.Classed (cfg : Config) (b : BoundingBox) : Stage → Prop
  | .visiting i .inside => ∀ j < i, 0 < b.stateAt j
  | .finished => b.Classed cfg
  | _ => True

theorem BoundingBox.Classed.recomputeConfidence {b : BoundingBox} (h : b.Classed cfg) :
    b.recomputeConfidence.Classed cfg := by
  simpa [BoundingBox.Classed, BoundingBox.stateAt, BoundingBox.norm] using h

theorem forall_lt_succ_pos {b : BoundingBox} {i : ℕ} (h : ∀ j < i, 0 < b.stateAt j) (hi : 0 < b.stateAt i) :
    ∀ j < i + 1, 0 < b.stateAt j := by
  intro j hj
  rcases Nat.lt_succ_iff_lt_or_eq.1 hj with hj | rfl
  · exact h j hj
  · exact hi

theorem Process.classed {b b' : BoundingBox} {st st' : Stage} (h : Process cfg.real b st b' st')
    (hlen : b.currStateVec.length = cfg.shapes) (hst : st.Classed cfg b) : st'.Classed cfg b' := by
  cases h with
  | enter => exact fun j hj => absurd hj (Nat.not_lt_zero j)
  | @skip i found _ hpos =>
    cases found with
    | inside => exact forall_lt_succ_pos hst hpos
    | keep => trivial
  | @certify i found hi =>
    cases found with
    | keep => trivial
    | inside =>
      have hi : i < b.currStateVec.length := hlen ▸ hi
      refine forall_lt_succ_pos (fun j hj => ?_) ?_
      · rw [BoundingBox.stateAt_setState, if_neg fun he => absurd he.1 hj.ne']
        exact hst j hj
      · rw [BoundingBox.stateAt_setState, if_pos ⟨rfl, hi⟩]
        exact one_pos
  | accept => exact .inl hst
  | small hnorm => exact BoundingBox.Classed.recomputeConfidence (.inr hnorm)
  | _ => trivial

/-- Every rule keeps the lengths of the state vectors. -/
theorem Rule.vecLength {k : ℕ} {t : Token} {ts : Multiset Token} (h : Rule cfg t ts)
    (ht : ∀ b ∈ t.boxes, b.currStateVec.length = k) : ∀ t' ∈ ts, ∀ b ∈ t'.boxes, b.currStateVec.length = k := by
  cases h with
  | process hp =>
    cases hp with
    | divide _ hsp =>
      obtain ⟨dir, c, hsplit⟩ := BoundingBox.split_isSplit hsp
      rw [hsplit.this_eq, hsplit.new_eq]
      simpa [Token.boxes] using ht
    | _ => simpa [Token.boxes, BoundingBox.setState, BoundingBox.confirm] using ht
  | drop => simp
  | halve b m => simpa [Token.boxes, cfg.currStateVec_half] using ht
  | _ => simpa [Token.boxes] using ht

/-- The boxes that were passed have been classified. -/
structure IterState.Classed (cfg : Config) (s : IterState) : Prop where
  passed : ∀ n ∈ s.classified, (s.frags.box n).Classed cfg
  inHand : ∀ st n, s.pc = .working st → s.currBox = some n → st.Classed cfg (s.frags.box n)

theorem IterStep.classed (hs : IterStep cfg iterLimit s s') (habs : IterAbs s M)
    (hlen : ∀ t ∈ M, ∀ b ∈ t.boxes, b.currStateVec.length = cfg.shapes) (h : s.Classed cfg) : s'.Classed cfg := by
  obtain ⟨hpassed, hhand⟩ := h
  have hafter : ∀ {st : Stage}, s.after ≠ .working st := by
    intro st
    unfold IterState.after
    split_ifs <;> nofun
  unfold IterAbs at habs
  cases hs with
  | enter hpc _ hcur => exact ⟨hpassed, fun st n hst _ => by cases hst; trivial⟩
  | @process n st st' b' hpc hcur hp =>
    rw [hpc] at habs
    obtain ⟨m, rest, hh, hc, rfl⟩ := habs
    obtain rfl : m = n := Option.some.inj (hc.symm.trans hcur)
    constructor
    · intro p hp'
      have hne : p ≠ m := fun he => hh.not_mem (List.mem_append_left _ (he ▸ hp'))
      simpa [hne] using hpassed p hp'
    · intro st₁ n₁ hst₁ hn₁
      cases hst₁
      obtain rfl : m = n₁ := Option.some.inj (hcur.symm.trans hn₁)
      have hbox := hlen _ (Multiset.mem_add.2 (.inl (Multiset.mem_singleton_self _))) (s.frags.box m) (by
        rw [boxes_held]
        exact Multiset.mem_add.2 (.inl (Multiset.mem_singleton_self _)))
      simpa using hp.classed hbox (hhand st m hpc hcur)
  | timeout => exact ⟨hpassed, fun st n hst _ => by cases hst; trivial⟩
  | discard =>
    refine ⟨fun p hp => ?_, fun st n hst _ => by cases hst⟩
    simpa only [Ll.box_remove] using hpassed p hp
  | @advance n hpc hcur =>
    refine ⟨fun p hp => ?_, fun st n hst _ => absurd hst hafter⟩
    rcases List.mem_append.1 hp with hp | hp
    · exact hpassed p hp
    · rw [List.mem_singleton.1 hp]
      exact hhand _ n hpc hcur
  | @split n b hpc hcur =>
    rw [hpc] at habs
    obtain ⟨m, rest, hh, hc, rfl⟩ := habs
    obtain rfl : m = n := Option.some.inj (hc.symm.trans hcur)
    refine ⟨fun p hp => ?_, fun st n hst _ => absurd hst hafter⟩
    have hbox := (hh.requeue b).2.2 p
    rw [if_neg (hh.allocated p (List.mem_append_left _ hp)).ne] at hbox
    simp only [hbox]
    exact hpassed p hp
  | leave hpc =>
    rw [hpc] at habs
    obtain ⟨pending, hh, -, rfl⟩ := habs
    refine ⟨fun p hp => ?_, fun st n hst _ => by cases hst⟩
    simp only [hh.recomputeConfidence.2 p (List.mem_append_left _ hp)]
    exact (hpassed p hp).recomputeConfidence

theorem IterReaches.classed {acoords : Coords}
    (h : IterReaches cfg iterLimit (iterInit (initialList acoords cfg.shapes)) s) : s.Classed cfg := by
  induction h with
  | refl => exact ⟨nofun, nofun⟩
  | tail hr hs ih =>
    obtain ⟨M, habs, hruns⟩ := IterReaches.items (Ll.holds_new _) hr
    refine hs.classed habs ?_ ih
    refine hruns.forall_mem (fun _ _ hr => hr.vecLength) (forall_initial fun b hb => ?_)
    rw [Multiset.mem_singleton.1 hb]
    exact List.length_replicate

/-- **An iteration limit that is large enough.** Whatever the solvers answer, `run_iters` makes no more
iterations than a binary tree has nodes whose depth is the number of pieces of length `vol_limit` in the
sides of the initial box. If `iter_limit` allows for them and no solver throws, then at the end all
shapes are certified on every box of the list that is not shorter than the limit. -/
theorem run_iters_completes (hvol : 0 < cfg.volLimit) (acoords : Coords)
    (hrun : IterReaches cfg iterLimit (iterInit (initialList acoords cfg.shapes)) s) :
    s.itr ≤ 2 ^ ((BoundingBox.new acoords).cells cfg.volLimit + 1) - 1 ∧
      (((2 ^ ((BoundingBox.new acoords).cells cfg.volLimit + 1) - 1 : ℕ) : ℤ) ≤ iterLimit → s.pc = .returned →
        s.frags.nodes = s.classified ∧
        ∀ b ∈ s.frags.boxes, (∀ i < cfg.shapes, 0 < b.stateAt i) ∨ b.norm < cfg.volLimit) := by
  obtain ⟨⟨M, -, hle⟩, hended⟩ := hrun.bounded hvol
  refine ⟨by omega, fun hlimit hret => ⟨(hended hlimit hret).nodes_eq, fun b hb => ?_⟩⟩
  rw [(hended hlimit hret).boxes_eq] at hb
  obtain ⟨n, hn, rfl⟩ := List.mem_map.1 hb
  exact hrun.classed.passed n hn

/-- The interval from 0 to 1 is certified in the first iteration; three would have been enough for any
answers. -/
theorem run_iters_completes_interval :
    ∃ s, IterReaches Decided.firstCoord.config 3 (iterInit (initialList [(0, 1)] 1)) s ∧ s.pc = .returned ∧
      s.itr ≤ 2 ^ ((BoundingBox.new [(0, 1)]).cells 1 + 1) - 1 ∧ s.frags.nodes = s.classified ∧
      ∀ b ∈ s.frags.boxes, (∀ i < 1, 0 < b.stateAt i) ∨ b.norm < 1 := by
  have h1 := (Relation.ReflTransGen.refl (r := IterStep Decided.firstCoord.config 3)
    (a := iterInit (initialList [(0, 1)] 1))).tail (.enter rfl (by decide) rfl)
  have h2 := h1.tail (.process rfl rfl (.enter nofun))
  have h3 := h2.tail (.process rfl rfl (.certify (by decide) (by decide) (Decided.pos_yes.2 (by decide +kernel))))
  have h4 := h3.tail (.process rfl rfl .accept)
  have h5 := h4.tail (.advance rfl rfl)
  have h6 := h5.tail (.leave rfl (.inr rfl))
  have hvol : 0 < Decided.firstCoord.config.volLimit := by decide
  obtain ⟨hitr, hend⟩ := run_iters_completes hvol [(0, 1)] h6
  exact ⟨_, h6, rfl, hitr, hend (by decide +kernel) rfl⟩

end GridSolve.Grid
