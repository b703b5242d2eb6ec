/-
How often `run_thread_int` takes a box from the list. Nothing bounds the loop but the sizes of the
boxes: a box that is split has a side as long as the limit, so its halves have fewer pieces of that
length, and rounding makes them no longer. Each item is given the visits it can still cause; a visit
uses one of them up and no step adds any.
-/
import GridSolve.Grid.Sequential

namespace GridSolve.Grid

open GridSolve.Rewriting

/-- Steps of the threads with the number of boxes taken from the cursor. The trie that
`run_thread_int` may filter with can remove any box that was just taken. -/
inductive Run (cfg : Config) : State → ℕ → State → Prop
  | refl (s : State) : Run cfg s 0 s
  | act {s : State} {k : ℕ} {sh sh' : Shared} {pc pc' : Pc} (u v : List Pc) :
      Run cfg s k ⟨sh, u ++ pc :: v⟩ → Act cfg sh pc sh' pc' → Run cfg s (k + pc'.visits) ⟨sh', u ++ pc' :: v⟩
  | filter {s : State} {k : ℕ} {sh : Shared} {toP : ℕ} (u v : List Pc) :
      Run cfg s k ⟨sh, u ++ .working toP .taken :: v⟩ →
      Run cfg s k ⟨{ sh with frags := (sh.frags.remove toP).2 }, u ++ .start :: v⟩

/-! ## The visits an item can cause -/

/-- The visits of a box and of all the boxes it can be split into. -/
def BoundingBox.visits (vol : ℚ) (b : BoundingBox) : ℕ := 2 ^ (b.cells vol + 1) - 1

/-- The visits that are still to come from an item. -/
def Token.visits (vol : ℚ) : Token → ℕ
  | .pending b => b.visits vol
  | .loose b => b.visits vol
  | .held b (.halved n) => (b.round 1).visits vol + (n.round 1).visits vol
  | .held _ .refuted => 0
  | .held _ .invalid => 0
  | .held _ .finished => 0
  | .held b _ => b.visits vol - 1
  | .done _ => 0
  | .gone _ => 0

variable {cfg : Config} {sh sh' : Shared} {u v : List Pc} {pc pc' : Pc} {taken pending kept : List ℕ}

theorem BoundingBox.visits_pos (vol : ℚ) (b : BoundingBox) : 1 ≤ b.visits vol := by
  have := Nat.one_le_two_pow (n := b.cells vol)
  unfold BoundingBox.visits
  rw [pow_succ]
  omega

theorem BoundingBox.visits_congr {vol : ℚ} {b b' : BoundingBox} (h : b'.coords = b.coords) :
    b'.visits vol = b.visits vol := by
  unfold BoundingBox.visits BoundingBox.cells
  rw [h]

/-- The halves together can cause the visits of the whole box but the one it has had. -/
theorem BoundingBox.IsSplit.visits_le {b this n : BoundingBox} {dir : ℕ} {c : ℚ × ℚ} (h : IsSplit b this n dir c)
    {vol : ℚ} (hvol : 0 < vol) (hnorm : vol ≤ b.norm) :
    (this.round 1).visits vol + (n.round 1).visits vol ≤ b.visits vol - 1 := by
  obtain ⟨h1, h2⟩ := h.cells_lt hvol hnorm
  have hpow : ∀ b' : BoundingBox, b'.cells vol < b.cells vol → b'.visits vol ≤ 2 ^ b.cells vol - 1 := fun b' hlt =>
    Nat.sub_le_sub_right (Nat.pow_le_pow_right Nat.two_pos hlt) 1
  have := hpow _ h1
  have := hpow _ h2
  have : b.visits vol = 2 ^ b.cells vol * 2 - 1 := by rw [BoundingBox.visits, pow_succ]
  omega

theorem Process.visits_le (hvol : 0 < cfg.volLimit) {b b' : BoundingBox} {st st' : Stage}
    (h : Process cfg b st b' st') :
    (Token.held b' st').visits cfg.volLimit ≤ (Token.held b st).visits cfg.volLimit := by
  cases h with
  | invalid => exact Nat.zero_le _
  | refute => exact Nat.zero_le _
  | accept => exact Nat.zero_le _
  | small => exact Nat.zero_le _
  | certify => exact (congrArg (· - 1) (BoundingBox.visits_congr rfl)).le
  | divide hn hs =>
    obtain ⟨dir, c, hsplit⟩ := BoundingBox.split_isSplit hs
    exact hsplit.visits_le hvol (not_lt.1 hn)
  | _ => exact le_rfl

/-- No rule adds visits. -/
theorem Rule.visits_le (hint : cfg.integer = true) (hvol : 0 < cfg.volLimit) {t : Token} {ts : Multiset Token}
    (h : Rule cfg t ts) : (ts.map (Token.visits cfg.volLimit)).sum ≤ t.visits cfg.volLimit := by
  cases h with
  | fetch b => simp [Token.visits]
  | process hp => simpa using hp.visits_le hvol
  | halve b n => simp [Token.visits, Config.half, hint]
  | shelve _ hreal => rw [hint] at hreal; cases hreal
  | rescore _ hreal => rw [hint] at hreal; cases hreal
  | _ => simp [Token.visits]

/-- The visits that are still to come from a number of items. -/
def visitsLeft (vol : ℚ) (M : Multiset Token) : ℕ := (M.map (Token.visits vol)).sum

theorem visitsLeft_add (vol : ℚ) (M N : Multiset Token) :
    visitsLeft vol (M + N) = visitsLeft vol M + visitsLeft vol N := by
  rw [visitsLeft, Multiset.map_add, Multiset.sum_add]
  rfl

/-- Taking a box from the cursor uses up a visit. -/
theorem Fetch.visits_le {k : ℕ} {M N : Multiset Token} (h : Fetch k M N) (vol : ℚ) :
    k + visitsLeft vol N ≤ visitsLeft vol M := by
  cases h with
  | none => exact (Nat.zero_add _).le
  | one b M =>
    have hpos := b.visits_pos vol
    have hheld : visitsLeft vol {Token.held b .taken} = b.visits vol - 1 := Multiset.sum_singleton _
    have hpending : visitsLeft vol {Token.pending b} = b.visits vol := Multiset.sum_singleton _
    rw [visitsLeft_add, visitsLeft_add, hheld, hpending]
    omega

/-! ## Runs -/

/-- Working on a box does not take one. -/
theorem Process.visits_eq_zero {b b' : BoundingBox} {st st' : Stage} (h : Process cfg b st b' st') (n : ℕ) :
    (Pc.working n st').visits = 0 := by
  cases h <;> rfl

/-- A step takes as many boxes as the visits it uses up, or fewer. -/
theorem Act.visits_le (hint : cfg.integer = true) (hvol : 0 < cfg.volLimit) (ha : Act cfg sh pc sh' pc')
    (h : Layout ⟨sh, u ++ pc :: v⟩ taken pending kept) :
    ∃ taken' pending' kept', Layout ⟨sh', u ++ pc' :: v⟩ taken' pending' kept' ∧
      pc'.visits + visitsLeft cfg.volLimit (State.items ⟨sh', u ++ pc' :: v⟩ pending' kept') ≤
        visitsLeft cfg.volLimit (State.items ⟨sh, u ++ pc :: v⟩ pending kept) := by
  -- a step that takes no box is a run of the rules
  have hruns : pc'.visits = 0 → ∃ taken' pending' kept', Layout ⟨sh', u ++ pc' :: v⟩ taken' pending' kept' ∧
      pc'.visits + visitsLeft cfg.volLimit (State.items ⟨sh', u ++ pc' :: v⟩ pending' kept') ≤
        visitsLeft cfg.volLimit (State.items ⟨sh, u ++ pc :: v⟩ pending kept) := by
    intro h0
    obtain ⟨taken', pending', kept', hl, hr⟩ := ha.simulate h
    refine ⟨taken', pending', kept', hl, ?_⟩
    rw [h0, Nat.zero_add]
    exact hr.sum_le fun _ _ hr => hr.visits_le hint hvol
  cases ha with
  | enter hlock =>
    obtain ⟨taken', pending', hl, hf⟩ := h.enter hlock
    exact ⟨taken', pending', kept, hl, hf.visits_le _⟩
  | wake hlock =>
    obtain ⟨taken', pending', hl, hf⟩ := h.wake hlock
    exact ⟨taken', pending', kept, hl, hf.visits_le _⟩
  | process hp => exact hruns (hp.visits_eq_zero _)
  | _ => exact hruns rfl

/-- Removing a box that was taken adds no visits. -/
theorem Layout.filter {n : ℕ} (h : Layout ⟨sh, u ++ .working n .taken :: v⟩ taken pending kept) (vol : ℚ) :
    ∃ taken', Layout ⟨{ sh with frags := (sh.frags.remove n).2 }, u ++ .start :: v⟩ taken' pending kept ∧
      visitsLeft vol (State.items ⟨{ sh with frags := (sh.frags.remove n).2 }, u ++ .start :: v⟩ pending kept) ≤
        visitsLeft vol (State.items ⟨sh, u ++ .working n .taken :: v⟩ pending kept) := by
  obtain ⟨taken', hl⟩ := h.remove sh.gone
  refine ⟨taken', hl, ?_⟩
  have hrest : rest { sh with frags := (sh.frags.remove n).2 } u v pending kept = rest sh u v pending kept :=
    rest_congr (fun p _ => Ll.box_remove _ _ _) rfl
  rw [items_at, items_at, hrest, visitsLeft_add, visitsLeft_add]
  exact Nat.add_le_add_right (Nat.zero_le _) _

/-- Along a run the visits made and those still to come are no more than there were at the start. -/
theorem Run.visits_le (hint : cfg.integer = true) (hvol : 0 < cfg.volLimit) {l : Ll} {seq : List ℕ} (hl : l.Holds seq)
    {nThreads k : ℕ} {s : State} (h : Run cfg (init l nThreads) k s) :
    ∃ taken pending kept, Layout s taken pending kept ∧ k + visitsLeft cfg.volLimit (s.items pending kept) ≤
      visitsLeft cfg.volLimit (l.boxes.map Token.pending : List Token) := by
  induction h with
  | refl =>
    obtain ⟨taken, pending, kept, hlay, hitems⟩ := abs_init hl nThreads
    exact ⟨taken, pending, kept, hlay, by rw [Nat.zero_add, ← hitems]⟩
  | act u v _ ha ih =>
    obtain ⟨taken, pending, kept, hlay, hle⟩ := ih
    obtain ⟨taken', pending', kept', hlay', hle'⟩ := ha.visits_le hint hvol hlay
    exact ⟨taken', pending', kept', hlay', by omega⟩
  | filter u v _ ih =>
    obtain ⟨taken, pending, kept, hlay, hle⟩ := ih
    obtain ⟨taken', hlay', hle'⟩ := hlay.filter cfg.volLimit
    exact ⟨taken', pending, kept, hlay', by omega⟩

/-- **Integer refinement terminates**: whatever the solvers answer and however the threads are
scheduled, no more boxes are visited than a binary tree has nodes whose depth is the number of
pieces of length `vol_limit` in the sides of the initial box. -/
theorem visits_bounded (hint : cfg.integer = true) (hvol : 0 < cfg.volLimit) (acoords : Coords) (nThreads k : ℕ)
    (s : State) (hrun : Run cfg (init (initialList acoords cfg.shapes) nThreads) k s) :
    k ≤ 2 ^ ((BoundingBox.new acoords).cells cfg.volLimit + 1) - 1 := by
  obtain ⟨taken, pending, kept, -, hle⟩ := hrun.visits_le hint hvol (Ll.holds_new _)
  have hinit : visitsLeft cfg.volLimit ((initialList acoords cfg.shapes).boxes.map Token.pending : List Token) =
      (BoundingBox.new acoords).visits cfg.volLimit := Multiset.sum_singleton _
  exact (Nat.le_add_right k _).trans (hle.trans hinit.le)

/-- One thread takes the interval from 0 to 1, which may cause three visits. -/
theorem visits_bounded_interval :
    ∃ s, Run Decided.unsure.config (init (initialList [(0, 1)] 1) 1) 1 s ∧
      1 ≤ 2 ^ ((BoundingBox.new [(0, 1)]).cells Decided.unsure.config.volLimit + 1) - 1 := by
  have hrun : Run Decided.unsure.config (init (initialList [(0, 1)] 1) 1) (0 + 1) _ :=
    .act [] [] (.refl (init (initialList [(0, 1)] 1) 1)) (.enter rfl)
  exact ⟨_, hrun, visits_bounded rfl (by decide) [(0, 1)] 1 1 _ hrun⟩

end GridSolve.Grid
