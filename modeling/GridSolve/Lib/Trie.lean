/-
Tries of words over any alphabet. A node carries a mark that says whether it is a leaf; inserting a
word clears the marks on the way and makes the nodes that are missing. The leaves of the trie of a
list of words are the words that no other word of the list continues. A search that carries a state
along the branches succeeds when the state can be carried to some leaf. Removing the word of a leaf
prunes the nodes that are left without branches and touches no other leaf.
-/
import Mathlib.Data.List.Infix
import Mathlib.Logic.Function.Basic
import Mathlib.Tactic

namespace GridSolve

/-- A trie; `null` is the absence of a node. -/
inductive Trie (δ : Type*)
  | null
  | node (isLeaf : Bool) (next : δ → Trie δ)

namespace Trie

variable {δ : Type*}

/-- A single node. -/
def new : Trie δ := .node true fun _ => .null

/-- There is no node. -/
def isNull : Trie δ → Bool
  | .null => true
  | .node _ _ => false

theorem isNull_iff {t : Trie δ} : t.isNull = true ↔ t = .null := by cases t <;> simp [isNull]

theorem isNull_eq_false_iff {t : Trie δ} : t.isNull = false ↔ t ≠ .null := by cases t <;> simp [isNull]

/-- The branch of a node. -/
def next : Trie δ → δ → Trie δ
  | .null, _ => .null
  | .node _ next, d => next d

/-- The mark of a node. -/
def isLeaf : Trie δ → Bool
  | .null => false
  | .node isLeaf _ => isLeaf

/-- The trie itself, or a new node. -/
def orNew : Trie δ → Trie δ
  | .null => new
  | t => t

/-- Inserts a word below a node. -/
def insert [DecidableEq δ] : List δ → Trie δ → Trie δ
  | [], t => t
  | _ :: _, .null => .null
  | d :: ds, .node _ next => .node false (Function.update next d (insert ds (next d).orNew))

/-- The mark of the node that a word leads to. -/
def mark : List δ → Trie δ → Option Bool
  | _, .null => none
  | [], .node isLeaf _ => some isLeaf
  | d :: ds, .node _ next => mark ds (next d)

/-- A word leads to a leaf, and to no leaf on the way. -/
def LeafAt : List δ → Trie δ → Prop
  | _, .null => False
  | [], .node isLeaf _ => isLeaf = true
  | d :: ds, .node isLeaf next => isLeaf = false ∧ LeafAt ds (next d)

/-- What a walk over the leaves collects, the branches taken in the order of `labels`. -/
def leaves {β : Type*} (labels : List δ) (f : δ → β → β) : Trie δ → β → List β
  | .null, _ => []
  | .node isLeaf next, b => if isLeaf then [b] else labels.flatMap fun d => leaves labels f (next d) (f d b)

/-- The words that lead to the leaves, in the order of the walk. -/
def leafWords (labels : List δ) : Trie δ → List (List δ)
  | .null => []
  | .node isLeaf next => if isLeaf then [[]] else labels.flatMap fun d => (leafWords labels (next d)).map (d :: ·)

theorem leaves_eq {β : Type*} (labels : List δ) (f : δ → β → β) : ∀ (t : Trie δ) (b : β),
    leaves labels f t b = (leafWords labels t).map fun p => p.foldl (fun b d => f d b) b
  | .null, b => rfl
  | .node true next, b => rfl
  | .node false next, b => by
    simp only [leaves, leafWords, Bool.false_eq_true, if_false, List.map_flatMap, List.map_map]
    refine List.flatMap_congr fun d _ => ?_
    rw [leaves_eq labels f (next d)]
    rfl

theorem mem_leafWords {labels : List δ} : ∀ {t : Trie δ} {p : List δ},
    p ∈ leafWords labels t ↔ (∀ d ∈ p, d ∈ labels) ∧ LeafAt p t
  | .null, p => by simp [leafWords, LeafAt]
  | .node true next, p => by
    cases p with
    | nil => simp [leafWords, LeafAt]
    | cons d p => simp [leafWords, LeafAt]
  | .node false next, p => by
    simp only [leafWords, Bool.false_eq_true, if_false, List.mem_flatMap, List.mem_map]
    constructor
    · rintro ⟨d, hd, q, hq, rfl⟩
      obtain ⟨hlab, hleaf⟩ := mem_leafWords.1 hq
      exact ⟨List.forall_mem_cons.2 ⟨hd, hlab⟩, rfl, hleaf⟩
    · rintro ⟨hlab, hleaf⟩
      cases p with
      | nil => cases hleaf
      | cons d p =>
        rw [List.forall_mem_cons] at hlab
        exact ⟨d, hlab.1, p, mem_leafWords.2 ⟨hlab.2, hleaf.2⟩, rfl⟩

theorem nodup_leafWords {labels : List δ} (h : labels.Nodup) : ∀ t : Trie δ, (leafWords labels t).Nodup
  | .null => List.nodup_nil
  | .node true next => List.nodup_singleton []
  | .node false next => by
    simp only [leafWords, Bool.false_eq_true, if_false]
    rw [List.nodup_flatMap]
    constructor
    · exact fun d _ => (nodup_leafWords h (next d)).map fun p q hpq => (List.cons.inj hpq).2
    · -- the first letter tells the branches apart
      refine h.imp fun {d e} hne p hp hp' => ?_
      obtain ⟨q, -, rfl⟩ := List.mem_map.1 hp
      obtain ⟨q', -, heq⟩ := List.mem_map.1 hp'
      exact hne (List.cons.inj heq).1.symm

section

variable {γ : Type*} (labels : List δ) (adv : δ → γ → Option γ) (stop : γ → Bool)

/-- A search with a state: taking a branch advances the state or fails, and a leaf or a state to stop at
ends the search. -/
def search : Trie δ → γ → Bool
  | .null, _ => false
  | .node isLeaf next, c =>
    if stop c || isLeaf then true
    else labels.any fun d =>
      match adv d c with
      | none => false
      | some c' => search (next d) c'

/-- Every node is a leaf or has a branch. -/
def Live : Trie δ → Prop
  | .null => True
  | .node isLeaf next => (isLeaf = true ∨ ∃ d ∈ labels, next d ≠ .null) ∧ ∀ d ∈ labels, Live (next d)

variable {labels adv stop}

theorem Live.exists_leaf : ∀ {t : Trie δ}, t.Live labels → t ≠ .null → ∃ p, (∀ d ∈ p, d ∈ labels) ∧ LeafAt p t
  | .null, _, h => absurd rfl h
  | .node true next, _, _ => ⟨[], by simp, rfl⟩
  | .node false next, h, _ => by
    obtain ⟨d, hd, hne⟩ := h.1.resolve_left Bool.false_ne_true
    obtain ⟨p, hlab, hp⟩ := (h.2 d hd).exists_leaf hne
    exact ⟨d :: p, List.forall_mem_cons.2 ⟨hd, hlab⟩, rfl, hp⟩

/-- A state to stop at can be advanced along every word. -/
theorem isSome_foldlM_of_stop (hstop : ∀ d c, stop c = true → ∃ c', adv d c = some c' ∧ stop c' = true) :
    ∀ (p : List δ) {c : γ}, stop c = true → (p.foldlM (fun c d => adv d c) c).isSome
  | [], _, _ => rfl
  | d :: p, c, h => by
    obtain ⟨c', hc', h'⟩ := hstop d c h
    rw [List.foldlM_cons, hc']
    exact isSome_foldlM_of_stop hstop p h'

/-- The search succeeds when the state can be advanced along the whole way to a leaf. -/
theorem search_iff (hstop : ∀ d c, stop c = true → ∃ c', adv d c = some c' ∧ stop c' = true) :
    ∀ {t : Trie δ} {c : γ}, t.Live labels →
      (search labels adv stop t c = true ↔
        ∃ p, (∀ d ∈ p, d ∈ labels) ∧ LeafAt p t ∧ (p.foldlM (fun c d => adv d c) c).isSome)
  | .null, c, _ => by simp [search, LeafAt]
  | .node isLeaf next, c, h => by
    rw [search]
    split_ifs with hend
    · refine iff_of_true rfl ?_
      rcases Bool.or_eq_true_iff.1 hend with hc | rfl
      · obtain ⟨p, hlab, hp⟩ := h.exists_leaf (t := .node isLeaf next) nofun
        exact ⟨p, hlab, hp, isSome_foldlM_of_stop hstop p hc⟩
      · exact ⟨[], by simp, rfl, rfl⟩
    · obtain ⟨-, rfl⟩ : stop c = false ∧ isLeaf = false := by simpa using hend
      rw [List.any_eq_true]
      constructor
      · rintro ⟨d, hd, hs⟩
        cases hadv : adv d c with
        | none => simp [hadv] at hs
        | some c' =>
          simp only [hadv] at hs
          obtain ⟨p, hlab, hp, hsome⟩ := (search_iff hstop (h.2 d hd)).1 hs
          exact ⟨d :: p, List.forall_mem_cons.2 ⟨hd, hlab⟩, ⟨rfl, hp⟩, by rw [List.foldlM_cons, hadv]; exact hsome⟩
      · rintro ⟨_ | ⟨d, p⟩, hlab, hp, hsome⟩
        · cases hp
        · rw [List.forall_mem_cons] at hlab
          rw [List.foldlM_cons] at hsome
          cases hadv : adv d c with
          | none => rw [hadv] at hsome; cases hsome
          | some c' =>
            rw [hadv] at hsome
            refine ⟨d, hlab.1, ?_⟩
            simp only [hadv]
            exact (search_iff hstop (h.2 d hlab.1)).2 ⟨p, hlab.2, hp.2, hsome⟩

end

/-! ## Marks -/

/-- A leaf in terms of the marks on the way to it. -/
theorem leafAt_iff : ∀ {p : List δ} {t : Trie δ},
    LeafAt p t ↔ mark p t = some true ∧ ∀ q, q <+: p → q ≠ p → mark q t = some false
  | p, .null => by simp [LeafAt, mark]
  | [], .node isLeaf next => by simp [LeafAt, mark]
  | d :: p, .node isLeaf next => by
    rw [LeafAt, leafAt_iff, mark]
    constructor
    · rintro ⟨rfl, hp, hq⟩
      refine ⟨hp, ?_⟩
      rintro (_ | ⟨e, q⟩) hqp hne
      · rfl
      · obtain ⟨rfl, hqp'⟩ := List.cons_prefix_cons.1 hqp
        exact hq q hqp' fun h => hne (by rw [h])
    · rintro ⟨hp, hq⟩
      refine ⟨Option.some.inj (hq [] List.nil_prefix nofun), hp, fun q hqp hne => ?_⟩
      exact hq (d :: q) (List.cons_prefix_cons.2 ⟨rfl, hqp⟩) fun h => hne (List.cons.inj h).2

/-- A trie is known by its marks. -/
theorem eq_of_mark : ∀ {t t' : Trie δ}, (∀ p, mark p t = mark p t') → t = t'
  | .null, .null, _ => rfl
  | .null, .node _ _, h => nomatch h []
  | .node _ _, .null, h => nomatch h []
  | .node isLeaf next, .node isLeaf' next', h => by
    have hleaf : isLeaf = isLeaf' := Option.some.inj (h [])
    have hnext : next = next' := funext fun d => eq_of_mark fun p => h (d :: p)
    rw [hleaf, hnext]

theorem LeafAt.ne_null {p : List δ} {t : Trie δ} (h : LeafAt p t) : t ≠ .null := by
  rintro rfl
  cases p <;> exact h

theorem orNew_ne_null : ∀ t : Trie δ, t.orNew ≠ .null
  | .null => nofun
  | .node _ _ => nofun

/-- A new node shows only at its own place. -/
theorem mark_orNew : ∀ (p : List δ) (t : Trie δ),
    mark p t.orNew = if p = [] then some ((mark p t).getD true) else mark p t
  | [], .null => rfl
  | _ :: _, .null => by simp [orNew, new, mark]
  | [], .node _ _ => rfl
  | _ :: _, .node _ _ => by simp [orNew]

/-! ## Insertion -/

section

variable [DecidableEq δ]

theorem insert_ne_null : ∀ (w : List δ) {t : Trie δ}, t ≠ .null → insert w t ≠ .null
  | [], _, h => h
  | _ :: _, .null, h => absurd rfl h
  | _ :: _, .node _ _, _ => nofun

/-- The marks after an insertion: those on the way to the word are cleared. -/
theorem mark_insert : ∀ (w p : List δ) {t : Trie δ}, t ≠ .null → mark p (insert w t) =
    if p = w then some ((mark w t).getD true) else if p <+: w then some false else mark p t
  | w, p, .null, h => absurd rfl h
  | [], [], .node isLeaf next, _ => rfl
  | [], e :: p, .node isLeaf next, _ => by simp [insert]
  | d :: w, [], .node isLeaf next, _ => by simp [insert, mark]
  | d :: w, e :: p, .node isLeaf next, _ => by
    simp only [insert, mark, List.cons.injEq, List.cons_prefix_cons]
    by_cases he : e = d
    · subst he
      simp only [Function.update_self, mark_insert w p (orNew_ne_null (next e)), mark_orNew, true_and]
      -- A node made here stands at the empty word, which begins every word.
      by_cases hp : p = []
      · subst hp
        cases w <;> simp
      · by_cases hw : w = [] <;> simp [hw, hp]
    · simp [he]

theorem Live.insert {labels : List δ} : ∀ {w : List δ} {t : Trie δ}, (∀ d ∈ w, d ∈ labels) → t.Live labels →
    (Trie.insert w t).Live labels
  | [], _, _, h => h
  | _ :: _, .null, _, _ => trivial
  | d :: w, .node isLeaf next, hw, h => by
    rw [List.forall_mem_cons] at hw
    have hnew : (next d).orNew.Live labels := by
      have hd := h.2 d hw.1
      cases hn : next d with
      | null => exact ⟨.inl rfl, fun _ _ => trivial⟩
      | node _ _ => rwa [hn] at hd
    refine ⟨.inr ⟨d, hw.1, ?_⟩, fun e he => ?_⟩
    · rw [Function.update_self]
      exact insert_ne_null w (orNew_ne_null _)
    · by_cases hed : e = d
      · subst hed
        rw [Function.update_self]
        exact hnew.insert hw.2
      · rw [Function.update_of_ne hed]
        exact h.2 e he

/-- The trie of a list of words. -/
def ofWords (ws : List (List δ)) : Trie δ := ws.foldl (fun t w => insert w t) new

/-- The marks of a trie that has taken in the words `ws`. -/
structure Holds (t : Trie δ) (ws : List (List δ)) : Prop where
  ne_null : t ≠ .null
  mark_eq : ∀ p, mark p t =
    if p = [] ∨ ∃ w ∈ ws, p <+: w then some (decide (∀ w ∈ ws, p <+: w → w = p)) else none

theorem holds_new : (new : Trie δ).Holds [] := by
  refine ⟨nofun, fun p => ?_⟩
  cases p <;> simp [new, mark]

theorem Holds.insert {t : Trie δ} {ws : List (List δ)} (h : t.Holds ws) (w : List δ) :
    (Trie.insert w t).Holds (ws ++ [w]) := by
  refine ⟨insert_ne_null w h.ne_null, fun p => ?_⟩
  simp only [mark_insert w p h.ne_null, h.mark_eq, List.mem_append, List.mem_singleton, or_and_right,
    exists_or, exists_eq_left, or_imp, forall_and, forall_eq]
  by_cases hp : p = w
  · -- The word itself: a new node unless the trie had one there.
    subst hp
    by_cases hin : p = [] ∨ ∃ u ∈ ws, p <+: u
    · simp [hin]
    · have hno : ∀ u ∈ ws, p <+: u → u = p := fun u hu hpu => absurd (.inr ⟨u, hu, hpu⟩) hin
      simpa [hin] using hno
  · by_cases hpw : p <+: w <;> simp [hp, hpw, Ne.symm hp]

theorem Holds.foldl : ∀ (ws : List (List δ)) {t : Trie δ} {us : List (List δ)}, t.Holds us →
    (ws.foldl (fun t w => Trie.insert w t) t).Holds (us ++ ws)
  | [], t, us, h => by simpa using h
  | w :: ws, t, us, h => by simpa using Holds.foldl ws (h.insert w)

theorem Holds.leafAt_iff {t : Trie δ} {ws : List (List δ)} (h : t.Holds ws) {p : List δ} :
    LeafAt p t ↔ (p = [] ∨ p ∈ ws) ∧ ∀ w ∈ ws, p <+: w → w = p := by
  rw [Trie.leafAt_iff, h.mark_eq]
  constructor
  · rintro ⟨hp, -⟩
    split_ifs at hp with hin
    have hmax : ∀ w ∈ ws, p <+: w → w = p := of_decide_eq_true (Option.some.inj hp)
    refine ⟨hin.imp_right ?_, hmax⟩
    rintro ⟨w, hw, hpw⟩
    exact hmax w hw hpw ▸ hw
  · rintro ⟨hin, hmax⟩
    refine ⟨by rw [if_pos (hin.imp_right fun hp => ⟨p, hp, List.prefix_rfl⟩), decide_eq_true hmax], ?_⟩
    intro q hqp hne
    -- Only the empty word is without words below it, and nothing comes before it.
    have hpw : p ∈ ws := by
      refine hin.resolve_left ?_
      rintro rfl
      exact hne (List.prefix_nil.1 hqp)
    rw [h.mark_eq, if_pos (.inr ⟨p, hpw, hqp⟩), decide_eq_false fun hq => hne (hq p hpw hqp).symm]

/-- Only which words were taken in matters. -/
theorem Holds.unique {t t' : Trie δ} {ws us : List (List δ)} (h : t.Holds ws) (h' : t'.Holds us)
    (hmem : ∀ w, w ∈ ws ↔ w ∈ us) : t = t' := by
  apply eq_of_mark
  intro p
  simp only [h.mark_eq, h'.mark_eq, hmem]

theorem live_ofWords {labels : List δ} {ws : List (List δ)} (h : ∀ w ∈ ws, ∀ d ∈ w, d ∈ labels) :
    (ofWords ws).Live labels := by
  have hloop : ∀ (ws : List (List δ)) {t : Trie δ}, (∀ w ∈ ws, ∀ d ∈ w, d ∈ labels) → t.Live labels →
      (ws.foldl (fun t w => Trie.insert w t) t).Live labels := by
    intro ws
    induction ws with
    | nil => exact fun _ h => h
    | cons w ws ih =>
      intro t hws ht
      rw [List.forall_mem_cons] at hws
      exact ih hws.2 (ht.insert hws.1)
  exact hloop ws h ⟨.inl rfl, fun _ _ => trivial⟩

theorem holds_ofWords (ws : List (List δ)) : (ofWords ws).Holds ws := by
  simpa [ofWords] using Holds.foldl ws holds_new

/-- The leaves of the trie of a list of words are the words that none continues. -/
theorem leafAt_ofWords {ws : List (List δ)} {p : List δ} :
    LeafAt p (ofWords ws) ↔ (p = [] ∨ p ∈ ws) ∧ ∀ w ∈ ws, p <+: w → w = p :=
  (holds_ofWords ws).leafAt_iff

end

/-! ## Removal -/

/-- The end of a removal at a node: without branches it becomes a leaf, and nothing is left. -/
def settle (labels : List δ) (isLeaf : Bool) (next : δ → Trie δ) : Bool × Trie δ :=
  if labels.any fun e => !(next e).isNull then (false, .node isLeaf next) else (true, .node true next)

theorem settle_of_branch {labels : List δ} {isLeaf : Bool} {next : δ → Trie δ} {d : δ} (hd : d ∈ labels)
    (h : next d ≠ .null) : settle labels isLeaf next = (false, .node isLeaf next) := by
  refine if_pos (List.any_eq_true.2 ⟨d, hd, ?_⟩)
  rw [isNull_eq_false_iff.2 h]
  rfl

theorem settle_of_null {labels : List δ} {isLeaf : Bool} {next : δ → Trie δ} (h : ∀ d ∈ labels, next d = .null) :
    settle labels isLeaf next = (true, .node true next) := by
  refine if_neg fun hany => ?_
  obtain ⟨d, hd, hne⟩ := List.any_eq_true.1 hany
  rw [h d hd] at hne
  cases hne

/-- The branch of a node after a removal below it. -/
theorem leafAt_removed {p q : List δ} {c : Trie δ} {r : Bool × Trie δ} (hgone : r.1 = true → ∀ q, LeafAt q c → q = p)
    (hkept : r.1 = false → ∀ q, LeafAt q r.2 ↔ LeafAt q c ∧ q ≠ p) :
    LeafAt q (if r.1 then .null else r.2) ↔ LeafAt q c ∧ q ≠ p := by
  cases hr : r.1 with
  | true =>
    rw [if_pos rfl]
    exact iff_of_false (fun h => h.ne_null rfl) fun h => h.2 (hgone hr q h.1)
  | false =>
    rw [if_neg Bool.false_ne_true]
    exact hkept hr q

/-- The node itself, when the branches `next'` have the leaves of the branches `next` but one. -/
theorem settle_spec {labels : List δ} {next next' : δ → Trie δ} {p : List δ}
    (hlive : ∀ e ∈ labels, (next' e).Live labels)
    (hlab : ∀ q, LeafAt q (.node false next) → ∀ d ∈ q, d ∈ labels)
    (h : ∀ e q, LeafAt q (next' e) ↔ LeafAt q (next e) ∧ e :: q ≠ p) :
    ((settle labels false next').1 = true → ∀ q, LeafAt q (.node false next) → q = p) ∧
      ((settle labels false next').1 = false → (settle labels false next').2.Live labels ∧
        ∀ q, LeafAt q (settle labels false next').2 ↔ LeafAt q (.node false next) ∧ q ≠ p) := by
  by_cases hno : ∀ d ∈ labels, next' d = .null
  · rw [settle_of_null hno]
    refine ⟨fun _ q hq => ?_, nofun⟩
    cases q with
    | nil => exact nomatch hq
    | cons e q =>
      by_contra hne
      have hleaf : LeafAt q (next' e) := (h e q).2 ⟨hq.2, hne⟩
      exact hleaf.ne_null (hno e (hlab (e :: q) hq e List.mem_cons_self))
  · push Not at hno
    obtain ⟨d, hd, hne⟩ := hno
    rw [settle_of_branch hd hne]
    refine ⟨nofun, fun _ => ⟨⟨.inr ⟨d, hd, hne⟩, hlive⟩, fun q => ?_⟩⟩
    cases q with
    | nil => exact iff_of_false nofun fun h => nomatch h.1
    | cons e q =>
      have he := h e q
      exact ⟨fun hq => ⟨⟨rfl, (he.1 hq.2).1⟩, (he.1 hq.2).2⟩, fun hq => ⟨rfl, he.2 ⟨hq.1.2, hq.2⟩⟩⟩

variable [DecidableEq δ]

/-- Removes what a word leads to, and says whether nothing is left; the node above then drops the
branch. -/
def remove (labels : List δ) : List δ → Trie δ → Bool × Trie δ
  | _, .null => (false, .null)
  | [], .node isLeaf next => (true, .node isLeaf next)
  | d :: ds, .node isLeaf next =>
    if (next d).isNull then (false, .node isLeaf next)
    else
      let r := remove labels ds (next d)
      settle labels isLeaf (Function.update next d (if r.1 then .null else r.2))

/-- **Removal of a leaf**: nothing is left when it was the only one, and else the leaves are the others. -/
theorem remove_spec {labels : List δ} : ∀ {p : List δ} {t : Trie δ}, LeafAt p t → t.Live labels →
    (∀ q, LeafAt q t → ∀ d ∈ q, d ∈ labels) →
    ((remove labels p t).1 = true → ∀ q, LeafAt q t → q = p) ∧
      ((remove labels p t).1 = false → (remove labels p t).2.Live labels ∧
        ∀ q, LeafAt q (remove labels p t).2 ↔ LeafAt q t ∧ q ≠ p)
  | [], .node isLeaf next, hp, _, _ => by
    refine ⟨fun _ q hq => ?_, nofun⟩
    cases q with
    | nil => rfl
    | cons e q => exact nomatch hp.symm.trans hq.1
  | d :: p, .node isLeaf next, hp, hlive, hlab => by
    obtain ⟨rfl, hp⟩ := hp
    have hd : d ∈ labels := hlab (d :: p) ⟨rfl, hp⟩ d List.mem_cons_self
    obtain ⟨hgone, hkept⟩ := remove_spec hp (hlive.2 d hd) fun q hq e he =>
      hlab (d :: q) ⟨rfl, hq⟩ e (List.mem_cons_of_mem d he)
    have hnull : (next d).isNull = false := isNull_eq_false_iff.2 hp.ne_null
    rw [remove, if_neg (by rw [hnull]; exact Bool.false_ne_true)]
    generalize remove labels p (next d) = r at hgone hkept
    apply settle_spec _ hlab
    · -- the leaves below the node, in the branch of the word and in the others
      intro e q
      by_cases he : e = d
      · subst he
        rw [Function.update_self, leafAt_removed hgone fun h => (hkept h).2]
        simp
      · rw [Function.update_of_ne he]
        simp [he]
    · intro e he
      by_cases hed : e = d
      · subst hed
        rw [Function.update_self]
        cases hr : r.1 with
        | true => exact trivial
        | false => exact (hkept hr).1
      · rw [Function.update_of_ne hed]
        exact hlive.2 e he

end Trie

end GridSolve
