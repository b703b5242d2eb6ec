/-
Decision programs as text: chains of `if` and `else` that end in an answer. A program is written as
a sequence of words in which every condition is followed by its body, an `else` and the rest; the
sequence can be read in one way only. The first condition of a chain that holds decides.
-/
import Mathlib.Tactic

namespace GridSolve.Decision

variable {γ : Type*}

/-- A decision program over conditions of type `γ`. -/
inductive Code (γ : Type*)
  | accept
  | reject
  | branch (cond : γ) (body rest : Code γ)

/-- The words of the text. -/
inductive Word (γ : Type*)
  | cond (g : γ)
  | els
  | yes
  | no

/-- The text of a program. -/
def Code.text : Code γ → List (Word γ)
  | .accept => [.yes]
  | .reject => [.no]
  | .branch g body rest => .cond g :: (body.text ++ .els :: rest.text)

/-- The answer of a program, where `holds` tells which conditions are true. -/
def Code.eval (holds : γ → Bool) : Code γ → Bool
  | .accept => true
  | .reject => false
  | .branch g body rest => if holds g then body.eval holds else rest.eval holds

/-- Reads a program from the front of a text; the fuel bounds the number of words. -/
def parse : ℕ → List (Word γ) → Option (Code γ × List (Word γ))
  | 0, _ => none
  | _ + 1, [] => none
  | _ + 1, .els :: _ => none
  | _ + 1, .yes :: ws => some (.accept, ws)
  | _ + 1, .no :: ws => some (.reject, ws)
  | fuel + 1, .cond g :: ws =>
    match parse fuel ws with
    | some (body, .els :: ws) => (parse fuel ws).map fun r => (.branch g body r.1, r.2)
    | _ => none

/-- A text that is one program. -/
def read (ws : List (Word γ)) : Option (Code γ) :=
  match parse ws.length ws with
  | some (c, []) => some c
  | _ => none

theorem parse_text : ∀ (c : Code γ) (ws : List (Word γ)) {fuel : ℕ}, c.text.length ≤ fuel →
    parse fuel (c.text ++ ws) = some (c, ws)
  | .accept, ws, fuel + 1, _ => rfl
  | .reject, ws, fuel + 1, _ => rfl
  | .branch g body rest, ws, 0, h => absurd h (Nat.not_succ_le_zero _)
  | .branch g body rest, ws, fuel + 1, h => by
    have hlen : body.text.length + (rest.text.length + 1) ≤ fuel := by simpa [Code.text] using h
    have hbody := parse_text body (.els :: (rest.text ++ ws)) (show body.text.length ≤ fuel by omega)
    have hrest := parse_text rest ws (show rest.text.length ≤ fuel by omega)
    rw [Code.text, List.cons_append, List.append_assoc, List.cons_append, parse, hbody]
    simp only [hrest, Option.map_some]

/-- The text of a program is read as the program. -/
theorem read_text (c : Code γ) : read c.text = some c := by
  have h := parse_text c [] le_rfl
  rw [List.append_nil] at h
  unfold read
  rw [h]

/-- A chain of conditions, each with the program that follows it. -/
def chain (bs : List (γ × Code γ)) : Code γ := bs.foldr (fun b rest => .branch b.1 b.2 rest) .reject

theorem text_chain (bs : List (γ × Code γ)) :
    (chain bs).text = (bs.flatMap fun b => .cond b.1 :: b.2.text ++ [.els]) ++ [.no] := by
  induction bs with
  | nil => rfl
  | cons b bs ih =>
    have hcons : chain (b :: bs) = .branch b.1 b.2 (chain bs) := rfl
    rw [hcons, Code.text, ih]
    simp

/-- Branches whose conditions are false can be left out in front. -/
theorem eval_chain_append_left {holds : γ → Bool} {bs : List (γ × Code γ)} (h : ∀ b ∈ bs, holds b.1 = false)
    (cs : List (γ × Code γ)) : (chain (bs ++ cs)).eval holds = (chain cs).eval holds := by
  induction bs with
  | nil => rfl
  | cons b bs ih =>
    obtain ⟨hb, hbs⟩ := List.forall_mem_cons.1 h
    exact (if_neg (Bool.eq_false_iff.1 hb)).trans (ih hbs)

/-- Branches whose conditions are false can be left out at the end. -/
theorem eval_chain_append_right {holds : γ → Bool} {cs : List (γ × Code γ)} (h : ∀ c ∈ cs, holds c.1 = false)
    (bs : List (γ × Code γ)) : (chain (bs ++ cs)).eval holds = (chain bs).eval holds := by
  induction bs with
  | nil =>
    have hcs := eval_chain_append_left h []
    rwa [List.append_nil] at hcs
  | cons b bs ih => exact congrArg (fun e => if holds b.1 then b.2.eval holds else e) ih

end GridSolve.Decision
