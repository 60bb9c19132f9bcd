import HtmlQuery.Proofs.Markup.Boundaries

/-!
# Turns of the lexer

Some turns leave their character to the next one. The states that hand a character on are ranked by how many may still
look at it, so at most three look at the same character, and no turn leads back to a place where the lexer was before.
The first character of a text is taken at once. So a text of `n` characters is read in `3 * n` turns at most, whatever
markup it holds.

* `Lexer.Turns` — some turns in a row, with their number;
* `Lexer.Turns.work_le` — turns use up the work that the text is;
* `Lexer.exists_turns_nil` — turns lead to the end of every text;
* `tokenize_turns` — their number.
-/

namespace HtmlQuery

namespace Lexer

variable {l l' : Lexer} {c : Char} {cs cs' rest : List Char} {out : List Token} {n : Nat}

/-- In `n` turns the lexer gets from `l`, with the text `cs` to read, to `l'`, with `cs'` to read, and hands out `out`.
There is no turn at the end of the text. -/
inductive Turns : (n : Nat) → (l : Lexer) → (cs : List Char) → (out : List Token) → (l' : Lexer) →
    (cs' : List Char) → Prop
  | none (l : Lexer) (cs : List Char) : Turns 0 l cs [] l cs
  | turn {n : Nat} {l l' : Lexer} {c : Char} {rest cs' : List Char} {out : List Token} :
      Turns n (l.step c rest).lexer (l.step c rest).rest out l' cs' →
      Turns (n + 1) l (c :: rest) ((l.step c rest).output.toList ++ out) l' cs'

/-- Every turn uses up work. -/
theorem Turns.work_le (h : Turns n l cs out l' cs') : n + work l'.state cs' ≤ work l.state cs := by
  induction h with
  | none => exact Nat.le_of_eq (Nat.zero_add _)
  | @turn n l l' c rest cs' out _ ih =>
    have less := work_step_lt l c rest
    omega

/-- After its first look at a character, the lexer looks at it no more than twice. -/
theorem Turns.le_two (h : Turns n l (c :: rest) out l' (c :: rest)) : n ≤ 2 := by
  have used := h.work_le
  have rank := lag_le l.state c
  simp only [work] at used
  omega

/-- The lexer does not come back to the same state at the same place. -/
theorem Turns.eq_zero (h : Turns n l cs out l' cs) (same : l'.state = l.state) : n = 0 := by
  have used := h.work_le
  rw [same] at used
  omega

/-- Turns lead to the end of every text, and hand out its tokens on the way. -/
theorem exists_turns_nil (l : Lexer) (cs : List Char) : ∃ n out l', Turns n l cs out l' [] ∧
    tokens l cs = out ++ l'.leftover.toList ++ [.endOfFile] := by
  induction h : work l.state cs using Nat.strongRecOn generalizing l cs with
  | _ bound ih =>
    subst h
    cases cs with
    | nil => exact ⟨0, [], l, .none l [], tokens_nil l⟩
    | cons c rest =>
      obtain ⟨n, out, l', turns, same⟩ := ih _ (work_step_lt l c rest) _ _ rfl
      refine ⟨n + 1, _, l', .turn turns, ?_⟩
      rw [tokens_cons, same]
      simp only [List.append_assoc]

/-- The first character of a text is taken at once. -/
theorem work_data (cs : List Char) : work .data cs = 3 * cs.length := by
  cases cs <;> rfl

end Lexer

open Lexer

/-- **The turns that a text takes.** At most three turns for each character lead to the end of the text, where one more
look ends the loop, and the tokens are those that were handed out and what is left over. Wherever the lexer is before
that, no more than two further turns look at the character that is next, and none of them in the same state. -/
theorem tokenize_turns (s : String) :
    (∃ n out l, Turns n {} s.toList out l [] ∧ n + 1 ≤ 3 * s.length + 1 ∧
      tokenize s = out ++ l.leftover.toList ++ [.endOfFile]) ∧
    ∀ n out l c rest, Turns n {} s.toList out l (c :: rest) → n < 3 * s.length ∧
      ∀ m out' l', Turns m l (c :: rest) out' l' (c :: rest) → m ≤ 2 ∧ (l'.state = l.state → m = 0) := by
  have bound {n : Nat} {out : List Token} {l : Lexer} {cs : List Char} (turns : Turns n {} s.toList out l cs) :
      n + work l.state cs ≤ 3 * s.length := by
    rw [← String.length_toList, ← work_data]
    exact turns.work_le
  refine ⟨?_, fun n out l c rest turns => ⟨?_, fun m out' l' more => ⟨more.le_two, more.eq_zero⟩⟩⟩
  · obtain ⟨n, out, l, turns, tokens⟩ := exists_turns_nil {} s.toList
    exact ⟨n, out, l, turns, Nat.succ_le_succ (bound turns), tokens⟩
  · have used := bound turns
    simp only [work] at used
    omega

end HtmlQuery
