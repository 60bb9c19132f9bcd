import HtmlQuery.Proofs.Markup.Boundaries
import Mathlib.Data.List.Chain

/-!
# Texts without markup

A `<` begins markup in front of an ASCII letter, `!`, `/` or `?`. In front of anything else, and at the end of the text,
it stands for itself. A `<` that has begun markup is lost as a character, however the markup goes on: no turn hands out
more characters than it takes, but for the one `<` that waits for what follows it.

* `Lexer.owed` — how many characters can still come;
* `Lexer.countP_tokens_le` — a run hands out no more than these;
* `tokenize_eq_characters_iff` — the texts that are read as their characters.
-/

namespace HtmlQuery

/-- The characters that make markup of a `<` in front of them. -/
def OpensMarkup (c : Char) : Prop := c.isAlpha = true ∨ c = '!' ∨ c = '/' ∨ c = '?'

instance : DecidablePred OpensMarkup := fun c => inferInstanceAs (Decidable (c.isAlpha = true ∨ _))

def Token.isCharacter : Token → Bool
  | .character _ => true
  | _ => false

namespace Lexer

variable {l : Lexer} {c : Char} {cs rest : List Char} {last : Option String}

/-! ## Characters that can still come -/

/-- How many characters can still come of the text `cs`: its own, and a `<` that waits for the character behind it. -/
def owed (l : Lexer) (cs : List Char) : Nat := cs.length + if l.state = .tagOpen then 1 else 0

theorem owed_of_ne (h : l.state ≠ .tagOpen) (cs : List Char) : owed l cs = cs.length := by
  rw [owed, if_neg h, Nat.add_zero]

theorem le_owed (l : Lexer) (cs : List Char) : cs.length ≤ owed l cs := Nat.le_add_right _ _

/-- How many characters can come of a turn. -/
def owedBy (m : Move) : Nat := m.output.toList.countP Token.isCharacter + owed m.lexer m.rest

/-- A turn that takes its character has room for a token. -/
theorem owedBy_taken {m : Move} (hs : m.lexer.state ≠ .tagOpen) (h : m.rest.length ≤ rest.length) (c : Char) :
    owedBy m ≤ (c :: rest).length := by
  have one : m.output.toList.countP Token.isCharacter ≤ 1 := by
    refine List.countP_le_length.trans ?_
    cases m.output <;> simp
  rw [owedBy, owed_of_ne hs, List.length_cons]
  omega

/-- A turn that hands its character on hands out nothing. -/
theorem owedBy_moved (hs : l.state ≠ .tagOpen) (cs : List Char) : owedBy ⟨l, none, cs⟩ ≤ cs.length :=
  Nat.le_of_eq ((Nat.zero_add _).trans (owed_of_ne hs cs))

/-- A `<` waits for the character behind it. -/
theorem owedBy_open (hs : l.state = .tagOpen) (c : Char) (rest : List Char) :
    owedBy ⟨l, none, rest⟩ ≤ (c :: rest).length := by
  simp [owedBy, owed, hs]

theorem owedBy_emitTag (l : Lexer) (c : Char) (rest : List Char) : owedBy (l.emitTag rest) ≤ (c :: rest).length := by
  refine owedBy_taken ?_ (Nat.le_of_eq (congrArg List.length (emitTag_rest l rest))) c
  simp only [emitTag]
  split
  · simp only [emit]
    split <;> rintro ⟨⟩
  · rintro ⟨⟩

theorem owedBy_declaration (l : Lexer) (c : Char) (rest : List Char) :
    owedBy (l.declaration rest) ≤ (c :: rest).length := by
  refine owedBy_taken ?_ (length_declaration l rest) c
  unfold declaration
  split
  · rintro ⟨⟩
  · split <;> rintro ⟨⟩

/-! ## Turns -/

/-- Where a `<` begins markup, it is lost. -/
theorem owedBy_step_tagOpen (hl : l.state = .tagOpen) (h : OpensMarkup c) (rest : List Char) :
    owedBy (l.step c rest) ≤ (c :: rest).length := by
  simp only [step, hl]
  split_ifs with mark slash alpha question
  · exact owedBy_declaration l c rest
  · exact owedBy_taken (by rintro ⟨⟩) (Nat.le_refl _) _
  · exact owedBy_moved (by rintro ⟨⟩) _
  · exact owedBy_moved (by rintro ⟨⟩) _
  · rcases h with h | h | h | h
    · exact absurd h alpha
    · exact absurd h mark
    · exact absurd h slash
    · exact absurd h question

/-- In front of any other character a `<` stands for itself. -/
theorem step_tagOpen_of_not (hl : l.state = .tagOpen) (h : ¬ OpensMarkup c) (rest : List Char) :
    l.step c rest = ⟨l.goto .data, some (.character '<'), c :: rest⟩ := by
  simp only [OpensMarkup, not_or] at h
  obtain ⟨alpha, mark, slash, question⟩ := h
  simp [step, hl, alpha, mark, slash, question]

theorem owedBy_step_of_ne (hs : l.state ≠ .tagOpen) (c : Char) (rest : List Char) :
    owedBy (l.step c rest) ≤ (c :: rest).length := by
  cases hl : l.state <;> simp only [step, hl]
  case tagOpen => exact absurd hl hs
  case data | rawText =>
    split_ifs
    · exact owedBy_open rfl _ _
    · exact owedBy_taken hs (Nat.le_refl _) _
  case comment =>
    split
    · exact owedBy_taken (by rintro ⟨⟩) (by simp only [emit, List.length_cons]; omega) _
    · exact owedBy_taken hs (Nat.le_refl _) _
  -- what is left takes its character, hands it on or ends a tag
  all_goals
    split_ifs <;>
      first
      | exact owedBy_emitTag _ _ _
      | exact owedBy_taken hs (Nat.le_refl _) _
      | exact owedBy_taken (by rintro ⟨⟩) (Nat.le_refl _) _
      | exact owedBy_moved (by rintro ⟨⟩) _

/-- **No turn hands out more characters than it takes,** but for the `<` that waits. -/
theorem owedBy_step_le (l : Lexer) (c : Char) (rest : List Char) : owedBy (l.step c rest) ≤ owed l (c :: rest) := by
  by_cases hs : l.state = .tagOpen
  · by_cases h : OpensMarkup c
    · exact (owedBy_step_tagOpen hs h rest).trans (le_owed l _)
    · rw [step_tagOpen_of_not hs h]
      simp [owedBy, owed, hs, goto, Token.isCharacter]
      omega
  · exact (owedBy_step_of_ne hs c rest).trans (le_owed l _)

/-! ## Runs -/

theorem countP_leftover_le (fits : l.Fits []) : l.leftover.toList.countP Token.isCharacter ≤ owed l [] := by
  cases fits with
  | @idle s _ _ hs =>
    cases s <;> cases hs
    case idle.tagOpen.refl => exact Nat.le_refl 1
    all_goals exact Nat.zero_le _
  | rawText => exact Nat.zero_le _
  | @comment s _ _ _ hs => cases s <;> cases hs <;> exact Nat.zero_le _
  | @tag s _ _ _ _ hs _ => cases s <;> cases hs <;> exact Nat.zero_le _

/-- **A run hands out no more characters than can come of its text.** -/
theorem countP_tokens_le (l : Lexer) : ∀ cs : List Char, l.Fits cs →
    (tokens l cs).countP Token.isCharacter ≤ owed l cs
  | [], fits => by
    rw [tokens_nil, List.countP_append]
    exact countP_leftover_le fits
  | c :: rest, fits => by
    have behind := countP_tokens_le (l.step c rest).lexer (l.step c rest).rest fits.step
    rw [tokens_cons, List.countP_append]
    exact (Nat.add_le_add_left behind _).trans (owedBy_step_le l c rest)
termination_by cs => work l.state cs
decreasing_by exact work_step_lt l c rest

theorem tokens_data_cons (h : c ≠ '<') (last : Option String) (rest : List Char) :
    tokens ⟨.data, none, false, last⟩ (c :: rest) = .character c :: tokens ⟨.data, none, false, last⟩ rest := by
  simp [tokens_cons, step, h]

theorem tokens_data_open (last : Option String) (rest : List Char) :
    tokens ⟨.data, none, false, last⟩ ('<' :: rest) = tokens ⟨.tagOpen, none, false, last⟩ rest :=
  tokens_cons _ _ _

theorem tokens_tagOpen_cons (h : ¬ OpensMarkup c) (last : Option String) (rest : List Char) :
    tokens ⟨.tagOpen, none, false, last⟩ (c :: rest) =
      .character '<' :: tokens ⟨.data, none, false, last⟩ (c :: rest) := by
  rw [tokens_cons, step_tagOpen_of_not rfl h]
  rfl

/-- Where a `<` begins markup, it is missing among the characters. -/
theorem countP_tokens_tagOpen_le (h : OpensMarkup c) (last : Option String) (rest : List Char) :
    (tokens ⟨.tagOpen, none, false, last⟩ (c :: rest)).countP Token.isCharacter ≤ (c :: rest).length := by
  have fits : Fits ⟨.tagOpen, none, false, last⟩ (c :: rest) := .idle rfl
  rw [tokens_cons, List.countP_append]
  exact (Nat.add_le_add_left (countP_tokens_le _ _ fits.step) _).trans (owedBy_step_tagOpen rfl h rest)

/-- Between tokens, a text is read as its characters if no `<` in it begins markup. -/
theorem tokens_eq_characters_iff (last : Option String) : ∀ cs : List Char,
    tokens ⟨.data, none, false, last⟩ cs = cs.map .character ++ [.endOfFile] ↔
      cs.IsChain fun c d => c = '<' → ¬ OpensMarkup d
  | [] => iff_of_true (tokens_nil _) .nil
  | [c] => by
    refine iff_of_true ?_ (.singleton c)
    by_cases opens : c = '<'
    · rw [opens, tokens_data_open, tokens_nil]
      rfl
    · rw [tokens_data_cons opens, tokens_nil]
      rfl
  | c :: d :: rest => by
    rw [List.isChain_cons_cons, ← tokens_eq_characters_iff last (d :: rest), List.map_cons, List.cons_append]
    by_cases opens : c = '<'
    · subst opens
      rw [tokens_data_open]
      by_cases h : OpensMarkup d
      · refine iff_of_false (fun all => ?_) fun both => both.1 rfl h
        have few := countP_tokens_tagOpen_le h last rest
        have every : ((d :: rest).map Token.character).countP Token.isCharacter = (d :: rest).length := by
          rw [List.countP_map]
          exact List.countP_eq_length.mpr fun _ _ => rfl
        rw [all, List.countP_cons_of_pos rfl, List.countP_append, every] at few
        omega
      · rw [tokens_tagOpen_cons h, List.cons_inj_right]
        exact (and_iff_right fun _ => h).symm
    · rw [tokens_data_cons opens, List.cons_inj_right]
      exact (and_iff_right fun eq => absurd eq opens).symm

end Lexer

/-- **The texts that are read as their characters** are those in which no `<` stands directly in front of an ASCII
letter, `!`, `/` or `?`. -/
theorem tokenize_eq_characters_iff (s : String) :
    tokenize s = s.toList.map .character ++ [.endOfFile] ↔ s.toList.IsChain fun c d => c = '<' → ¬ OpensMarkup d :=
  Lexer.tokens_eq_characters_iff none s.toList

/-- A `<` at the end of a text, or in front of another one, is no markup. -/
example : tokenize "1<2 <<" = ['1', '<', '2', ' ', '<', '<'].map .character ++ [.endOfFile] := by decide +kernel

end HtmlQuery
