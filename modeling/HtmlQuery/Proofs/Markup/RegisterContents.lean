import HtmlQuery.Proofs.Markup.Turns

/-!
# What the registers hold

Between two turns the token that is being read is of the kind that the state is about. So no turn changes a token of
another kind, which would do nothing: in particular a character of a name or of a value always finds its attribute.

* `Lexer.Consistent` — what the registers hold, by the state;
* `LexerState.extension?` — what a character does to the attribute that is being read;
* `Lexer.Turns.fits` — registers that fit the text stay so, turn by turn;
* `Lexer.consistent_of_turns` — the registers between two turns of any text.
-/

namespace HtmlQuery

open Text

namespace LexerState

/-- The name or the value of an attribute is being read, or a value is to come. -/
def inAttribute : LexerState → Bool
  | .attributeName | .beforeAttributeValue | .quotedValue _ | .unquotedValue => true
  | _ => false

/-- What a character does to the attribute that is being read, if it belongs to its name or to its value. -/
def extension? : LexerState → Char → Option (Attribute → Attribute)
  | .attributeName, c =>
    if isBlank c ∨ c = '/' ∨ c = '>' ∨ c = '=' then none else some fun a => { a with name := a.name.push c.toLower }
  | .quotedValue quote, c => if c = quote.char then none else some fun a => { a with value := a.value.push c }
  | .unquotedValue, c => if isBlank c ∨ c = '>' then none else some fun a => { a with value := a.value.push c }
  | _, _ => none

variable {s : LexerState}

theorem inTag_of_inAttribute (h : s.inAttribute = true) : s.inTag = true := by
  cases s <;> cases h <;> rfl

/-- Where an attribute is read, the tag needs one. -/
theorem needsAttribute_of_inAttribute (h : s.inAttribute = true) (rest : List Char) :
    s.needsAttribute rest = true := by
  cases s <;> cases h <;> rfl

theorem inAttribute_of_extension? {c : Char} {grow : Attribute → Attribute} (h : s.extension? c = some grow) :
    s.inAttribute = true := by
  cases s with
  | attributeName | quotedValue | unquotedValue => rfl
  | _ => cases h

end LexerState

/-- A name that is repeated is that of the last attribute. -/
theorem Token.exists_of_repeatsName {token : Token} (h : token.repeatsName = true) :
    ∃ name selfClosing earlier last, token = .startTag name selfClosing (earlier ++ [last]) ∧
      last.name ∈ earlier.map Attribute.name := by
  cases token with
  | startTag name selfClosing attributes =>
    rcases List.eq_nil_or_concat' attributes with rfl | ⟨earlier, last, rfl⟩
    · cases h
    · simp only [repeatsName, List.getLast?_concat, List.dropLast_concat, List.any_eq_true, beq_iff_eq] at h
      exact ⟨name, selfClosing, earlier, last, rfl, List.mem_map.mpr h⟩
  | endTag | comment | character | endOfFile => cases h

namespace Lexer

variable {l l' : Lexer} {cs cs' : List Char} {out : List Token} {n : Nat} {c : Char}

/-- What the registers hold between two turns. -/
structure Consistent (l : Lexer) : Prop where
  tag : l.state.inTag = true →
    (∃ name selfClosing attributes, l.token = some (.startTag name selfClosing attributes)) ∨
      ∃ name, l.token = some (.endTag name)
  comment : l.state.inComment = true → ∃ data, l.token = some (.comment data)
  nothing : l.state.isIdle = true ∨ l.state = .rawText → l.token = none ∧ l.discarding = false
  attributes_ne_nil : l.state.inAttribute = true → ∀ name selfClosing attributes,
    l.token = some (.startTag name selfClosing attributes) → attributes ≠ []
  /-- Only an attribute that repeats an earlier name is going to be removed. -/
  repeats : l.discarding = true → ∃ name selfClosing earlier last,
    l.token = some (.startTag name selfClosing (earlier ++ [last])) ∧ last.name ∈ earlier.map Attribute.name
  rawText : l.state = .rawText → ∃ name, l.lastStart = some name ∧ isRawTextName name = true

/-! ## Registers by their state -/

namespace Fits

theorem of_inTag (h : l.Fits cs) (hs : l.state.inTag = true) :
    ∃ token, l.token = some token ∧ token.IsTagIn l.state cs l.discarding := by
  -- no state is of two kinds
  cases h with
  | @idle s _ _ idle => cases s <;> cases idle <;> cases hs
  | rawText => cases hs
  | @comment s _ _ _ comment => cases s <;> cases comment <;> cases hs
  | @tag s token _ _ _ _ tag => exact ⟨token, rfl, tag⟩

theorem of_inComment (h : l.Fits cs) (hs : l.state.inComment = true) : ∃ data, l.token = some (.comment data) := by
  cases h with
  | @idle s _ _ idle => cases s <;> cases idle <;> cases hs
  | rawText => cases hs
  | @comment s data => exact ⟨data, rfl⟩
  | @tag s _ _ _ _ tag => cases s <;> cases tag <;> cases hs

theorem of_isIdle (h : l.Fits cs) (hs : l.state.isIdle = true) : l.token = none ∧ l.discarding = false := by
  cases h with
  | idle | rawText => exact ⟨rfl, rfl⟩
  | @comment s _ _ _ comment => cases s <;> cases comment <;> cases hs
  | @tag s _ _ _ _ tag => cases s <;> cases tag <;> cases hs

theorem of_rawText (h : l.Fits cs) (hs : l.state = .rawText) :
    l.token = none ∧ l.discarding = false ∧ ∃ name, l.lastStart = some name ∧ isRawTextName name = true := by
  cases h with
  | idle idle => cases hs; cases idle
  | @rawText name _ raw => exact ⟨rfl, rfl, name, rfl, raw⟩
  | comment comment => cases hs; cases comment
  | tag tag => cases hs; cases tag

/-- What is going to be removed is in a tag. -/
theorem inTag_of_discarding (h : l.Fits cs) (hd : l.discarding = true) : l.state.inTag = true := by
  cases h with
  | idle | rawText | comment => cases hd
  | tag tag => exact tag

end Fits

/-- Registers that fit the text are consistent. -/
theorem Fits.consistent (h : l.Fits cs) : l.Consistent where
  tag hs := by
    obtain ⟨token, held, inTag⟩ := h.of_inTag hs
    cases token with
    | startTag name selfClosing attributes => exact .inl ⟨name, selfClosing, attributes, held⟩
    | endTag name => exact .inr ⟨name, held⟩
    | comment | character | endOfFile => exact inTag.elim
  comment := h.of_inComment
  nothing hs := by
    rcases hs with idle | raw
    · exact h.of_isIdle idle
    · obtain ⟨none, kept, -⟩ := h.of_rawText raw
      exact ⟨none, kept⟩
  attributes_ne_nil hs name selfClosing attributes held := by
    obtain ⟨token, held', inTag⟩ := h.of_inTag (LexerState.inTag_of_inAttribute hs)
    cases held.symm.trans held'
    exact inTag.1 (LexerState.needsAttribute_of_inAttribute hs cs)
  repeats hd := by
    obtain ⟨token, held, inTag⟩ := h.of_inTag (h.inTag_of_discarding hd)
    rw [hd] at inTag
    cases token with
    | startTag name selfClosing attributes =>
      obtain ⟨name, selfClosing, earlier, last, eq, repeats⟩ := Token.exists_of_repeatsName (inTag.2 rfl).2
      exact ⟨name, selfClosing, earlier, last, eq ▸ held, repeats⟩
    | endTag => cases inTag
    | comment | character | endOfFile => exact inTag.elim
  rawText hs := (h.of_rawText hs).2.2

/-! ## Names and values -/

/-- A character of a name or of a value goes to the last attribute, and nothing else changes. -/
theorem step_of_extension? {grow : Attribute → Attribute} {name : String} {selfClosing : Bool}
    {earlier : List Attribute} {last : Attribute} (hc : l.state.extension? c = some grow)
    (held : l.token = some (.startTag name selfClosing (earlier ++ [last]))) (rest : List Char) :
    l.step c rest = ⟨{ l with token := some (.startTag name selfClosing (earlier ++ [grow last])) }, none, rest⟩ := by
  obtain ⟨s, token, discarding, start⟩ := l
  cases held
  cases s with
  | attributeName =>
    obtain ⟨stays, eq⟩ := Option.ite_none_left_eq_some.mp hc
    cases eq
    simp only [not_or] at stays
    simp [step, stays, edit, Token.pushAttributeName, modifyLast_append]
  | quotedValue quote =>
    obtain ⟨stays, eq⟩ := Option.ite_none_left_eq_some.mp hc
    cases eq
    simp [step, stays, edit, Token.pushAttributeValue, modifyLast_append]
  | unquotedValue =>
    obtain ⟨stays, eq⟩ := Option.ite_none_left_eq_some.mp hc
    cases eq
    simp only [not_or] at stays
    simp [step, stays, edit, Token.pushAttributeValue, modifyLast_append]
  | _ => cases hc

/-! ## Turns -/

/-- Registers that fit the text stay so, turn by turn. -/
theorem Turns.fits (h : Turns n l cs out l' cs') (fits : l.Fits cs) : l'.Fits cs' := by
  induction h with
  | none => exact fits
  | turn _ ih => exact ih fits.step

/-- **The registers between two turns of any text** are consistent with the state. So where the attribute of a start
tag is read, the tag has one, and each character of its name or of its value goes there. -/
theorem consistent_of_turns {s : String} (h : Turns n {} s.toList out l cs) : l.Consistent ∧
    ∀ c grow name selfClosing attributes, l.state.extension? c = some grow →
      l.token = some (.startTag name selfClosing attributes) →
      ∃ earlier last, attributes = earlier ++ [last] ∧ ∀ rest, l.step c rest =
        ⟨{ l with token := some (.startTag name selfClosing (earlier ++ [grow last])) }, none, rest⟩ := by
  have held : l.Consistent := (h.fits (.initial _)).consistent
  refine ⟨held, fun c grow name selfClosing attributes hc token => ?_⟩
  have nonempty := held.attributes_ne_nil (LexerState.inAttribute_of_extension? hc) name selfClosing attributes token
  obtain ⟨earlier, last, rfl⟩ := (List.eq_nil_or_concat' attributes).resolve_left nonempty
  exact ⟨earlier, last, rfl, step_of_extension? hc token⟩

/-- The registers in the value of an attribute that is going to be removed. -/
def inRepeated : Lexer := ⟨.unquotedValue, some (.startTag "i" false [⟨"a", ""⟩, ⟨"a", ""⟩]), true, none⟩

theorem consistent_of_turns_repeated : Turns 12 {} "<i a a=x".toList [] inRepeated ['x'] ∧ inRepeated.Consistent ∧
    inRepeated.step 'x' [] =
      ⟨{ inRepeated with token := some (.startTag "i" false [⟨"a", ""⟩, ⟨"a", "x"⟩]) }, none, []⟩ := by
  have turns : Turns 12 {} "<i a a=x".toList [] inRepeated ['x'] :=
    .turn <| .turn <| .turn <| .turn <| .turn <| .turn <| .turn <| .turn <| .turn <| .turn <| .turn <| .turn <|
      .none inRepeated ['x']
  obtain ⟨held, grows⟩ := consistent_of_turns turns
  obtain ⟨earlier, last, eq, step⟩ := grows 'x' _ "i" false ([⟨"a", ""⟩] ++ [⟨"a", ""⟩]) rfl rfl
  obtain ⟨rfl, same⟩ := List.append_inj' eq rfl
  cases same
  exact ⟨turns, held, step []⟩

end Lexer

end HtmlQuery
