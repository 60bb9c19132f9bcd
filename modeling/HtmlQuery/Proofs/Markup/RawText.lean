import HtmlQuery.Proofs.Markup.Boundaries

/-!
# Raw text

Behind the start tag of a raw text element, the lexer hands out characters and nothing else, up to the end tag of the
same name or to the end of the text. It leaves raw text only at a `<` behind which it has seen that name, and what it
then reads can be no other tag.

* `rawTextBehind?` — the rows of tokens in which raw text ends like this;
* `Lexer.Within` — the registers inside a raw text element, by the text still to be read;
* `Lexer.Within.step`, `Lexer.Within.run` — every turn and every run goes on in such a row;
* `tokenize_rawText` — what follows the start tag of a raw text element.
-/

namespace HtmlQuery

open Text

/-! ## Tokens -/

/-- The raw text element that is open behind a token, where `opened` was open before it. Inside such an element there are
only characters and its end tag. The end of the text comes nowhere. -/
def Token.openedBehind? : (opened : Option String) → Token → Option (Option String)
  | none, .startTag name _ _ => some (if isRawTextName name then some name else none)
  | none, .endOfFile => none
  | none, _ => some none
  | some name, .character _ => some (some name)
  | some name, .endTag other => if other = name then some none else none
  | some _, _ => none

/-- The raw text element that is open behind some tokens, if they can follow one another. -/
def rawTextBehind? (opened : Option String) (tokens : List Token) : Option (Option String) :=
  tokens.foldlM Token.openedBehind? opened

/-- The characters at the front of some tokens. -/
def leadingCharacters : List Token → List Char
  | .character c :: tokens => c :: leadingCharacters tokens
  | _ => []

theorem leadingCharacters_append_endOfFile : ∀ tokens : List Token,
    leadingCharacters (tokens ++ [.endOfFile]) = leadingCharacters tokens
  | [] => rfl
  | .character c :: tokens => congrArg (c :: ·) (leadingCharacters_append_endOfFile tokens)
  | .startTag _ _ _ :: _ | .endTag _ :: _ | .comment _ :: _ | .endOfFile :: _ => rfl

variable {opened opened' : Option String} {name : String} {tokens : List Token}

theorem rawTextBehind?_cons (opened : Option String) (token : Token) (tokens : List Token) :
    rawTextBehind? opened (token :: tokens) = (token.openedBehind? opened).bind (rawTextBehind? · tokens) :=
  List.foldlM_cons

theorem rawTextBehind?_append (opened : Option String) (tokens tokens' : List Token) :
    rawTextBehind? opened (tokens ++ tokens') = (rawTextBehind? opened tokens).bind (rawTextBehind? · tokens') :=
  List.foldlM_append

theorem not_mem_of_rawTextBehind? (h : rawTextBehind? opened tokens = some opened') : .endOfFile ∉ tokens := by
  induction tokens generalizing opened with
  | nil => exact List.not_mem_nil
  | cons token tokens ih =>
    rw [rawTextBehind?_cons] at h
    obtain ⟨next, first, rest⟩ := Option.bind_eq_some_iff.mp h
    rintro (_ | ⟨_, mem⟩)
    · cases opened <;> cases first
    · exact ih rest mem

/-- Inside a raw text element come characters, and then its end tag or nothing. -/
theorem of_rawTextBehind?_some : ∀ {tokens : List Token}, rawTextBehind? (some name) tokens = some opened →
    ∃ behind, tokens = (leadingCharacters tokens).map .character ++ behind ∧
      (behind = [] ∨ ∃ more, behind = .endTag name :: more)
  | [], _ => ⟨[], rfl, .inl rfl⟩
  | .character c :: tokens, h => by
    have inside : rawTextBehind? (some name) tokens = some opened := h
    obtain ⟨behind, eq, ends⟩ := of_rawTextBehind?_some inside
    exact ⟨behind, congrArg (Token.character c :: ·) eq, ends⟩
  | .endTag other :: tokens, h => by
    by_cases same : other = name
    · exact ⟨.endTag other :: tokens, rfl, .inr ⟨tokens, by rw [same]⟩⟩
    · rw [rawTextBehind?_cons, Token.openedBehind?, if_neg same] at h
      cases h
  | .startTag _ _ _ :: _, h | .comment _ :: _, h | .endOfFile :: _, h => by cases h

/-- Behind the start tag of a raw text element come characters, and then its end tag or nothing. -/
theorem of_rawTextBehind?_startTag {before : List Token} {selfClosing : Bool} {attributes : List Attribute}
    (h : rawTextBehind? none (before ++ .startTag name selfClosing attributes :: tokens) = some opened)
    (raw : isRawTextName name = true) : ∃ behind, tokens = (leadingCharacters tokens).map .character ++ behind ∧
      (behind = [] ∨ ∃ more, behind = .endTag name :: more) := by
  rw [rawTextBehind?_append] at h
  obtain ⟨outer, -, h⟩ := Option.bind_eq_some_iff.mp h
  rw [rawTextBehind?_cons] at h
  obtain ⟨inner, first, h⟩ := Option.bind_eq_some_iff.mp h
  -- a tag comes outside raw text only, and this one opens its element
  cases outer with
  | none =>
    rw [Token.openedBehind?, if_pos raw] at first
    cases first
    exact of_rawTextBehind?_some h
  | some => cases first

/-! ## The text of an end tag -/

/-- Whether the text begins with the rest of a name, up to the character behind the name. -/
def NameFollows (name cs : List Char) : Prop :=
  ∃ behind, dropWord? name cs = some behind ∧ ∀ c ∈ behind.head?, isBlank c = true ∨ c = '/' ∨ c = '>'

namespace Lexer

variable {s : LexerState} {rest : List Char}

theorem nameFollows_of_endTagFollows (h : endTagFollows ⟨s, none, false, some name⟩ rest = true) :
    ∃ cs, rest = '/' :: cs ∧ NameFollows name.toList cs := by
  unfold endTagFollows at h
  split at h
  case h_1 word cs eq =>
    cases eq
    refine ⟨cs, rfl, ?_⟩
    split at h
    case h_1 => cases h
    case h_2 whole => exact ⟨[], whole, nofun⟩
    case h_3 c behind word =>
      refine ⟨c :: behind, word, ?_⟩
      rintro _ ⟨⟩
      simp only [Bool.or_eq_true, beq_iff_eq] at h
      rcases h with (close | slash) | blank
      · exact .inr (.inr close)
      · exact .inr (.inl slash)
      · exact .inl blank
  case h_2 => cases h

/-! ## Inside a raw text element -/

/-- The registers in front of the text `cs` where the raw text element `opened` is open: in its text, or on the way
through its end tag. -/
inductive Within : Lexer → (cs : List Char) → (opened : Option String) → Prop
  | outside {l : Lexer} {cs : List Char} (h : l.state ≠ .rawText) : Within l cs none
  | text {name : String} {cs : List Char} (raw : isRawTextName name = true) :
    Within ⟨.rawText, none, false, some name⟩ cs (some name)
  | bracket {name : String} {cs : List Char} {last : Option String} (raw : isRawTextName name = true)
    (follows : NameFollows name.toList cs) : Within ⟨.tagOpen, none, false, last⟩ ('/' :: cs) (some name)
  | slash {name : String} {cs : List Char} {last : Option String} (raw : isRawTextName name = true)
    (follows : NameFollows name.toList cs) : Within ⟨.endTagOpen, none, false, last⟩ cs (some name)
  | name {name read : String} {unread cs : List Char} {last : Option String}
    (lower : ∀ c ∈ unread, c.isLower = true ∧ c.toLower = c) (eq : read.toList ++ unread = name.toList)
    (follows : NameFollows unread cs) : Within ⟨.tagName, some (.endTag read), false, last⟩ cs (some name)
  | behindName {name : String} {s : LexerState} {cs : List Char} {last : Option String} (hs : s.inTag = true)
    (hn : s ≠ .tagName) : Within ⟨s, some (.endTag name), false, last⟩ cs (some name)

end Lexer

/-- The turn goes on in the row of tokens. -/
def Move.Continues (m : Move) (opened : Option String) : Prop :=
  ∃ opened', rawTextBehind? opened m.output.toList = some opened' ∧ m.lexer.Within m.rest opened'

namespace Lexer

variable {l : Lexer} {s : LexerState} {c : Char} {cs rest unread : List Char} {token : Token} {discarding : Bool}
  {last : Option String} {data read : String} {out : Array Token}

namespace Within

/-! ## Turns outside -/

theorem moved {token : Option Token} (hs : s ≠ .rawText) :
    Move.Continues ⟨⟨s, token, discarding, last⟩, none, rest⟩ none :=
  ⟨none, rfl, .outside hs⟩

theorem wrote {token : Option Token} (hs : s ≠ .rawText) :
    Move.Continues ⟨⟨s, token, discarding, last⟩, some (.character c), rest⟩ none :=
  ⟨none, rfl, .outside hs⟩

/-- A start tag opens its element if that is one of raw text. -/
theorem emitTag (h : token.IsTagIn s cs discarding) (rest : List Char) :
    (emitTag ⟨s, some token, discarding, last⟩ rest).Continues none := by
  cases token with
  | startTag name selfClosing attributes =>
    have handed (attributes : List Attribute) : Move.Continues
        ⟨⟨if isRawTextName name then .rawText else .data, none, false, some name⟩,
          some (.startTag name selfClosing attributes), rest⟩ none := by
      refine ⟨if isRawTextName name then some name else none, rfl, ?_⟩
      split
      case isTrue raw => exact .text raw
      case isFalse => exact .outside nofun
    cases discarding with
    | true | false => exact handed _
  | endTag name =>
    cases h
    exact ⟨none, rfl, .outside nofun⟩
  | comment | character | endOfFile => exact h.elim

theorem step_idle (hs : s.isIdle = true) (c : Char) (rest : List Char) :
    (step ⟨s, none, false, last⟩ c rest).Continues none := by
  cases s <;> cases hs
  case data =>
    unfold Lexer.step
    dsimp only
    split_ifs
    · exact moved nofun
    · exact wrote nofun
  case tagOpen =>
    unfold Lexer.step
    dsimp only
    split_ifs
    · unfold declaration
      split
      · exact moved nofun
      · split
        · exact moved nofun
        · exact moved nofun
    · exact moved nofun
    · exact moved nofun
    · exact moved nofun
    · exact wrote nofun
  case endTagOpen =>
    unfold Lexer.step
    dsimp only
    split_ifs
    · exact moved nofun
    · exact moved nofun
    · exact moved nofun
  case doctype =>
    unfold Lexer.step
    dsimp only
    split_ifs
    · exact moved nofun
    · exact moved nofun

theorem step_comment (hs : s.inComment = true) (c : Char) (rest : List Char) :
    (step ⟨s, some (.comment data), false, last⟩ c rest).Continues none := by
  have emitted (rest : List Char) : (emit ⟨s, some (.comment data), false, last⟩ .data rest).Continues none :=
    ⟨none, rfl, .outside nofun⟩
  cases s <;> cases hs
  case bogusComment =>
    unfold Lexer.step
    dsimp only
    split_ifs
    · exact emitted _
    · exact moved nofun
  case comment =>
    unfold Lexer.step
    dsimp only
    split
    · exact emitted _
    · exact moved nofun

theorem step_tag (hs : s.inTag = true) (h : token.IsTagIn s (c :: rest) discarding) :
    (step ⟨s, some token, discarding, last⟩ c rest).Continues none := by
  have emitted : (Lexer.emitTag ⟨s, some token, discarding, last⟩ rest).Continues none := emitTag h rest
  cases s <;> cases hs <;> unfold Lexer.step <;> dsimp only
  case selfClosing =>
    split_ifs
    · exact emitTag h.markSelfClosing rest
    · exact moved nofun
  -- what is left edits, opens an attribute, goes on to another state or ends the tag
  all_goals
    split_ifs <;>
      first
      | exact moved nofun
      | exact emitted

/-- A turn outside raw text. -/
theorem step_outside (h : l.state ≠ .rawText) (fits : l.Fits (c :: rest)) : (l.step c rest).Continues none := by
  cases fits with
  | idle hs => exact step_idle hs c rest
  | rawText => exact absurd rfl h
  | comment hs => exact step_comment hs c rest
  | tag hs h => exact step_tag hs h

/-! ## Turns inside -/

/-- The end tag closes the element of its name. -/
theorem emitTag_endTag (s : LexerState) (name : String) (last : Option String) (rest : List Char) :
    (Lexer.emitTag ⟨s, some (.endTag name), false, last⟩ rest).Continues (some name) := by
  refine ⟨none, ?_, .outside nofun⟩
  simp [Lexer.emitTag, closeAttribute, emit, rawTextBehind?, Token.openedBehind?]

/-- An end tag that has its name is read to its end. -/
theorem step_behindName (hs : s.inTag = true) (hn : s ≠ .tagName) (c : Char) (rest : List Char) :
    (step ⟨s, some (.endTag name), false, last⟩ c rest).Continues (some name) := by
  have on {s : LexerState} {cs : List Char} (hs : s.inTag = true) (hn : s ≠ .tagName) :
      Move.Continues ⟨⟨s, some (.endTag name), false, last⟩, none, cs⟩ (some name) := ⟨_, rfl, .behindName hs hn⟩
  cases s <;> cases hs <;> unfold Lexer.step <;> dsimp only
  case tagName => exact absurd rfl hn
  all_goals
    split_ifs <;>
      first
      | exact emitTag_endTag _ _ _ _
      | exact on rfl nofun

/-- The name of the end tag is read letter by letter. -/
theorem step_name (lower : ∀ c ∈ unread, c.isLower = true ∧ c.toLower = c)
    (eq : read.toList ++ unread = name.toList) (follows : NameFollows unread (c :: rest)) :
    (step ⟨.tagName, some (.endTag read), false, last⟩ c rest).Continues (some name) := by
  obtain ⟨behind, word, ends⟩ := follows
  cases unread with
  | nil =>
    -- the name is complete, and the character ends it
    cases word
    rw [List.append_nil] at eq
    cases String.toList_inj.mp eq
    have whole := ends c rfl
    unfold Lexer.step
    dsimp only
    split_ifs with blank slash close
    · exact ⟨_, rfl, .behindName rfl nofun⟩
    · exact ⟨_, rfl, .behindName rfl nofun⟩
    · exact emitTag_endTag _ _ _ _
    · exact absurd whole (not_or.mpr ⟨blank, not_or.mpr ⟨slash, close⟩⟩)
  | cons w unread =>
    obtain ⟨letter, same⟩ := lower w List.mem_cons_self
    rw [dropWord?] at word
    split_ifs at word with agree
    rw [same] at agree
    obtain ⟨-, blank, slash, close, -⟩ := of_isLower_toLower (c := c) (by rw [← agree]; exact letter)
    have turn : Lexer.step ⟨.tagName, some (.endTag read), false, last⟩ c rest =
        ⟨⟨.tagName, some (.endTag (read.push w)), false, last⟩, none, rest⟩ := by
      simp [Lexer.step, blank, slash, close, edit, Token.pushName, agree]
    rw [turn]
    refine ⟨_, rfl, .name (fun c hc => lower c (List.mem_cons_of_mem _ hc)) ?_ ⟨behind, word, ends⟩⟩
    rw [String.toList_push, List.append_assoc]
    exact eq

/-- A raw text element goes on, or its end tag begins. -/
theorem step_text (raw : isRawTextName name = true) (c : Char) (rest : List Char) :
    (step ⟨.rawText, none, false, some name⟩ c rest).Continues (some name) := by
  unfold Lexer.step
  dsimp only
  split_ifs with ends
  · obtain ⟨cs, rfl, follows⟩ := nameFollows_of_endTagFollows ends.2
    exact ⟨_, rfl, .bracket raw follows⟩
  · exact ⟨_, rfl, .text raw⟩

/-- Behind the slash of the end tag its name begins. -/
theorem step_slash (raw : isRawTextName name = true) (follows : NameFollows name.toList (c :: rest)) :
    (step ⟨.endTagOpen, none, false, last⟩ c rest).Continues (some name) := by
  have lower := isLower_of_isRawTextName raw
  have alpha : c.isAlpha = true := by
    obtain ⟨behind, word, -⟩ := follows
    cases hname : name.toList with
    | nil =>
      rw [String.toList_eq_nil_iff.mp hname] at raw
      exact absurd raw (by decide)
    | cons w ws =>
      rw [hname, dropWord?] at word
      split_ifs at word with agree
      obtain ⟨letter, same⟩ := lower w (by rw [hname]; exact List.mem_cons_self)
      exact (of_isLower_toLower (by rw [← agree, same]; exact letter)).1
  have turn : Lexer.step ⟨.endTagOpen, none, false, last⟩ c rest =
      ⟨⟨.tagName, some (.endTag ""), false, last⟩, none, c :: rest⟩ := by
    simp [Lexer.step, alpha, start, Token.emptyEndTag]
  rw [turn]
  exact ⟨_, rfl, .name lower rfl follows⟩

/-- **Every turn goes on in a row of tokens in which raw text ends with its element.** -/
theorem step (h : l.Within (c :: rest) opened) (fits : l.Fits (c :: rest)) : (l.step c rest).Continues opened := by
  cases h with
  | outside h => exact step_outside h fits
  | text raw => exact step_text raw c rest
  | bracket raw follows => exact ⟨_, rfl, .slash raw follows⟩
  | slash raw follows => exact step_slash raw follows
  | name lower eq follows => exact step_name lower eq follows
  | behindName hs hn => exact step_behindName hs hn c rest

/-- Every run goes on in such a row. -/
theorem run (h : l.Within cs opened) (fits : l.Fits cs) (before : rawTextBehind? none out.toList = some opened) :
    ∃ opened', rawTextBehind? none (run l cs out).2.toList = some opened' ∧ (run l cs out).1.Within [] opened' := by
  fun_induction Lexer.run l cs out generalizing opened with
  | case1 => exact ⟨opened, before, h⟩
  | case2 l out c rest move =>
    rename_i ih
    obtain ⟨next, output, within⟩ := h.step fits
    refine ih within fits.step ?_
    rw [Array.toList_append, rawTextBehind?_append, before, Option.bind_some]
    simpa using output

/-- What the end of the text leaves of an unfinished token goes on in the row, too. -/
theorem leftover (h : l.Within [] opened) (fits : l.Fits []) :
    rawTextBehind? opened l.leftover.toList = some opened := by
  cases h with
  | outside h =>
    cases fits with
    | @idle s _ _ hs => cases s <;> cases hs <;> rfl
    | rawText => exact absurd rfl h
    | @comment s _ _ _ hs => cases s <;> cases hs <;> rfl
    | @tag s _ _ _ _ hs _ => cases s <;> cases hs <;> rfl
  | text | slash | name => rfl
  | @behindName _ s _ _ hs hn => cases s <;> cases hs <;> rfl

end Within

end Lexer

/-! ## Texts -/

/-- In the tokens of a text, raw text ends with its element. -/
theorem exists_rawTextBehind?_tokenize (s : String) :
    ∃ tokens opened, tokenize s = tokens ++ [.endOfFile] ∧ rawTextBehind? none tokens = some opened := by
  have fits := Lexer.Fits.initial s.toList
  have outside : Lexer.Within {} s.toList none := .outside (by decide)
  have nothing : rawTextBehind? none (#[] : Array Token).toList = some none := rfl
  obtain ⟨opened, read, within⟩ := outside.run fits nothing
  refine ⟨_, opened, rfl, ?_⟩
  rw [rawTextBehind?_append, read]
  exact within.leftover (fits.run #[])

/-- **Behind the start tag of a raw text element** come characters, and then the end tag of the same name or the end of
the text. This holds whether the tag closes itself or not. -/
theorem tokenize_rawText {s : String} {before rest : List Token} {selfClosing : Bool} {attributes : List Attribute}
    (h : tokenize s = before ++ .startTag name selfClosing attributes :: rest) (raw : isRawTextName name = true) :
    ∃ behind, rest = (leadingCharacters rest).map .character ++ behind ++ [.endOfFile] ∧
      .endOfFile ∉ before ++ behind ∧ (behind = [] ∨ ∃ more, behind = .endTag name :: more) := by
  obtain ⟨tokens, opened, all, row⟩ := exists_rawTextBehind?_tokenize s
  rw [h] at all
  -- the end of the text is not the start tag, so it is the last of the tokens behind that
  obtain rfl | ⟨rest, last, rfl⟩ := List.eq_nil_or_concat' rest
  · exact absurd (List.append_inj_right' all rfl) (by simp)
  obtain ⟨rfl, eq⟩ := List.append_inj' ((List.append_assoc before (_ :: rest) [last]).trans all) rfl
  cases eq
  have whole := not_mem_of_rawTextBehind? row
  obtain ⟨behind, eq, ends⟩ := of_rawTextBehind?_startTag row raw
  refine ⟨behind, ?_, ?_, ends⟩
  · rw [leadingCharacters_append_endOfFile, ← eq]
  · rw [eq] at whole
    simp only [List.mem_append, List.mem_cons, not_or] at whole ⊢
    exact ⟨whole.1, whole.2.2.2⟩

end HtmlQuery
