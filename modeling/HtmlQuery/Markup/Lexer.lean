import HtmlQuery.Markup.Token
import HtmlQuery.Markup.Vocabulary
import HtmlQuery.Text.Ascii

/-!
# From text to tokens

The lexer is the state machine of the HTML standard, reduced to what element trees need: character references stay as
they are, and a document type is read and dropped. `Lexer.step` is one turn of the machine. A turn takes a character and
hands on the text that is still to be read; the character itself is part of that text when the next state is to look at
it again.

* `Lexer.work_step_lt` — every turn leaves less work, where a character that waits for its third state counts least:
  no character is looked at by more than three states in a row;
* `tokenize` — all tokens of a text, the end of the text last.
-/

namespace HtmlQuery

open Text

/-- The two quotation marks around a value. -/
inductive Quote where
  | double
  | single
  deriving DecidableEq, Repr

/-- The character of a quotation mark. -/
def Quote.char : Quote → Char
  | .double => '"'
  | .single => '\''

/-- What the lexer is in the middle of. -/
inductive LexerState where
  | data
  | rawText
  | tagOpen
  | endTagOpen
  | tagName
  | beforeAttributeName
  | attributeName
  | afterAttributeName
  | beforeAttributeValue
  | quotedValue (quote : Quote)
  | unquotedValue
  | afterQuotedValue
  | selfClosing
  | bogusComment
  | comment
  | doctype
  deriving DecidableEq, Repr

/-- The registers of the machine. -/
structure Lexer where
  state : LexerState := .data
  /-- The tag or comment that is being read. -/
  token : Option Token := none
  /-- The last attribute repeats an earlier name: it is read to its end and then removed. -/
  discarding : Bool := false
  /-- The name of the last complete start tag. -/
  lastStart : Option String := none
  deriving DecidableEq, Repr

/-- The outcome of a turn: the registers, at most one token, and the text still to be read. -/
structure Move where
  lexer : Lexer
  output : Option Token
  rest : List Char
  deriving DecidableEq, Repr

namespace Lexer

/-! ## The registers -/

/-- The machine in another state. -/
def goto (l : Lexer) (s : LexerState) : Lexer := { l with state := s }

/-- Begins a token and reads on in state `s`. -/
def start (l : Lexer) (token : Token) (s : LexerState) : Lexer := { l with token := some token, state := s }

/-- Changes the token that is being read. -/
def edit (l : Lexer) (f : Token → Token) : Lexer := { l with token := l.token.map f }

/-- Leaves the last attribute, which goes if its name was taken. -/
def closeAttribute (l : Lexer) : Lexer :=
  if l.discarding then { l with discarding := false, token := l.token.map Token.dropAttribute } else l

/-- Leaves the last attribute and begins another. -/
def openAttribute (l : Lexer) : Lexer := l.closeAttribute.edit Token.addAttribute

/-- Notes at the end of an attribute's name whether the name was taken. -/
def checkName (l : Lexer) : Lexer :=
  if l.token.any Token.repeatsName then { l with discarding := true } else l

/-- Hands out the token that has been read. -/
def emit (l : Lexer) (s : LexerState) (rest : List Char) : Move := ⟨{ l with token := none, state := s }, l.token, rest⟩

/-- Hands out a tag. The start tag of a raw text element is followed by raw text. -/
def emitTag (l : Lexer) (rest : List Char) : Move :=
  let l := l.closeAttribute
  match l.token with
  | some (.startTag name _ _) =>
    { l with lastStart := some name }.emit (if isRawTextName name then .rawText else .data) rest
  | _ => l.emit .data rest

/-- Whether the text behind a `<` is the end tag of the last start tag, up to the character behind its name. -/
def endTagFollows (l : Lexer) (rest : List Char) : Bool :=
  match l.lastStart, rest with
  | some name, '/' :: rest =>
    match dropWord? name.toList rest with
    | none => false
    | some [] => true
    | some (c :: _) => c == '>' || c == '/' || isBlank c
  | _, _ => false

/-- Reads on behind `<!`: a comment, a document type, or a comment without its dashes. -/
def declaration (l : Lexer) (rest : List Char) : Move :=
  match rest with
  | '-' :: '-' :: rest => ⟨l.start .emptyComment .comment, none, rest⟩
  | _ =>
    match dropWord? "doctype".toList rest with
    | some rest => ⟨l.goto .doctype, none, rest⟩
    | none => ⟨l.start .emptyComment .bogusComment, none, rest⟩

/-! ## One turn -/

/-- One turn at the character `c`, with the text `rest` behind it. -/
def step (l : Lexer) (c : Char) (rest : List Char) : Move :=
  match l.state with
  | .data =>
    if c = '<' then ⟨l.goto .tagOpen, none, rest⟩ else ⟨l, some (.character c), rest⟩
  | .rawText =>
    if c = '<' ∧ l.endTagFollows rest then ⟨l.goto .tagOpen, none, rest⟩ else ⟨l, some (.character c), rest⟩
  | .tagOpen =>
    if c = '!' then l.declaration rest
    else if c = '/' then ⟨l.goto .endTagOpen, none, rest⟩
    else if c.isAlpha then ⟨l.start .emptyStartTag .tagName, none, c :: rest⟩
    else if c = '?' then ⟨l.start .emptyComment .bogusComment, none, c :: rest⟩
    else ⟨l.goto .data, some (.character '<'), c :: rest⟩
  | .endTagOpen =>
    if c.isAlpha then ⟨l.start .emptyEndTag .tagName, none, c :: rest⟩
    else if c = '>' then ⟨l.goto .data, none, rest⟩
    else ⟨l.start .emptyComment .bogusComment, none, c :: rest⟩
  | .tagName =>
    if isBlank c then ⟨l.goto .beforeAttributeName, none, rest⟩
    else if c = '/' then ⟨l.goto .selfClosing, none, rest⟩
    else if c = '>' then l.emitTag rest
    else ⟨l.edit (Token.pushName c.toLower), none, rest⟩
  | .beforeAttributeName =>
    if isBlank c then ⟨l, none, rest⟩
    else if c = '/' ∨ c = '>' then ⟨l.goto .afterAttributeName, none, c :: rest⟩
    else ⟨l.openAttribute.goto .attributeName, none, c :: rest⟩
  | .attributeName =>
    if isBlank c ∨ c = '/' ∨ c = '>' then ⟨l.checkName.goto .afterAttributeName, none, c :: rest⟩
    else if c = '=' then ⟨l.checkName.goto .beforeAttributeValue, none, rest⟩
    else ⟨l.edit (Token.pushAttributeName c.toLower), none, rest⟩
  | .afterAttributeName =>
    if isBlank c then ⟨l, none, rest⟩
    else if c = '/' then ⟨l.goto .selfClosing, none, rest⟩
    else if c = '=' then ⟨l.goto .beforeAttributeValue, none, rest⟩
    else if c = '>' then l.emitTag rest
    else ⟨l.openAttribute.goto .attributeName, none, c :: rest⟩
  | .beforeAttributeValue =>
    if isBlank c then ⟨l, none, rest⟩
    else if c = '"' then ⟨l.goto (.quotedValue .double), none, rest⟩
    else if c = '\'' then ⟨l.goto (.quotedValue .single), none, rest⟩
    else if c = '>' then l.emitTag rest
    else ⟨l.goto .unquotedValue, none, c :: rest⟩
  | .quotedValue quote =>
    if c = quote.char then ⟨l.goto .afterQuotedValue, none, rest⟩
    else ⟨l.edit (Token.pushAttributeValue c), none, rest⟩
  | .unquotedValue =>
    if isBlank c then ⟨l.goto .beforeAttributeName, none, rest⟩
    else if c = '>' then l.emitTag rest
    else ⟨l.edit (Token.pushAttributeValue c), none, rest⟩
  | .afterQuotedValue =>
    if isBlank c then ⟨l.goto .beforeAttributeName, none, rest⟩
    else if c = '/' then ⟨l.goto .selfClosing, none, rest⟩
    else if c = '>' then l.emitTag rest
    else ⟨l.goto .beforeAttributeName, none, c :: rest⟩
  | .selfClosing =>
    if c = '>' then (l.edit Token.markSelfClosing).emitTag rest
    else ⟨l.goto .beforeAttributeName, none, c :: rest⟩
  | .bogusComment =>
    if c = '>' then l.emit .data rest else ⟨l.edit (Token.pushComment c), none, rest⟩
  | .comment =>
    match c, rest with
    | '-', '-' :: '>' :: rest => l.emit .data rest
    | _, _ => ⟨l.edit (Token.pushComment c), none, rest⟩
  | .doctype =>
    if c = '>' then ⟨l.goto .data, none, rest⟩ else ⟨l, none, rest⟩

/-- What the end of the text leaves of an unfinished token: comments and a lone `<` stay, tags go. -/
def leftover (l : Lexer) : Option Token :=
  match l.state with
  | .comment | .bogusComment => l.token
  | .tagOpen => some (.character '<')
  | _ => none

/-! ## Every turn leaves less work -/

/-- How many more states may look at `c` before one of them takes it. -/
def lag : LexerState → Char → Nat
  | .tagOpen, _ | .endTagOpen, _ | .beforeAttributeName, _ | .beforeAttributeValue, _ => 1
  | .attributeName, c => if isBlank c ∨ c = '/' ∨ c = '>' then 1 else 0
  | .afterAttributeName, c => if isBlank c ∨ c = '/' ∨ c = '=' ∨ c = '>' then 0 else 1
  | .afterQuotedValue, _ | .selfClosing, _ => 2
  | _, _ => 0

/-- A bound on the number of turns that the text `cs` takes from state `s`. -/
def work (s : LexerState) : (cs : List Char) → Nat
  | [] => 0
  | c :: cs => 3 * (cs.length + 1) + lag s c

theorem lag_le (s : LexerState) (c : Char) : lag s c ≤ 2 := by
  unfold lag; split <;> (try split) <;> omega

theorem work_le (s : LexerState) (cs : List Char) : work s cs ≤ 3 * cs.length + 2 := by
  cases cs with
  | nil => exact Nat.zero_le _
  | cons c cs => simpa [work] using lag_le s c

/-- A turn that takes its character leaves less work. -/
theorem work_lt_of_length_le {cs rest : List Char} (h : cs.length ≤ rest.length) (s t : LexerState) (c : Char) :
    work s cs < work t (c :: rest) := by
  have := work_le s cs
  have : work t (c :: rest) = 3 * (rest.length + 1) + lag t c := rfl
  omega

/-- A turn that hands its character on leaves less work if fewer states may follow. -/
theorem work_cons_lt {s t : LexerState} {c : Char} (h : lag s c < lag t c) (rest : List Char) :
    work s (c :: rest) < work t (c :: rest) := by
  simp only [work]
  omega

theorem length_of_dropWord? : ∀ {word cs rest : List Char}, dropWord? word cs = some rest → rest.length ≤ cs.length
  | [], _, _, h => by simp_all [dropWord?]
  | _ :: _, [], _, h => by simp [dropWord?] at h
  | w :: word, c :: cs, rest, h => by
    simp only [dropWord?] at h
    split at h
    · exact Nat.le_succ_of_le (length_of_dropWord? h)
    · exact absurd h (by simp)

theorem emitTag_rest (l : Lexer) (rest : List Char) : (l.emitTag rest).rest = rest := by
  simp only [emitTag]
  split <;> rfl

theorem length_declaration (l : Lexer) (rest : List Char) : (l.declaration rest).rest.length ≤ rest.length := by
  unfold declaration
  split
  · simp only [List.length_cons]; omega
  · split
    · exact length_of_dropWord? ‹_›
    · exact Nat.le_refl _

/-- Every turn leaves less work. -/
theorem work_step_lt (l : Lexer) (c : Char) (rest : List Char) :
    work (l.step c rest).lexer.state (l.step c rest).rest < work l.state (c :: rest) := by
  have taken (m : Move) (h : m.rest.length ≤ rest.length) : work m.lexer.state m.rest < work l.state (c :: rest) :=
    work_lt_of_length_le h _ _ _
  have tag (l : Lexer) : (l.emitTag rest).rest.length ≤ rest.length :=
    Nat.le_of_eq (congrArg List.length (emitTag_rest l rest))
  unfold step
  split <;> rename_i hs <;> (repeat' split) <;>
    first
    | exact taken _ (Nat.le_refl _)
    | exact taken _ (length_declaration _ _)
    | exact taken _ (tag _)
    | exact taken _ (by simp only [emit, List.length_cons]; omega)
    | (rw [hs]; exact work_cons_lt (by grind [lag, goto, start]) rest)

/-! ## All turns -/

/-- The registers at the end of the text `cs`, and its tokens up to there behind those already in `out`. -/
def run (l : Lexer) (cs : List Char) (out : Array Token) : Lexer × Array Token :=
  match cs with
  | [] => (l, out)
  | c :: rest =>
    let move := l.step c rest
    run move.lexer move.rest (out ++ move.output.toArray)
termination_by work l.state cs
decreasing_by exact work_step_lt l c rest

end Lexer

/-- All tokens of a text. The last one is the end of the text. -/
def tokenize (s : String) : List Token :=
  let (l, tokens) := Lexer.run {} s.toList #[]
  tokens.toList ++ l.leftover.toList ++ [.endOfFile]

end HtmlQuery
