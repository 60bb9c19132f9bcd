import HtmlQuery.Selector.Basic
import HtmlQuery.Text.Utf8
import HtmlQuery.Text.WhiteSpace

/-!
# Reading selectors

The written form of a selector:

* a selector is a row of compound selectors with white space between them, and white space around it is ignored;
* a compound selector is a row of terms without white space;
* a term is `#name`, `.name`, `name`, `[name]`, `[name=name]`, `[name="name"]` or `[name='name']`;
* a name is a row of ASCII letters, digits, underscores and hyphens.

Names are read as far as they go. Text that is not a selector is an error at the first place where no term begins.

* `ComplexSelector.parse` — the parts of a selector, none for the empty one;
* `ComplexSelector.parseTerm?` — the parts of a selector that is one term;
* `Selector.parse` — both together, with the empty selector among the selectors.
-/

namespace HtmlQuery

open Text

/-- A text that is not a selector, and the byte from which on it could not be read. -/
structure UnreadableSelector where
  source : String
  offset : Nat
  deriving DecidableEq, Repr

namespace UnreadableSelector

def message (e : UnreadableSelector) : String :=
  "unsupported selector \"" ++ e.source ++ "\": unexpected input at byte " ++ toString e.offset

/-- The part of the text that could not be read. -/
def unread (e : UnreadableSelector) : String :=
  match dropBytes? e.offset e.source.toList with
  | some cs => String.ofList cs
  | none => ""

end UnreadableSelector

/-! ## Terms -/

/-- The characters of names. -/
def isNameCharacter (c : Char) : Bool := c.isAlphanum || c == '_' || c == '-'

/-- The longest name at the front of the text, and the text behind it. -/
def readName? (cs : List Char) : Option (String × List Char) :=
  match cs.takeWhile isNameCharacter with
  | [] => none
  | name => some (String.ofList name, cs.dropWhile isNameCharacter)

/-- The value at the front of the text, with or without quotation marks, and the text behind it. -/
def readValue? : List Char → Option (String × List Char)
  | '"' :: cs =>
    match readName? cs with
    | some (value, '"' :: rest) => some (value, rest)
    | _ => none
  | '\'' :: cs =>
    match readName? cs with
    | some (value, '\'' :: rest) => some (value, rest)
    | _ => none
  | cs => readName? cs

/-- The rest of an attribute term behind its opening bracket, and the text behind the term. -/
def readAttribute? (cs : List Char) : Option (SimpleSelector × List Char) :=
  match readName? cs with
  | some (name, ']' :: rest) => some (.hasAttribute name none, rest)
  | some (name, '=' :: rest) =>
    match readValue? rest with
    | some (value, ']' :: rest) => some (.hasAttribute name (some value), rest)
    | _ => none
  | _ => none

/-- The term at the front of the text, and the text behind it. -/
def readTerm? : List Char → Option (SimpleSelector × List Char)
  | '#' :: cs => (readName? cs).map fun (name, rest) => (.hasId name, rest)
  | '.' :: cs => (readName? cs).map fun (name, rest) => (.hasClass name, rest)
  | '[' :: cs => readAttribute? cs
  | cs => (readName? cs).map fun (name, rest) => (.hasTag name, rest)

theorem length_of_readName? {cs rest : List Char} {name : String} (h : readName? cs = some (name, rest)) :
    rest.length < cs.length := by
  unfold readName? at h
  split at h
  · exact absurd h (by simp)
  · rename_i taken
    have := congrArg List.length (List.takeWhile_append_dropWhile (p := isNameCharacter) (l := cs))
    have := List.length_pos_iff.mpr taken
    simp_all only [List.length_append, Option.some.injEq, Prod.mk.injEq]
    omega

theorem length_of_readValue? {cs rest : List Char} {value : String} (h : readValue? cs = some (value, rest)) :
    rest.length < cs.length := by
  unfold readValue? at h
  split at h
  case h_3 => exact length_of_readName? h
  all_goals
    split at h
    · rename_i taken
      cases h
      have := length_of_readName? taken
      simp only [List.length_cons] at this ⊢
      omega
    · cases h

theorem length_of_readAttribute? {cs rest : List Char} {term : SimpleSelector}
    (h : readAttribute? cs = some (term, rest)) : rest.length < cs.length := by
  unfold readAttribute? at h
  split at h
  · rename_i taken
    cases h
    exact Nat.lt_of_succ_lt (length_of_readName? taken)
  · rename_i taken
    have shorter := length_of_readName? taken
    split at h
    · rename_i value
      cases h
      have := length_of_readValue? value
      simp only [List.length_cons] at shorter this
      omega
    · cases h
  · cases h

/-- A term takes at least one character. -/
theorem length_of_readTerm? {cs rest : List Char} {term : SimpleSelector} (h : readTerm? cs = some (term, rest)) :
    rest.length < cs.length := by
  have name {cs : List Char} {make : String → SimpleSelector}
      (h : (readName? cs).map (fun (name, rest) => (make name, rest)) = some (term, rest)) :
      rest.length < cs.length := by
    obtain ⟨⟨_, _⟩, taken, eq⟩ := Option.map_eq_some_iff.mp h
    cases eq
    exact length_of_readName? taken
  unfold readTerm? at h
  split at h
  · exact Nat.lt_succ_of_lt (name h)
  · exact Nat.lt_succ_of_lt (name h)
  · exact Nat.lt_succ_of_lt (length_of_readAttribute? h)
  · exact name h

/-! ## Rows of terms and rows of compound selectors -/

/-- The terms at the front of the text, as many as there are, and the text behind them. -/
def readTerms (cs : List Char) : List SimpleSelector × List Char :=
  match h : readTerm? cs with
  | none => ([], cs)
  | some (term, rest) =>
    have := length_of_readTerm? h
    let (terms, rest) := readTerms rest
    (term :: terms, rest)
termination_by cs.length

theorem length_readTerms_le (cs : List Char) : (readTerms cs).2.length ≤ cs.length := by
  fun_induction readTerms cs with
  | case1 => exact Nat.le_refl _
  | case2 cs term rest _ shorter terms rest' eq ih => simp_all only; omega

/-- The compound selectors of a text that begins and ends with one. If it cannot be read to its end, the error is the
part that was not read. -/
def readCompounds (cs : List Char) : Except (List Char) (List CompoundSelector) :=
  match _taken : readTerms cs with
  | (terms, rest) =>
    match CompoundSelector.ofTerms? terms with
    | none => .error cs
    | some compound =>
      match rest with
      | [] => .ok [compound]
      | c :: after =>
        if isWhiteSpace c then
          match readCompounds (trimStart after) with
          | .ok compounds => .ok (compound :: compounds)
          | .error unread => .error unread
        else .error (c :: after)
termination_by cs.length
decreasing_by
  have read := length_readTerms_le cs
  have trimmed : (trimStart after).length ≤ after.length := (List.dropWhile_sublist _).length_le
  rw [_taken, List.length_cons] at read
  omega

/-! ## Selectors -/

/-- Reads the parts of a selector, of which the empty one has none. -/
def ComplexSelector.parse (s : String) : Except UnreadableSelector (Option ComplexSelector) :=
  let behind := trimStart s.toList
  let cs := trimEnd behind
  if cs = [] then .ok none
  else
    match readCompounds cs with
    | .ok compounds => .ok (ofCompounds? compounds)
    | .error unread => .error ⟨s, byteLength s.toList - byteLength behind + (byteLength cs - byteLength unread)⟩

/-- Reads the parts of a selector that is a single term. -/
def ComplexSelector.parseTerm? (s : String) : Option ComplexSelector :=
  match readTerm? (trimEnd (trimStart s.toList)) with
  | some (term, []) => some ⟨[], ⟨[term], by simp⟩⟩
  | _ => none

/-- Reads a selector. A single term, the most common case, needs no more than one step. -/
def Selector.parse (s : String) : Except UnreadableSelector Selector :=
  match ComplexSelector.parseTerm? s with
  | some complex => .ok ⟨some complex⟩
  | none => (ComplexSelector.parse s).map Selector.mk

end HtmlQuery
