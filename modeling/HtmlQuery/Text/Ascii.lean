/-!
# ASCII text

The blanks of markup, the comparison that ignores the case of ASCII letters, and the words of a text. `Char.isAlpha` and
`Char.toLower` know the ASCII letters only, which is what markup asks for.
-/

namespace HtmlQuery.Text

/-- The blanks of markup: tab, line feed, form feed, carriage return and space. -/
def isBlank (c : Char) : Bool :=
  c == '\t' || c == '\n' || c == '\x0c' || c == '\r' || c == ' '

/-- The characters with every ASCII upper-case letter in lower case. -/
def foldCase (cs : List Char) : List Char :=
  cs.map Char.toLower

/-- Equality up to the case of ASCII letters. -/
def sameIgnoringCase (s t : String) : Bool :=
  foldCase s.toList == foldCase t.toList

/-- What follows `word` at the front of the text, up to the case of ASCII letters. -/
def dropWord? : (word cs : List Char) → Option (List Char)
  | [], cs => some cs
  | _ :: _, [] => none
  | w :: word, c :: cs => if w.toLower = c.toLower then dropWord? word cs else none

/-- The pieces between the blanks, the empty ones included. -/
def splitAtBlanks : List Char → List (List Char)
  | [] => [[]]
  | c :: cs =>
    if isBlank c then [] :: splitAtBlanks cs
    else
      match splitAtBlanks cs with
      | [] => [[c]]
      | piece :: pieces => (c :: piece) :: pieces

/-- The words of a text: its maximal runs of characters other than blanks. -/
def words (s : String) : List String :=
  ((splitAtBlanks s.toList).filter fun piece => !piece.isEmpty).map String.ofList

end HtmlQuery.Text
