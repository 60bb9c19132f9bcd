/-!
# Tokens

Markup is read into tokens: tags, comments, single characters and the end of the text. The operations below extend a
token that is being read. Each one concerns one kind of token and leaves the others as they are.
-/

namespace HtmlQuery

/-- A name and a value, as written in a tag. -/
structure Attribute where
  name : String
  value : String
  deriving DecidableEq, Repr

/-- A piece of markup. -/
inductive Token where
  /-- The attributes stand in the order in which they were written. -/
  | startTag (name : String) (selfClosing : Bool) (attributes : List Attribute)
  | endTag (name : String)
  | comment (data : String)
  | character (c : Char)
  | endOfFile
  deriving DecidableEq, Repr

/-- Changes the last element of a list, if there is one. -/
def modifyLast {α : Type} (f : α → α) : List α → List α
  | [] => []
  | [x] => [f x]
  | x :: y :: rest => x :: modifyLast f (y :: rest)

theorem modifyLast_append {α : Type} (f : α → α) (x : α) : ∀ xs : List α, modifyLast f (xs ++ [x]) = xs ++ [f x]
  | [] => rfl
  | [_] => rfl
  | y :: z :: xs => congrArg (y :: ·) (modifyLast_append f x (z :: xs))

namespace Token

/-- A start tag of which nothing has been read yet. -/
def emptyStartTag : Token := .startTag "" false []

/-- An end tag of which nothing has been read yet. -/
def emptyEndTag : Token := .endTag ""

/-- A comment without data. -/
def emptyComment : Token := .comment ""

/-- Extends the name of a tag. -/
def pushName (c : Char) : Token → Token
  | .startTag name selfClosing attributes => .startTag (name.push c) selfClosing attributes
  | .endTag name => .endTag (name.push c)
  | token => token

/-- Marks a start tag as closing itself. -/
def markSelfClosing : Token → Token
  | .startTag name _ attributes => .startTag name true attributes
  | token => token

/-- Begins another attribute of a start tag. -/
def addAttribute : Token → Token
  | .startTag name selfClosing attributes => .startTag name selfClosing (attributes ++ [⟨"", ""⟩])
  | token => token

/-- Extends the name of the last attribute. -/
def pushAttributeName (c : Char) : Token → Token
  | .startTag name selfClosing attributes =>
    .startTag name selfClosing (modifyLast (fun a => { a with name := a.name.push c }) attributes)
  | token => token

/-- Extends the value of the last attribute. -/
def pushAttributeValue (c : Char) : Token → Token
  | .startTag name selfClosing attributes =>
    .startTag name selfClosing (modifyLast (fun a => { a with value := a.value.push c }) attributes)
  | token => token

/-- Removes the last attribute. -/
def dropAttribute : Token → Token
  | .startTag name selfClosing attributes => .startTag name selfClosing attributes.dropLast
  | token => token

/-- Extends the data of a comment. -/
def pushComment (c : Char) : Token → Token
  | .comment data => .comment (data.push c)
  | token => token

/-- Whether the name of the last attribute of a start tag is also the name of an earlier one. -/
def repeatsName : Token → Bool
  | .startTag _ _ attributes =>
    match attributes.getLast? with
    | none => false
    | some last => attributes.dropLast.any fun a => a.name == last.name
  | _ => false

end Token

end HtmlQuery
