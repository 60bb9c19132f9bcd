/-!
# JSON values

A JSON value with strings of a type `σ`. Written values have strings that are texts. In a value that was read a string
may be none: an escape sequence can name half of a surrogate pair, and then the string is no text.
-/

namespace HtmlQuery

/-- A JSON value. Numbers are kept as they are written, and members in the order in which they are written. -/
inductive Json (σ : Type) where
  | null
  | bool (b : Bool)
  | number (digits : String)
  | string (text : σ)
  | array (items : List (Json σ))
  | object (members : List (σ × Json σ))

end HtmlQuery
