import HtmlQuery.Json.Basic

/-!
# Writing JSON

Values are written over several lines, with two spaces for each level. Empty arrays and objects stay on one line. Only
quotation marks, backslashes and control characters are escaped, with the short escape sequence where there is one.

* `Json.pretty` — the text of a value.
-/

namespace HtmlQuery.Json

/-- The digits of a number below 16. -/
def hexDigit (n : Nat) : Char := "0123456789abcdef".toList.getD n '0'

/-- A character inside a string. -/
def escapeChar (c : Char) : List Char :=
  if c = '"' then ['\\', '"']
  else if c = '\\' then ['\\', '\\']
  else if c = '\x08' then ['\\', 'b']
  else if c = '\x0c' then ['\\', 'f']
  else if c = '\n' then ['\\', 'n']
  else if c = '\r' then ['\\', 'r']
  else if c = '\t' then ['\\', 't']
  else if c.toNat < 0x20 then ['\\', 'u', '0', '0', hexDigit (c.toNat / 16), hexDigit (c.toNat % 16)]
  else [c]

/-- A string with its quotation marks. -/
def quoted (s : String) : String := "\"" ++ String.ofList (s.toList.flatMap escapeChar) ++ "\""

/-- The beginning of a line at a level. -/
def newLine (level : Nat) : String := "\n" ++ String.ofList (List.replicate (2 * level) ' ')

mutual

/-- The text of a value whose lines are at a level. -/
def prettyAt (level : Nat) : Json String → String
  | .null => "null"
  | .bool true => "true"
  | .bool false => "false"
  | .number digits => digits
  | .string text => quoted text
  | .array [] => "[]"
  | .array (item :: items) =>
    "[" ++ newLine (level + 1) ++ prettyAt (level + 1) item ++ prettyItems (level + 1) items ++ newLine level ++ "]"
  | .object [] => "\x7b\x7d"
  | .object ((name, value) :: members) =>
    "\x7b" ++ newLine (level + 1) ++ quoted name ++ ": " ++ prettyAt (level + 1) value
      ++ prettyMembers (level + 1) members ++ newLine level ++ "\x7d"

/-- The items behind the first one. -/
def prettyItems (level : Nat) : List (Json String) → String
  | [] => ""
  | item :: items => "," ++ newLine level ++ prettyAt level item ++ prettyItems level items

/-- The members behind the first one. -/
def prettyMembers (level : Nat) : List (String × Json String) → String
  | [] => ""
  | (name, value) :: members =>
    "," ++ newLine level ++ quoted name ++ ": " ++ prettyAt level value ++ prettyMembers level members

end

/-- The text of a value. -/
def pretty (value : Json String) : String := prettyAt 0 value

end HtmlQuery.Json
