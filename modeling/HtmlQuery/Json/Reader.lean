import HtmlQuery.Json.Basic

/-!
# Reading JSON

The grammar is that of the JSON standard, without extensions: no comments, no trailing commas, no byte order mark, no
unescaped control characters in strings, and nothing but blanks around the value.

* `Json.parse?` — the value of a text.
-/

namespace HtmlQuery.Json

/-- The text without the blanks at its front. -/
def skipBlanks (cs : List Char) : List Char :=
  cs.dropWhile fun c => c == ' ' || c == '\t' || c == '\n' || c == '\r'

/-! ## Strings -/

/-- The value of a hexadecimal digit. -/
def hexValue? (c : Char) : Option Nat :=
  if c.isDigit then some (c.toNat - '0'.toNat)
  else if 'a' ≤ c ∧ c ≤ 'f' then some (c.toNat - 'a'.toNat + 10)
  else if 'A' ≤ c ∧ c ≤ 'F' then some (c.toNat - 'A'.toNat + 10)
  else none

/-- The number that four hexadecimal digits write. -/
def hexNumber? (a b c d : Char) : Option Nat := do
  return (((← hexValue? a) * 16 + (← hexValue? b)) * 16 + (← hexValue? c)) * 16 + (← hexValue? d)

/-- The character that an escape sequence of two characters stands for. -/
def escaped? : Char → Option Char
  | '"' => some '"'
  | '\\' => some '\\'
  | '/' => some '/'
  | 'b' => some '\x08'
  | 'f' => some '\x0c'
  | 'n' => some '\n'
  | 'r' => some '\r'
  | 't' => some '\t'
  | _ => none

/-- The code points of a string up to its closing quotation mark, and the text behind it. Halves of surrogate pairs
still stand on their own. -/
def takeUnits? : List Char → Option (List Nat × List Char)
  | [] => none
  | '"' :: rest => some ([], rest)
  | '\\' :: 'u' :: a :: b :: c :: d :: rest =>
    match hexNumber? a b c d, takeUnits? rest with
    | some unit, some (units, rest) => some (unit :: units, rest)
    | _, _ => none
  | '\\' :: e :: rest =>
    match escaped? e, takeUnits? rest with
    | some c, some (units, rest) => some (c.toNat :: units, rest)
    | _, _ => none
  | c :: rest =>
    if c = '\\' ∨ c.toNat < 0x20 then none
    else (takeUnits? rest).map fun (units, rest) => (c.toNat :: units, rest)

/-- The characters of a row of code points in which every surrogate has its other half. -/
def joinSurrogates? : List Nat → Option (List Char)
  | [] => some []
  | unit :: units =>
    if 0xD800 ≤ unit ∧ unit < 0xDC00 then
      match units with
      | [] => none
      | low :: units =>
        if 0xDC00 ≤ low ∧ low < 0xE000 then
          (joinSurrogates? units).map (Char.ofNat (0x10000 + (unit - 0xD800) * 0x400 + (low - 0xDC00)) :: ·)
        else none
    else if 0xDC00 ≤ unit ∧ unit < 0xE000 then none
    else (joinSurrogates? units).map (Char.ofNat unit :: ·)

/-- The string behind an opening quotation mark, and the text behind it. -/
def takeString? (cs : List Char) : Option (Option String × List Char) :=
  (takeUnits? cs).map fun (units, rest) => ((joinSurrogates? units).map String.ofList, rest)

/-! ## Numbers -/

/-- A row of at least one digit, and the text behind it. -/
def takeDigits? (cs : List Char) : Option (List Char × List Char) :=
  match cs.takeWhile Char.isDigit with
  | [] => none
  | digits => some (digits, cs.dropWhile Char.isDigit)

/-- Digits without a superfluous zero at their front. -/
def takeInteger? : List Char → Option (List Char × List Char)
  | '0' :: rest => some (['0'], rest)
  | cs => takeDigits? cs

/-- A point and the digits behind it, if a point comes next. -/
def takeFraction? : List Char → Option (List Char × List Char)
  | '.' :: cs => (takeDigits? cs).map fun (digits, rest) => ('.' :: digits, rest)
  | cs => some ([], cs)

/-- The sign of an exponent, if there is one. -/
def takeSign : List Char → List Char × List Char
  | '+' :: rest => (['+'], rest)
  | '-' :: rest => (['-'], rest)
  | cs => ([], cs)

/-- An exponent, if the letter for it comes next. -/
def takeExponent? : List Char → Option (List Char × List Char)
  | [] => some ([], [])
  | c :: cs =>
    if c = 'e' ∨ c = 'E' then
      let (sign, cs) := takeSign cs
      (takeDigits? cs).map fun (digits, rest) => (c :: (sign ++ digits), rest)
    else some ([], c :: cs)

/-- A number without its sign. -/
def takeUnsigned? (cs : List Char) : Option (List Char × List Char) := do
  let (integer, cs) ← takeInteger? cs
  let (fraction, cs) ← takeFraction? cs
  let (exponent, cs) ← takeExponent? cs
  return (integer ++ fraction ++ exponent, cs)

/-- A number, and the text behind it. -/
def takeNumber? : List Char → Option (String × List Char)
  | '-' :: cs => (takeUnsigned? cs).map fun (digits, rest) => (String.ofList ('-' :: digits), rest)
  | cs => (takeUnsigned? cs).map fun (digits, rest) => (String.ofList digits, rest)

/-! ## Values

The number `n` bounds how deep the calls go. A call takes a character or is followed by one that does, so twice the
length of the text is enough. -/

mutual

/-- The value at the front of the text, and the text behind it. -/
def takeValue? : (n : Nat) → List Char → Option (Json (Option String) × List Char)
  | 0, _ => none
  | n + 1, cs =>
    match skipBlanks cs with
    | 'n' :: 'u' :: 'l' :: 'l' :: rest => some (.null, rest)
    | 't' :: 'r' :: 'u' :: 'e' :: rest => some (.bool true, rest)
    | 'f' :: 'a' :: 'l' :: 's' :: 'e' :: rest => some (.bool false, rest)
    | '"' :: rest => (takeString? rest).map fun (text, rest) => (.string text, rest)
    | '[' :: rest =>
      match skipBlanks rest with
      | ']' :: rest => some (.array [], rest)
      | rest => (takeItems? n rest).map fun (items, rest) => (.array items, rest)
    | '{' :: rest =>
      match skipBlanks rest with
      | '}' :: rest => some (.object [], rest)
      | rest => (takeMembers? n rest).map fun (members, rest) => (.object members, rest)
    | cs => (takeNumber? cs).map fun (digits, rest) => (.number digits, rest)

/-- The items up to the end of an array, at least one. -/
def takeItems? : (n : Nat) → List Char → Option (List (Json (Option String)) × List Char)
  | 0, _ => none
  | n + 1, cs =>
    match takeValue? n cs with
    | none => none
    | some (item, rest) =>
      match skipBlanks rest with
      | ']' :: rest => some ([item], rest)
      | ',' :: rest => (takeItems? n rest).map fun (items, rest) => (item :: items, rest)
      | _ => none

/-- The members up to the end of an object, at least one. -/
def takeMembers? : (n : Nat) → List Char → Option (List (Option String × Json (Option String)) × List Char)
  | 0, _ => none
  | n + 1, cs =>
    match skipBlanks cs with
    | '"' :: rest =>
      match takeString? rest with
      | none => none
      | some (name, rest) =>
        match skipBlanks rest with
        | ':' :: rest =>
          match takeValue? n rest with
          | none => none
          | some (value, rest) =>
            match skipBlanks rest with
            | '}' :: rest => some ([(name, value)], rest)
            | ',' :: rest => (takeMembers? n rest).map fun (members, rest) => ((name, value) :: members, rest)
            | _ => none
        | _ => none
    | _ => none

end

/-- The value of a text, if the text is JSON. -/
def parse? (s : String) : Option (Json (Option String)) :=
  let cs := s.toList
  match takeValue? (2 * cs.length + 2) cs with
  | some (value, rest) => if skipBlanks rest = [] then some value else none
  | none => none

end HtmlQuery.Json
