import HtmlQuery.Json.Reader
import HtmlQuery.Json.Writer

/-!
# Reading what has been written

A written value is read back as the same value. A number is kept as it was written, and not every text is a number. The
numbers that are written are natural numbers in decimal digits.

* `Json.takeUnits?_escapeChar` — a character of a string is read back;
* `Json.takeNumber?_toString` — a natural number is read back;
* `Json.IsReread` — a value is read back, at every level and whatever stands behind it;
* `Json.parse?_pretty_append` — so is the value that a text consists of.
-/

namespace HtmlQuery.Json

variable {σ τ : Type} {rest cs : List Char} {n level : Nat}

/-- The value with other strings in place of its own. -/
def map (f : σ → τ) : Json σ → Json τ
  | .null => .null
  | .bool b => .bool b
  | .number digits => .number digits
  | .string text => .string (f text)
  | .array items => .array (items.map (map f))
  | .object members => .object (members.map fun m => (f m.1, map f m.2))
decreasing_by
  · decreasing_tactic
  · have := List.sizeOf_lt_of_mem ‹_ ∈ members›
    cases m
    simp only [Prod.mk.sizeOf_spec, object.sizeOf_spec] at this ⊢
    omega

/-- The numbers of the value are natural numbers in decimal digits. -/
inductive HasNaturals : Json σ → Prop
  | null : HasNaturals .null
  | bool (b : Bool) : HasNaturals (.bool b)
  | number (n : Nat) : HasNaturals (.number (toString n))
  | string (text : σ) : HasNaturals (.string text)
  | array {items : List (Json σ)} : (∀ item ∈ items, HasNaturals item) → HasNaturals (.array items)
  | object {members : List (σ × Json σ)} : (∀ m ∈ members, HasNaturals m.2) → HasNaturals (.object members)

/-! ## Strings -/

theorem hexValue?_hexDigit : ∀ n < 16, hexValue? (hexDigit n) = some n := by decide

/-- Two digits below two zeros write any number below 256. -/
theorem hexNumber?_hexDigit (h : n < 0x100) :
    hexNumber? '0' '0' (hexDigit (n / 16)) (hexDigit (n % 16)) = some n := by
  have zero : hexValue? '0' = some 0 := rfl
  rw [hexNumber?, zero, hexValue?_hexDigit (n / 16) (by omega), hexValue?_hexDigit (n % 16) (by omega)]
  simp only [Option.bind_eq_bind, Option.bind_some, Option.pure_def, Option.some_inj]
  omega

/-- What is read of a string when a character comes before it. -/
def consUnit (c : Char) : List Nat × List Char → List Nat × List Char := Prod.map (c.toNat :: ·) id

/-- A character that stands for itself. -/
theorem takeUnits?_cons {c : Char} (quote : c ≠ '"') (backslash : c ≠ '\\') (control : ¬ c.toNat < 0x20)
    (rest : List Char) : takeUnits? (c :: rest) = (takeUnits? rest).map (consUnit c) := by
  rw [takeUnits?.eq_def]
  split
  case h_5 _ _ _ _ _ eq =>
    cases eq
    rw [if_neg (not_or.mpr ⟨backslash, control⟩)]
    rfl
  all_goals simp_all

/-- An escape sequence of two characters. -/
theorem takeUnits?_escaped {e c : Char} (h : escaped? e = some c) (rest : List Char) :
    takeUnits? ('\\' :: e :: rest) = (takeUnits? rest).map (consUnit c) := by
  have u : e ≠ 'u' := fun eq => nomatch (eq ▸ h : escaped? 'u' = some c)
  rw [takeUnits?, h]
  · cases takeUnits? rest <;> rfl
  · simp_all

/-- A character is written with a short escape sequence, with its number, or as it is. -/
theorem escapeChar_cases (c : Char) :
    (∃ e, escaped? e = some c ∧ escapeChar c = ['\\', e]) ∨
    (c.toNat < 0x20 ∧ escapeChar c = ['\\', 'u', '0', '0', hexDigit (c.toNat / 16), hexDigit (c.toNat % 16)]) ∨
    (c ≠ '"' ∧ c ≠ '\\' ∧ ¬ c.toNat < 0x20 ∧ escapeChar c = [c]) := by
  by_cases short : c ∈ ['"', '\\', '\x08', '\x0c', '\n', '\r', '\t']
  · simp only [List.mem_cons, List.not_mem_nil, or_false] at short
    rcases short with rfl | rfl | rfl | rfl | rfl | rfl | rfl <;> exact .inl ⟨_, rfl, rfl⟩
  · simp only [List.mem_cons, List.not_mem_nil, or_false, not_or] at short
    obtain ⟨quote, backslash, backspace, formFeed, lineFeed, carriageReturn, tab⟩ := short
    rw [escapeChar, if_neg quote, if_neg backslash, if_neg backspace, if_neg formFeed, if_neg lineFeed,
      if_neg carriageReturn, if_neg tab]
    by_cases control : c.toNat < 0x20
    · exact .inr (.inl ⟨control, if_pos control⟩)
    · exact .inr (.inr ⟨quote, backslash, control, if_neg control⟩)

/-- A character inside a string is read as it was written. -/
theorem takeUnits?_escapeChar (c : Char) (rest : List Char) :
    takeUnits? (escapeChar c ++ rest) = (takeUnits? rest).map (consUnit c) := by
  rcases escapeChar_cases c with ⟨e, escaped, shown⟩ | ⟨control, shown⟩ | ⟨quote, backslash, control, shown⟩
  · rw [shown]
    exact takeUnits?_escaped escaped rest
  · rw [shown]
    show takeUnits? ('\\' :: 'u' :: '0' :: '0' :: _ :: _ :: rest) = _
    rw [takeUnits?, hexNumber?_hexDigit (by omega)]
    cases takeUnits? rest <;> rfl
  · rw [shown]
    exact takeUnits?_cons quote backslash control rest

theorem takeUnits?_flatMap (rest : List Char) : ∀ cs : List Char,
    takeUnits? (cs.flatMap escapeChar ++ '"' :: rest) = some (cs.map Char.toNat, rest)
  | [] => by rw [List.flatMap_nil, List.nil_append, takeUnits?, List.map_nil]
  | c :: cs => by
    rw [List.flatMap_cons, List.append_assoc, takeUnits?_escapeChar, takeUnits?_flatMap rest cs]
    rfl

/-- Characters are no halves of surrogate pairs. -/
theorem joinSurrogates?_map_toNat : ∀ cs : List Char, joinSurrogates? (cs.map Char.toNat) = some cs
  | [] => rfl
  | c :: cs => by
    have valid : c.toNat < 0xD800 ∨ 0xDFFF < c.toNat ∧ c.toNat < 0x110000 := c.valid
    rw [List.map_cons, joinSurrogates?.eq_def]
    dsimp only
    rw [if_neg (by omega), if_neg (by omega), joinSurrogates?_map_toNat cs, Option.map_some, Char.ofNat_toNat]

/-- A written string is read back. -/
theorem exists_toList_quoted (s : String) (rest : List Char) :
    ∃ inside, (quoted s).toList ++ rest = '"' :: inside ∧ takeString? inside = some (some s, rest) := by
  refine ⟨s.toList.flatMap escapeChar ++ '"' :: rest, ?_, ?_⟩
  · simp [quoted]
  · rw [takeString?, takeUnits?_flatMap, Option.map_some]
    dsimp only
    rw [joinSurrogates?_map_toNat, Option.map_some, String.ofList_toList]

/-! ## Numbers -/

/-- No character of a number comes next. -/
def EndsNumber (cs : List Char) : Prop := ∀ c ∈ cs.head?, c.isDigit = false ∧ c ≠ '.' ∧ c ≠ 'e' ∧ c ≠ 'E'

theorem endsNumber_comma (cs : List Char) : EndsNumber (',' :: cs) := by
  rintro c ⟨⟩
  decide

theorem endsNumber_newLine (level : Nat) (cs : List Char) : EndsNumber ((newLine level).toList ++ cs) := by
  rw [newLine, String.toList_append]
  rintro c ⟨⟩
  decide

/-- The first digit of a number is a zero for zero only. -/
theorem head?_toDigits_ne {n : Nat} (h : n ≠ 0) : (Nat.toDigits 10 n).head? ≠ some '0' := by
  by_cases small : n < 10
  · have digits : ∀ n < 10, n ≠ 0 → n.digitChar ≠ '0' := by decide
    rw [Nat.toDigits_of_lt_base small]
    exact fun eq => digits n small h (Option.some.inj eq)
  · rw [Nat.toDigits_of_base_le (by decide) (by omega), List.head?_append,
      Option.or_of_isSome (List.isSome_head?.mpr Nat.toDigits_ne_nil)]
    exact head?_toDigits_ne (by omega)

theorem exists_toDigits_eq_cons (n : Nat) : ∃ c cs, Nat.toDigits 10 n = c :: cs ∧ c.isDigit = true := by
  obtain ⟨c, cs, eq⟩ := List.exists_cons_of_ne_nil (Nat.toDigits_ne_nil : Nat.toDigits 10 n ≠ [])
  exact ⟨c, cs, eq, Nat.isDigit_of_mem_toDigits (by decide) (by decide) (eq ▸ List.mem_cons_self)⟩

theorem takeDigits?_append {digits : List Char} (h : ∀ c ∈ digits, c.isDigit = true) (ne : digits ≠ [])
    (ends : EndsNumber rest) : takeDigits? (digits ++ rest) = some (digits, rest) := by
  have none : rest.takeWhile Char.isDigit = [] ∧ rest.dropWhile Char.isDigit = rest := by
    cases rest with
    | nil => exact ⟨rfl, rfl⟩
    | cons c rest =>
      have digit := (ends c rfl).1
      exact ⟨List.takeWhile_cons_of_neg (by simp [digit]), List.dropWhile_cons_of_neg (by simp [digit])⟩
  rw [takeDigits?, List.takeWhile_append_of_pos h, List.dropWhile_append_of_pos h, none.1, none.2, List.append_nil]
  cases digits with
  | nil => exact absurd rfl ne
  | cons _ _ => rfl

theorem takeInteger?_toDigits (n : Nat) (ends : EndsNumber rest) :
    takeInteger? (Nat.toDigits 10 n ++ rest) = some (Nat.toDigits 10 n, rest) := by
  by_cases zero : n = 0
  · rw [zero]
    rfl
  · have digits : ∀ c ∈ Nat.toDigits 10 n, c.isDigit = true := fun c =>
      Nat.isDigit_of_mem_toDigits (by decide) (by decide)
    have first := head?_toDigits_ne zero
    rw [← takeDigits?_append digits Nat.toDigits_ne_nil ends]
    cases eq : Nat.toDigits 10 n with
    | nil => exact absurd eq Nat.toDigits_ne_nil
    | cons c cs =>
      rw [eq, List.head?_cons, ne_eq, Option.some_inj] at first
      rw [takeInteger?]
      exact fun _ eq => first (List.cons.inj eq).1

theorem takeFraction?_of_endsNumber (ends : EndsNumber rest) : takeFraction? rest = some ([], rest) := by
  cases rest with
  | nil => rfl
  | cons c rest =>
    rw [takeFraction?]
    exact fun _ eq => (ends c rfl).2.1 (List.cons.inj eq).1

theorem takeExponent?_of_endsNumber (ends : EndsNumber rest) : takeExponent? rest = some ([], rest) := by
  cases rest with
  | nil => rfl
  | cons c rest => exact if_neg (not_or.mpr (ends c rfl).2.2)

/-- A natural number is read up to the last of its digits. -/
theorem takeNumber?_toString (n : Nat) (ends : EndsNumber rest) :
    takeNumber? ((toString n).toList ++ rest) = some (toString n, rest) := by
  have unsigned : takeUnsigned? (Nat.toDigits 10 n ++ rest) = some (Nat.toDigits 10 n, rest) := by
    rw [takeUnsigned?, takeInteger?_toDigits n ends]
    simp [takeFraction?_of_endsNumber ends, takeExponent?_of_endsNumber ends]
  have positive : ∀ cs, Nat.toDigits 10 n ++ rest ≠ '-' :: cs := by
    obtain ⟨c, digits, eq, digit⟩ := exists_toDigits_eq_cons n
    rw [eq]
    rintro cs ⟨⟩
    exact absurd digit (by decide)
  rw [Nat.toString_eq_ofList_toDigits, String.toList_ofList, takeNumber?, unsigned]
  · rfl
  · exact positive

/-! ## Beginnings -/

theorem skipBlanks_newLine_append (level : Nat) (cs : List Char) :
    skipBlanks ((newLine level).toList ++ cs) = skipBlanks cs := by
  have blank : ∀ c ∈ (newLine level).toList, (c == ' ' || c == '\t' || c == '\n' || c == '\r') = true := by
    simp +contextual [newLine]
  exact List.dropWhile_append_of_pos blank

theorem skipBlanks_space (cs : List Char) : skipBlanks (' ' :: cs) = skipBlanks cs := rfl

/-- The text begins with neither a blank nor the end of an array. -/
def Begins (cs : List Char) : Prop := ∃ c rest, cs = c :: rest ∧ skipBlanks [c] = [c] ∧ c ≠ ']'

theorem Begins.skipBlanks_append (h : Begins cs) (rest : List Char) : skipBlanks (cs ++ rest) = cs ++ rest := by
  obtain ⟨c, cs, rfl, blank, -⟩ := h
  simp only [skipBlanks, List.dropWhile_cons, List.dropWhile_nil] at blank
  refine List.dropWhile_cons_of_neg fun isBlank => ?_
  rw [if_pos isBlank] at blank
  cases blank

theorem Begins.append_ne (h : Begins cs) (text behind : List Char) : cs ++ text ≠ ']' :: behind := by
  obtain ⟨c, cs, rfl, -, ne⟩ := h
  exact fun eq => ne (List.cons.inj eq).1

theorem begins_quoted (s : String) : Begins (quoted s).toList := by
  obtain ⟨inside, quote, -⟩ := exists_toList_quoted s []
  rw [List.append_nil] at quote
  exact ⟨'"', inside, quote, rfl, by decide⟩

theorem begins_toString (n : Nat) : Begins (toString n).toList := by
  obtain ⟨c, digits, eq, digit⟩ := exists_toDigits_eq_cons n
  have others : c ≠ ' ' ∧ c ≠ '\t' ∧ c ≠ '\n' ∧ c ≠ '\r' ∧ c ≠ ']' := by
    refine ⟨?_, ?_, ?_, ?_, ?_⟩ <;> rintro rfl <;> cases digit
  rw [Nat.toString_eq_ofList_toDigits, String.toList_ofList]
  exact ⟨c, digits, eq, by simp [skipBlanks, others], others.2.2.2.2⟩

/-! ## Values -/

/-- A written value is read back, at every level, behind blanks, and in front of a text that does not go on with a
number. The length of what is written bounds the calls. -/
structure IsReread (v : Json String) : Prop where
  begins (level : Nat) : Begins (prettyAt level v).toList
  read {level n : Nat} {cs rest : List Char} : skipBlanks cs = (prettyAt level v).toList ++ rest → EndsNumber rest →
    (prettyAt level v).toList.length ≤ n → takeValue? n cs = some (v.map some, rest)

/-- What is written for a value is not empty, so the bound allows for a call. -/
theorem IsReread.of_succ {v : Json String} (begins : ∀ level, Begins (prettyAt level v).toList)
    (read : ∀ {level n : Nat} {cs rest : List Char}, skipBlanks cs = (prettyAt level v).toList ++ rest →
      EndsNumber rest → (prettyAt level v).toList.length ≤ n + 1 → takeValue? (n + 1) cs = some (v.map some, rest)) :
    v.IsReread := by
  refine ⟨begins, fun {level n cs rest} text ends bound => ?_⟩
  obtain ⟨c, behind, eq, -⟩ := begins level
  cases n with
  | zero =>
    rw [eq] at bound
    cases bound
  | succ n => exact read text ends bound

theorem isReread_null : IsReread .null := by
  refine .of_succ (fun _ => ⟨'n', ['u', 'l', 'l'], by simp [prettyAt], rfl, by decide⟩) fun text _ _ => ?_
  simp [takeValue?, text, prettyAt, map]

theorem isReread_bool (b : Bool) : IsReread (.bool b) := by
  cases b with
  | false =>
    refine .of_succ (fun _ => ⟨'f', ['a', 'l', 's', 'e'], by simp [prettyAt], rfl, by decide⟩) fun text _ _ => ?_
    simp [takeValue?, text, prettyAt, map]
  | true =>
    refine .of_succ (fun _ => ⟨'t', ['r', 'u', 'e'], by simp [prettyAt], rfl, by decide⟩) fun text _ _ => ?_
    simp [takeValue?, text, prettyAt, map]

theorem isReread_number (n : Nat) : IsReread (.number (toString n)) := by
  refine .of_succ (fun _ => by rw [prettyAt]; exact begins_toString n) fun {_ _ _ rest} text ends _ => ?_
  have number := takeNumber?_toString n ends
  rw [prettyAt] at text
  rw [takeValue?, text, map]
  -- a digit begins no other value
  obtain ⟨c, digits, eq, digit⟩ := exists_toDigits_eq_cons n
  rw [Nat.toString_eq_ofList_toDigits, String.toList_ofList, eq] at number ⊢
  split
  case h_7 =>
    rw [number]
    rfl
  all_goals simp_all

theorem isReread_string (s : String) : IsReread (.string s) := by
  refine .of_succ (fun _ => begins_quoted s) fun {_ _ _ rest} text _ _ => ?_
  obtain ⟨inside, quote, string⟩ := exists_toList_quoted s rest
  simp [takeValue?, text.trans quote, string, map]

/-! ## Arrays -/

theorem toList_prettyItems_cons (level : Nat) (item : Json String) (items : List (Json String)) :
    (prettyItems level (item :: items)).toList =
      ',' :: ((newLine level).toList ++ ((prettyAt level item).toList ++ (prettyItems level items).toList)) := by
  simp [prettyItems]

theorem toList_prettyAt_array (level : Nat) (item : Json String) (items : List (Json String)) :
    (prettyAt level (.array (item :: items))).toList =
      '[' :: ((newLine (level + 1)).toList ++ ((prettyAt (level + 1) item).toList ++
        ((prettyItems (level + 1) items).toList ++ ((newLine level).toList ++ [']'])))) := by
  simp [prettyAt]

theorem takeItems?_last {item : Json (Option String)} {behind : List Char}
    (value : takeValue? n cs = some (item, behind)) (closes : skipBlanks behind = ']' :: rest) :
    takeItems? (n + 1) cs = some ([item], rest) := by
  simp [takeItems?, value, closes]

theorem takeItems?_more {item : Json (Option String)} {items : List (Json (Option String))} {more : List Char}
    (value : takeValue? n cs = some (item, ',' :: more)) (others : takeItems? n more = some (items, rest)) :
    takeItems? (n + 1) cs = some (item :: items, rest) := by
  have comma : skipBlanks (',' :: more) = ',' :: more := rfl
  simp [takeItems?, value, comma, others]

/-- The items of an array are read back, one after the other. -/
theorem takeItems?_of_isReread {closing : List Char} (closes : skipBlanks closing = ']' :: rest)
    (ends : EndsNumber closing) {item : Json String} {items : List (Json String)}
    (h : ∀ v ∈ item :: items, IsReread v)
    (text : skipBlanks cs = (prettyAt level item).toList ++ ((prettyItems level items).toList ++ closing))
    (bound : (prettyAt level item).toList.length + (prettyItems level items).toList.length < n) :
    takeItems? n cs = some ((item :: items).map (map some), rest) := by
  induction items generalizing item n cs with
  | nil =>
    have closed : (prettyItems level []).toList ++ closing = closing := rfl
    rw [closed] at text
    obtain ⟨n, rfl⟩ : ∃ m, n = m + 1 := ⟨n - 1, by omega⟩
    exact takeItems?_last ((h item List.mem_cons_self).read text ends (by omega)) closes
  | cons next items ih =>
    rw [toList_prettyItems_cons] at text bound
    simp only [List.cons_append, List.append_assoc, List.length_cons, List.length_append] at text bound
    obtain ⟨n, rfl⟩ : ∃ m, n = m + 1 := ⟨n - 1, by omega⟩
    have others := fun v hv => h v (List.mem_cons_of_mem _ hv)
    have blanks := ((others next List.mem_cons_self).begins level).skipBlanks_append
    have first := (h item List.mem_cons_self).read (n := n) text (endsNumber_comma _) (by omega)
    exact takeItems?_more first (ih others ((skipBlanks_newLine_append level _).trans (blanks _)) (by omega))

theorem takeValue?_array {items : List (Json (Option String))} {text inside : List Char}
    (start : skipBlanks cs = '[' :: text) (blanks : skipBlanks text = inside)
    (begins : ∀ behind, inside ≠ ']' :: behind) (read : takeItems? n inside = some (items, rest)) :
    takeValue? (n + 1) cs = some (.array items, rest) := by
  simp [takeValue?, start, blanks, read]

/-- An array is read back if all its items are. -/
theorem isReread_array {items : List (Json String)} (h : ∀ item ∈ items, item.IsReread) :
    (array items).IsReread := by
  cases items with
  | nil =>
    refine .of_succ (fun _ => ⟨'[', [']'], by simp [prettyAt], rfl, by decide⟩) fun {_ _ _ rest} text _ _ => ?_
    have closed : skipBlanks (']' :: rest) = ']' :: rest := rfl
    simp [takeValue?, text, prettyAt, map, closed]
  | cons item items =>
    refine .of_succ (fun level => ⟨'[', _, toList_prettyAt_array level item items, rfl, by decide⟩)
      fun {level n cs rest} text _ bound => ?_
    rw [toList_prettyAt_array] at text bound
    simp only [List.cons_append, List.append_assoc, List.nil_append, List.length_cons, List.length_append] at text bound
    have begins := (h item List.mem_cons_self).begins (level + 1)
    have read := takeItems?_of_isReread (n := n) (skipBlanks_newLine_append level (']' :: rest))
      (endsNumber_newLine _ _) h (begins.skipBlanks_append _) (by omega)
    rw [map]
    exact takeValue?_array text ((skipBlanks_newLine_append _ _).trans (begins.skipBlanks_append _))
      (begins.append_ne _) read

/-! ## Objects -/

theorem toList_prettyMembers_cons (level : Nat) (name : String) (value : Json String)
    (members : List (String × Json String)) : (prettyMembers level ((name, value) :: members)).toList =
      ',' :: ((newLine level).toList ++ ((quoted name).toList ++ (':' :: ' ' :: ((prettyAt level value).toList ++
        (prettyMembers level members).toList)))) := by
  simp [prettyMembers]

theorem toList_prettyAt_object (level : Nat) (name : String) (value : Json String)
    (members : List (String × Json String)) : (prettyAt level (.object ((name, value) :: members))).toList =
      '{' :: ((newLine (level + 1)).toList ++ ((quoted name).toList ++ (':' :: ' ' ::
        ((prettyAt (level + 1) value).toList ++ ((prettyMembers (level + 1) members).toList ++
          ((newLine level).toList ++ ['}'])))))) := by
  simp [prettyAt]

theorem takeMembers?_last {name : String} {text behind : List Char} {value : Json (Option String)}
    (start : skipBlanks cs = (quoted name).toList ++ (':' :: text)) (read : takeValue? n text = some (value, behind))
    (closes : skipBlanks behind = '}' :: rest) : takeMembers? (n + 1) cs = some ([(some name, value)], rest) := by
  obtain ⟨inside, quote, string⟩ := exists_toList_quoted name (':' :: text)
  have colon : skipBlanks (':' :: text) = ':' :: text := rfl
  simp [takeMembers?, start, quote, string, colon, read, closes]

theorem takeMembers?_more {name : String} {text more : List Char} {value : Json (Option String)}
    {members : List (Option String × Json (Option String))}
    (start : skipBlanks cs = (quoted name).toList ++ (':' :: text))
    (read : takeValue? n text = some (value, ',' :: more)) (others : takeMembers? n more = some (members, rest)) :
    takeMembers? (n + 1) cs = some ((some name, value) :: members, rest) := by
  obtain ⟨inside, quote, string⟩ := exists_toList_quoted name (':' :: text)
  have colon : skipBlanks (':' :: text) = ':' :: text := rfl
  have comma : skipBlanks (',' :: more) = ',' :: more := rfl
  simp [takeMembers?, start, quote, string, colon, read, comma, others]

/-- The members of an object are read back, one after the other. -/
theorem takeMembers?_of_isReread {closing : List Char} (closes : skipBlanks closing = '}' :: rest)
    (ends : EndsNumber closing) {name : String} {value : Json String} {members : List (String × Json String)}
    (h : ∀ m ∈ (name, value) :: members, IsReread m.2)
    (text : skipBlanks cs = (quoted name).toList ++ (':' :: ' ' :: ((prettyAt level value).toList ++
      ((prettyMembers level members).toList ++ closing))))
    (bound : (prettyAt level value).toList.length + (prettyMembers level members).toList.length < n) :
    takeMembers? n cs = some (((name, value) :: members).map fun m => (some m.1, map some m.2), rest) := by
  induction members generalizing name value n cs with
  | nil =>
    have closed : (prettyMembers level []).toList ++ closing = closing := rfl
    rw [closed] at text
    obtain ⟨n, rfl⟩ : ∃ m, n = m + 1 := ⟨n - 1, by omega⟩
    have own : IsReread value := h (name, value) List.mem_cons_self
    have blanks := (own.begins level).skipBlanks_append closing
    exact takeMembers?_last text (own.read ((skipBlanks_space _).trans blanks) ends (by omega)) closes
  | cons next members ih =>
    obtain ⟨name', value'⟩ := next
    rw [toList_prettyMembers_cons] at text bound
    simp only [List.cons_append, List.append_assoc, List.length_cons, List.length_append] at text bound
    obtain ⟨n, rfl⟩ : ∃ m, n = m + 1 := ⟨n - 1, by omega⟩
    have own : IsReread value := h (name, value) List.mem_cons_self
    have others := fun v hv => h v (List.mem_cons_of_mem _ hv)
    have blanks := (own.begins level).skipBlanks_append
    have blanks' := (begins_quoted name').skipBlanks_append
    exact takeMembers?_more text (own.read ((skipBlanks_space _).trans (blanks _)) (endsNumber_comma _) (by omega))
      (ih others ((skipBlanks_newLine_append level _).trans (blanks' _)) (by omega))

theorem takeValue?_object {members : List (Option String × Json (Option String))} {text inside : List Char}
    (start : skipBlanks cs = '{' :: text) (blanks : skipBlanks text = inside)
    (begins : ∀ behind, inside ≠ '}' :: behind) (read : takeMembers? n inside = some (members, rest)) :
    takeValue? (n + 1) cs = some (.object members, rest) := by
  simp [takeValue?, start, blanks, read]

/-- An object is read back if the values of all its members are. -/
theorem isReread_object {members : List (String × Json String)} (h : ∀ m ∈ members, IsReread m.2) :
    (object members).IsReread := by
  cases members with
  | nil =>
    refine .of_succ (fun _ => ⟨'{', ['}'], by simp [prettyAt], rfl, by decide⟩) fun {_ _ _ rest} text _ _ => ?_
    have closed : skipBlanks ('}' :: rest) = '}' :: rest := rfl
    simp [takeValue?, text, prettyAt, map, closed]
  | cons m members =>
    obtain ⟨name, value⟩ := m
    refine .of_succ (fun level => ⟨'{', _, toList_prettyAt_object level name value members, rfl, by decide⟩)
      fun {level n cs rest} text _ bound => ?_
    rw [toList_prettyAt_object] at text bound
    simp only [List.cons_append, List.append_assoc, List.nil_append, List.length_cons, List.length_append] at text bound
    have begins := (begins_quoted name).skipBlanks_append (':' :: ' ' :: ((prettyAt (level + 1) value).toList ++
      ((prettyMembers (level + 1) members).toList ++ ((newLine level).toList ++ '}' :: rest))))
    have read := takeMembers?_of_isReread (n := n) (skipBlanks_newLine_append level ('}' :: rest))
      (endsNumber_newLine _ _) h begins (by omega)
    rw [map]
    exact takeValue?_object text ((skipBlanks_newLine_append _ _).trans begins) (by simp [quoted]) read

/-! ## Texts -/

/-- A value with natural numbers is read back. -/
theorem HasNaturals.isReread {v : Json String} (h : v.HasNaturals) : v.IsReread := by
  induction h with
  | null => exact isReread_null
  | bool b => exact isReread_bool b
  | number n => exact isReread_number n
  | string s => exact isReread_string s
  | array _ ih => exact isReread_array ih
  | object _ ih => exact isReread_object ih

/-- **A written value is read back**, also with blanks behind it. -/
theorem parse?_pretty_append {v : Json String} (h : v.HasNaturals) {blanks : String}
    (blank : ∀ c ∈ blanks.toList, c = ' ' ∨ c = '\t' ∨ c = '\n' ∨ c = '\r') :
    parse? (v.pretty ++ blanks) = some (v.map some) := by
  have skipped : skipBlanks blanks.toList = [] := by
    rw [← List.append_nil blanks.toList]
    refine List.dropWhile_append_of_pos fun c mem => ?_
    simpa only [Bool.or_eq_true, beq_iff_eq, or_assoc] using blank c mem
  have ends : EndsNumber blanks.toList := fun c first => by
    rcases blank c (List.mem_of_mem_head? first) with rfl | rfl | rfl | rfl <;> decide
  have text : skipBlanks (v.pretty ++ blanks).toList = (prettyAt 0 v).toList ++ blanks.toList := by
    rw [String.toList_append]
    exact (h.isReread.begins 0).skipBlanks_append _
  have bound : (prettyAt 0 v).toList.length ≤ 2 * (v.pretty ++ blanks).toList.length + 2 := by
    rw [String.toList_append, List.length_append, pretty]
    omega
  rw [parse?, h.isReread.read text ends bound]
  simp [skipped]

end HtmlQuery.Json
