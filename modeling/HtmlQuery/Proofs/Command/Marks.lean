import HtmlQuery.Command.Run
import HtmlQuery.Proofs.Selector.Unreadable

/-!
# The mark below a selector

A selector that cannot be read is shown with a mark on the next line, behind a space for each byte before the place of
the error. To be below that place, it would have to be behind a space for each character. What can be read is written in
ASCII but for its white space. So the mark is below the place unless there is other white space before it, and then the
mark is too far to the right.

* `lines` — the lines of a text;
* `extraBytes` — the bytes of a text besides one for each character;
* `ComplexSelector.isTermCharacter_or_isWhiteSpace_of_parse` — the characters of what can be read;
* `Request.Rejects` — the first text of a request that is no selector;
* `lines_errors_of_rejects` — what is shown about it, and where the mark is.
-/

namespace HtmlQuery

open Text

/-! ## Lines -/

/-- The lines of a text. Behind a line feed at its end there is an empty one. -/
def lines (s : String) : List String := (s.toList.splitOn '\n').map String.ofList

theorem lines_empty : lines "" = [""] := rfl

/-- A text up to its first line feed is a line. -/
theorem lines_append {line : String} (h : '\n' ∉ line.toList) (rest : String) :
    lines (line ++ "\n" ++ rest) = line :: lines rest := by
  have text : (line ++ "\n" ++ rest).toList = line.toList ++ '\n' :: rest.toList := by simp
  rw [lines, text, List.splitOn_append_cons_self_of_not_mem h, List.map_cons, String.ofList_toList, lines]

/-! ## Bytes and characters -/

namespace Text

/-- The bytes of a text besides one for each character. -/
def extraBytes : List Char → Nat
  | [] => 0
  | c :: cs => c.utf8Size - 1 + extraBytes cs

theorem byteLength_eq_length_add : ∀ cs : List Char, byteLength cs = cs.length + extraBytes cs
  | [] => rfl
  | c :: cs => by
    have pos := c.utf8Size_pos
    rw [byteLength, byteLength_eq_length_add cs, extraBytes, List.length_cons]
    omega

theorem extraBytes_eq_zero_iff : ∀ {cs : List Char}, extraBytes cs = 0 ↔ ∀ c ∈ cs, c.utf8Size = 1
  | [] => iff_of_true rfl (List.forall_mem_nil _)
  | c :: cs => by
    have pos := c.utf8Size_pos
    rw [extraBytes, List.forall_mem_cons, ← extraBytes_eq_zero_iff]
    omega

/-- Characters of one byte have no more. -/
theorem extraBytes_filter {p : Char → Bool} : ∀ {cs : List Char}, (∀ c ∈ cs, c.utf8Size = 1 ∨ p c = true) →
    extraBytes (cs.filter p) = extraBytes cs
  | [], _ => rfl
  | c :: cs, h => by
    obtain ⟨first, others⟩ := List.forall_mem_cons.mp h
    by_cases hc : p c = true
    · rw [List.filter_cons_of_pos hc, extraBytes, extraBytes_filter others, extraBytes]
    · rw [List.filter_cons_of_neg hc, extraBytes_filter others, extraBytes, first.resolve_right hc, Nat.sub_self,
        Nat.zero_add]

end Text

/-! ## What can be read -/

/-- Terms are written in ASCII. -/
theorem toNat_le_of_isTermCharacter {c : Char} (h : isTermCharacter c = true) : c.toNat ≤ 127 := by
  have signs : ∀ c ∈ ['#', '.', '[', ']', '=', '"', '\''], c.toNat ≤ 127 := by simp
  rcases (Bool.or_eq_true _ _).mp h with name | sign
  · have bounds := toNat_of_isNameCharacter name
    omega
  · exact signs c (List.contains_iff_mem.mp sign)

theorem utf8Size_of_isTermCharacter {c : Char} (h : isTermCharacter c = true) : c.utf8Size = 1 :=
  Char.utf8Size_eq_one_iff.mpr (UInt32.le_iff_toNat_le.mpr (toNat_le_of_isTermCharacter h))

/-- A selector has the characters of terms and white space. -/
theorem ComplexSelector.isTermCharacter_or_isWhiteSpace_of_parse {s : String} {p : Option ComplexSelector}
    (h : parse s = .ok p) : ∀ c ∈ s.toList, isTermCharacter c = true ∨ isWhiteSpace c = true := by
  cases p with
  | none => exact fun c hc => .inr (parse_eq_ok_none_iff.mp h c hc)
  | some p =>
    have form := (parse_eq_ok_some_iff.mp h).1
    obtain ⟨front, behind, blank, blank', eq, eq', -, -⟩ := exists_append_trim s.toList
    rw [trim, String.toList_ofList] at form
    rw [eq, eq']
    simp only [List.forall_mem_append]
    exact ⟨fun c hc => .inr (blank c hc), form.isTermCharacter_or_isWhiteSpace, fun c hc => .inr (blank' c hc)⟩

/-- An error is behind some characters, and each of these has one byte or is white space. -/
theorem Selector.exists_of_parse_eq_error {s : String} {e : UnreadableSelector} (h : parse s = .error e) :
    e.source = s ∧ ∃ front c rest, s.toList = front ++ c :: rest ∧ byteLength front = e.offset ∧
      NoTermBegins (c :: rest) ∧ ∀ b ∈ front, b.utf8Size = 1 ∨ isWhiteSpace b = true := by
  obtain ⟨source, front, c, rest, text, bytes, -, ⟨p, readable⟩, stuck⟩ :=
    ComplexSelector.exists_of_parse_eq_error (parse_eq_error_iff.mp h)
  have characters := ComplexSelector.isTermCharacter_or_isWhiteSpace_of_parse readable
  rw [String.toList_ofList] at characters
  exact ⟨source, front, c, rest, text, bytes, stuck,
    fun b hb => (characters b hb).imp_left utf8Size_of_isTermCharacter⟩

namespace Command

variable {arguments : List String} {files : Files} {r : Request} {config : Config} {e : UnreadableSelector}

/-! ## Requests -/

/-- The first text of a request that is no selector. The selector is read before that of the scope. -/
inductive Request.Rejects (r : Request) (e : UnreadableSelector) : Prop
  | selector (h : Selector.parse r.selector = .error e)
  | within {s : Selector} {source : String} (hs : Selector.parse r.selector = .ok s) (hr : r.within = some source)
    (h : Selector.parse source = .error e)

/-- No term begins behind this no-break space, which is one character of two bytes. -/
theorem rejects_noBreakSpace : Request.Rejects { selector := "\u00a0>" } ⟨"\u00a0>", 2⟩ := by
  have readable : ∃ p, ComplexSelector.parse (String.ofList ['\u00a0']) = .ok p :=
    ⟨none, ComplexSelector.parse_eq_ok_none_iff.mpr (List.all_eq_true.mp rfl)⟩
  have stuck : NoTermBegins ['>'] := readTerm?_eq_none_iff.mp rfl
  exact .selector (Selector.parse_eq_error_iff.mpr
    (ComplexSelector.parse_eq_error_of_append rfl (by decide) readable stuck))

theorem Request.Rejects.exists_parse_eq_error (h : r.Rejects e) : ∃ s, Selector.parse s = .error e := by
  cases h with
  | selector h => exact ⟨_, h⟩
  | within _ _ h => exact ⟨_, h⟩

/-- A request with such a text fails because of it. -/
theorem Request.Rejects.run_eq (h : r.Rejects e) (readable : r.readConfig files = .ok config) :
    r.run files = ⟨1, "", "Error: " ++ (Failure.selector e).message ++ "\n"⟩ := by
  have execute : r.execute files = ("", some (.selector e)) := by
    cases h with
    | selector h =>
      rw [execute, readable, readSelector, h]
      rfl
    | within hs hr h =>
      rw [execute, readable, readSelector, hs, readWithin, hr]
      dsimp only
      rw [h]
      rfl
  rw [run, execute]

/-! ## Marks -/

theorem lineFeed_not_mem_message (h : '\n' ∉ e.source.toList) : '\n' ∉ ("Error: " ++ e.message).toList := by
  have digits : '\n' ∉ Nat.toDigits 10 e.offset := by
    intro mem
    have digit : '\n'.isDigit = true := Nat.isDigit_of_mem_toDigits (by decide : 0 < 10) (by decide : 10 ≤ 10) mem
    exact absurd digit (by decide)
  unfold UnreadableSelector.message
  simp [h, digits]

theorem lineFeed_not_mem_markOf (e : UnreadableSelector) : '\n' ∉ ("  " ++ markOf e).toList := by
  have codes : '\n' ∉ Nat.toDigits 10 31 ∧ '\n' ∉ Nat.toDigits 10 39 := by decide
  simpa [markOf, red, styled] using codes

/-- A selector of one line is shown on one line, and its mark on the next. -/
theorem lines_message (h : '\n' ∉ e.source.toList) : lines ("Error: " ++ (Failure.selector e).message ++ "\n") =
    ["Error: " ++ e.message, "  " ++ e.source, "  " ++ markOf e, ""] := by
  have source : '\n' ∉ ("  " ++ e.source).toList := by simpa using h
  have text : "Error: " ++ (Failure.selector e).message ++ "\n" =
      ("Error: " ++ e.message) ++ "\n" ++ (("  " ++ e.source) ++ "\n" ++ (("  " ++ markOf e) ++ "\n" ++ "")) := by
    have shown : (Failure.selector e).message = e.message ++ "\n  " ++ e.source ++ "\n  " ++ markOf e := rfl
    apply String.toList_inj.mp
    rw [shown]
    simp
  rw [text, lines_append (lineFeed_not_mem_message h), lines_append source, lines_append (lineFeed_not_mem_markOf e),
    lines_empty]

/-- **What is shown about a selector that cannot be read, and where its mark is.** The call fails and writes nothing but
the error. If the selector has no line breaks, it is on a line of its own, and on the next line is a mark behind a space
for each byte before the place where no term begins. There is a byte for each character before that place, and white
space can have more than one. So the mark is behind a space for each of these characters exactly if none of them is such
white space. -/
theorem lines_errors_of_rejects (request : readArguments arguments = .ok r) (readable : r.readConfig files = .ok config)
    (rejects : r.Rejects e) (oneLine : '\n' ∉ e.source.toList) :
    (run arguments files).code = 1 ∧ (run arguments files).output = "" ∧
    lines (run arguments files).errors = ["Error: " ++ e.message, "  " ++ e.source,
      "  " ++ red (String.ofList (List.replicate e.offset ' ') ++ "^"), ""] ∧
    ∃ front c rest, e.source.toList = front ++ c :: rest ∧ byteLength front = e.offset ∧ NoTermBegins (c :: rest) ∧
      e.offset = front.length + extraBytes (front.filter isWhiteSpace) ∧
      (e.offset = front.length ↔ ∀ b ∈ front, isWhiteSpace b = true → b.utf8Size = 1) := by
  have outcome : run arguments files = ⟨1, "", "Error: " ++ (Failure.selector e).message ++ "\n"⟩ := by
    rw [run, request]
    exact rejects.run_eq readable
  obtain ⟨s, error⟩ := rejects.exists_parse_eq_error
  obtain ⟨rfl, front, c, rest, text, bytes, stuck, characters⟩ := Selector.exists_of_parse_eq_error error
  have columns : e.offset = front.length + extraBytes (front.filter isWhiteSpace) := by
    rw [extraBytes_filter characters, ← byteLength_eq_length_add, bytes]
  rw [outcome]
  refine ⟨rfl, rfl, lines_message oneLine, front, c, rest, text, bytes, stuck, columns, ?_⟩
  rw [columns, Nat.add_eq_left, extraBytes_eq_zero_iff]
  simp only [List.mem_filter, and_imp]

/-- Behind a no-break space the mark is one column too far to the right. -/
theorem lines_errors_noBreakSpace : readArguments ["\u00a0>"] = .ok { selector := "\u00a0>" } ∧
    Request.Rejects { selector := "\u00a0>" } ⟨"\u00a0>", 2⟩ ∧
    lines (run ["\u00a0>"] fun _ => .ok "").errors =
      ["Error: unsupported selector \"\u00a0>\": unexpected input at byte 2", "  \u00a0>", "  \x1b[31m  ^\x1b[39m",
        ""] := by
  have request : readArguments ["\u00a0>"] = .ok { selector := "\u00a0>" } := by decide
  have config : Request.readConfig { selector := "\u00a0>" } (fun _ => .ok "") = .ok {} := rfl
  obtain ⟨-, -, shown, -⟩ := lines_errors_of_rejects request config rejects_noBreakSpace (by decide)
  exact ⟨request, rejects_noBreakSpace, shown⟩

/-- The mark is not always behind a space for each character before the place. -/
theorem not_forall_mark_below : ¬ ∀ arguments files r config e, readArguments arguments = .ok r →
    r.readConfig files = .ok config → r.Rejects e → '\n' ∉ e.source.toList →
    ∀ front rest, e.source.toList = front ++ rest → byteLength front = e.offset →
      (lines (run arguments files).errors)[2]? =
        some ("  " ++ red (String.ofList (List.replicate front.length ' ') ++ "^")) := by
  intro all
  have request : readArguments ["\u00a0>"] = .ok { selector := "\u00a0>" } := by decide
  have below := all ["\u00a0>"] (fun _ => .ok "") _ {} _ request rfl rejects_noBreakSpace (by decide) ['\u00a0'] ['>']
    rfl rfl
  rw [run, request] at below
  dsimp only at below
  rw [rejects_noBreakSpace.run_eq rfl, lines_message (by decide)] at below
  exact absurd below (by decide)

end Command

end HtmlQuery
