import HtmlQuery.Proofs.Selector.SingleTerms

/-!
# Texts that are no selectors

A text that is no selector breaks into a front and a rest: the front is a selector, or nothing but white space, and at
the rest no term begins. There is only one such place, and it is the one that the error names.

* `NoTermBegins` — no term is at the front of a text;
* `Readable` — what can be read before an error;
* `readCompounds_of_stuck`, `stuck_of_readCompounds` — rows of compound selectors are read up to that place;
* `ComplexSelector.exists_of_parse_eq_error`, `ComplexSelector.parse_eq_error_of_append` — the error names that place;
* `ComplexSelector.error_at_first_unreadable` — what is before it, at it and behind it.
-/

namespace HtmlQuery

open Text

variable {cs front form rest blanks unread : List Char} {c : Char} {compounds : List CompoundSelector}

/-! ## Where no term begins -/

/-- No front of the text is a term. -/
def NoTermBegins (cs : List Char) : Prop := ∀ (x : SimpleSelector) (form : List Char), x.HasForm form → ¬ form <+: cs

theorem readTerm?_eq_none_iff : readTerm? cs = none ↔ NoTermBegins cs := by
  constructor
  · rintro h x form hx ⟨rest, rfl⟩
    obtain ⟨y, behind, read, -⟩ := exists_readTerm?_append hx rest
    cases h.symm.trans read
  · intro h
    cases read : readTerm? cs with
    | none => rfl
    | some found =>
      obtain ⟨form, hx, -, rfl⟩ := readTerm?_eq_some_iff.mp read
      exact absurd (List.prefix_append form _) (h _ form hx)

/-- White space behind a text is no part of a term. -/
theorem NoTermBegins.append (h : NoTermBegins cs) (blank : ∀ b ∈ blanks, isWhiteSpace b = true) :
    NoTermBegins (cs ++ blanks) := by
  intro x form hx front
  rcases List.prefix_or_prefix_of_prefix front (List.prefix_append cs blanks) with inside | ⟨more, rfl⟩
  · exact h x form hx inside
  · cases more with
    | nil => exact h x _ hx (by rewrite [List.append_nil]; exact List.prefix_rfl)
    | cons b more =>
      have blank := blank b ((List.prefix_append_right_inj cs).mp front |>.subset List.mem_cons_self)
      have solid := hx.isWhiteSpace_eq_false b (List.mem_append_right cs List.mem_cons_self)
      exact absurd (solid.symm.trans blank) Bool.false_ne_true

theorem NoTermBegins.of_append (h : NoTermBegins (cs ++ rest)) : NoTermBegins cs :=
  fun x form hx front => h x form hx (front.trans (List.prefix_append cs rest))

/-- Terms are read until none begins. -/
theorem readTerm?_readTerms (cs : List Char) : readTerm? (readTerms cs).2 = none := by
  fun_induction readTerms cs with
  | case1 cs nothing => exact nothing
  | case2 cs x rest _ _ terms rest' eq ih =>
    rw [eq] at ih
    exact ih

/-! ## Rows of compound selectors -/

/-- A row of compound selectors, perhaps with white space behind it, or nothing at all. -/
def Readable (cs : List Char) : Prop :=
  cs = [] ∨ ∃ compounds form blanks, cs = form ++ blanks ∧ CompoundsForm compounds form ∧
    ∀ b ∈ blanks, isWhiteSpace b = true

theorem readCompounds_of_readTerm?_eq_none (h : readTerm? cs = none) : readCompounds cs = .error cs := by
  rw [readCompounds]
  split
  case h_1 terms rest read =>
    cases (readTerms_of_none h).symm.trans read
    rfl

/-- A row of compound selectors and white space are read up to a place where no term begins. -/
theorem readCompounds_of_stuck (h : CompoundsForm compounds form) (munched : ∀ c ∈ compounds, IsMunched c.terms)
    (blank : ∀ b ∈ blanks, isWhiteSpace b = true) (solid : isWhiteSpace c = false)
    (stuck : readTerm? (c :: rest) = none) :
    readCompounds (form ++ (blanks ++ c :: rest)) = .error (c :: rest) := by
  have solid' : ∀ d ∈ (c :: rest).head?, isWhiteSpace d = false := by
    rintro _ ⟨⟩
    exact solid
  induction h with
  | @single compound form h =>
    have mine := munched _ List.mem_cons_self
    cases blanks with
    | nil =>
      have read : readTerms (form ++ c :: rest) = (compound.terms, c :: rest) := readTerms_append h mine stuck
      rw [List.nil_append, readCompounds_of_readTerms read]
      exact if_neg (by simp [solid])
    | cons b blanks =>
      obtain ⟨hb, blank⟩ := List.forall_mem_cons.mp blank
      have interrupts : Interrupts (b :: (blanks ++ c :: rest)) := by
        rintro _ ⟨⟩
        exact hb
      have read : readTerms (form ++ (b :: blanks ++ c :: rest)) = (compound.terms, b :: (blanks ++ c :: rest)) :=
        readTerms_append h mine interrupts.readTerm?_eq_none
      rw [readCompounds_of_readTerms read]
      dsimp only
      rw [if_pos hb, trimStart_append blank solid', readCompounds_of_readTerm?_eq_none stuck]
  | @cons compound compounds form between behind h hb between_blank others ih =>
    obtain ⟨mine, theirs⟩ := List.forall_mem_cons.mp munched
    obtain ⟨b, between, rfl⟩ := List.exists_cons_of_ne_nil hb
    obtain ⟨hb, between_blank⟩ := List.forall_mem_cons.mp between_blank
    have text : form ++ (b :: between ++ behind) ++ (blanks ++ c :: rest) =
        form ++ b :: (between ++ (behind ++ (blanks ++ c :: rest))) := by
      simp only [List.append_assoc, List.cons_append]
    have interrupts : Interrupts (b :: (between ++ (behind ++ (blanks ++ c :: rest)))) := by
      rintro _ ⟨⟩
      exact hb
    rw [text, readCompounds_of_readTerms (readTerms_append h mine interrupts.readTerm?_eq_none)]
    dsimp only
    rw [if_pos hb, trimStart_append between_blank (others.head?_append _), ih theirs]

/-- An error in a text without white space at its ends is at a place where no term begins. -/
theorem stuck_of_readCompounds (h : readCompounds cs = .error unread)
    (first : ∀ c ∈ cs.head?, isWhiteSpace c = false) (last : ∃ c ∈ cs.getLast?, isWhiteSpace c = false) :
    ∃ front c rest, unread = c :: rest ∧ cs = front ++ c :: rest ∧ isWhiteSpace c = false ∧
      readTerm? (c :: rest) = none ∧ Readable front := by
  fun_induction readCompounds cs generalizing unread with
  | case1 cs terms rest read nothing =>
    cases h
    obtain ⟨d, hd, -⟩ := last
    have stuck := readTerm?_readTerms cs
    obtain ⟨c, cs, rfl⟩ := List.exists_cons_of_ne_nil (List.ne_nil_of_mem (List.mem_of_getLast? hd))
    refine ⟨[], c, cs, rfl, rfl, first c rfl, ?_, .inl rfl⟩
    rcases readTerms_sound (c :: cs) with none | ⟨form, row, -, -⟩
    · rwa [none] at stuck
    · rw [read] at row
      rw [CompoundSelector.ofTerms?, dif_pos row.ne_nil.1] at nothing
      cases nothing
  | case2 => cases h
  | case3 => cases h
  | case4 cs terms compound made b after _ blank unread' error read ih =>
    cases h
    rw [← compound.terms_of_ofTerms? made] at read
    obtain ⟨form, row, -, rfl⟩ := termsForm_of_readTerms read
    obtain ⟨blanks, blanks_blank, eq⟩ := exists_append_trimStart after
    obtain ⟨d, hd, solid⟩ := last
    -- the last character is no white space, so it lies behind the white space
    have last : d ∈ (trimStart after).getLast? := by
      rw [List.getLast?_append_cons, eq, ← List.cons_append, List.getLast?_append] at hd
      cases h : (trimStart after).getLast? with
      | none =>
        rw [h, Option.none_or] at hd
        rcases List.mem_cons.mp (List.mem_of_getLast? hd) with rfl | mem
        · exact absurd (solid.symm.trans blank) Bool.false_ne_true
        · exact absurd (solid.symm.trans (blanks_blank d mem)) Bool.false_ne_true
      | some x => rwa [h, Option.some_or] at hd
    obtain ⟨front, c, rest, rfl, text, hc, stuck, readable⟩ := ih error (head?_trimStart after) ⟨d, last, solid⟩
    have blank' : ∀ x ∈ b :: blanks, isWhiteSpace x = true := List.forall_mem_cons.mpr ⟨blank, blanks_blank⟩
    refine ⟨form ++ (b :: blanks ++ front), c, rest, rfl, ?_, hc, stuck, .inr ?_⟩
    · rw [eq, text]
      simp only [List.append_assoc, List.cons_append]
    · rcases readable with rfl | ⟨compounds, form', blanks', rfl, others, behind⟩
      · exact ⟨_, form, b :: blanks, by rw [List.append_nil], .single row, blank'⟩
      · refine ⟨_, form ++ (b :: blanks ++ form'), blanks', ?_, .cons row (List.cons_ne_nil _ _) blank' others, behind⟩
        simp only [List.append_assoc]
  | case5 cs terms compound made c after _ solid read =>
    cases h
    have stuck := readTerm?_readTerms cs
    rw [read] at stuck
    rw [← compound.terms_of_ofTerms? made] at read
    obtain ⟨form, row, -, rfl⟩ := termsForm_of_readTerms read
    refine ⟨form, c, after, rfl, rfl, Bool.eq_false_iff.mpr solid, stuck, .inr ?_⟩
    exact ⟨_, form, [], (List.append_nil form).symm, .single row, List.forall_mem_nil _⟩

/-! ## Selectors -/

namespace ComplexSelector

variable {s : String} {e : UnreadableSelector} {before behind : List Char}

/-- What is read is the text between the white space, and an error counts the bytes before it. -/
theorem parse_of_append (text : s.toList = before ++ (cs ++ behind)) (blank : ∀ b ∈ before, isWhiteSpace b = true)
    (blank' : ∀ b ∈ behind, isWhiteSpace b = true) (first : ∃ c ∈ cs.head?, isWhiteSpace c = false)
    (last : ∀ c ∈ cs.getLast?, isWhiteSpace c = false) : parse s =
      match readCompounds cs with
      | .ok compounds => .ok (ofCompounds? compounds)
      | .error unread => .error ⟨s, byteLength before + (byteLength cs - byteLength unread)⟩ := by
  obtain ⟨c, hc, solid⟩ := first
  obtain ⟨rest, rfl⟩ := List.head?_eq_some_iff.mp hc
  have start : trimStart s.toList = c :: rest ++ behind := by
    rw [text]
    refine trimStart_append blank ?_
    rintro _ ⟨⟩
    exact solid
  have whole : (trim s).toList = c :: rest := by
    rw [trim, String.toList_ofList, start, trimEnd_append blank' last]
  have bytes : byteLength s.toList - byteLength (c :: rest ++ behind) = byteLength before := by
    rw [text, byteLength_append, Nat.add_sub_cancel]
  rewrite [parse_eq, whole, start, bytes, if_neg (List.cons_ne_nil c rest)]
  rfl

/-- White space and a row of compound selectors are a selector. -/
theorem exists_parse_of_readable (blank : ∀ b ∈ before, isWhiteSpace b = true) (readable : Readable front) :
    ∃ p, parse (String.ofList (before ++ front)) = .ok p := by
  rcases readable with rfl | ⟨compounds, form, blanks, rfl, h, blank'⟩
  · refine ⟨none, parse_eq_ok_none_iff.mpr ?_⟩
    rwa [String.toList_ofList, List.append_nil]
  · obtain ⟨compounds, h, -⟩ := h.exists_munched
    have derivation : HasForm ⟨compounds.dropLast, compounds.getLast h.ne_nil⟩ form := by
      rw [HasForm, ComplexSelector.compounds, List.dropLast_append_getLast]
      exact h
    obtain ⟨p, read⟩ := exists_parse_eq_ok_some_iff.mpr ⟨_, (by
      rw [h.trim_append blank blank', String.toList_ofList]
      exact derivation : HasForm _ (trim (String.ofList (before ++ (form ++ blanks)))).toList)⟩
    exact ⟨some p, read⟩

/-- An error is at a place where no term begins, behind a text that is a selector. -/
theorem exists_of_parse_eq_error (h : parse s = .error e) : e.source = s ∧ ∃ front c rest,
    s.toList = front ++ c :: rest ∧ byteLength front = e.offset ∧ isWhiteSpace c = false ∧
    (∃ p, parse (String.ofList front) = .ok p) ∧ NoTermBegins (c :: rest) := by
  obtain ⟨before, behind, blank, blank', eq, eq', first, last⟩ := exists_append_trim s.toList
  have solid : trimEnd (trimStart s.toList) ≠ [] := fun nothing => by
    rw [parse_eq_ok_none_iff.mpr (trimEnd_trimStart_eq_nil_iff.mp nothing)] at h
    cases h
  generalize trimEnd (trimStart s.toList) = cs at eq' first last solid
  have text : s.toList = before ++ (cs ++ behind) := eq' ▸ eq
  have begins : ∃ c ∈ cs.head?, isWhiteSpace c = false := by
    obtain ⟨c, cs, rfl⟩ := List.exists_cons_of_ne_nil solid
    exact ⟨c, rfl, first c rfl⟩
  have ends : ∃ c ∈ cs.getLast?, isWhiteSpace c = false :=
    ⟨cs.getLast solid, List.getLast?_eq_some_getLast solid, last _ (List.getLast?_eq_some_getLast solid)⟩
  rw [parse_of_append text blank blank' begins last] at h
  split at h
  case h_1 => cases h
  case h_2 unread error =>
    cases h
    obtain ⟨front, c, rest, rfl, rfl, hc, stuck, readable⟩ := stuck_of_readCompounds error first ends
    refine ⟨rfl, before ++ front, c, rest ++ behind, ?_, ?_, hc, exists_parse_of_readable blank readable,
      (readTerm?_eq_none_iff.mp stuck).append blank'⟩
    · simp only [text, List.append_assoc, List.cons_append]
    · rw [byteLength_append, byteLength_append, Nat.add_sub_cancel]

/-- A place where no term begins, behind a text that is a selector, is where the error is. -/
theorem parse_eq_error_of_append (text : s.toList = front ++ c :: rest) (solid : isWhiteSpace c = false)
    (readable : ∃ p, parse (String.ofList front) = .ok p) (stuck : NoTermBegins (c :: rest)) :
    parse s = .error ⟨s, byteLength front⟩ := by
  obtain ⟨rest, behind, blank', eq, last⟩ := exists_cons_trimEnd solid rest
  rw [eq] at text stuck
  have stuck := readTerm?_eq_none_iff.mpr stuck.of_append
  obtain ⟨_ | p, read⟩ := readable
  · have blank := parse_eq_ok_none_iff.mp read
    rw [String.toList_ofList] at blank
    rw [parse_of_append text blank blank' ⟨c, rfl, solid⟩ last, readCompounds_of_readTerm?_eq_none stuck]
    simp
  · obtain ⟨derivation, munched⟩ := parse_eq_ok_some_iff.mp read
    obtain ⟨before, blanks, blank, between, eq, eq', -, -⟩ := exists_append_trim front
    rw [trim, String.toList_ofList, String.toList_ofList] at derivation
    generalize trimEnd (trimStart front) = form at eq' derivation
    have text : s.toList = before ++ (form ++ (blanks ++ c :: rest) ++ behind) := by
      rw [text, eq, eq']
      simp only [List.append_assoc, List.cons_append]
    obtain ⟨d, cs, rfl, hd⟩ := CompoundsForm.head derivation
    have last : ∀ x ∈ (d :: cs ++ (blanks ++ c :: rest)).getLast?, isWhiteSpace x = false := by
      rwa [← List.append_assoc, List.getLast?_append_cons]
    rw [parse_of_append text blank blank' ⟨d, rfl, hd⟩ last,
      readCompounds_of_stuck derivation munched between solid stuck]
    have bytes : byteLength front = byteLength before + (byteLength (d :: cs) + byteLength blanks) := by
      rw [eq, eq', byteLength_append, byteLength_append]
    simp only [byteLength_append, bytes]
    congr 2
    omega

/-- **An error is where the text breaks**: before it is a selector, and at it no term begins. It is the only such place
in the text. What is shown as unread begins there, and the short way to read a selector makes the same error. -/
theorem error_at_first_unreadable (h : parse s = .error e) : e.source = s ∧ ∃ front c rest,
    s.toList = front ++ c :: rest ∧ byteLength front = e.offset ∧ e.offset < s.utf8ByteSize ∧
    isWhiteSpace c = false ∧ (∃ p, parse (String.ofList front) = .ok p) ∧
    NoTermBegins (c :: rest) ∧ e.unread = String.ofList (c :: rest) ∧ Selector.parse s = .error e ∧
    ∀ front' c' rest', s.toList = front' ++ c' :: rest' → isWhiteSpace c' = false →
      (∃ p, parse (String.ofList front') = .ok p) → NoTermBegins (c' :: rest') → front' = front := by
  obtain ⟨source, front, c, rest, text, bytes, solid, readable, stuck⟩ := exists_of_parse_eq_error h
  refine ⟨source, front, c, rest, text, bytes, ?inside, solid, readable, stuck, ?unread, ?short, ?only⟩
  case inside =>
    have pos := c.utf8Size_pos
    rw [← byteLength_toList, text, byteLength_append, byteLength, ← bytes]
    omega
  case unread => rw [UnreadableSelector.unread, source, text, ← bytes, dropBytes?_append]
  case short =>
    rw [Selector.parse_eq_map, h]
    rfl
  case only =>
    intro front' c' rest' text' solid' readable' stuck'
    have error := parse_eq_error_of_append text' solid' readable' stuck'
    cases h.symm.trans error
    -- the same bytes end the same front
    have same := dropBytes?_append (c :: rest) front
    rw [bytes, ← text, text', dropBytes?_append] at same
    rw [text', Option.some.inj same] at text
    exact List.append_cancel_right text

/-- White space counts in bytes, and the error is behind all of it. -/
theorem error_at_child_combinator : parse " \u00a0ul  > li" = .error ⟨" \u00a0ul  > li", 7⟩ ∧
    Selector.parse " \u00a0ul  > li" = .error ⟨" \u00a0ul  > li", 7⟩ ∧
    UnreadableSelector.unread ⟨" \u00a0ul  > li", 7⟩ = "> li" := by
  have blank : ∀ b ∈ [' ', '\u00a0'], isWhiteSpace b = true := List.all_eq_true.mp rfl
  have list : CompoundsForm [⟨[.hasTag "ul"], List.cons_ne_nil _ _⟩] "ul".toList :=
    .single (.single (.hasTag (by decide)))
  have readable := exists_parse_of_readable blank (.inr ⟨_, _, "  ".toList, rfl, list, List.all_eq_true.mp rfl⟩)
  have stuck : NoTermBegins "> li".toList := readTerm?_eq_none_iff.mp rfl
  have error : parse " \u00a0ul  > li" = .error ⟨" \u00a0ul  > li", 7⟩ :=
    parse_eq_error_of_append rfl (by decide) readable stuck
  obtain ⟨-, front, c, rest, text, -, -, -, -, -, unread, short, only⟩ := error_at_first_unreadable error
  refine ⟨error, short, unread.trans ?_⟩
  rw [← only _ '>' " li".toList rfl (by decide) readable stuck] at text
  have same : [' ', '\u00a0'] ++ "ul  ".toList ++ "> li".toList = [' ', '\u00a0'] ++ "ul  ".toList ++ c :: rest := text
  rw [← List.append_cancel_left same]
  rfl

end ComplexSelector

end HtmlQuery
