import HtmlQuery.Markup.Lexer
import Mathlib.Data.List.Infix

/-!
# Tokens as markup

A token can be written down. Where its names and values do not hold the characters that would end them, the lexer reads
the token that was written, and then it is ready for the next one.

* `Token.markup` — how a token is written;
* `Token.Writable` — the tokens whose markup says what they are;
* `Lexer.run_markup`, `Lexer.run_markups` — what is written is read;
* `tokenize_join_markup` — the tokens of a text that was written.
-/

namespace HtmlQuery

open Text

/-! ## Writing -/

/-- An attribute in a start tag, with the blank before it. -/
def Attribute.markup (a : Attribute) : String := " " ++ a.name ++ "=\"" ++ a.value ++ "\""

/-- The markup of a token. -/
def Token.markup : Token → String
  | .startTag name selfClosing attributes =>
    "<" ++ name ++ String.join (attributes.map Attribute.markup) ++ (if selfClosing then "/" else "") ++ ">"
  | .endTag name => "</" ++ name ++ ">"
  | .comment data => "<!--" ++ data ++ "-->"
  | .character c => String.singleton c
  | .endOfFile => ""

/-- A character that neither ends the name of a tag nor is read in another case. -/
def isNameChar (c : Char) : Bool := !isBlank c && c != '/' && c != '>' && !c.isUpper

/-- A name that a tag can have. -/
structure IsTagName (name : String) : Prop where
  first : name.toList.head?.any Char.isLower = true
  chars : ∀ c ∈ name.toList, isNameChar c = true

instance (name : String) : Decidable (IsTagName name) :=
  decidable_of_iff (name.toList.head?.any Char.isLower = true ∧ name.toList.all isNameChar = true)
    ⟨fun h => ⟨h.1, List.all_eq_true.mp h.2⟩, fun h => ⟨h.first, List.all_eq_true.mpr h.chars⟩⟩

/-- An attribute that is read as it is written. -/
structure Attribute.Writable (a : Attribute) : Prop where
  name_chars : ∀ c ∈ a.name.toList, isNameChar c = true ∧ c ≠ '='
  value_chars : '"' ∉ a.value.toList

instance (a : Attribute) : Decidable a.Writable :=
  decidable_of_iff ((a.name.toList.all fun c => isNameChar c && c != '=') = true ∧ '"' ∉ a.value.toList)
    ⟨fun h => ⟨by simpa using h.1, h.2⟩, fun h => ⟨by simpa using h.name_chars, h.value_chars⟩⟩

/-- The tokens that are read as they are written. -/
def Token.Writable : Token → Prop
  | .startTag name _ attributes => IsTagName name ∧ isRawTextName name = false ∧
      (attributes.map Attribute.name).Nodup ∧ ∀ a ∈ attributes, a.Writable
  | .endTag name => IsTagName name
  | .comment data => ¬ "-->".toList <:+: data.toList
  | .character c => c ≠ '<'
  | .endOfFile => False

instance : DecidablePred Token.Writable
  | .startTag _ _ _ => inferInstanceAs (Decidable (_ ∧ _ ∧ _ ∧ _))
  | .endTag name => inferInstanceAs (Decidable (IsTagName name))
  | .comment _ => inferInstanceAs (Decidable (¬ _))
  | .character c => inferInstanceAs (Decidable (c ≠ '<'))
  | .endOfFile => inferInstanceAs (Decidable False)

/-! ## Texts and names -/

/-- A text that is extended by a character and then by more. -/
theorem push_append_ofList (text : String) (c : Char) (cs : List Char) :
    text.push c ++ String.ofList cs = text ++ String.ofList (c :: cs) := by
  apply String.toList_inj.mp
  simp

/-- The texts that are read as the name of a tag. The lexer puts them in lower case. -/
structure IsTagWord (word : List Char) : Prop where
  first : word.head?.any Char.isAlpha = true
  chars : ∀ c ∈ word, isBlank c = false ∧ c ≠ '/' ∧ c ≠ '>'

instance (word : List Char) : Decidable (IsTagWord word) :=
  decidable_of_iff (word.head?.any Char.isAlpha = true ∧ (word.all fun c => !isBlank c && c != '/' && c != '>') = true)
    ⟨fun h => ⟨h.1, by simpa [and_assoc] using h.2⟩, fun h => ⟨h.first, by simpa [and_assoc] using h.chars⟩⟩

theorem IsTagWord.cons {word : List Char} (h : IsTagWord word) : ∃ c cs, word = c :: cs ∧ c.isAlpha = true := by
  obtain ⟨c, hc, alpha⟩ := (Option.any_eq_true _ _).mp h.first
  obtain ⟨cs, eq⟩ := List.head?_eq_some_iff.mp hc
  exact ⟨c, cs, eq, alpha⟩

theorem toLower_of_isUpper_eq_false {c : Char} (h : c.isUpper = false) : c.toLower = c :=
  dif_neg (of_decide_eq_false h)

/-- What such a character is not, and how it is read. -/
theorem of_isNameChar {c : Char} (h : isNameChar c = true) : isBlank c = false ∧ c ≠ '/' ∧ c ≠ '>' ∧ c.toLower = c := by
  simp only [isNameChar, Bool.and_eq_true, Bool.not_eq_true', bne_iff_ne] at h
  obtain ⟨⟨⟨blank, slash⟩, close⟩, upper⟩ := h
  exact ⟨blank, slash, close, toLower_of_isUpper_eq_false upper⟩

/-- Such characters are read as they are. -/
theorem ofList_foldCase {text : String} (h : ∀ c ∈ text.toList, isNameChar c = true) :
    String.ofList (foldCase text.toList) = text := by
  have same : foldCase text.toList = text.toList :=
    (List.map_congr_left fun c hc => (of_isNameChar (h c hc)).2.2.2).trans (List.map_id' _)
  rw [same, String.ofList_toList]

theorem IsTagName.isTagWord {name : String} (h : IsTagName name) : IsTagWord name.toList := by
  refine ⟨?_, fun c hc => ?_⟩
  · obtain ⟨c, hc, lower⟩ := (Option.any_eq_true _ _).mp h.first
    refine (Option.any_eq_true _ _).mpr ⟨c, hc, ?_⟩
    show (c.isUpper || c.isLower) = true
    rw [lower, Bool.or_true]
  · obtain ⟨blank, slash, close, -⟩ := of_isNameChar (h.chars c hc)
    exact ⟨blank, slash, close⟩

namespace Lexer

variable {l l' : Lexer} {c : Char} {rest rest' : List Char} {token : Token} {discarding : Bool} {last : Option String}
  {name : String} {attributes : List Attribute} {a : Attribute}

/-! ## Turns -/

/-- A turn without a token. -/
theorem run_none (h : l.step c rest = ⟨l', none, rest'⟩) (out : Array Token) :
    run l (c :: rest) out = run l' rest' out := by
  rw [run, h]
  simp

/-- A turn with a token. -/
theorem run_some (h : l.step c rest = ⟨l', some token, rest'⟩) (out : Array Token) :
    run l (c :: rest) out = run l' rest' (out.push token) := by
  rw [run, h]
  simp

/-- A state that adds each character to a register, as `f` reads it, reads a whole word. -/
theorem run_word {s : LexerState} (mk : String → Token) (f : Char → Char) :
    ∀ {cs : List Char}, (∀ c ∈ cs, ∀ text rest, step ⟨s, some (mk text), discarding, last⟩ c rest =
      ⟨⟨s, some (mk (text.push (f c))), discarding, last⟩, none, rest⟩) →
    ∀ (text : String) (rest : List Char) (out : Array Token),
      run ⟨s, some (mk text), discarding, last⟩ (cs ++ rest) out =
        run ⟨s, some (mk (text ++ String.ofList (cs.map f))), discarding, last⟩ rest out
  | [], _, text, rest, out => by
    rw [List.nil_append, List.map_nil, String.ofList_nil, String.append_empty]
  | c :: cs, h, text, rest, out => by
    rw [List.cons_append, run_none (h c List.mem_cons_self text _),
      run_word mk f (fun c hc => h c (List.mem_cons_of_mem _ hc)), push_append_ofList, List.map_cons]

/-- The same for a register that is empty at first and takes the characters as they are. -/
theorem run_string {s : LexerState} (mk : String → Token) {word : String} (h : ∀ c ∈ word.toList, ∀ text rest,
      step ⟨s, some (mk text), discarding, last⟩ c rest =
        ⟨⟨s, some (mk (text.push c)), discarding, last⟩, none, rest⟩)
    (rest : List Char) (out : Array Token) :
    run ⟨s, some (mk ""), discarding, last⟩ (word.toList ++ rest) out =
      run ⟨s, some (mk word), discarding, last⟩ rest out := by
  rw [run_word mk id h, List.map_id, String.ofList_toList, String.empty_append]

/-! ## Names -/

/-- The name of a tag is read in lower case, whichever kind of tag it is. -/
theorem run_tagName (mk : String → Token) (hmk : ∀ c text, (mk text).pushName c = mk (text.push c)) {word : List Char}
    (h : IsTagWord word) (rest : List Char) (out : Array Token) :
    run ⟨.tagName, some (mk ""), false, last⟩ (word ++ rest) out =
      run ⟨.tagName, some (mk (String.ofList (foldCase word))), false, last⟩ rest out := by
  rw [run_word mk Char.toLower fun c hc text rest => ?_, String.empty_append, foldCase]
  obtain ⟨blank, slash, close⟩ := h.chars c hc
  simp [step, blank, slash, close, edit, hmk]

/-- A `<` begins markup. -/
theorem step_open (last : Option String) (rest : List Char) :
    step ⟨.data, none, false, last⟩ '<' rest = ⟨⟨.tagOpen, none, false, last⟩, none, rest⟩ := rfl

/-- The name of a start tag is read. -/
theorem run_startTagName {word : List Char} (h : IsTagWord word) (rest : List Char) (out : Array Token) :
    run ⟨.data, none, false, last⟩ ('<' :: (word ++ rest)) out =
      run ⟨.tagName, some (.startTag (String.ofList (foldCase word)) false []), false, last⟩ rest out := by
  have opened : run ⟨.tagOpen, none, false, last⟩ (word ++ rest) out =
      run ⟨.tagName, some (.startTag "" false []), false, last⟩ (word ++ rest) out := by
    obtain ⟨c, cs, rfl, alpha⟩ := h.cons
    have notMark : c ≠ '!' := by rintro rfl; exact absurd alpha (by decide)
    have notSlash : c ≠ '/' := by rintro rfl; exact absurd alpha (by decide)
    exact run_none (by simp [step, alpha, notMark, notSlash, start, Token.emptyStartTag]) out
  rw [run_none (step_open _ _), opened, run_tagName (fun name => .startTag name false []) (fun _ _ => rfl) h]

/-- An end tag without attributes is read behind its bracket. -/
theorem run_endTagName {word : List Char} (h : IsTagWord word) (rest : List Char) (out : Array Token) :
    run ⟨.tagOpen, none, false, last⟩ ('/' :: (word ++ '>' :: rest)) out =
      run ⟨.data, none, false, last⟩ rest (out.push (.endTag (String.ofList (foldCase word)))) := by
  have slash (behind : List Char) : step ⟨.tagOpen, none, false, last⟩ '/' behind =
      ⟨⟨.endTagOpen, none, false, last⟩, none, behind⟩ := rfl
  have opened (behind : List Char) : run ⟨.endTagOpen, none, false, last⟩ (word ++ behind) out =
      run ⟨.tagName, some (.endTag ""), false, last⟩ (word ++ behind) out := by
    obtain ⟨c, cs, rfl, alpha⟩ := h.cons
    exact run_none (by simp [step, alpha, start, Token.emptyEndTag]) out
  have close (name : String) : step ⟨.tagName, some (.endTag name), false, last⟩ '>' rest =
      ⟨⟨.data, none, false, last⟩, some (.endTag name), rest⟩ := by
    simp [step, isBlank, emitTag, closeAttribute, emit]
  rw [run_none (slash _), opened, run_tagName .endTag (fun _ _ => rfl) h, run_some (close _)]

/-! ## Attributes -/

/-- The name of the last attribute is read in lower case. -/
theorem run_attributeName {word : List Char} (h : ∀ c ∈ word, isBlank c = false ∧ c ≠ '/' ∧ c ≠ '>' ∧ c ≠ '=')
    (rest : List Char) (out : Array Token) :
    run ⟨.attributeName, some (.startTag name false (attributes ++ [⟨"", ""⟩])), false, last⟩ (word ++ rest) out =
      run ⟨.attributeName, some (.startTag name false (attributes ++ [⟨String.ofList (foldCase word), ""⟩])), false,
        last⟩ rest out := by
  refine run_word (fun text => .startTag name false (attributes ++ [⟨text, ""⟩])) Char.toLower
    (fun c hc text rest => ?_) "" rest out
  obtain ⟨blank, slash, close, equals⟩ := h c hc
  simp [step, blank, slash, close, equals, edit, Token.pushAttributeName, modifyLast_append]

/-- The value of the last attribute is read up to its quotation mark. -/
theorem run_attributeValue {key text : String} (quote : Quote) (h : quote.char ∉ text.toList) (rest : List Char)
    (out : Array Token) :
    run ⟨.quotedValue quote, some (.startTag name false (attributes ++ [⟨key, ""⟩])), discarding, last⟩
        (text.toList ++ rest) out =
      run ⟨.quotedValue quote, some (.startTag name false (attributes ++ [⟨key, text⟩])), discarding, last⟩ rest
        out := by
  refine run_string (fun text => .startTag name false (attributes ++ [⟨key, text⟩])) (fun c hc text rest => ?_) rest out
  have inside : c ≠ quote.char := fun eq => h (eq ▸ hc)
  simp [step, inside, edit, Token.pushAttributeValue, modifyLast_append]

/-- A name that no other attribute has is no repetition. -/
theorem checkName_eq {s : LexerState} (h : a.name ∉ attributes.map Attribute.name) :
    checkName ⟨s, some (.startTag name false (attributes ++ [a])), false, last⟩ =
      ⟨s, some (.startTag name false (attributes ++ [a])), false, last⟩ := by
  have new : ∀ b ∈ attributes, b.name ≠ a.name := fun b hb eq => h (eq ▸ List.mem_map_of_mem hb)
  simpa [checkName, Token.repeatsName] using new

/-- An attribute is read behind its blank. -/
theorem run_attribute (ha : a.Writable) (new : a.name ∉ attributes.map Attribute.name) (rest : List Char)
    (out : Array Token) :
    run ⟨.beforeAttributeName, some (.startTag name false attributes), false, last⟩
        (a.name.toList ++ '=' :: '"' :: (a.value.toList ++ '"' :: rest)) out =
      run ⟨.afterQuotedValue, some (.startTag name false (attributes ++ [a])), false, last⟩ rest out := by
  have opened {c : Char} {rest : List Char} (blank : isBlank c = false) (slash : c ≠ '/') (close : c ≠ '>') :
      run ⟨.beforeAttributeName, some (.startTag name false attributes), false, last⟩ (c :: rest) out =
      run ⟨.attributeName, some (.startTag name false (attributes ++ [⟨"", ""⟩])), false, last⟩ (c :: rest) out := by
    apply run_none
    simp [step, blank, slash, close, goto, openAttribute, closeAttribute, edit, Token.addAttribute]
  -- the name may be empty, and then its attribute begins with the sign behind it
  have first : run ⟨.beforeAttributeName, some (.startTag name false attributes), false, last⟩
      (a.name.toList ++ '=' :: '"' :: (a.value.toList ++ '"' :: rest)) out =
      run ⟨.attributeName, some (.startTag name false (attributes ++ [⟨"", ""⟩])), false, last⟩
      (a.name.toList ++ '=' :: '"' :: (a.value.toList ++ '"' :: rest)) out := by
    cases hname : a.name.toList with
    | nil => exact opened (by decide) (by decide) (by decide)
    | cons c cs =>
      obtain ⟨blank, slash, close, -⟩ :=
        of_isNameChar (ha.name_chars c (by rw [hname]; exact List.mem_cons_self)).1
      exact opened blank slash close
  have equals (rest : List Char) :
      step ⟨.attributeName, some (.startTag name false (attributes ++ [⟨a.name, ""⟩])), false, last⟩ '=' rest =
        ⟨⟨.beforeAttributeValue, some (.startTag name false (attributes ++ [⟨a.name, ""⟩])), false, last⟩, none,
          rest⟩ := by
    simp [step, isBlank, goto, checkName_eq (a := ⟨a.name, ""⟩) new]
  have quote (rest : List Char) :
      step ⟨.beforeAttributeValue, some (.startTag name false (attributes ++ [⟨a.name, ""⟩])), false, last⟩ '"' rest =
        ⟨⟨.quotedValue .double, some (.startTag name false (attributes ++ [⟨a.name, ""⟩])), false, last⟩, none,
          rest⟩ := by
    simp [step, isBlank, goto]
  have unquote : step ⟨.quotedValue .double, some (.startTag name false (attributes ++ [a])), false, last⟩ '"' rest =
      ⟨⟨.afterQuotedValue, some (.startTag name false (attributes ++ [a])), false, last⟩, none, rest⟩ := by
    simp [step, Quote.char, goto]
  have chars : ∀ c ∈ a.name.toList, isBlank c = false ∧ c ≠ '/' ∧ c ≠ '>' ∧ c ≠ '=' := fun c hc => by
    obtain ⟨blank, slash, close, -⟩ := of_isNameChar (ha.name_chars c hc).1
    exact ⟨blank, slash, close, (ha.name_chars c hc).2⟩
  rw [first, run_attributeName chars, ofList_foldCase fun c hc => (ha.name_chars c hc).1, run_none (equals _),
    run_none (quote _), run_attributeValue .double ha.value_chars, run_none unquote]

/-- Behind the name of a tag and behind a value in quotation marks, a blank leads to an attribute. -/
def EndsWord (s : LexerState) : Prop := s = .tagName ∨ s = .afterQuotedValue

theorem step_blank {s : LexerState} (h : EndsWord s) (token : Token) (rest : List Char) :
    step ⟨s, some token, false, last⟩ ' ' rest = ⟨⟨.beforeAttributeName, some token, false, last⟩, none, rest⟩ := by
  rcases h with rfl | rfl <;> simp [step, isBlank, goto]

/-- All attributes of a tag are read. -/
theorem run_attributes : ∀ {attributes : List Attribute} (read : List Attribute) {s : LexerState}, EndsWord s →
    ((read ++ attributes).map Attribute.name).Nodup → (∀ a ∈ attributes, a.Writable) →
    ∀ (rest : List Char) (out : Array Token), ∃ s', EndsWord s' ∧
      run ⟨s, some (.startTag name false read), false, last⟩
          ((String.join (attributes.map Attribute.markup)).toList ++ rest) out =
        run ⟨s', some (.startTag name false (read ++ attributes)), false, last⟩ rest out
  | [], read, s, hs, _, _, rest, out => ⟨s, hs, by simp⟩
  | a :: attributes, read, s, hs, nodup, h, rest, out => by
    rw [List.append_cons] at nodup
    obtain ⟨s', hs', ih⟩ := run_attributes (read ++ [a]) (.inr rfl : EndsWord .afterQuotedValue) nodup
      (fun b hb => h b (List.mem_cons_of_mem _ hb)) rest out
    refine ⟨s', hs', ?_⟩
    have new : a.name ∉ read.map Attribute.name := by
      rw [List.map_append, List.map_append] at nodup
      have apart := (List.nodup_append.mp (List.nodup_append.mp nodup).1).2.2
      exact fun mem => apart _ mem _ List.mem_cons_self rfl
    have text : (String.join ((a :: attributes).map Attribute.markup)).toList ++ rest =
        ' ' :: (a.name.toList ++ '=' :: '"' :: (a.value.toList ++ '"' ::
          ((String.join (attributes.map Attribute.markup)).toList ++ rest))) := by
      simp [Attribute.markup]
    rw [text, run_none (step_blank hs _ _), run_attribute (h a List.mem_cons_self) new, ih, ← List.append_cons]

/-! ## Tokens -/

/-- A finished start tag is handed out. -/
theorem emitTag_startTag {s : LexerState} (h : isRawTextName name = false) (selfClosing : Bool)
    (attributes : List Attribute) (rest : List Char) :
    emitTag ⟨s, some (.startTag name selfClosing attributes), false, last⟩ rest =
      ⟨⟨.data, none, false, some name⟩, some (.startTag name selfClosing attributes), rest⟩ := by
  simp [emitTag, closeAttribute, emit, h]

/-- A tag ends, with or without a slash. -/
theorem run_tagEnd {s : LexerState} (hs : EndsWord s) (h : isRawTextName name = false) (selfClosing : Bool)
    (rest : List Char) (out : Array Token) :
    run ⟨s, some (.startTag name false attributes), false, last⟩
        ((if selfClosing then "/" else "").toList ++ '>' :: rest) out =
      run ⟨.data, none, false, some name⟩ rest (out.push (.startTag name selfClosing attributes)) := by
  cases selfClosing with
  | false =>
    apply run_some
    rcases hs with rfl | rfl <;> simp [step, isBlank, emitTag_startTag h]
  | true =>
    have slash : step ⟨s, some (.startTag name false attributes), false, last⟩ '/' ('>' :: rest) =
        ⟨⟨.selfClosing, some (.startTag name false attributes), false, last⟩, none, '>' :: rest⟩ := by
      rcases hs with rfl | rfl <;> simp [step, isBlank, goto]
    have close : step ⟨.selfClosing, some (.startTag name false attributes), false, last⟩ '>' rest =
        ⟨⟨.data, none, false, some name⟩, some (.startTag name true attributes), rest⟩ := by
      simp [step, edit, Token.markSelfClosing, emitTag_startTag h]
    show run _ ('/' :: '>' :: rest) out = _
    rw [run_none slash, run_some close]

theorem run_startTag (hname : IsTagName name) (raw : isRawTextName name = false)
    (nodup : (attributes.map Attribute.name).Nodup) (h : ∀ a ∈ attributes, a.Writable) (selfClosing : Bool)
    (rest : List Char) (out : Array Token) :
    run ⟨.data, none, false, last⟩ ((Token.startTag name selfClosing attributes).markup.toList ++ rest) out =
      run ⟨.data, none, false, some name⟩ rest (out.push (.startTag name selfClosing attributes)) := by
  have text : (Token.startTag name selfClosing attributes).markup.toList ++ rest =
      '<' :: (name.toList ++ ((String.join (attributes.map Attribute.markup)).toList ++
        ((if selfClosing then "/" else "").toList ++ '>' :: rest))) := by
    simp [Token.markup]
  obtain ⟨s, hs, read⟩ : ∃ s, EndsWord s ∧ run ⟨.tagName, some (.startTag name false []), false, last⟩
      ((String.join (attributes.map Attribute.markup)).toList ++
        ((if selfClosing then "/" else "").toList ++ '>' :: rest)) out =
      run ⟨s, some (.startTag name false attributes), false, last⟩
        ((if selfClosing then "/" else "").toList ++ '>' :: rest) out :=
    run_attributes [] (.inl rfl) nodup h _ out
  rw [text, run_startTagName hname.isTagWord, ofList_foldCase hname.chars, read, run_tagEnd hs raw]

theorem run_endTag (hname : IsTagName name) (rest : List Char) (out : Array Token) :
    run ⟨.data, none, false, last⟩ ((Token.endTag name).markup.toList ++ rest) out =
      run ⟨.data, none, false, last⟩ rest (out.push (.endTag name)) := by
  have text : (Token.endTag name).markup.toList ++ rest = '<' :: '/' :: (name.toList ++ '>' :: rest) := by
    simp [Token.markup]
  rw [text, run_none (step_open _ _), run_endTagName hname.isTagWord, ofList_foldCase hname.chars]

/-- The data of a comment is read up to its end. -/
theorem run_commentData : ∀ {cs : List Char}, ¬ ['-', '-', '>'] <:+: cs →
    ∀ (data : String) (rest : List Char) (out : Array Token),
      run ⟨.comment, some (.comment data), false, last⟩ (cs ++ '-' :: '-' :: '>' :: rest) out =
        run ⟨.data, none, false, last⟩ rest (out.push (.comment (data ++ String.ofList cs)))
  | [], _, data, rest, out => by
    rw [List.nil_append, String.ofList_nil, String.append_empty]
    exact run_some (by simp [step, emit]) out
  | c :: cs, h, data, rest, out => by
    have inside : step ⟨.comment, some (.comment data), false, last⟩ c (cs ++ '-' :: '-' :: '>' :: rest) =
        ⟨⟨.comment, some (.comment (data.push c)), false, last⟩, none, cs ++ '-' :: '-' :: '>' :: rest⟩ := by
      -- the end of the comment is not in the data, and it does not begin there either
      unfold step
      dsimp only
      split
      · rename_i behind eq
        rcases cs with _ | ⟨d, _ | ⟨e, cs⟩⟩
        · simp at eq
        · simp at eq
        · simp only [List.cons_append, List.cons.injEq] at eq
          obtain ⟨rfl, rfl, -⟩ := eq
          exact absurd ⟨[], cs, rfl⟩ h
      · rfl
    rw [List.cons_append, run_none inside, run_commentData (fun mem => h (mem.trans (List.infix_cons List.infix_rfl))),
      push_append_ofList]

theorem run_comment {data : String} (h : ¬ "-->".toList <:+: data.toList) (rest : List Char) (out : Array Token) :
    run ⟨.data, none, false, last⟩ ((Token.comment data).markup.toList ++ rest) out =
      run ⟨.data, none, false, last⟩ rest (out.push (.comment data)) := by
  have text : (Token.comment data).markup.toList ++ rest =
      '<' :: '!' :: '-' :: '-' :: (data.toList ++ '-' :: '-' :: '>' :: rest) := by
    simp [Token.markup]
  have opened (behind : List Char) : run ⟨.data, none, false, last⟩ ('<' :: '!' :: '-' :: '-' :: behind) out =
      run ⟨.comment, some (.comment ""), false, last⟩ behind out := by
    rw [run_none (step_open _ _)]
    have mark : step ⟨.tagOpen, none, false, last⟩ '!' ('-' :: '-' :: behind) =
        ⟨⟨.comment, some (.comment ""), false, last⟩, none, behind⟩ := rfl
    exact run_none mark out
  rw [text, opened, run_commentData h, String.ofList_toList, String.empty_append]

/-- **What is written is read.** Only the name of the last start tag is left behind. -/
theorem run_markup (h : token.Writable) (last : Option String) (rest : List Char) (out : Array Token) :
    ∃ last', run ⟨.data, none, false, last⟩ (token.markup.toList ++ rest) out =
      run ⟨.data, none, false, last'⟩ rest (out.push token) := by
  cases token with
  | startTag name selfClosing attributes =>
    obtain ⟨hname, raw, nodup, writable⟩ := h
    exact ⟨some name, run_startTag hname raw nodup writable selfClosing rest out⟩
  | endTag name => exact ⟨last, run_endTag h rest out⟩
  | comment data => exact ⟨last, run_comment h rest out⟩
  | character c =>
    have plain : c ≠ '<' := h
    refine ⟨last, ?_⟩
    rw [Token.markup, String.toList_singleton]
    exact run_some (by simp [step, plain]) out
  | endOfFile => exact h.elim

/-- **A sequence of tokens is read as it is written.** -/
theorem run_markups : ∀ {tokens : List Token}, (∀ token ∈ tokens, token.Writable) →
    ∀ (last : Option String) (rest : List Char) (out : Array Token),
    ∃ last', run ⟨.data, none, false, last⟩ (tokens.flatMap (·.markup.toList) ++ rest) out =
      run ⟨.data, none, false, last'⟩ rest (out ++ tokens.toArray)
  | [], _, last, rest, out => ⟨last, by simp⟩
  | token :: tokens, h, last, rest, out => by
    obtain ⟨last', first⟩ :=
      run_markup (h token List.mem_cons_self) last (tokens.flatMap (·.markup.toList) ++ rest) out
    obtain ⟨last'', others⟩ :=
      run_markups (fun t ht => h t (List.mem_cons_of_mem _ ht)) last' rest (out.push token)
    refine ⟨last'', ?_⟩
    rw [List.flatMap_cons, List.append_assoc, first, others]
    simp

end Lexer

/-! ## Texts -/

variable {tokens : List Token}

/-- A text that is the markup of tokens is read as these tokens. -/
theorem tokenize_eq_append {s : String} (h : ∀ token ∈ tokens, token.Writable)
    (text : s.toList = tokens.flatMap (·.markup.toList)) : tokenize s = tokens ++ [.endOfFile] := by
  obtain ⟨last, read⟩ := Lexer.run_markups h none [] #[]
  rw [List.append_nil, Lexer.run, Array.empty_append] at read
  rw [tokenize, text, read]
  show tokens ++ [] ++ [.endOfFile] = _
  rw [List.append_nil]

/-- **Tokens that are written down are read again,** and behind them the end of the text. -/
theorem tokenize_join_markup (h : ∀ token ∈ tokens, token.Writable) :
    tokenize (String.join (tokens.map Token.markup)) = tokens ++ [.endOfFile] := by
  refine tokenize_eq_append h ?_
  rw [String.toList_join, List.flatMap_map]

/-- Tokens with angle brackets, slashes and dashes where these do not end what is being read. -/
def Token.brackets : List Token :=
  [.startTag "a<-" true [⟨"\"", "<a/>"⟩, ⟨"", "-->"⟩], .comment "-<!--", .character '>', .endTag "a\""]

theorem tokenize_join_markup_brackets :
    String.join (Token.brackets.map Token.markup) = "<a<- \"=\"<a/>\" =\"-->\"/><!---<!---->></a\">" ∧
    tokenize (String.join (Token.brackets.map Token.markup)) = Token.brackets ++ [.endOfFile] :=
  ⟨by decide, tokenize_join_markup (by decide)⟩

end HtmlQuery
