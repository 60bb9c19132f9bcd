import HtmlQuery.Proofs.Markup.RawText
import HtmlQuery.Proofs.Markup.StartTags

/-!
# The contents of raw text elements

Raw text ends at the first end tag of its own element. Everything before that is text: other tags, end tags whose name
is longer or shorter, and a part of the end tag itself directly in front of the whole. Behind the end tag the text is
read as if it stood alone.

* `HoldsEndTag` — what must not stand in raw text;
* `Lexer.run_rawText` — raw text without it is read as its characters;
* `tokenize_rawTextElement` — the tokens of a raw text element and of the text behind it.
-/

namespace HtmlQuery

open Text

/-! ## End tags in a text -/

/-- Somewhere in the text an end tag of the given name begins: its name, in any case of its letters, stands behind `</`
and in front of a character that ends it. -/
def HoldsEndTag (name : String) (cs : List Char) : Prop :=
  ∃ word c, foldCase word = foldCase name.toList ∧ (isBlank c = true ∨ c = '/' ∨ c = '>') ∧
    '<' :: '/' :: (word ++ [c]) <:+: cs

/-- Whether the text begins with such an end tag. -/
def beginsEndTag (name : String) : List Char → Bool
  | '<' :: '/' :: cs =>
    match dropWord? name.toList cs with
    | some (c :: _) => isBlank c || c == '/' || c == '>'
    | _ => false
  | _ => false

variable {name : String} {word body : List Char}

theorem beginsEndTag_iff {cs : List Char} : beginsEndTag name cs = true ↔
    ∃ word c, foldCase word = foldCase name.toList ∧ (isBlank c = true ∨ c = '/' ∨ c = '>') ∧
      '<' :: '/' :: (word ++ [c]) <+: cs := by
  constructor
  · intro begins
    unfold beginsEndTag at begins
    split at begins
    case h_1 cs =>
      split at begins
      case h_1 c rest there =>
        obtain ⟨word, same, rfl⟩ := dropWord?_eq_some_iff.mp there
        refine ⟨word, c, same, ?_, rest, by simp⟩
        simpa [or_assoc, or_comm, or_left_comm] using begins
      case h_2 => cases begins
    case h_2 => cases begins
  · rintro ⟨word, c, same, stop, rest, rfl⟩
    have there : dropWord? name.toList (word ++ c :: rest) = some (c :: rest) :=
      dropWord?_eq_some_iff.mpr ⟨word, same, rfl⟩
    simpa [beginsEndTag, there, or_assoc] using stop

theorem holdsEndTag_iff {cs : List Char} : HoldsEndTag name cs ↔ cs.tails.any (beginsEndTag name) = true := by
  simp only [HoldsEndTag, List.any_eq_true, beginsEndTag_iff, List.infix_iff_prefix_suffix, List.mem_tails]
  constructor
  · rintro ⟨word, c, same, stop, t, begins, ends⟩
    exact ⟨t, ends, word, c, same, stop, begins⟩
  · rintro ⟨t, ends, word, c, same, stop, begins⟩
    exact ⟨word, c, same, stop, t, begins, ends⟩

instance (name : String) (cs : List Char) : Decidable (HoldsEndTag name cs) := decidable_of_iff _ holdsEndTag_iff.symm

theorem HoldsEndTag.cons (h : HoldsEndTag name body) (c : Char) : HoldsEndTag name (c :: body) := by
  obtain ⟨word, d, same, stop, inside⟩ := h
  exact ⟨word, d, same, stop, List.infix_cons inside⟩

theorem foldCase_of_isRawTextName (raw : isRawTextName name = true) : foldCase name.toList = name.toList :=
  (List.map_congr_left fun c hc => (isLower_of_isRawTextName raw c hc).2).trans (List.map_id' _)

/-- The spellings of the name of a raw text element are made of letters. -/
theorem isLower_of_foldCase_eq (raw : isRawTextName name = true) (same : foldCase word = foldCase name.toList) :
    ∀ c ∈ word, c.toLower.isLower = true := by
  intro c hc
  refine isLower_of_mem_foldCase raw ?_
  rw [← same]
  exact List.mem_map_of_mem hc

theorem isTagWord_of_foldCase_eq (raw : isRawTextName name = true) (same : foldCase word = foldCase name.toList) :
    IsTagWord word := by
  have letters := isLower_of_foldCase_eq raw same
  refine ⟨?_, fun c hc => ?_⟩
  · cases word with
    | nil =>
      have nothing : name.toList = [] := List.map_eq_nil_iff.mp same.symm
      rw [String.toList_eq_nil_iff.mp nothing] at raw
      exact absurd raw (by decide)
    | cons c word => exact (of_isLower_toLower (letters c List.mem_cons_self)).1
  · obtain ⟨-, blank, slash, close, -⟩ := of_isLower_toLower (letters c hc)
    exact ⟨blank, slash, close⟩

namespace Lexer

variable {behind : List Char} {last : Option String}

/-! ## Raw text -/

/-- A `<` in raw text is text if the end tag does not begin with it. A part of the end tag in front of another `<` is no
end tag, for the name is made of letters. -/
theorem endTagFollows_eq_false (raw : isRawTextName name = true) (h : ¬ HoldsEndTag name ('<' :: body))
    (behind : List Char) : endTagFollows ⟨.rawText, none, false, some name⟩ (body ++ '<' :: behind) = false := by
  by_contra follows
  rw [Bool.not_eq_false] at follows
  obtain ⟨cs, text, more, word, stop⟩ := nameFollows_of_endTagFollows follows
  obtain ⟨front, same, rfl⟩ := dropWord?_eq_some_iff.mp word
  have noTag : '<' ∉ front := fun mem => (of_isLower_toLower (isLower_of_foldCase_eq raw same _ mem)).2.2.2.2 rfl
  have noStop : more ≠ '<' :: behind := fun eq => absurd (stop '<' (by rw [eq]; rfl)) (by decide)
  cases body with
  | nil => exact absurd (List.cons.inj text).1 (by decide)
  | cons c body =>
    rw [List.cons_append] at text
    obtain ⟨rfl, tail⟩ := List.cons.inj text
    rcases List.append_eq_append_iff.mp tail with ⟨middle, rfl, eq⟩ | ⟨middle, rfl, rfl⟩
    -- the name does not reach beyond the text
    · cases middle with
      | nil => exact noStop eq.symm
      | cons d middle =>
        obtain ⟨rfl, -⟩ := List.cons.inj eq
        exact noTag (List.mem_append_right _ List.mem_cons_self)
    -- neither does the character behind it
    · cases middle with
      | nil => exact noStop rfl
      | cons d middle =>
        refine h ⟨front, d, same, stop d rfl, List.IsPrefix.isInfix ⟨middle, ?_⟩⟩
        simp

/-- **Raw text is read as its characters** up to its end tag. -/
theorem run_rawText (raw : isRawTextName name = true) (behind : List Char) : ∀ {body : List Char},
    ¬ HoldsEndTag name body → ∀ out : Array Token,
    run ⟨.rawText, none, false, some name⟩ (body ++ '<' :: behind) out =
      run ⟨.rawText, none, false, some name⟩ ('<' :: behind) (out ++ (body.map Token.character).toArray)
  | [], _, out => by simp
  | c :: body, h, out => by
    have text : step ⟨.rawText, none, false, some name⟩ c (body ++ '<' :: behind) =
        ⟨⟨.rawText, none, false, some name⟩, some (.character c), body ++ '<' :: behind⟩ := by
      refine if_neg ?_
      rintro ⟨rfl, follows⟩
      exact Bool.false_ne_true ((endTagFollows_eq_false raw h behind).symm.trans follows)
    rw [List.cons_append, run_some text, run_rawText raw behind fun inside => h (inside.cons c)]
    simp

/-- The end tag of raw text is read in any case of its letters. -/
theorem run_rawTextEnd (raw : isRawTextName name = true) (same : foldCase word = foldCase name.toList)
    (behind : List Char) (out : Array Token) :
    run ⟨.rawText, none, false, some name⟩ ('<' :: '/' :: (word ++ '>' :: behind)) out =
      run ⟨.data, none, false, some name⟩ behind (out.push (.endTag name)) := by
  have follows : endTagFollows ⟨.rawText, none, false, some name⟩ ('/' :: (word ++ '>' :: behind)) = true := by
    have there : dropWord? name.toList (word ++ '>' :: behind) = some ('>' :: behind) :=
      dropWord?_eq_some_iff.mpr ⟨word, same, rfl⟩
    simp [endTagFollows, there]
  have opens : step ⟨.rawText, none, false, some name⟩ '<' ('/' :: (word ++ '>' :: behind)) =
      ⟨⟨.tagOpen, none, false, some name⟩, none, '/' :: (word ++ '>' :: behind)⟩ := if_pos ⟨rfl, follows⟩
  rw [run_none opens, run_endTagName (isTagWord_of_foldCase_eq raw same), same, foldCase_of_isRawTextName raw,
    String.ofList_toList]

/-- The start tag of raw text is read in any case of its letters. -/
theorem run_rawTextStart (raw : isRawTextName name = true) (same : foldCase word = foldCase name.toList)
    (behind : List Char) (out : Array Token) :
    run ⟨.data, none, false, last⟩ ('<' :: (word ++ '>' :: behind)) out =
      run ⟨.rawText, none, false, some name⟩ behind (out.push (.startTag name false [])) := by
  have read := run_startTagForm (isTagWord_of_foldCase_eq raw same) .nil (nofun : AllBlank []) last behind out
  rw [same, foldCase_of_isRawTextName raw, String.ofList_toList, if_pos raw] at read
  exact read

end Lexer

/-! ## Texts -/

/-- **A raw text element** holds the text up to the first end tag of its name, and the text behind is read as if it
stood alone. -/
theorem tokenize_rawTextElement {name opening closing body rest : String} (raw : isRawTextName name = true)
    (ho : sameIgnoringCase opening name = true) (hc : sameIgnoringCase closing name = true)
    (hb : ¬ HoldsEndTag name body.toList) :
    tokenize ("<" ++ opening ++ ">" ++ body ++ "</" ++ closing ++ ">" ++ rest) =
      .startTag name false [] :: (body.toList.map .character ++ .endTag name :: tokenize rest) := by
  have text : ("<" ++ opening ++ ">" ++ body ++ "</" ++ closing ++ ">" ++ rest).toList =
      '<' :: (opening.toList ++ '>' :: (body.toList ++ '<' :: '/' :: (closing.toList ++ '>' :: rest.toList))) := by
    simp
  have read : Lexer.run {} ('<' :: (opening.toList ++ '>' :: (body.toList ++ '<' :: '/' ::
      (closing.toList ++ '>' :: rest.toList)))) #[] = _ := Lexer.run_rawTextStart raw (eq_of_beq ho) _ _
  rw [Lexer.run_rawText raw _ hb, Lexer.run_rawTextEnd raw (eq_of_beq hc)] at read
  -- only the name of the start tag is left, and that is of no use any more
  have alike : Lexer.Alike {} ⟨.data, none, false, some name⟩ := ⟨rfl, rfl, rfl, nofun⟩
  rw [tokenize_eq_tokens, text, Lexer.tokens_of_run read, alike.tokens, tokenize_eq_tokens]
  simp

/-- End tags that are too long or too short, and a part of one in front of the whole. -/
theorem tokenize_rawTextElement_title :
    isRawTextName "title" = true ∧ sameIgnoringCase "TITLE" "title" = true ∧ sameIgnoringCase "tiTle" "title" = true ∧
    ¬ HoldsEndTag "title" "a<b></titles></titl></title".toList ∧
    tokenize "<TITLE>a<b></titles></titl></title</tiTle><b>" =
      .startTag "title" false [] ::
        ("a<b></titles></titl></title".toList.map .character ++ .endTag "title" :: tokenize "<b>") := by
  have raw : isRawTextName "title" = true := by decide
  have opening : sameIgnoringCase "TITLE" "title" = true := by decide
  have closing : sameIgnoringCase "tiTle" "title" = true := by decide
  have body : ¬ HoldsEndTag "title" "a<b></titles></titl></title".toList := by decide
  have text : "<" ++ "TITLE" ++ ">" ++ "a<b></titles></titl></title" ++ "</" ++ "tiTle" ++ ">" ++ "<b>" =
      "<TITLE>a<b></titles></titl></title</tiTle><b>" := by decide
  refine ⟨raw, opening, closing, body, ?_⟩
  rw [← text]
  exact tokenize_rawTextElement raw opening closing body

end HtmlQuery
