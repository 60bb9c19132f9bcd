import HtmlQuery.Proofs.Markup.ElementShapes
import HtmlQuery.Proofs.Markup.StartTags
import HtmlQuery.Tree.Outline

/-!
# The start tags of elements

The start tag of an element is written with its attributes in the order of their names. A value stands between quotation
marks behind a `=`, and an empty value is left out with its `=`. Read again, it is the start tag of the same element. Two
things can get lost on the way: a value ends at a quotation mark in it, and without a `=` nothing is left of an attribute
that has no name. An attribute without a name comes first. So what stands in front of its `=` is the name of the tag, and
never an attribute that would take its value.

* `Attribute.printed`, `Element.attributeList` — an attribute in a start tag, and the attributes of an element;
* `attributesForm_printed` — attributes with names are written as they can be read;
* `Lexer.run_printed` — the attributes of a tag are read, with or without a first one that has no name;
* `Element.IsShaped.tokenize_printed`, `Tree.tokenize_startTag_parse` — the start tags of elements.
-/

namespace HtmlQuery

open Text

/-! ## Attributes -/

/-- An attribute in the start tag of an element. -/
def Attribute.printed (a : Attribute) : String := attributeText a.name a.value

theorem Attribute.printed_of_value_eq_empty {a : Attribute} (h : a.value = "") : a.printed = " " ++ a.name := by
  rw [printed, attributeText, if_pos (String.isEmpty_iff.mpr h)]

theorem Attribute.toList_printed_of_value_ne_empty {a : Attribute} (h : a.value ≠ "") :
    a.printed.toList = ' ' :: (a.name.toList ++ '=' :: '"' :: (a.value.toList ++ ['"'])) := by
  rw [printed, attributeText, if_neg fun empty => h (String.isEmpty_iff.mp empty)]
  simp

/-- With a name, an attribute is written as it can be read. -/
theorem Attribute.Writable.exists_hasForm {a : Attribute} (h : a.Writable) (named : a.name ≠ "") :
    ∃ form, a.HasForm form ∧ a.printed.toList = ' ' :: form := by
  have word : IsAttributeWord a.name.toList := by
    refine ⟨fun nothing => named (String.toList_eq_nil_iff.mp nothing), fun c hc => ?_⟩
    obtain ⟨name, equals⟩ := h.name_chars c hc
    obtain ⟨blank, slash, close, -⟩ := of_isNameChar name
    exact ⟨blank, slash, close, equals⟩
  have same : String.ofList (foldCase a.name.toList) = a.name := ofList_foldCase fun c hc => (h.name_chars c hc).1
  obtain ⟨name, value⟩ := a
  by_cases empty : value = ""
  · subst empty
    refine ⟨name.toList, ?_, by rw [printed_of_value_eq_empty rfl]; simp⟩
    have bare := HasForm.name word
    rwa [same] at bare
  · refine ⟨name.toList ++ ([] ++ '=' :: ([] ++ '"' :: (value.toList ++ ['"']))), ?_,
      toList_printed_of_value_ne_empty empty⟩
    have nothing : AllBlank [] := nofun
    have quoted := HasForm.value word nothing nothing (.quoted .double h.value_chars)
    rwa [same] at quoted

/-- So are all of them. -/
theorem attributesForm_printed : ∀ {attributes : List Attribute}, (∀ a ∈ attributes, a.Writable ∧ a.name ≠ "") →
    AttributesForm attributes (String.join (attributes.map Attribute.printed)).toList
  | [], _ => .nil
  | a :: attributes, h => by
    obtain ⟨⟨writable, named⟩, others⟩ := List.forall_mem_cons.mp h
    obtain ⟨form, hasForm, text⟩ := writable.exists_hasForm named
    have blank : AllBlank [' '] := by decide
    rw [List.map_cons, String.join_cons, String.toList_append, text]
    exact .cons blank (List.cons_ne_nil _ _) hasForm (attributesForm_printed others)

/-! ## Elements -/

/-- The attributes of an element, in the order of their names. -/
def Element.attributeList (e : Element) : List Attribute := e.attributes.toList.map fun entry => ⟨entry.1, entry.2⟩

namespace Element

variable {e : Element} {a : Attribute}

theorem mem_attributeList : a ∈ e.attributeList ↔ e.attribute? a.name = some a.value := by
  rw [attribute?, ← Attributes.mem_toList, attributeList, List.mem_map]
  constructor
  · rintro ⟨entry, mem, rfl⟩
    exact mem
  · exact fun mem => ⟨(a.name, a.value), mem, rfl⟩

theorem pairwise_attributeList (e : Element) : e.attributeList.Pairwise fun a b => a.name < b.name :=
  List.pairwise_map.mpr e.attributes.sorted

theorem nodup_attributeList (e : Element) : (e.attributeList.map Attribute.name).Nodup :=
  List.pairwise_map.mpr (e.pairwise_attributeList.imp fun lt => String.ne_of_lt lt)

/-- Only the first attribute can be without a name. -/
theorem name_ne_empty_of_mem_tail (h : a ∈ e.attributeList.tail) : a.name ≠ "" := by
  have ordered := e.pairwise_attributeList
  cases attributes : e.attributeList with
  | nil =>
    rw [attributes] at h
    cases h
  | cons first others =>
    rw [attributes] at h ordered
    intro none
    have lt : first.name < "" := none ▸ (List.pairwise_cons.mp ordered).1 a h
    exact absurd lt (List.not_lt_nil _)

theorem startTag_eq (e : Element) :
    e.startTag = "<" ++ e.tag ++ String.join (e.attributeList.map Attribute.printed) ++ ">" := by
  rw [startTag, attributeList, List.map_map]
  rfl

end Element

/-! ## Reading -/

namespace Lexer

variable {name : String} {attributes : List Attribute} {rest : List Char}

/-- **The attributes of a start tag are read** behind the name of the tag. The first may begin with its `=`. -/
theorem run_printed (writable : ∀ a ∈ attributes, a.Writable) (marked : ⟨"", ""⟩ ∉ attributes)
    (named : ∀ a ∈ attributes.tail, a.name ≠ "") (last : Option String) (ends : AttributeEnds rest)
    (out : Array Token) :
    ∃ l' : Lexer, l'.Holds name attributes ∧ l'.state.endsAttribute = true ∧
      run ⟨.tagName, some (.startTag name false []), false, last⟩
          ((String.join (attributes.map Attribute.printed)).toList ++ rest) out = run l' rest out := by
  have start : Holds ⟨.tagName, some (.startTag name false []), false, last⟩ name [] := rfl
  cases attributes with
  | nil => exact ⟨_, start, rfl, rfl⟩
  | cons a attributes =>
    obtain ⟨first, others⟩ := List.forall_mem_cons.mp writable
    by_cases nameless : a.name = ""
    · -- the written forms have a name, since behind another attribute this `=` would be read as that one's
      have valued : a.value ≠ "" := fun empty =>
        marked (List.mem_cons.mpr (.inl (congrArg₂ Attribute.mk nameless empty).symm))
      have form := attributesForm_printed fun b hb => ⟨others b hb, named b hb⟩
      have holds : Holds ⟨.afterQuotedValue, some (.startTag name false [a]), false, last⟩ name [a] := rfl
      obtain ⟨l', holds', ends', read⟩ := run_attributesForm form holds rfl ends out
      have new : a.name ∉ [].map Attribute.name := List.not_mem_nil
      refine ⟨l', holds', ends', ?_⟩
      rw [List.map_cons, String.join_cons, String.toList_append, Attribute.toList_printed_of_value_ne_empty valued,
        ← read]
      simpa using (run_none (step_blank (.inl rfl) _ _) out).trans (run_attribute first new _ out)
    · have form := attributesForm_printed (List.forall_mem_cons.mpr ⟨⟨first, nameless⟩,
        fun b hb => ⟨others b hb, named b hb⟩⟩)
      exact run_attributesForm form start rfl ends out

end Lexer

/-- The start tag of an element with such names is its token. -/
theorem Element.IsShaped.tokenize_printed {e : Element} (h : e.IsShaped)
    (unquoted : ∀ name value, e.attribute? name = some value → '"' ∉ value.toList) (marked : e.attribute? "" ≠ some "") :
    tokenize e.startTag = [.startTag e.tag false e.attributeList, .endOfFile] := by
  have writable : ∀ a ∈ e.attributeList, a.Writable := by
    intro a mem
    have value := mem_attributeList.mp mem
    exact ⟨h.named a.name a.value value, unquoted a.name a.value value⟩
  have text : e.startTag.toList =
      '<' :: (e.tag.toList ++ ((String.join (e.attributeList.map Attribute.printed)).toList ++ ['>'])) := by
    rw [startTag_eq]
    simp
  have behind : AttributeEnds ['>'] := ⟨'>', [], rfl, .inr rfl⟩
  obtain ⟨l, holds, ends, read⟩ := Lexer.run_printed writable (fun mem => marked (mem_attributeList.mp mem))
    (fun _ => name_ne_empty_of_mem_tail) none behind #[]
  have whole : Lexer.run {} ('<' :: (e.tag.toList ++
        ((String.join (e.attributeList.map Attribute.printed)).toList ++ ['>']))) #[] =
      Lexer.run ⟨if isRawTextName e.tag then .rawText else .data, none, false, some e.tag⟩ []
        #[.startTag e.tag false e.attributeList] := by
    rw [Lexer.run_startTagName h.tag.isTagWord, ofList_foldCase h.tag.chars, read, Lexer.run_close holds ends,
      firstOfEachName_of_nodup e.nodup_attributeList]
    rfl
  rw [tokenize_eq_tokens, text, Lexer.tokens_of_run whole, Lexer.tokens_nil]
  split <;> rfl

/-- **The start tags of a document are read as they are written.** Whatever the text, the start tag of an element of its
document is a single token, with the name of the element and with its attributes in the order of their names, unless a
value has a quotation mark or an attribute has neither a name nor a value. -/
theorem Tree.tokenize_startTag_parse (html : String) {id : NodeId} {e : Element} (h : (parse html).element? id = some e)
    (unquoted : ∀ name value, e.attribute? name = some value → '"' ∉ value.toList) (marked : e.attribute? "" ≠ some "") :
    tokenize e.startTag = [.startTag e.tag false e.attributeList, .endOfFile] ∧
    e.attributeList.Pairwise (fun a b => a.name < b.name) ∧
    ∀ a, a ∈ e.attributeList ↔ e.attribute? a.name = some a.value :=
  ⟨(isShaped_parse html id e h).tokenize_printed unquoted marked, e.pairwise_attributeList,
    fun _ => Element.mem_attributeList⟩

/-- An attribute without a name, one without a value, and a name with a quotation mark. -/
theorem Tree.tokenize_startTag_quirks :
    ∃ e, (parse "<A =v d\"=1 b>").element? 4 = some e ∧
      (∀ name value, e.attribute? name = some value → '"' ∉ value.toList) ∧ e.attribute? "" ≠ some "" ∧
      e.startTag = "<a =\"v\" b d\"=\"1\">" ∧
      tokenize e.startTag = [.startTag "a" false [⟨"", "v"⟩, ⟨"b", ""⟩, ⟨"d\"", "1"⟩], .endOfFile] := by
  have element : (parse "<A =v d\"=1 b>").element? 4 =
      some ⟨"a", .ofList [("", "v"), ("b", ""), ("d\"", "1")]⟩ := by decide +kernel
  have unquoted : ∀ name value, (Attributes.ofList [("", "v"), ("b", ""), ("d\"", "1")]).get? name = some value →
      '"' ∉ value.toList := by
    have all : ∀ entry ∈ (Attributes.ofList [("", "v"), ("b", ""), ("d\"", "1")]).toList, '"' ∉ entry.2.toList := by
      decide +kernel
    exact fun name value get => all (name, value) (Attributes.mem_toList.mpr get)
  have marked : (Attributes.ofList [("", "v"), ("b", ""), ("d\"", "1")]).get? "" ≠ some "" := by decide +kernel
  have read := (tokenize_startTag_parse _ element unquoted marked).1
  exact ⟨_, element, unquoted, marked, by decide +kernel, read.trans (by decide +kernel)⟩

end HtmlQuery
