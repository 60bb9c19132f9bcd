import HtmlQuery.Proofs.Markup.ClosedNodes
import HtmlQuery.Proofs.Markup.EndTags
import HtmlQuery.Proofs.Markup.ForestMarkup
import HtmlQuery.Proofs.Markup.RawText

/-!
# Raw text elements

The builder does not know about raw text: it opens the element of a start tag unless the tag closes itself, and what the
lexer hands out as raw text goes where the builder is. So an element of raw text holds its text, and nothing else of the
document ever gets into it. If its tag closes itself, the element stays empty and the text goes on elsewhere.

* `Tree.appendElement` — an element with its text;
* `Builder.step_endTag_addElement` — what a start tag, a text and an end tag do;
* `Tree.parse_rawText` — the element of a raw text tag, and what becomes of the text behind the tag.
-/

namespace HtmlQuery

open Builder

/-! ## Elements with a text -/

namespace Tree

variable {t u : Tree} {id p : NodeId} {e : Element} {text : List Char}

/-- Adds a text node, if there is any text. -/
def appendText (t : Tree) (p : NodeId) (text : List Char) : Tree :=
  if text = [] then t else t.append p (.text (String.ofList text))

/-- Adds an element with its text. -/
def appendElement (t : Tree) (p : NodeId) (e : Element) (text : List Char) : Tree :=
  (t.append p (.element e)).appendText t.size text

theorem tag?_appendElement_size (hp : p < t.size) : (t.appendElement p e text).tag? t.size = some e.tag := by
  have size : t.size < (t.append p (.element e)).size := by
    rw [size_append]
    exact Nat.lt_succ_self _
  unfold appendElement appendText
  split
  · exact tag?_append_size hp e
  · rw [tag?_append size, if_neg (Nat.ne_of_lt size), tag?_append_size hp]

/-- Where later changes keep the nodes of an element and its text, the element has this text. -/
theorem element_of_appendElement (hp : p < t.size)
    (keeps : ∀ id, t.size ≤ id → id < (t.appendElement p e text).size → u.get? id = (t.appendElement p e text).get? id) :
    u.element? t.size = some e ∧
      (u.children t.size).map u.text? = if text = [] then [] else [some (String.ofList text)] := by
  have size : t.size < (t.append p (.element e)).size := by
    rw [size_append]
    exact Nat.lt_succ_self _
  have added : (t.append p (.element e)).get? t.size = some ⟨.element e, some p, #[]⟩ := by
    rw [get?_append hp, if_pos rfl]
  unfold appendElement appendText at keeps
  split at keeps
  case isTrue nothing =>
    have get := (keeps _ (Nat.le_refl _) size).trans added
    rw [element?, children, get, if_pos nothing]
    exact ⟨rfl, rfl⟩
  case isFalse written =>
    have both : ((t.append p (.element e)).append t.size (.text (String.ofList text))).size = t.size + 2 := by
      rw [size_append, size_append]
    have get : u.get? t.size = some ⟨.element e, some p, #[t.size + 1]⟩ := by
      rw [keeps _ (Nat.le_refl _) (by omega), get?_append size, size_append,
        if_neg (Nat.ne_of_lt (Nat.lt_succ_self _)), added]
      simp
    have child : u.get? (t.size + 1) = some ⟨.text (String.ofList text), some t.size, #[]⟩ := by
      rw [keeps _ (Nat.le_succ _) (by omega), get?_append size, size_append, if_pos rfl]
    rw [element?, children, get, if_neg written]
    refine ⟨rfl, ?_⟩
    show [u.text? (t.size + 1)] = _
    rw [text?, child]

end Tree

namespace Builder

variable {b : Builder} {name : String} {attributes : List Attribute}

/-! ## From the start tag to the end tag -/

/-- A start tag that is never one of the frame adds its element to some builder on the way. -/
theorem exists_step_startTag (hname : name ∉ ["html", "head", "body"]) (b : Builder) (selfClosing : Bool)
    (attributes : List Attribute) : ∃ c : Builder, Changes b c ∧ c.pending = "" ∧
      b.step (.startTag name selfClosing attributes) = c.addElement name selfClosing attributes := by
  simp only [List.mem_cons, List.not_mem_nil, or_false, not_or] at hname
  obtain ⟨c, quiet, -, added, -⟩ := exists_addElement (b := b.endText) hname.1 (fun head => hname.2.1 head.1)
    hname.2.2 selfClosing attributes
  refine ⟨c, (changes_endText b).trans quiet.changes, ?_, added⟩
  rw [quiet.pending_eq]
  exact String.isEmpty_iff.mp (isEmpty_pending_endText b)

/-- The text behind the start tag of an element goes to the element. -/
theorem endText_foldl_addElement (s : b.Sound) (hpending : b.pending = "") (void : isVoidName name = false)
    (text : List Char) :
    ((text.map .character).foldl step (b.addElement name false attributes)).endText =
      { b.addElement name false attributes with
        tree := (b.addElement name false attributes).tree.appendText b.tree.size text } := by
  have opened : b.addElement name false attributes = { b with
      tree := b.tree.append b.current (.element ⟨name, Attributes.empty.merge attributes⟩)
      stack := b.tree.size :: b.stack } := by
    rw [addElement_eq, void]
    rfl
  have place : (b.addElement name false attributes).betweenElements = false := by
    obtain ⟨notHtml, notHead, -⟩ := s.ne_of_size_le (Nat.le_refl _)
    rw [opened]
    simp only [betweenElements, current, List.isEmpty_cons, List.headD_cons, Bool.false_or, Bool.or_eq_false_iff,
      beq_eq_false_iff_ne]
    exact ⟨notHtml, notHead⟩
  rw [foldl_characters place, endText_eq, opened, hpending]
  cases text with
  | nil => rfl
  | cons c text => simp [current, Tree.appendText]

/-- The end tag leads back to where the element was added. -/
theorem step_endTag_addElement (hname : name ∉ ["html", "head", "body"]) (void : isVoidName name = false) (s : b.Sound)
    (hpending : b.pending = "") (attributes : List Attribute) (text : List Char) :
    ((text.map .character).foldl step (b.addElement name false attributes)).step (.endTag name) =
      { b with tree := b.tree.appendElement b.current ⟨name, Attributes.empty.merge attributes⟩ text } := by
  rw [step, endText_foldl_addElement s hpending void, addElement_eq, void]
  refine endTag_of_tag? hname rfl (s.ne_of_size_le (Nat.le_refl _)) ?_
  exact Tree.tag?_appendElement_size s.current_lt_size

/-! ## The end of a document -/

/-- The body goes to the same place whatever is open. -/
theorem tree_withBody_withStack (b : Builder) (stack : List NodeId) :
    (withBody { b with stack }).1.tree = b.withBody.1.tree := by
  obtain ⟨tree, mode, opened, html, head, body, pending⟩ := b
  cases body with
  | some body => rfl
  | none => cases html <;> cases head <;> rfl

/-- An end tag at the end of a document makes no difference. -/
theorem finish_step_endTag (b : Builder) (name : String) : (b.step (.endTag name)).finish = b.finish := by
  have closed : b.step (.endTag name) = { b.endText with stack := (b.endText.endTag name).stack } := endTag_eq _ name
  have ended (stack : List NodeId) : { b.endText with stack }.pending = "" :=
    String.isEmpty_iff.mp (isEmpty_pending_endText b)
  rw [finish, closed, endText_of_pending_eq (ended _), tree_withBody_withStack, finish]

/-- An element is closed by its own tag, or with its text by an end tag. At the end of a document it may as well be
closed. -/
theorem exists_finish_addElement (hname : name ∉ ["html", "head", "body"]) (void : isVoidName name = false)
    (s : b.Sound) (hpending : b.pending = "") {selfClosing : Bool}
    (added : (b.addElement name selfClosing attributes).Sound) (text : List Char) {behind : List Token}
    (ends : behind = [] ∨ ∃ more, behind = .endTag name :: more) :
    ∃ (t : Tree) (more : List Token),
      t = b.tree.appendElement b.current ⟨name, Attributes.empty.merge attributes⟩ (if selfClosing then [] else text) ∧
      Sound { b with tree := t } ∧
      ((text.map Token.character ++ behind).foldl step (b.addElement name selfClosing attributes)).finish =
        (more.foldl step { b with tree := t }).finish := by
  cases selfClosing with
  | true =>
    refine ⟨_, text.map .character ++ behind, rfl, ?_⟩
    rw [addElement_eq] at added ⊢
    exact ⟨added, rfl⟩
  | false =>
    have closed := step_endTag_addElement hname void s hpending attributes text
    have sound := added.changes (changes_foldl (text.map .character ++ [.endTag name]) _)
    rw [List.foldl_append, List.foldl_cons, List.foldl_nil, closed] at sound
    rw [List.foldl_append]
    rcases ends with rfl | ⟨more, rfl⟩
    · refine ⟨_, [], rfl, sound, ?_⟩
      rw [List.foldl_nil, ← finish_step_endTag _ name, closed]
      rfl
    · refine ⟨_, more, rfl, sound, ?_⟩
      rw [List.foldl_cons, closed]
      rfl

end Builder

/-! ## Documents -/

/-- Raw text elements are not of the frame, and they can have content. -/
theorem of_isRawTextName {name : String} (h : isRawTextName name = true) :
    name ∉ ["html", "head", "body"] ∧ isVoidName name = false := by
  have mem := List.contains_iff_mem.mp h
  simp only [List.mem_cons, List.not_mem_nil, or_false] at mem
  rcases mem with rfl | rfl | rfl | rfl | rfl <;> decide

namespace Tree

/-- A document is read in two parts. -/
theorem parse_eq {s : String} {before behind : List Token} (h : tokenize s = before ++ behind ++ [.endOfFile])
    (inside : .endOfFile ∉ before ++ behind) : parse s = (behind.foldl step (after before)).finish := by
  have all : (tokenize s).takeWhile (· != .endOfFile) = before ++ behind := by
    rw [h, List.takeWhile_append_of_pos fun token mem => bne_iff_ne.mpr (ne_of_mem_of_not_mem mem inside)]
    exact List.append_nil _
  rw [parse, ofTokens, all, List.foldl_append]
  rfl

/-- **The element of a raw text tag** holds the text behind its tag, as its only child, and nothing of this text goes
elsewhere. If the tag closes itself, the element stays empty. -/
theorem parse_rawText {s name : String} {before rest : List Token} {selfClosing : Bool} {attributes : List Attribute}
    (h : tokenize s = before ++ .startTag name selfClosing attributes :: rest) (raw : isRawTextName name = true) :
    ∃ id, (after before).tree.size ≤ id ∧
      (after (before ++ [.startTag name selfClosing attributes])).tree.size = id + 1 ∧
      (parse s).element? id = some ⟨name, Attributes.empty.merge attributes⟩ ∧
      ((parse s).children id).map (parse s).text? =
        (if selfClosing = true ∨ leadingCharacters rest = [] then []
          else [some (String.ofList (leadingCharacters rest))]) ∧
      (selfClosing = false →
        (after (before ++ .startTag name selfClosing attributes :: (leadingCharacters rest).map .character)).endText =
          { after (before ++ [.startTag name selfClosing attributes]) with
            tree := (after (before ++ [.startTag name selfClosing attributes])).tree.appendText id
              (leadingCharacters rest) }) := by
  obtain ⟨behind, eq, inside, ends⟩ := tokenize_rawText h raw
  obtain ⟨hname, void⟩ := of_isRawTextName raw
  generalize leadingCharacters rest = text at eq
  -- the tag adds its element to a builder `b`
  obtain ⟨b, changes, hpending, added⟩ := exists_step_startTag hname (after before) selfClosing attributes
  have tagged : after (before ++ [.startTag name selfClosing attributes]) =
      b.addElement name selfClosing attributes := by
    rw [after_append, List.foldl_cons, added, List.foldl_nil]
  have sound : b.Sound := (changes_after before).sound.changes changes
  have opened : (b.addElement name selfClosing attributes).Sound := by
    rw [← tagged]
    exact (changes_after _).sound
  -- and from where that is closed on, nothing touches it any more
  obtain ⟨t, more, rfl, closed, whole⟩ := exists_finish_addElement hname void sound hpending opened text ends
  have read : parse s = ((text.map Token.character ++ behind).foldl step
      (after (before ++ [Token.startTag name selfClosing attributes]))).finish := by
    refine parse_eq ?_ ?_
    · rw [h, eq]
      simp
    · simpa using inside
  rw [tagged, whole] at read
  have keeps (id : NodeId) (new : b.tree.size ≤ id) (small : id < _) := sound.get?_finish closed more new small
  rw [← read] at keeps
  obtain ⟨element, texts⟩ := element_of_appendElement sound.current_lt_size keeps
  refine ⟨b.tree.size, changes.size_le, ?_, element, ?_, ?_⟩
  · rw [tagged, addElement_eq]
    exact size_append _ _ _
  · rw [texts]
    cases selfClosing <;> simp
  · rintro rfl
    rw [tagged, ← endText_foldl_addElement sound hpending void, ← added, ← List.foldl_cons, ← after_append]

/-- A tag inside the text of an element stands for itself. -/
theorem parse_rawText_xmp :
    tokenize "<p><xmp>1<i</xmp>" = [.startTag "p" false []] ++ .startTag "xmp" false [] ::
      [.character '1', .character '<', .character 'i', .endTag "xmp", .endOfFile] ∧
    isRawTextName "xmp" = true ∧ (parse "<p><xmp>1<i</xmp>").tag? 5 = some "xmp" ∧
    ((parse "<p><xmp>1<i</xmp>").children 5).map (parse "<p><xmp>1<i</xmp>").text? = [some "1<i"] := by
  have read : tokenize "<p><xmp>1<i</xmp>" = [.startTag "p" false []] ++ .startTag "xmp" false [] ::
      [.character '1', .character '<', .character 'i', .endTag "xmp", .endOfFile] := by decide +kernel
  have raw : isRawTextName "xmp" = true := by decide
  have size : (after ([.startTag "p" false []] ++ [.startTag "xmp" false []])).tree.size = 6 := by decide
  obtain ⟨id, -, last, element, texts, -⟩ := parse_rawText read raw
  obtain rfl : 5 = id := Nat.succ.inj (size.symm.trans last)
  exact ⟨read, raw, congrArg (Option.map Element.tag) element, texts⟩

/-- The text behind a tag that closes itself is not the text of its element. -/
theorem not_forall_text_of_rawText : ¬ ∀ (s : String) (before : List Token) (name : String) (selfClosing : Bool)
    (attributes : List Attribute) (rest : List Token),
    tokenize s = before ++ .startTag name selfClosing attributes :: rest → isRawTextName name = true →
    ∃ id, (after (before ++ [.startTag name selfClosing attributes])).tree.size = id + 1 ∧
      ((parse s).children id).map (parse s).text? =
        if leadingCharacters rest = [] then [] else [some (String.ofList (leadingCharacters rest))] := by
  intro all
  have read : tokenize "<script/>a</script>" = [] ++ .startTag "script" true [] ::
      [.character 'a', .endTag "script", .endOfFile] := by decide +kernel
  have size : (after ([] ++ [.startTag "script" true []])).tree.size = 4 := by decide
  have empty : (parse "<script/>a</script>").children 3 = [] := by decide +kernel
  obtain ⟨id, last, texts⟩ := all _ _ _ _ _ _ read (by decide)
  obtain rfl : 3 = id := Nat.succ.inj (size.symm.trans last)
  rw [empty] at texts
  exact absurd texts (by decide)

end Tree

end HtmlQuery
