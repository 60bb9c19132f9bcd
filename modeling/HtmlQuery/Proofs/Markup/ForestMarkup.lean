import HtmlQuery.Markup.Document
import HtmlQuery.Proofs.Markup.OpenElements
import HtmlQuery.Proofs.Markup.TokenMarkup
import HtmlQuery.Proofs.Tree.Grafting

/-!
# Forests as markup

Elements, texts and comments are written as markup, each element with its content between its tags. Between the tags of
a body, this markup is read as the forest that was written: the same nodes, in the same order and with the same links.

* `Markup.render`, `Markup.forest` — what is written, and what it stands for;
* `Markup.Writable` — the markup that can be told from its text;
* `Markup.foldl_tokens` — its tokens graft the forest onto the current node;
* `Markup.parse_render` — a document is read as it was written.
-/

namespace HtmlQuery

open Text Builder

/-- Elements, texts and comments one after another, each element with its content. -/
inductive Markup where
  | nil
  | element (name : String) (attributes : List Attribute) (content rest : Markup)
  | text (data : String) (rest : Markup)
  | comment (data : String) (rest : Markup)
  deriving DecidableEq

/-- The attributes that a list writes. -/
def Attributes.written (attributes : List Attribute) : Attributes := .ofList (attributes.map fun a => (a.name, a.value))

namespace Markup

/-- The text of the markup. -/
def render : Markup → String
  | nil => ""
  | element name attributes content rest =>
    (Token.startTag name false attributes).markup ++ content.render ++
      (if isVoidName name then "" else (Token.endTag name).markup) ++ rest.render
  | text data rest => data ++ rest.render
  | comment data rest => (Token.comment data).markup ++ rest.render

/-- The tokens of the markup. -/
def tokens : Markup → List Token
  | nil => []
  | element name attributes content rest =>
    .startTag name false attributes ::
      (content.tokens ++ ((if isVoidName name then [] else [.endTag name]) ++ rest.tokens))
  | text data rest => data.toList.map .character ++ rest.tokens
  | comment data rest => .comment data :: rest.tokens

/-- The nodes of the markup. -/
def forest : Markup → Forest
  | nil => .nil
  | element name attributes content rest =>
    .node (.element ⟨name, .written attributes⟩) content.forest rest.forest
  | text data rest => .node (.text data) .nil rest.forest
  | comment data rest => .node (.comment data) .nil rest.forest

def beginsWithText : Markup → Bool
  | text _ _ => true
  | _ => false

/-- Markup that can be told from its text: the tokens are writable, texts are not empty and do not meet, no element is
one of the frame, and elements without content are empty. -/
def Writable : Markup → Prop
  | nil => True
  | element name attributes content rest =>
    name ∉ ["html", "head", "body"] ∧ (Token.startTag name false attributes).Writable ∧
      (isVoidName name = true → content = nil) ∧ content.Writable ∧ rest.Writable
  | text data rest => data ≠ "" ∧ '<' ∉ data.toList ∧ rest.beginsWithText = false ∧ rest.Writable
  | comment data rest => (Token.comment data).Writable ∧ rest.Writable

instance decidableWritable : DecidablePred Writable
  | nil => inferInstanceAs (Decidable True)
  | element name _ content rest =>
    haveI := decidableWritable content
    haveI := decidableWritable rest
    inferInstanceAs (Decidable (_ ∧ _ ∧ (isVoidName name = true → content = nil) ∧ _ ∧ _))
  | text _ rest =>
    haveI := decidableWritable rest
    inferInstanceAs (Decidable (_ ∧ _ ∧ _ ∧ _))
  | comment _ rest =>
    haveI := decidableWritable rest
    inferInstanceAs (Decidable (_ ∧ _))

/-! ## The text and its tokens -/

/-- The text is the markup of the tokens. -/
theorem toList_render : ∀ m : Markup, m.render.toList = m.tokens.flatMap (·.markup.toList)
  | nil => rfl
  | element name attributes content rest => by
    by_cases h : isVoidName name = true <;>
      simp [render, tokens, h, toList_render content, toList_render rest]
  | text data rest => by
    have chars : (data.toList.map Token.character).flatMap (·.markup.toList) = data.toList := by
      rw [List.flatMap_map]
      simp [Token.markup]
    rw [render, tokens, String.toList_append, List.flatMap_append, chars, toList_render rest]
  | comment data rest => by
    rw [render, tokens, String.toList_append, List.flatMap_cons, toList_render rest]

/-- The tokens of writable markup are writable. -/
theorem Writable.tokens : ∀ {m : Markup}, m.Writable → ∀ token ∈ m.tokens, token.Writable
  | nil, _, _, h => absurd h List.not_mem_nil
  | element name attributes content rest, ⟨_, startTag, _, hcontent, hrest⟩, token, h => by
    rw [Markup.tokens, List.mem_cons, List.mem_append, List.mem_append] at h
    rcases h with rfl | h | h | h
    · exact startTag
    · exact hcontent.tokens token h
    · split at h
      · exact absurd h List.not_mem_nil
      · rw [List.mem_singleton.mp h]
        exact startTag.1
    · exact hrest.tokens token h
  | text data rest, ⟨_, chars, _, hrest⟩, token, h => by
    rw [Markup.tokens, List.mem_append, List.mem_map] at h
    rcases h with ⟨c, hc, rfl⟩ | h
    · exact fun eq => chars (eq ▸ hc)
    · exact hrest.tokens token h
  | comment data rest, ⟨writable, hrest⟩, token, h => by
    rw [Markup.tokens, List.mem_cons] at h
    rcases h with rfl | h
    · exact writable
    · exact hrest.tokens token h

end Markup

/-! ## What the tokens do -/

/-- Attributes with different names are those that are written. -/
theorem Attributes.merge_empty {attributes : List Attribute} (nodup : (attributes.map Attribute.name).Nodup) :
    Attributes.empty.merge attributes = .written attributes := by
  have inserted : ∀ (attributes : List Attribute) (a : Attributes), (attributes.map Attribute.name).Nodup →
      (∀ new ∈ attributes, a.get? new.name = none) → a.merge attributes =
        (attributes.map fun a => (a.name, a.value)).foldl (fun a p => a.insert p.1 p.2) a := by
    intro attributes
    induction attributes with
    | nil => exact fun _ _ _ => rfl
    | cons new attributes ih =>
      intro a nodup unused
      obtain ⟨fresh, nodup⟩ := List.nodup_cons.mp nodup
      have first : a.insertIfNew new.name new.value = a.insert new.name new.value := by
        rw [insertIfNew, unused new List.mem_cons_self]
        rfl
      rw [merge, List.foldl_cons, ← merge, first]
      refine ih _ nodup fun other mem => ?_
      have ne : other.name ≠ new.name := fun eq => fresh (eq ▸ List.mem_map_of_mem mem)
      rw [get?_insert, if_neg ne]
      exact unused other (List.mem_cons_of_mem _ mem)
  exact inserted attributes .empty nodup fun _ _ => rfl

namespace Builder

variable {b : Builder} {name : String} {id : NodeId}

theorem endText_endText (b : Builder) : b.endText.endText = b.endText :=
  endText_of_pending_eq (String.isEmpty_iff.mp (isEmpty_pending_endText b))

/-- Away from the frame, characters are collected. -/
theorem foldl_characters : ∀ {b : Builder}, b.betweenElements = false → ∀ cs : List Char,
    (cs.map Token.character).foldl step b = { b with pending := b.pending ++ String.ofList cs }
  | b, _, [] => by
    rw [String.ofList_nil, String.append_empty]
    rfl
  | b, h, c :: cs => by
    have first : b.step (.character c) = { b with pending := b.pending.push c } := by
      rw [step, character, if_neg (by rw [h]; exact Bool.false_ne_true)]
    have place : { b with pending := b.pending.push c }.betweenElements = false := h
    rw [List.map_cons, List.foldl_cons, first, foldl_characters place, push_append_ofList]

/-- The text may as well be ended before the tokens, unless they go on with it. -/
theorem endText_foldl {tokens : List Token}
    (h : ∀ token ∈ tokens.head?, ∀ b : Builder, b.endText.step token = b.step token) :
    (tokens.foldl step b.endText).endText = (tokens.foldl step b).endText := by
  cases tokens with
  | nil => exact endText_endText b
  | cons token tokens => rw [List.foldl_cons, List.foldl_cons, h token rfl b]

/-- In the body, a start tag that is not one of the frame adds its element, which is open if it can have content. -/
theorem step_startTag {attributes : List Attribute} (hname : name ∉ ["html", "head", "body"])
    (nodup : (attributes.map Attribute.name).Nodup) (s : b.Sound) (hbody : b.body.isSome) (hpending : b.pending = "") :
    b.step (.startTag name false attributes) =
      (if isVoidName name then b else b.openNext).appendTo b.current (.element ⟨name, .written attributes⟩) := by
  obtain ⟨body, hbody⟩ := Option.isSome_iff_exists.mp hbody
  obtain ⟨_, _, mode, -⟩ := s.suffix_of_body hbody
  simp only [List.mem_cons, List.not_mem_nil, or_false, not_or] at hname
  rw [step, endText_of_pending_eq hpending, startTag, if_neg hname.1, if_neg (fun h => h.2 mode), if_neg hname.2.2,
    if_neg (fun h => h.1 mode), withBody_of_some hbody, addElement, Bool.false_or, Attributes.merge_empty nodup]

/-- An end tag closes the innermost open element if that has its name and is not one of the frame. -/
theorem endTag_of_tag? {stack : List NodeId} (hname : name ∉ ["html", "head", "body"]) (hstack : b.stack = id :: stack)
    (outside : b.html ≠ some id ∧ b.head ≠ some id ∧ b.body ≠ some id) (h : b.tree.tag? id = some name) :
    b.endTag name = { b with stack } := by
  obtain ⟨e, he, rfl⟩ := Option.map_eq_some_iff.mp h
  have closed : b.closes e.tag id = true := by
    simp [closes, outside, he]
  simp only [List.mem_cons, List.not_mem_nil, or_false, not_or] at hname
  rw [endTag, if_neg (not_or.mpr ⟨hname.1, hname.2.2⟩), if_neg hname.2.1, hstack, popThrough,
    List.dropWhile_cons_of_neg (by rw [closed]; exact Bool.false_ne_true)]

/-- Grafts a forest onto the current node. -/
def graft (b : Builder) (f : Forest) : Builder := { b with tree := b.tree.graft b.current f }

theorem graft_nil (b : Builder) : b.graft .nil = b := by
  rw [graft, Tree.graft_nil]

theorem graft_node (s : b.Sound) (kind : NodeKind) (content rest : Forest) :
    b.graft (.node kind content rest) =
      graft { b with tree := (b.tree.append b.current kind).graft b.tree.size content } rest := by
  rw [graft, Tree.graft_node s.current_lt_size]
  rfl

/-- A node without content is appended before the rest. -/
theorem graft_leaf (s : b.Sound) (kind : NodeKind) (rest : Forest) :
    b.graft (.node kind .nil rest) = (b.append kind).graft rest := by
  rw [graft_node s, Tree.graft_nil]
  rfl

/-- An element with its content: the end tag leads back to the node outside it. -/
theorem step_endTag {b' : Builder} {attributes : Attributes} {f : Forest} (hname : name ∉ ["html", "head", "body"])
    (s : b.Sound) (h : b'.endText = (b.openNext.appendTo b.current (.element ⟨name, attributes⟩)).graft f) :
    b'.step (.endTag name) =
      { b with tree := (b.tree.append b.current (.element ⟨name, attributes⟩)).graft b.tree.size f } := by
  have stack : ((b.openNext.appendTo b.current (.element ⟨name, attributes⟩)).graft f).stack =
      b.tree.size :: b.stack := rfl
  have tag : ((b.openNext.appendTo b.current (.element ⟨name, attributes⟩)).graft f).tree.tag? b.tree.size =
      some name := by
    show ((b.tree.append b.current _).graft b.tree.size f).tag? b.tree.size = _
    rw [Tree.tag?_graft _ (by rw [Tree.size_append]; exact Nat.lt_succ_self _),
      Tree.tag?_append_size s.current_lt_size]
  rw [step, h, endTag_of_tag? hname stack (s.ne_of_size_le (Nat.le_refl _)) tag]
  rfl

end Builder

namespace Markup

/-- The step after a text begins with its end. -/
theorem step_endText_of_head {m : Markup} (h : m.beginsWithText = false) :
    ∀ token ∈ m.tokens.head?, ∀ b : Builder, b.endText.step token = b.step token := by
  cases m with
  | nil => exact nofun
  | element name attributes content rest =>
    rintro _ ⟨⟩ b
    rw [step, endText_endText, step]
  | text data rest => cases h
  | comment data rest =>
    rintro _ ⟨⟩ b
    rw [step, endText_endText, step]

/-- **The tokens of markup graft its nodes onto the current node.** Nothing else changes, and nothing stays open. -/
theorem foldl_tokens : ∀ {m : Markup} {b : Builder}, m.Writable → b.Sound → b.body.isSome → b.pending = "" →
    (m.tokens.foldl step b).endText = b.graft m.forest
  | nil, b, _, _, _, hpending => by
    rw [tokens, List.foldl_nil, endText_of_pending_eq hpending, forest, graft_nil]
  | text data rest, b, ⟨notEmpty, _, apart, hrest⟩, s, hbody, hpending => by
    have collected : { b with pending := b.pending ++ String.ofList data.toList } = { b with pending := data } := by
      rw [hpending, String.empty_append, String.ofList_toList]
    have ended : endText { b with pending := data } = b.append (.text data) := by
      rw [endText, if_neg (mt String.isEmpty_iff.mp notEmpty), ← hpending]
      rfl
    have sound : (b.append (.text data)).Sound := s.append (.text data) (.inl (by rw [hpending]; rfl))
    rw [tokens, List.foldl_append, foldl_characters (s.betweenElements_of_body hbody), collected,
      ← endText_foldl (step_endText_of_head apart), ended, foldl_tokens hrest sound hbody hpending, forest,
      graft_leaf s]
  | comment data rest, b, ⟨_, hrest⟩, s, hbody, hpending => by
    have first : b.step (.comment data) = b.append (.comment data) := by
      rw [step, endText_of_pending_eq hpending]
    have sound : (b.append (.comment data)).Sound := s.append (.comment data) (.inl (by rw [hpending]; rfl))
    rw [tokens, List.foldl_cons, first, foldl_tokens hrest sound hbody hpending, forest, graft_leaf s]
  | element name attributes content rest, b, ⟨hname, startTag, isVoid, hcontent, hrest⟩, s, hbody, hpending => by
    have first := step_startTag hname startTag.2.2.1 s hbody hpending
    have sound := s.changes (changes_step b (.startTag name false attributes))
    rw [tokens, List.foldl_cons, List.foldl_append, List.foldl_append, forest]
    rw [first] at sound ⊢
    cases hv : isVoidName name with
    | true =>
      rw [hv, if_pos rfl] at sound
      rw [if_pos rfl, if_pos rfl, isVoid hv, tokens, List.foldl_nil, List.foldl_nil,
        foldl_tokens hrest sound hbody hpending, forest, graft_leaf s]
      rfl
    | false =>
      rw [hv, if_neg Bool.false_ne_true] at sound
      rw [if_neg Bool.false_ne_true, if_neg Bool.false_ne_true, List.foldl_cons, List.foldl_nil]
      have closed := step_endTag hname s (foldl_tokens hcontent sound hbody hpending)
      have sound := (sound.changes (changes_foldl content.tokens _)).changes (changes_step _ (.endTag name))
      rw [closed] at sound ⊢
      rw [foldl_tokens hrest sound hbody hpending, graft_node s]

end Markup

/-! ## Whole documents -/

/-- The tree of a document with empty `html` and `head` tags and a forest in the body: `html`, the head and the body are
the nodes 1, 2 and 3, and the nodes of the forest go on from 4 in document order. -/
def Forest.document (f : Forest) : Tree :=
  ⟨#[⟨.document, none, #[1]⟩, ⟨.element (.ofTag "html"), some 0, #[2, 3]⟩, ⟨.element (.ofTag "head"), some 1, #[]⟩,
    ⟨.element (.ofTag "body"), some 1, (f.roots 4).toArray⟩] ++ (f.nodes 3 4).toArray⟩

/-- The forest of a document is grafted onto the body. -/
theorem Forest.document_eq_graft (f : Forest) : f.document = Forest.nil.document.graft 3 f := by
  simp [document, Tree.graft, Tree.modify, Tree.size, roots, nodes, Array.modify, Array.modifyM]

theorem Token.Writable.ne_endOfFile {token : Token} (h : token.Writable) : token ≠ .endOfFile := by
  rintro rfl
  exact h

namespace Markup

variable {m : Markup}

/-- The tags before the content of the body. -/
def opening : List Token :=
  [.startTag "html" false [], .startTag "head" false [], .endTag "head", .startTag "body" false []]

/-- The tags behind the content of the body. -/
def closing : List Token := [.endTag "body", .endTag "html"]

/-- The tokens of a document with the markup in its body. -/
def documentTokens (m : Markup) : List Token := opening ++ m.tokens ++ closing

theorem Writable.documentTokens (h : m.Writable) : ∀ token ∈ m.documentTokens, token.Writable := by
  have before : ∀ token ∈ opening, token.Writable := by decide
  have behind : ∀ token ∈ closing, token.Writable := by decide
  intro token mem
  rcases List.mem_append.mp mem with mem | mem
  · rcases List.mem_append.mp mem with mem | mem
    · exact before token mem
    · exact h.tokens token mem
  · exact behind token mem

/-- The frame of a document is open, and the body is empty. -/
theorem foldl_opening : opening.foldl step {} =
    { tree := Forest.nil.document, mode := .inBody, stack := [3, 1],
      html := some 1, head := some 2, body := some 3 } := by
  decide

/-- The body and the `html` element stay open to the end. -/
theorem finish_foldl_closing {b : Builder} (h : b.endText.body.isSome) :
    (closing.foldl step b).finish = b.endText.tree := by
  obtain ⟨body, hbody⟩ := Option.isSome_iff_exists.mp h
  have ended (b : Builder) (name : String) (h : name = "html" ∨ name = "body") : b.step (.endTag name) = b.endText := by
    rw [step, endTag, if_pos h]
  rw [closing, List.foldl_cons, List.foldl_cons, List.foldl_nil, ended b "body" (.inr rfl), ended _ "html" (.inl rfl),
    finish, endText_endText, endText_endText, withBody_of_some hbody]

/-- The document is built from its tokens. -/
theorem ofTokens_documentTokens (h : m.Writable) :
    Tree.ofTokens (m.documentTokens ++ [.endOfFile]) = m.forest.document := by
  have all : (m.documentTokens ++ [Token.endOfFile]).takeWhile (· != Token.endOfFile) = m.documentTokens := by
    rw [List.takeWhile_append_of_pos fun token mem => bne_iff_ne.mpr (h.documentTokens token mem).ne_endOfFile]
    exact List.append_nil _
  have sound := sound_initial.changes (changes_foldl opening {})
  rw [foldl_opening] at sound
  have body := foldl_tokens h sound rfl rfl
  rw [Tree.ofTokens, all, Markup.documentTokens, List.foldl_append, List.foldl_append, foldl_opening,
    finish_foldl_closing (by rw [body]; rfl), body]
  exact (Forest.document_eq_graft m.forest).symm

/-- The document is read as its tokens. -/
theorem tokenize_document (h : m.Writable) :
    tokenize ("<html><head></head><body>" ++ m.render ++ "</body></html>") = m.documentTokens ++ [.endOfFile] := by
  have text : ("<html><head></head><body>" ++ m.render ++ "</body></html>").toList =
      m.documentTokens.flatMap (·.markup.toList) := by
    rw [Markup.documentTokens, List.flatMap_append, List.flatMap_append, ← toList_render, String.toList_append,
      String.toList_append]
    rfl
  exact tokenize_eq_append h.documentTokens text

/-- **Markup in the body of a document is read as the forest that was written.** The tree has the nodes of the forest,
with their names, attributes and data, their order and their links, and no others below the body. -/
theorem parse_render (h : m.Writable) :
    Tree.parse ("<html><head></head><body>" ++ m.render ++ "</body></html>") = m.forest.document := by
  rw [Tree.parse, tokenize_document h, ofTokens_documentTokens h]

/-- A `div` in a `div`, with a text, a comment and an element without content. -/
def nested : Markup :=
  element "div" [⟨"id", "a"⟩, ⟨"class", ""⟩]
    (text "x" (element "div" [] (comment "-" nil) (element "br" [] nil (text "y" nil)))) nil

theorem parse_render_nested :
    nested.render = "<div id=\"a\" class=\"\">x<div><!-----></div><br>y</div>" ∧
    Tree.parse ("<html><head></head><body>" ++ nested.render ++ "</body></html>") =
      ⟨#[⟨.document, none, #[1]⟩, ⟨.element (.ofTag "html"), some 0, #[2, 3]⟩,
        ⟨.element (.ofTag "head"), some 1, #[]⟩, ⟨.element (.ofTag "body"), some 1, #[4]⟩,
        ⟨.element ⟨"div", .ofList [("class", ""), ("id", "a")]⟩, some 3, #[5, 6, 8, 9]⟩,
        ⟨.text "x", some 4, #[]⟩, ⟨.element (.ofTag "div"), some 4, #[7]⟩, ⟨.comment "-", some 6, #[]⟩,
        ⟨.element (.ofTag "br"), some 4, #[]⟩, ⟨.text "y", some 4, #[]⟩]⟩ := by
  refine ⟨by decide, ?_⟩
  rw [parse_render (m := nested) (by decide)]
  decide

end Markup

end HtmlQuery
