import HtmlQuery.Markup.Document
import HtmlQuery.Proofs.Markup.ElementAttributes
import HtmlQuery.Proofs.Markup.TokenShapes

/-!
# The shape of elements

The elements of a document come from start tags or belong to its frame. So the names of its elements and attributes have
the shape of names in markup, whatever the text is. The values of attributes can be any text.

* `Element.IsShaped`, `Tree.IsShaped` — elements with such names;
* `Builder.isShaped_step`, `Builder.isShaped_foldl` — every token and every row of tokens keeps the shape;
* `Tree.isShaped_parse` — the elements of a document.
-/

namespace HtmlQuery

/-! ## Shapes -/

/-- The names of the attributes are as they can be read. -/
def Attributes.IsNamed (a : Attributes) : Prop := ∀ name value, a.get? name = some value → Attribute.IsNamed ⟨name, value⟩

/-- The shape of the elements of a document. -/
structure Element.IsShaped (e : Element) : Prop where
  tag : IsTagName e.tag
  named : e.attributes.IsNamed

/-- All elements of a tree have that shape. -/
def Tree.IsShaped (t : Tree) : Prop := ∀ id e, t.element? id = some e → e.IsShaped

theorem Attributes.isNamed_empty : Attributes.IsNamed .empty := nofun

/-- The names of added attributes are names of the tag or of the element. -/
theorem Attributes.IsNamed.merge {a : Attributes} (h : a.IsNamed) {attributes : List Attribute}
    (h' : ∀ x ∈ attributes, x.IsNamed) : (a.merge attributes).IsNamed := by
  intro name value get
  rw [Attributes.get?_merge, Option.or_eq_some_iff] at get
  rcases get with old | ⟨-, new⟩
  · exact h name value old
  · obtain ⟨x, found, -⟩ := Option.map_eq_some_iff.mp new
    have same := List.find?_some found
    exact eq_of_beq same ▸ h' x (List.mem_of_find?_eq_some found)

theorem Builder.FramePart.isTagName (part : FramePart) : IsTagName part.tag := by
  cases part <;> decide

namespace Builder

variable {b c : Builder} {token : Token} {tokens : List Token}

/-! ## Tokens -/

/-- Elements without attributes of their own keep the shape. -/
theorem KeepsAttributes.isShaped (keeps : KeepsAttributes b c) (a : c.Arranged) (h : b.tree.IsShaped) :
    c.tree.IsShaped := by
  intro id e he
  rcases keeps.element? id e he with old | ⟨part, hid⟩
  · exact h id e old
  · obtain ⟨attributes, element⟩ := a.exists_element? hid
    cases he.symm.trans element
    refine ⟨part.isTagName, ?_⟩
    -- the element had these attributes before, or it is new and has none
    have now : c.attributesOf part = attributes := by
      rw [attributesOf, hid, Option.bind_some, element]
      rfl
    show attributes.IsNamed
    rw [← now, keeps.attributesOf_eq, attributesOf]
    cases old : (b.part? part).bind b.tree.element? with
    | none => exact Attributes.isNamed_empty
    | some e =>
      obtain ⟨n, -, he⟩ := Option.bind_eq_some_iff.mp old
      exact (h n e he).named

/-- **A token of a text keeps the shape of elements.** -/
theorem isShaped_step (changes : Changes {} b) (h : b.tree.IsShaped) (shaped : token.IsShaped) :
    (b.step token).tree.IsShaped := by
  have effect := changes.sound.tokenEffect_step token
  have next : (b.step token).Arranged := Changes.arranged (changes.trans (changes_step b token))
  generalize b.step token = after at effect next
  cases effect with
  | @frame c part id selfClosing attributes before keeps early hid =>
    have old := keeps.isShaped (Changes.arranged (changes.trans before)) h
    intro n e he
    rw [Builder.merge, Tree.element?_modifyAttributes] at he
    split at he
    · obtain ⟨before, hbefore, rfl⟩ := Option.map_eq_some_iff.mp he
      have earlier := old n before hbefore
      exact ⟨earlier.tag, earlier.named.merge shaped.2.1⟩
    · exact old n e he
  | @element c name selfClosing attributes before keeps =>
    have old := keeps.isShaped (Changes.arranged (changes.trans before)) h
    intro n e he
    rw [addElement_eq, Tree.element?_append (changes.sound.changes before).current_lt_size] at he
    split at he
    · cases he
      exact ⟨shaped.1, Attributes.isNamed_empty.merge shaped.2.1⟩
    · exact old n e he
  | other _ keeps => exact keeps.isShaped next h

/-- So does a row of tokens. -/
theorem isShaped_foldl (tokens : List Token) : ∀ {b : Builder}, Changes {} b → b.tree.IsShaped →
    (∀ token ∈ tokens, token.IsShaped) → (tokens.foldl step b).tree.IsShaped := by
  induction tokens with
  | nil => exact fun _ h _ => h
  | cons token tokens ih =>
    intro b changes h shaped
    obtain ⟨first, others⟩ := List.forall_mem_cons.mp shaped
    exact ih (changes.trans (changes_step b token)) (isShaped_step changes h first) others

end Builder

/-! ## Documents -/

namespace Tree

theorem isShaped_empty : IsShaped .empty := by
  intro id e he
  cases id with
  | zero => cases he
  | succ n =>
    rw [element?_eq, get?_empty_succ] at he
    cases he

theorem isShaped_ofTokens {tokens : List Token} (shaped : ∀ token ∈ beforeEnd tokens, token.IsShaped) :
    (ofTokens tokens).IsShaped := by
  have changes := Builder.changes_after (beforeEnd tokens)
  have ended := changes.trans (Builder.changes_endText (Builder.after (beforeEnd tokens)))
  have whole := ended.trans (Builder.quiet_withBody _).changes
  have keeps := (Builder.KeepsAttributes.endText changes.sound).trans (.withBody (Builder.Changes.sound ended))
  exact keeps.isShaped (Builder.Changes.arranged whole) (Builder.isShaped_foldl _ .refl isShaped_empty shaped)

/-- **The elements of a document have names as in markup.** -/
theorem isShaped_parse (html : String) : (parse html).IsShaped := by
  refine isShaped_ofTokens fun token mem => ?_
  have inside := List.all_eq_true.mp List.all_takeWhile token mem
  exact isShaped_of_mem_tokenize ((List.takeWhile_sublist _).subset mem) (bne_iff_ne.mp inside)

end Tree

end HtmlQuery
