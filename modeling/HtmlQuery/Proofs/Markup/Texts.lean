import HtmlQuery.Proofs.Markup.OpenElements
import HtmlQuery.Proofs.Tree.Texts

/-!
# The text of a document

The builder collects characters and puts them into the tree when another token ends the text. No text is behind the
place where they go, as long as the head is opened again only before there is a body. So what the tree and the collected
text hold together only grows at its end.

* `Builder.Legible`, `Legible.change` — the texts stand in order, and new text comes last;
* `Builder.written`, `Builder.Quiet.written_eq` — what has been written, and that only characters change it;
* `Builder.exists_written_foldl` — what a run of tokens writes;
* `Tree.ofTokens_text` — the text of a document.
-/

namespace HtmlQuery

open Text

namespace Builder

open HtmlQuery.Tree (root)

variable {b b' : Builder} {id html head body : NodeId} {kind : NodeKind} {path : List NodeId}

/-! ## The order of the texts -/

/-- What the changes keep of the texts. -/
structure Legible (b : Builder) : Prop where
  inOrder : b.tree.TextsInOrder
  /-- No text comes behind the place for new content. -/
  atEnd : b.tree.AtEnd b.current
  /-- Without a body, text is in the head only, which can be opened again. -/
  below_head : b.body = none → ∀ x, (b.tree.text? x).isSome → ∃ head ∈ b.head, b.tree.IsAncestor head x
  ne_empty : "" ∉ b.tree.texts

theorem legible_initial : Legible {} where
  inOrder := Tree.textsInOrder_empty
  atEnd := Tree.wellFormed_empty.atEnd_root
  below_head _ x hx := by
    rw [Tree.text?_empty] at hx
    cases hx
  ne_empty := List.not_mem_nil

/-- Text before the body goes to the head. -/
theorem Sound.exists_head (s : b.Sound) (text : b.pending.isEmpty = false) (hbody : b.body = none) :
    ∃ head ∈ b.head, b.tree.IsInclusiveAncestor head b.current := by
  cases s.frame with
  | beforeHtml _ _ _ _ hstack =>
    have between : b.betweenElements = true := by rw [betweenElements, hstack]; rfl
    rw [s.isEmpty_pending between] at text
    cases text
  | outsideHead _ hhtml _ hstack =>
    rw [s.isEmpty_pending_of_stack hhtml hstack] at text
    cases text
  | insideHead _ _ hhead _ hstack =>
    exact ⟨_, hhead, s.isInclusiveAncestor_current (hstack.subset List.mem_cons_self)⟩
  | insideBody _ _ _ hbody' =>
    cases hbody.symm.trans hbody'

namespace Legible

variable (l : b.Legible) (s : b.Sound)
include l s

/-- No text comes behind an open element. -/
theorem atEnd_of_suffix (h : path <:+ b.stack) : b.tree.AtEnd (path.headD root) := by
  cases path with
  | nil => exact s.sequential.atEnd_root
  | cons id path => exact l.atEnd.above (s.isInclusiveAncestor_current (h.subset List.mem_cons_self))

/-- A node is added to an open element or to the document, and perhaps opened. -/
theorem grown (kind : NodeKind) (hpath : path <:+ b.stack) (htree : b'.tree = b.tree.append (path.headD root) kind)
    (hstack : b'.stack = path ∨ b'.stack = b.tree.size :: path)
    (hbody : b'.body = none → b.body = none ∧ ∀ head ∈ b.head, head ∈ b'.head)
    (place : kind.text? = none ∨ kind.text? ≠ some "" ∧
      (b.body = none → ∃ head ∈ b.head, b.tree.IsInclusiveAncestor head (path.headD root))) : b'.Legible := by
  have hp := s.headD_lt_size hpath
  have last := l.atEnd_of_suffix s hpath
  refine ⟨?inOrder, ?atEnd, ?below_head, ?ne_empty⟩
  case inOrder =>
    rw [htree]
    exact l.inOrder.append s.sequential hp (.inr last)
  case atEnd =>
    rw [htree]
    refine last.append s.sequential hp kind ?_
    rw [current]
    rcases hstack with hstack | hstack
    · exact .inl (by rw [hstack])
    · exact .inr (by rw [hstack]; rfl)
  case below_head =>
    intro h x hx
    obtain ⟨none, kept⟩ := hbody h
    rw [htree, Tree.text?_append hp] at hx
    by_cases new : x = b.tree.size
    · rw [if_pos new] at hx
      obtain ⟨-, place⟩ := place.resolve_left fun plain => by rw [plain] at hx; cases hx
      obtain ⟨head, hhead, above⟩ := place none
      refine ⟨head, kept head hhead, ?_⟩
      rw [htree]
      exact (s.sequential.isAncestor_append hp kind).mpr (.inr ⟨new, above⟩)
    · rw [if_neg new] at hx
      obtain ⟨head, hhead, above⟩ := l.below_head none x hx
      refine ⟨head, kept head hhead, ?_⟩
      rw [htree]
      exact (s.sequential.isAncestor_append hp kind).mpr (.inl above)
  case ne_empty =>
    rw [htree, Tree.texts_append hp, List.mem_append, not_or]
    refine ⟨l.ne_empty, fun mem => ?_⟩
    rw [Option.mem_toList] at mem
    rcases place with plain | ⟨ne, -⟩
    · cases plain.symm.trans mem
    · exact ne mem

/-- Content is added to the current node. -/
theorem append (kind : NodeKind) {pending : String}
    (place : kind.text? = none ∨ kind.text? ≠ some "" ∧ b.pending.isEmpty = false) :
    Legible { b.append kind with pending } :=
  l.grown s kind List.suffix_rfl rfl (.inl rfl) (fun h => ⟨h, fun _ => id⟩)
    (place.imp_right fun text => ⟨text.1, s.exists_head text.2⟩)

theorem addElement (name : String) (selfClosing : Bool) (attributes : List Attribute) :
    (b.addElement name selfClosing attributes).Legible := by
  rw [addElement_eq]
  refine l.grown s _ List.suffix_rfl rfl ?_ (fun h => ⟨h, fun _ => id⟩) (.inl rfl)
  dsimp only
  split
  · exact .inl rfl
  · exact .inr rfl

theorem reopenHead (hmode : b.mode ≠ .inBody) (hhead : b.head = some head) :
    Legible { b with stack := head :: b.stack } := by
  refine ⟨l.inOrder, fun y behind => ?_, l.below_head, l.ne_empty⟩
  cases text : b.tree.text? y with
  | none => rfl
  | some data =>
    -- a text is still below the head, so it cannot come behind it
    obtain ⟨head', hhead', above⟩ := l.below_head (s.mode_ne_inBody_iff.mp hmode) y (by rw [text]; rfl)
    cases hhead.symm.trans hhead'
    exact absurd above.inclusive (behind.not_isInclusiveAncestor s.sequential.toWellFormed)

/-- **Every elementary change keeps the texts in order.** -/
theorem change (h : Change b b') : b'.Legible := by
  cases h with
  | collect => exact ⟨l.inOrder, l.atEnd, l.below_head, l.ne_empty⟩
  | endText text =>
    rw [endText_of_isEmpty_eq_false text]
    refine l.append s _ (.inr ⟨fun eq => ?_, text⟩)
    rw [Option.some.inj eq] at text
    cases text
  | comment data empty => exact l.append s _ (.inl rfl)
  | openHtml hhtml =>
    obtain ⟨hhead, -, hstack⟩ := s.of_html_eq_none hhtml
    rw [withHtml_of_none hhtml]
    exact l.grown s (.element (.ofTag "html")) List.suffix_rfl (by rw [hstack]; rfl) (.inr rfl)
      (fun h => ⟨h, fun _ => id⟩) (.inl rfl)
  | openHead hhtml hhead =>
    obtain ⟨-, -, hstack⟩ := s.of_head_eq_none hhtml hhead
    rw [withHead_of_none hhtml hhead]
    refine l.grown s (.element (.ofTag "head")) List.suffix_rfl (by rw [hstack]; rfl) (.inr rfl)
      (fun h => ⟨h, fun head hhead' => ?_⟩) (.inl rfl)
    cases hhead.symm.trans hhead'
  | openBody hhtml hhead hbody =>
    rw [withBody_of_none hhtml hhead hbody, s.popTo_html hhtml]
    exact l.grown s _ (s.html_suffix hhtml) rfl (.inr rfl) (fun h => absurd h (Option.some_ne_none _)) (.inl rfl)
  | @merge id attributes =>
    refine ⟨l.inOrder.modifyAttributes id (Attributes.merge · attributes), ?_, ?_, ?_⟩
    · exact (Tree.atEnd_modifyAttributes ..).mpr l.atEnd
    · simpa [Builder.merge] using l.below_head
    · rw [Builder.merge, Tree.texts_modifyAttributes]
      exact l.ne_empty
  | reopenHead hmode hhead => exact l.reopenHead s hmode hhead
  | headElement selfClosing attributes => exact l.addElement s _ selfClosing attributes
  | bodyElement name selfClosing attributes => exact l.addElement s name selfClosing attributes
  | close => exact ⟨l.inOrder, l.atEnd_of_suffix s (popThrough_suffix _ _), l.below_head, l.ne_empty⟩

end Legible

/-- The texts are kept in order by every sequence of changes. -/
theorem Changes.legible (h : Changes {} b) : b.Legible := by
  induction h with
  | refl => exact legible_initial
  | tail changes change ih => exact ih.change (Changes.sound changes) change

/-! ## What has been written -/

/-- The text of the tree, then the characters that have been collected. -/
def written (b : Builder) : List Char := b.tree.texts.flatMap String.toList ++ b.pending.toList

/-- A node that is no text is added. -/
theorem written_eq_of_append {p : NodeId} (hp : p < b.tree.size) (htree : b'.tree = b.tree.append p kind)
    (plain : kind.text? = none) (hpending : b'.pending = b.pending) : b'.written = b.written := by
  rw [written, htree, Tree.texts_append hp, plain, hpending, Option.toList_none, List.append_nil, written]

theorem written_endText (s : b.Sound) : b.endText.written = b.written := by
  unfold endText
  split
  · rfl
  · show ((b.tree.append b.current (.text b.pending)).texts.flatMap String.toList) ++ "".toList = _
    rw [Tree.texts_append s.current_lt_size, written]
    simp [NodeKind.text?]

theorem Change.written_eq (s : b.Sound) (h : Change b b') (quiet : b'.pending = b.pending) :
    b'.written = b.written := by
  cases h with
  | collect c =>
    -- this change is not quiet
    exact absurd (congrArg String.length quiet) (by simp)
  | endText text => exact written_endText s
  | comment => exact written_eq_of_append s.current_lt_size rfl rfl rfl
  | openHtml hhtml =>
    rw [withHtml_of_none hhtml]
    exact written_eq_of_append s.sequential.root_lt_size rfl rfl rfl
  | openHead hhtml hhead =>
    rw [withHead_of_none hhtml hhead]
    exact written_eq_of_append (s.html_lt_size hhtml) rfl rfl rfl
  | openBody hhtml hhead hbody =>
    rw [withBody_of_none hhtml hhead hbody]
    exact written_eq_of_append (s.html_lt_size hhtml) rfl rfl rfl
  | merge => rw [written, Builder.merge, Tree.texts_modifyAttributes, written]
  | headElement | bodyElement =>
    rw [addElement_eq]
    exact written_eq_of_append s.current_lt_size rfl rfl rfl
  | reopenHead | close => rfl

theorem Quiet.written_eq (s : b.Sound) (h : Quiet b b') : b'.written = b.written := by
  induction h with
  | refl => rfl
  | tail before change ih => exact (change.1.written_eq (s.changes (Quiet.changes before)) change.2).trans ih

end Builder

/-! ## What tokens write -/

/-- The character of a token that is one. -/
def Token.character? : Token → Option Char
  | .character c => some c
  | _ => none

/-- The characters of the tokens up to the end of the text. -/
def charactersOf (tokens : List Token) : List Char :=
  (tokens.takeWhile (· != .endOfFile)).filterMap Token.character?

/-- `kept` is the text `cs` without some of its blanks. -/
structure KeptOf (kept cs : List Char) : Prop where
  sublist : kept.Sublist cs
  filter_eq : kept.filter (!isBlank ·) = cs.filter (!isBlank ·)

namespace KeptOf

variable {kept cs kept' cs' : List Char}

theorem refl (cs : List Char) : KeptOf cs cs := ⟨.refl cs, rfl⟩

theorem blank {c : Char} (h : isBlank c = true) : KeptOf [] [c] where
  sublist := List.nil_sublist _
  filter_eq := by simp [h]

theorem append (h : KeptOf kept cs) (h' : KeptOf kept' cs') : KeptOf (kept ++ kept') (cs ++ cs') where
  sublist := h.sublist.append h'.sublist
  filter_eq := by rw [List.filter_append, List.filter_append, h.filter_eq, h'.filter_eq]

end KeptOf

namespace Builder

variable {b : Builder}

theorem written_push (b : Builder) (c : Char) : written { b with pending := b.pending.push c } = b.written ++ [c] := by
  simp [written]

/-- A character is written, unless it is a blank between elements. -/
theorem exists_written_character (s : b.Sound) (c : Char) :
    ∃ kept, (b.character c).written = b.written ++ kept ∧ KeptOf kept [c] := by
  unfold character
  split
  · split
    case isTrue blank => exact ⟨[], (List.append_nil _).symm, .blank blank⟩
    case isFalse =>
      have quiet := quiet_withBody b
      refine ⟨[c], ?_, .refl _⟩
      rw [← quiet.written_eq s]
      exact written_push b.withBody.1 c
  · exact ⟨[c], written_push b c, .refl _⟩

/-- **A token writes its character or nothing.** -/
theorem exists_written_step (s : b.Sound) (token : Token) :
    ∃ kept, (b.step token).written = b.written ++ kept ∧ KeptOf kept token.character?.toList := by
  have nothing (noText : ∀ c, token ≠ .character c) (noEnd : token ≠ .endOfFile) :
      (b.step token).written = b.written ++ [] := by
    rw [(quiet_step b noText noEnd).written_eq (s.changes (changes_endText b)), written_endText s, List.append_nil]
  cases token with
  | character c => exact exists_written_character s c
  | endOfFile => exact ⟨[], (List.append_nil _).symm, .refl _⟩
  | startTag | endTag | comment => exact ⟨[], nothing nofun nofun, .refl _⟩

/-- A run of tokens writes its characters. -/
theorem exists_written_foldl : ∀ (tokens : List Token) {b : Builder}, b.Sound →
    ∃ kept, (tokens.foldl step b).written = b.written ++ kept ∧ KeptOf kept (tokens.filterMap Token.character?)
  | [], b, _ => ⟨[], (List.append_nil _).symm, .refl _⟩
  | token :: tokens, b, s => by
    obtain ⟨kept, first, h⟩ := exists_written_step s token
    obtain ⟨kept', rest, h'⟩ := exists_written_foldl tokens (s.changes (changes_step b token))
    refine ⟨kept ++ kept', ?_, ?_⟩
    · rw [List.foldl_cons, rest, first, List.append_assoc]
    · have front : (token :: tokens).filterMap Token.character? =
          token.character?.toList ++ tokens.filterMap Token.character? := by
        rw [List.filterMap_cons]
        cases token.character? <;> rfl
      rw [front]
      exact h.append h'

end Builder

/-! ## Documents -/

namespace Tree

/-- The characters of the text nodes in a list of nodes. -/
def textOf (t : Tree) (ids : List NodeId) : List Char := (ids.filterMap t.text?).flatMap String.toList

/-- When all tokens have been read, everything that was written is in the tree. -/
theorem keptOf_texts_ofTokens (tokens : List Token) :
    KeptOf ((ofTokens tokens).texts.flatMap String.toList) (charactersOf tokens) := by
  obtain ⟨kept, run, h⟩ := Builder.exists_written_foldl (tokens.takeWhile (· != .endOfFile)) Builder.sound_initial
  have s := Builder.sound_initial.changes (Builder.changes_foldl (tokens.takeWhile (· != .endOfFile)) {})
  unfold ofTokens Builder.finish
  generalize (tokens.takeWhile (· != .endOfFile)).foldl Builder.step {} = b at run s
  have quiet := Builder.quiet_withBody b.endText
  have whole : b.endText.withBody.1.written = kept := by
    rw [quiet.written_eq (s.changes (Builder.changes_endText b)), Builder.written_endText s, run]
    rfl
  rw [Builder.written, quiet.pending_eq, String.isEmpty_iff.mp (Builder.isEmpty_pending_endText b)] at whole
  rw [String.toList_empty, List.append_nil] at whole
  rw [whole]
  exact h

/-- **The text of a document is what its tokens write.** In document order it is the row of their characters without
some of the blanks, and no text node is empty. -/
theorem ofTokens_text (tokens : List Token) : ∃ order,
    (ofTokens tokens).DocumentOrder ((ofTokens tokens).children root) order ∧
    ((ofTokens tokens).textOf order).Sublist (charactersOf tokens) ∧
    ((ofTokens tokens).textOf order).filter (!isBlank ·) = (charactersOf tokens).filter (!isBlank ·) ∧
    ∀ id, (ofTokens tokens).text? id ≠ some "" := by
  have kept := keptOf_texts_ofTokens tokens
  obtain ⟨b, changes, -, eq⟩ := ofTokens_eq tokens
  have seq := changes.sound.sequential
  have l := changes.legible
  have order := seq.documentOrder_descendants root
  rw [eq] at kept ⊢
  rw [← l.inOrder.filterMap_text?_documentOrder seq order] at kept
  refine ⟨_, order, kept.sublist, kept.filter_eq, fun id empty => l.ne_empty ?_⟩
  exact List.mem_filterMap.mpr ⟨id, List.mem_range.mpr (lt_size_of_text? (by rw [empty]; rfl)), empty⟩

end Tree

end HtmlQuery
