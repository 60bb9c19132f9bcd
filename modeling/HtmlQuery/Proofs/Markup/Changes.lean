import HtmlQuery.Markup.TreeBuilder
import Mathlib.Logic.Relation

/-!
# What the builder can do

Whatever the tokens are, the work of the builder consists of a few elementary changes. What each of them keeps is kept
by every run.

* `Builder.Change` — the elementary changes, each with what is known when it happens;
* `Builder.Quiet` — sequences of changes that leave the text alone, such as the frame and tags need;
* `Builder.changes_step` — what a token does is a sequence of changes;
* `Tree.ofTokens_eq` — a document is the tree of a builder that such a sequence leads to.
-/

namespace HtmlQuery

open Text

namespace Builder

variable {b : Builder}

/-- The elementary changes of a tree under construction. -/
inductive Change (b : Builder) : Builder → Prop
  /-- A character is added to the text that comes next. -/
  | collect (c : Char) : b.body.isSome ∨ b.betweenElements = false →
      Change b { b with pending := b.pending.push c }
  | endText : b.pending.isEmpty = false → Change b b.endText
  | comment (data : String) : b.pending.isEmpty → Change b (b.append (.comment data))
  | openHtml : b.html = none → Change b b.withHtml.1
  | openHead {html : NodeId} : b.html = some html → b.head = none → Change b b.withHead.1
  | openBody {html head : NodeId} : b.html = some html → b.head = some head → b.body = none → Change b b.withBody.1
  | merge {id : NodeId} (attributes : List Attribute) : b.html = some id ∨ b.head = some id ∨ b.body = some id →
      Change b (b.merge id attributes)
  /-- The head is opened again. -/
  | reopenHead {head : NodeId} : b.mode ≠ .inBody → b.head = some head → head ∉ b.stack →
      Change b { b with stack := head :: b.stack }
  | headElement {head : NodeId} {name : String} (selfClosing : Bool) (attributes : List Attribute) :
      b.pending.isEmpty → b.mode ≠ .inBody → b.head = some head → head ∈ b.stack → isHeadName name →
      Change b (b.addElement name selfClosing attributes)
  | bodyElement (name : String) (selfClosing : Bool) (attributes : List Attribute) :
      b.pending.isEmpty → b.body.isSome → Change b (b.addElement name selfClosing attributes)
  /-- Of the frame only the head can be closed. -/
  | close {p : NodeId → Bool} : b.pending.isEmpty →
      (∀ id, p id = true → b.head = some id ∨ b.html ≠ some id ∧ b.body ≠ some id) →
      Change b { b with stack := popThrough p b.stack }

/-- Elementary changes one after another. -/
abbrev Changes : Builder → Builder → Prop := Relation.ReflTransGen Change

/-- Elementary changes that leave the collected text alone. -/
abbrev Quiet : Builder → Builder → Prop :=
  Relation.ReflTransGen fun b b' => Change b b' ∧ b'.pending = b.pending

variable {b' : Builder}

theorem Quiet.changes (h : Quiet b b') : Changes b b' := Relation.ReflTransGen.mono (fun _ _ => And.left) _ _ h

theorem Quiet.pending_eq (h : Quiet b b') : b'.pending = b.pending := by
  induction h with
  | refl => rfl
  | tail _ change ih => exact change.2.trans ih

/-! ## Text -/

theorem isEmpty_pending_endText (b : Builder) : b.endText.pending.isEmpty = true := by
  unfold endText
  split
  · assumption
  · rfl

theorem endText_of_isEmpty_eq_false (h : b.pending.isEmpty = false) :
    b.endText = { b.append (.text b.pending) with pending := "" } := by
  rw [endText, if_neg (by rw [h]; exact Bool.false_ne_true)]

theorem endText_of_pending_eq (h : b.pending = "") : b.endText = b := by
  rw [endText, h]
  rfl

theorem changes_endText (b : Builder) : Changes b b.endText := by
  cases h : b.pending.isEmpty with
  | true =>
    rw [endText, if_pos h]
  | false => exact .single (.endText h)

/-! ## The frame -/

theorem withHtml_of_some {html : NodeId} (h : b.html = some html) : b.withHtml = (b, html) := by
  rw [withHtml, h]

theorem withHtml_of_none (h : b.html = none) :
    b.withHtml = ({ b with
      tree := b.tree.append Tree.root (.element (.ofTag "html"))
      stack := b.tree.size :: b.stack
      html := some b.tree.size
      mode := .inHead }, b.tree.size) := by
  rw [withHtml, h]

theorem withHead_of_some {html head : NodeId} (hhtml : b.html = some html) (h : b.head = some head) :
    b.withHead = (b, head) := by
  rw [withHead, withHtml_of_some hhtml]
  simp only [h]

theorem withHead_of_none {html : NodeId} (hhtml : b.html = some html) (h : b.head = none) :
    b.withHead = ({ b with
      tree := b.tree.append html (.element (.ofTag "head"))
      stack := b.tree.size :: b.stack
      head := some b.tree.size }, b.tree.size) := by
  rw [withHead, withHtml_of_some hhtml]
  simp only [h]

theorem withBody_of_some {body : NodeId} (h : b.body = some body) : b.withBody = (b, body) := by
  rw [withBody, h]

theorem withBody_of_none {html head : NodeId} (hhtml : b.html = some html) (hhead : b.head = some head)
    (h : b.body = none) :
    b.withBody = ({ b with
      tree := b.tree.append html (.element (.ofTag "body"))
      stack := b.tree.size :: popTo (· == html) b.stack
      body := some b.tree.size
      mode := .inBody }, b.tree.size) := by
  rw [withBody, h, withHtml_of_some hhtml]
  simp only [withHead_of_some hhtml hhead]

/-- After `withHtml` there is an `html` element. -/
theorem html_withHtml (b : Builder) : b.withHtml.1.html = some b.withHtml.2 := by
  cases h : b.html with
  | none => rw [withHtml_of_none h]
  | some html => rw [withHtml_of_some h, h]

/-- `withHead` begins with `withHtml`. -/
theorem withHead_withHtml (b : Builder) : b.withHtml.1.withHead = b.withHead := by
  cases h : b.html with
  | none => rw [withHead, withHtml_of_some (html_withHtml b), withHead]
  | some html => rw [withHtml_of_some h]

theorem html_withHead (b : Builder) : b.withHead.1.html = some b.withHtml.2 := by
  have hhtml := html_withHtml b
  rw [← withHead_withHtml]
  cases h : b.withHtml.1.head with
  | none => rw [withHead_of_none hhtml h, hhtml]
  | some head => rw [withHead_of_some hhtml h, hhtml]

/-- After `withHead` there is a `head` element. -/
theorem head_withHead (b : Builder) : b.withHead.1.head = some b.withHead.2 := by
  have hhtml := html_withHtml b
  rw [← withHead_withHtml]
  cases h : b.withHtml.1.head with
  | none => rw [withHead_of_none hhtml h]
  | some head => rw [withHead_of_some hhtml h, h]

/-- What `withHtml` leaves alone. -/
theorem withHtml_keeps (b : Builder) : b.withHtml.1.body = b.body ∧ b.withHtml.1.pending = b.pending ∧
    (b.mode ≠ .inBody → b.withHtml.1.mode ≠ .inBody) := by
  cases h : b.html with
  | none =>
    rw [withHtml_of_none h]
    exact ⟨rfl, rfl, fun _ => nofun⟩
  | some html =>
    rw [withHtml_of_some h]
    exact ⟨rfl, rfl, id⟩

/-- What `withHead` leaves alone. -/
theorem withHead_keeps (b : Builder) : b.withHead.1.body = b.body ∧ b.withHead.1.pending = b.pending ∧
    (b.mode ≠ .inBody → b.withHead.1.mode ≠ .inBody) := by
  have keeps := withHtml_keeps b
  rw [← withHead_withHtml]
  cases h : b.withHtml.1.head with
  | none =>
    rw [withHead_of_none (html_withHtml b) h]
    exact keeps
  | some head =>
    rw [withHead_of_some (html_withHtml b) h]
    exact keeps

/-- `withBody` begins with `withHead`. -/
theorem withBody_withHead (h : b.body = none) : b.withHead.1.withBody = b.withBody := by
  have hbody : b.withHead.1.body = none := (withHead_keeps b).1.trans h
  rw [withBody_of_none (html_withHead b) (head_withHead b) hbody]
  rw [withBody, h, ← withHead_withHtml]

/-- After `withBody` there is a `body` element. -/
theorem body_withBody (b : Builder) : b.withBody.1.body = some b.withBody.2 := by
  cases h : b.body with
  | some body => rw [withBody_of_some h, h]
  | none =>
    have hbody : b.withHead.1.body = none := (withHead_keeps b).1.trans h
    rw [← withBody_withHead h, withBody_of_none (html_withHead b) (head_withHead b) hbody]

theorem quiet_withHtml (b : Builder) : Quiet b b.withHtml.1 := by
  cases h : b.html with
  | none => exact .single ⟨.openHtml h, (withHtml_keeps b).2.1⟩
  | some html => rw [withHtml_of_some h]

theorem quiet_withHead (b : Builder) : Quiet b b.withHead.1 := by
  rw [← withHead_withHtml]
  cases h : b.withHtml.1.head with
  | none => exact (quiet_withHtml b).tail ⟨.openHead (html_withHtml b) h, (withHead_keeps _).2.1⟩
  | some head =>
    rw [withHead_of_some (html_withHtml b) h]
    exact quiet_withHtml b

theorem quiet_withBody (b : Builder) : Quiet b b.withBody.1 := by
  cases h : b.body with
  | some body => rw [withBody_of_some h]
  | none =>
    have hbody : b.withHead.1.body = none := (withHead_keeps b).1.trans h
    rw [← withBody_withHead h]
    refine (quiet_withHead b).tail ⟨.openBody (html_withHead b) (head_withHead b) hbody, ?_⟩
    rw [withBody_of_none (html_withHead b) (head_withHead b) hbody]

/-! ## Tokens -/

theorem changes_character (b : Builder) (c : Char) : Changes b (b.character c) := by
  unfold character
  split
  · split
    · exact .refl
    · have hbody : b.withBody.1.body.isSome := by rw [body_withBody]; rfl
      exact (quiet_withBody b).changes.tail (.collect c (.inl hbody))
  · rename_i h
    exact .single (.collect c (.inr (Bool.eq_false_iff.mpr h)))

/-- A start tag that is not one of the frame adds its element to the head or to the body. -/
theorem exists_addElement {name : String} (hhtml : name ≠ "html") (hhead : ¬ (name = "head" ∧ b.mode ≠ .inBody))
    (hbody : name ≠ "body") (selfClosing : Bool) (attributes : List Attribute) :
    ∃ c : Builder, Quiet b c ∧
      (c.body.isSome ∨ c.mode ≠ .inBody ∧ isHeadName name = true ∧ ∃ head ∈ c.stack, c.head = some head) ∧
      b.startTag name selfClosing attributes = c.addElement name selfClosing attributes ∧
      (c = b.withBody.1 ∨ ∃ stack, c = { b.withHead.1 with stack }) := by
  rw [startTag, if_neg hhtml, if_neg hhead, if_neg hbody]
  split
  case isTrue content =>
    -- an element of the head, which is opened again if it was closed
    have hmode := (withHead_keeps b).2.2 content.1
    have hhead := head_withHead b
    by_cases opened : b.withHead.2 ∈ b.withHead.1.stack
    · refine ⟨b.withHead.1, quiet_withHead b, .inr ⟨hmode, content.2, _, opened, hhead⟩, ?_, .inr ⟨_, rfl⟩⟩
      exact congrArg (addElement · name selfClosing attributes) (if_pos (List.contains_iff_mem.mpr opened))
    · refine ⟨_, (quiet_withHead b).tail ⟨.reopenHead hmode hhead opened, rfl⟩,
        .inr ⟨hmode, content.2, _, List.mem_cons_self, hhead⟩, ?_, .inr ⟨_, rfl⟩⟩
      exact congrArg (addElement · name selfClosing attributes) (if_neg (mt List.contains_iff_mem.mp opened))
  case isFalse =>
    refine ⟨b.withBody.1, quiet_withBody b, .inl ?_, rfl, .inl rfl⟩
    rw [body_withBody]
    rfl

theorem pending_addElement (b : Builder) (name : String) (selfClosing : Bool) (attributes : List Attribute) :
    (b.addElement name selfClosing attributes).pending = b.pending := by
  unfold addElement
  split <;> rfl

theorem quiet_startTag {name : String} (h : b.pending.isEmpty) (selfClosing : Bool) (attributes : List Attribute) :
    Quiet b (b.startTag name selfClosing attributes) := by
  by_cases hhtml : name = "html"
  · rw [startTag, if_pos hhtml]
    exact (quiet_withHtml b).tail ⟨.merge attributes (.inl (html_withHtml b)), rfl⟩
  by_cases hhead : name = "head" ∧ b.mode ≠ .inBody
  · rw [startTag, if_neg hhtml, if_pos hhead]
    exact (quiet_withHead b).tail ⟨.merge attributes (.inr (.inl (head_withHead b))), rfl⟩
  by_cases hbody : name = "body"
  · rw [startTag, if_neg hhtml, if_neg hhead, if_pos hbody]
    exact (quiet_withBody b).tail ⟨.merge attributes (.inr (.inr (body_withBody b))), rfl⟩
  obtain ⟨c, quiet, place, eq, -⟩ := exists_addElement hhtml hhead hbody selfClosing attributes
  have hempty : c.pending.isEmpty := by rw [quiet.pending_eq]; exact h
  have same := pending_addElement c name selfClosing attributes
  rw [eq]
  rcases place with body | ⟨hmode, isHead, head, opened, hhead⟩
  · exact quiet.tail ⟨.bodyElement name selfClosing attributes hempty body, same⟩
  · exact quiet.tail ⟨.headElement selfClosing attributes hempty hmode hhead opened isHead, same⟩

theorem quiet_endTag (h : b.pending.isEmpty) (name : String) : Quiet b (b.endTag name) := by
  unfold endTag
  split
  · exact .refl
  · split
    · refine .single ⟨.close h fun id hid => .inl ?_, rfl⟩
      exact eq_of_beq hid
    · refine .single ⟨.close h fun id hid => .inr ?_, rfl⟩
      simp only [closes, Bool.and_eq_true, bne_iff_ne] at hid
      exact ⟨hid.1.1.1, hid.1.2⟩

/-- Tags and comments end the text and then leave it alone. -/
theorem quiet_step (b : Builder) {token : Token} (noText : ∀ c, token ≠ .character c) (noEnd : token ≠ .endOfFile) :
    Quiet b.endText (b.step token) := by
  have hempty := isEmpty_pending_endText b
  cases token with
  | character c => exact absurd rfl (noText c)
  | startTag name selfClosing attributes => exact quiet_startTag hempty selfClosing attributes
  | endTag name => exact quiet_endTag hempty name
  | comment data => exact .single ⟨.comment data hempty, rfl⟩
  | endOfFile => exact absurd rfl noEnd

/-- **What a token does is a sequence of elementary changes.** -/
theorem changes_step (b : Builder) (token : Token) : Changes b (b.step token) := by
  cases token with
  | character c => exact changes_character b c
  | endOfFile => exact .refl
  | startTag | endTag | comment => refine (changes_endText b).trans (quiet_step b ?_ ?_).changes <;> nofun

theorem changes_foldl : ∀ (tokens : List Token) (b : Builder), Changes b (tokens.foldl step b)
  | [], _ => .refl
  | token :: tokens, b => (changes_step b token).trans (changes_foldl tokens (b.step token))

end Builder

/-- **A document is what elementary changes have made**, up to a builder that has a body. -/
theorem Tree.ofTokens_eq (tokens : List Token) :
    ∃ b : Builder, Builder.Changes {} b ∧ b.body.isSome ∧ ofTokens tokens = b.tree := by
  refine ⟨_, ?_, ?_, rfl⟩
  · exact ((Builder.changes_foldl _ {}).trans (Builder.changes_endText _)).trans (Builder.quiet_withBody _).changes
  · rw [Builder.body_withBody]
    rfl

end HtmlQuery
