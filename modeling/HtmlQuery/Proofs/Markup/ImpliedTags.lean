import HtmlQuery.Proofs.Markup.ClosedNodes
import HtmlQuery.Proofs.Tree.Grafting

/-!
# Implied tags

A document may leave out its `html` and `body` tags: the builder adds these elements where content asks for them. Blanks
and end tags ask for nothing, so a tag that is written at the very beginning gives the same tree as one that is left
out, provided that the first content is not such as stands outside of the element.

* `Token.isFiller`, `Token.BeginsBody` — what asks for nothing, and what asks for the body;
* `Builder.finish_foldl_eq` — two builders that the first content makes equal;
* `Tree.ofTokens_implied` — both tags. For the `html` tag the condition is exact.
-/

namespace HtmlQuery

open Text

/-! ## Content -/

namespace Token

def isEndTag : Token → Bool
  | .endTag _ => true
  | _ => false

/-- Blanks and end tags are no content. -/
def isFiller : Token → Bool
  | .character c => isBlank c
  | token => token.isEndTag

/-- Content of the body, or the end of the text. Blanks, comments and what belongs to the frame or to the head do not
begin the body. -/
def BeginsBody : Token → Prop
  | .character c => isBlank c = false
  | .startTag name _ _ => name ≠ "html" ∧ name ≠ "head" ∧ isHeadName name = false
  | .endOfFile => True
  | .endTag _ | .comment _ => False

instance : DecidablePred BeginsBody
  | .character c => inferInstanceAs (Decidable (isBlank c = false))
  | .startTag _ _ _ => inferInstanceAs (Decidable (_ ∧ _ ∧ _))
  | .endOfFile => inferInstanceAs (Decidable True)
  | .endTag _ | .comment _ => inferInstanceAs (Decidable False)

end Token

/-- The search for the first content ends at the end of the text. -/
theorem find?_takeWhile_endOfFile {idle : Token → Bool} (content : idle .endOfFile = false) : ∀ tokens : List Token,
    (tokens.takeWhile (· != .endOfFile)).find? (!idle ·) = (tokens.find? (!idle ·)).filter (· != .endOfFile)
  | [] => rfl
  | token :: tokens => by
    by_cases last : token = .endOfFile
    · subst last
      rw [List.takeWhile_cons_of_neg (by simp), List.find?_cons_of_pos (by simp [content])]
      rfl
    · rw [List.takeWhile_cons_of_pos (by simpa using last), List.find?_cons, List.find?_cons,
        find?_takeWhile_endOfFile content tokens]
      cases idle token with
      | true => rfl
      | false => exact (Option.filter_some_pos (by simpa using last)).symm

namespace Builder

open HtmlQuery.Tree (root)

variable {b b' : Builder} {token : Token} {tokens : List Token}

/-! ## Two runs that meet -/

/-- Two builders that stay as they are up to the first content end alike if this content, or without it the end of the
text, makes them alike. -/
theorem finish_foldl_eq {idle : Token → Bool}
    (stays : ∀ token, idle token = true → b.step token = b ∧ b'.step token = b') (ended : b.finish = b'.finish) :
    ∀ {tokens : List Token}, (∀ token ∈ tokens.find? (!idle ·), b.step token = b'.step token) →
      (tokens.foldl step b).finish = (tokens.foldl step b').finish
  | [], _ => ended
  | token :: tokens, meet => by
    rw [List.foldl_cons, List.foldl_cons]
    cases h : idle token with
    | true =>
      obtain ⟨same, same'⟩ := stays token h
      rw [same, same']
      refine finish_foldl_eq stays ended fun first hfirst => meet first ?_
      rwa [List.find?_cons_of_neg (by simp [h])]
    | false => rw [meet token (List.find?_cons_of_pos (by simp [h]))]

/-! ## Builders without content -/

/-- Only the `html` element and the body are open, and no text waits. -/
structure Vacant (b : Builder) : Prop where
  pending : b.pending = ""
  stack : ∀ id ∈ b.stack, b.head ≠ some id ∧ (b.html = some id ∨ b.body = some id)

namespace Vacant

variable (v : b.Vacant)
include v

/-- There is nothing to close. -/
theorem step_endTag (name : String) : b.step (.endTag name) = b := by
  have kept {p : NodeId → Bool} (h : ∀ id ∈ b.stack, p id = false) : { b with stack := popThrough p b.stack } = b := by
    rw [popThrough_of_forall h]
  rw [step, endText_of_pending_eq v.pending, endTag]
  split
  · rfl
  · split
    · exact kept fun id hid => beq_eq_false_iff_ne.mpr (v.stack id hid).1
    · refine kept fun id hid => ?_
      rw [closes]
      rcases (v.stack id hid).2 with hhtml | hbody
      · simp [hhtml]
      · simp [hbody]

/-- Outside the body nothing but the `html` element can be open. -/
theorem betweenElements (hbody : b.body = none) : b.betweenElements = true := by
  rw [Builder.betweenElements, current]
  cases hs : b.stack with
  | nil => rfl
  | cons id rest =>
    have place := (v.stack id (hs ▸ List.mem_cons_self)).2
    rw [hbody] at place
    simp [place.resolve_right (Option.some_ne_none id).symm]

theorem step_filler (hbody : b.body = none) (h : token.isFiller = true) : b.step token = b := by
  cases token with
  | endTag name => exact v.step_endTag name
  | character c =>
    rw [step, character, if_pos (v.betweenElements hbody)]
    exact if_pos h
  | startTag | comment | endOfFile => cases h

theorem foldl_filler (hbody : b.body = none) : ∀ {tokens : List Token}, (∀ token ∈ tokens, token.isFiller = true) →
    tokens.foldl step b = b
  | [], _ => rfl
  | token :: tokens, h => by
    rw [List.foldl_cons, v.step_filler hbody (h token List.mem_cons_self)]
    exact foldl_filler hbody fun other mem => h other (List.mem_cons_of_mem _ mem)

end Vacant

/-! ## Written and implied tags -/

/-- A tag without attributes gives its element nothing. -/
theorem merge_nil (b : Builder) (id : NodeId) : b.merge id [] = b := by
  have same : b.tree.modifyAttributes id (Attributes.merge · []) = b.tree := by
    refine Tree.ext_get? fun n => ?_
    rw [Tree.get?_modifyAttributes]
    split
    · cases b.tree.get? n with
      | none => rfl
      | some node =>
        obtain ⟨kind, parent, children⟩ := node
        cases kind <;> rfl
    · rfl
  rw [merge, same]

/-- `withBody` begins with `withHtml`. -/
theorem withBody_withHtml (h : b.body = none) : b.withHtml.1.withBody = b.withBody := by
  rw [← withBody_withHead ((withHtml_keeps b).1.trans h), withHead_withHtml, withBody_withHead h]

/-- Between elements, a character that is no blank is the first of the body. -/
theorem character_of_betweenElements {c : Char} (h : b.betweenElements = true) (plain : isBlank c = false) :
    b.character c = { b.withBody.1 with pending := b.withBody.1.pending.push c } := by
  rw [character, if_pos h]
  exact if_neg (Bool.eq_false_iff.mp plain)

/-- A start tag of the body adds its element there, or its attributes to the body itself. -/
theorem startTag_of_beginsBody {name : String} {selfClosing : Bool} {attributes : List Attribute}
    (content : (Token.startTag name selfClosing attributes).BeginsBody) (b : Builder) :
    b.startTag name selfClosing attributes =
      if name = "body" then b.withBody.1.merge b.withBody.2 attributes
      else b.withBody.1.addElement name selfClosing attributes := by
  obtain ⟨hhtml, hhead, hname⟩ := content
  rw [startTag, if_neg hhtml, if_neg fun h => hhead h.1]
  congr 1
  exact if_neg fun h => absurd h.2 (Bool.eq_false_iff.mp hname)

/-- A start tag only depends on what it finds of the frame. -/
theorem startTag_congr (hhtml : b'.withHtml = b.withHtml) (hhead : b'.withHead = b.withHead)
    (hbody : b'.withBody = b.withBody) (hmode : b'.mode ≠ .inBody ↔ b.mode ≠ .inBody) (name : String)
    (selfClosing : Bool) (attributes : List Attribute) :
    b'.startTag name selfClosing attributes = b.startTag name selfClosing attributes := by
  simp only [startTag, hhtml, hhead, hbody, hmode]

/-- At the end the frame is completed, so that its tags need not be written. -/
theorem finish_withHtml (hpending : b.pending = "") (hbody : b.body = none) : b.withHtml.1.finish = b.finish := by
  rw [finish, finish, endText_of_pending_eq hpending, endText_of_pending_eq ((withHtml_keeps b).2.1.trans hpending),
    withBody_withHtml hbody]

theorem finish_withBody (hpending : b.pending = "") : b.withBody.1.finish = b.finish := by
  rw [finish, finish, endText_of_pending_eq hpending,
    endText_of_pending_eq ((quiet_withBody b).pending_eq.trans hpending), withBody_of_some (body_withBody b)]

namespace Sound

variable (s : b.Sound)
include s

theorem vacant_of_html_eq_none (h : b.html = none) : b.Vacant := by
  obtain ⟨-, -, hstack⟩ := s.of_html_eq_none h
  refine ⟨String.isEmpty_iff.mp (s.isEmpty_pending ?_), ?_⟩
  · rw [betweenElements, hstack]
    rfl
  · rw [hstack]
    exact fun _ mem => absurd mem List.not_mem_nil

theorem vacant_withHtml (h : b.html = none) : b.withHtml.1.Vacant := by
  obtain ⟨hhead, -, hstack⟩ := s.of_html_eq_none h
  have hpending := (s.vacant_of_html_eq_none h).pending
  rw [withHtml_of_none h]
  refine ⟨hpending, fun id hid => ⟨?_, .inl ?_⟩⟩
  · rw [show _ = none from hhead]
    nofun
  · rw [hstack, List.mem_singleton] at hid
    rw [hid]

/-- When the body is opened, everything else but the `html` element is closed. -/
theorem vacant_withBody (v : b.Vacant) (hbody : b.body = none) : b.withBody.1.Vacant := by
  have s' := s.changes (quiet_withHead b).changes
  have hhtml := html_withHead b
  have hhead := head_withHead b
  have hpending := (withHead_keeps b).2.1.trans v.pending
  rw [← withBody_withHead hbody, withBody_of_none hhtml hhead ((withHead_keeps b).1.trans hbody), s'.popTo_html hhtml]
  generalize b.withHead.1 = c at s' hhtml hhead hpending
  refine ⟨hpending, fun id hid => ?_⟩
  rcases List.mem_cons.mp hid with rfl | hid
  · exact ⟨fun eq => Nat.lt_irrefl _ (s'.head_lt_size eq), .inr rfl⟩
  · cases List.mem_singleton.mp hid
    exact ⟨fun eq => Nat.lt_irrefl _ (s'.html_lt_head hhtml eq), .inl hhtml⟩

/-- What comes first in the `html` element adds this element if it is not there. -/
theorem step_withHtml (h : b.html = none) (content : token.isFiller = false)
    (inside : ∀ data, token ≠ .comment data) (more : token ≠ .endOfFile) : b.withHtml.1.step token = b.step token := by
  obtain ⟨-, hbody, -⟩ := s.of_html_eq_none h
  have v := s.vacant_of_html_eq_none h
  have v' := s.vacant_withHtml h
  have hbody' := (withHtml_keeps b).1.trans hbody
  cases token with
  | character c =>
    rw [step, step, character_of_betweenElements (v.betweenElements hbody) content,
      character_of_betweenElements (v'.betweenElements hbody') content, withBody_withHtml hbody]
  | startTag name selfClosing attributes =>
    rw [step, step, endText_of_pending_eq v.pending, endText_of_pending_eq v'.pending]
    exact startTag_congr (withHtml_of_some (html_withHtml b)) (withHead_withHtml b) (withBody_withHtml hbody)
      ⟨fun _ => s.mode_ne_inBody_iff.mpr hbody, (withHtml_keeps b).2.2⟩ name selfClosing attributes
  | endTag name => cases content
  | comment data => exact absurd rfl (inside data)
  | endOfFile => exact absurd rfl more

/-- What comes first in the body adds this element if it is not there. -/
theorem step_withBody (v : b.Vacant) (hbody : b.body = none) (content : token.BeginsBody)
    (more : token ≠ .endOfFile) : b.withBody.1.step token = b.step token := by
  have v' := s.vacant_withBody v hbody
  have body : b.withBody.1.body = some b.withBody.2 := body_withBody b
  have again : b.withBody.1.withBody = b.withBody := withBody_of_some body
  cases token with
  | character c =>
    have place : b.withBody.1.betweenElements = false :=
      (s.changes (quiet_withBody b).changes).betweenElements_of_body (by rw [body]; rfl)
    rw [step, step, character_of_betweenElements (v.betweenElements hbody) content, character, place,
      if_neg Bool.false_ne_true]
  | startTag name selfClosing attributes =>
    rw [step, step, endText_of_pending_eq v.pending, endText_of_pending_eq v'.pending, startTag_of_beginsBody content,
      startTag_of_beginsBody content, again]
  | endTag | comment => cases content
  | endOfFile => exact absurd rfl more

end Sound

/-- A comment that comes first is the first node of its document, unless the tag of the `html` element is written. -/
theorem ofTokens_ne_of_comment (selfClosing : Bool) {data : String}
    (h : tokens.find? (!Token.isFiller ·) = some (.comment data)) :
    Tree.ofTokens (.startTag "html" selfClosing [] :: tokens) ≠ Tree.ofTokens tokens := by
  have first : (tokens.takeWhile (· != .endOfFile)).find? (!Token.isFiller ·) = some (.comment data) := by
    rw [find?_takeWhile_endOfFile rfl, h]
    rfl
  obtain ⟨-, filler, rest, read, idle⟩ := List.find?_eq_some_iff_append.mp first
  have tag {b : Builder} (s : b.Sound) (v : b.Vacant) (hbody : b.body = none)
      (old : 1 < (b.step (.comment data)).tree.size) :
      ((tokens.takeWhile (· != .endOfFile)).foldl step b).finish.tag? 1 = (b.step (.comment data)).tree.tag? 1 := by
    have skipped : filler.foldl step b = b := v.foldl_filler hbody fun token mem => by simpa using idle token mem
    rw [read, List.foldl_append, skipped]
    exact (s.changes (changes_step b _)).tag?_finish rest old
  have s := sound_initial
  have s' := s.changes (quiet_withHtml {}).changes
  have implied := tag s (s.vacant_of_html_eq_none rfl) rfl (Nat.lt_succ_self 1)
  have written := tag s' (s.vacant_withHtml rfl) rfl (Nat.lt_succ_of_lt (Nat.lt_succ_self 1))
  rw [show ({} : Builder).withHtml.1 = ({} : Builder).step (.startTag "html" selfClosing []) from (merge_nil _ _).symm]
    at written
  intro same
  have eq := congrArg (·.tag? 1) same
  exact absurd (written.symm.trans (eq.trans implied)) nofun

end Builder

namespace Tree

open Builder

/-- **Implied tags are as good as written ones.** A tag without attributes at the very beginning changes nothing: for
`html` exactly if the first content is no comment, and for `body` if the first content is content of the body. -/
theorem ofTokens_implied (tokens : List Token) (selfClosing : Bool) :
    (ofTokens (.startTag "html" selfClosing [] :: tokens) = ofTokens tokens ↔
      ∀ data, tokens.find? (!Token.isFiller ·) ≠ some (.comment data)) ∧
    ((∀ token ∈ tokens.find? (!Token.isEndTag ·), token.BeginsBody) →
      ofTokens (.startTag "body" selfClosing [] :: tokens) = ofTokens tokens) := by
  have v := sound_initial.vacant_of_html_eq_none rfl
  have begins (name : String) : ofTokens (.startTag name selfClosing [] :: tokens) =
      ((tokens.takeWhile (· != .endOfFile)).foldl step (({} : Builder).startTag name selfClosing [])).finish := rfl
  have html : ({} : Builder).startTag "html" selfClosing [] = ({} : Builder).withHtml.1 := merge_nil _ _
  have body : ({} : Builder).startTag "body" selfClosing [] = ({} : Builder).withBody.1 := merge_nil _ _
  refine ⟨⟨fun same data h => ofTokens_ne_of_comment selfClosing h same, fun inside => ?_⟩, fun content => ?_⟩
  · rw [begins, html]
    have v' := sound_initial.vacant_withHtml rfl
    refine finish_foldl_eq (fun token idle => ⟨v'.step_filler rfl idle, v.step_filler rfl idle⟩)
      (finish_withHtml rfl rfl) fun token first => ?_
    rw [find?_takeWhile_endOfFile (by decide)] at first
    obtain ⟨first, more⟩ := Option.mem_filter_iff.mp first
    refine sound_initial.step_withHtml rfl ?_ (fun data eq => inside data (eq ▸ first)) (by simpa using more)
    simpa using List.find?_some first
  · rw [begins, body]
    have v' := sound_initial.vacant_withBody v rfl
    have stays {b : Builder} (v : b.Vacant) {token : Token} (idle : token.isEndTag = true) : b.step token = b := by
      cases token <;> first | exact v.step_endTag _ | cases idle
    refine finish_foldl_eq (fun token idle => ⟨stays v' idle, stays v idle⟩) (finish_withBody rfl) fun token first => ?_
    rw [find?_takeWhile_endOfFile (by decide)] at first
    obtain ⟨first, more⟩ := Option.mem_filter_iff.mp first
    exact sound_initial.step_withBody v rfl (content token first) (by simpa using more)

/-- An end tag in front of the first paragraph asks for nothing. -/
theorem ofTokens_implied_paragraph :
    (∀ token ∈ [.endTag "head", .startTag "p" false []].find? (!Token.isEndTag ·), token.BeginsBody) ∧
    ofTokens [.startTag "html" false [], .endTag "head", .startTag "p" false []] =
      ofTokens [.endTag "head", .startTag "p" false []] ∧
    ofTokens [.startTag "body" false [], .endTag "head", .startTag "p" false []] =
      ofTokens [.endTag "head", .startTag "p" false []] := by
  have content : ∀ token ∈ [.endTag "head", .startTag "p" false []].find? (!Token.isEndTag ·), token.BeginsBody := by
    rintro token ⟨⟩
    decide
  obtain ⟨html, body⟩ := ofTokens_implied [.endTag "head", .startTag "p" false []] false
  exact ⟨content, html.mpr fun data => nofun, body content⟩

end Tree

end HtmlQuery
