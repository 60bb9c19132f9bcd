import HtmlQuery.Proofs.Markup.EndTags

/-!
# The modes of the builder

How far the frame of the document is shows in three places: in the mode, in the elements of the frame that are there,
and at the outer end of the open elements. Behind any tokens the three agree. What is open is a path in the tree, and
the characters that wait for their text node stand where text may stand.

* `Builder.Consistent` — what the parts of a builder say about each other;
* `Builder.Sound.consistent` — it holds between any two changes;
* `Builder.consistent_after` — so it holds behind any tokens.
-/

namespace HtmlQuery

namespace Builder

open HtmlQuery.Tree (root)

variable {b : Builder}

/-- The parts of a builder agree. The list of open elements begins with the innermost, so the outermost ones are a
suffix of it. -/
structure Consistent (b : Builder) : Prop where
  beforeHtml_iff : b.mode = .beforeHtml ↔ b.html = none ∧ b.head = none ∧ b.body = none ∧ b.stack = []
  /-- Before the body, only the head can be open directly in the `html` element. -/
  inHead_iff : b.mode = .inHead ↔ b.body = none ∧
    ∃ html, b.html = some html ∧ [html] <:+ b.stack ∧ ∀ x, [x, html] <:+ b.stack → b.head = some x
  /-- In the body, the head is closed. -/
  inBody_iff : b.mode = .inBody ↔ (∀ head ∈ b.head, head ∉ b.stack) ∧
    ∃ html body, b.html = some html ∧ b.body = some body ∧ [body, html] <:+ b.stack
  head_isSome : b.mode = .inBody → b.head.isSome = true
  nodup : b.stack.Nodup
  child : ∀ x y outer, (x :: y :: outer) <:+ b.stack → b.tree.parent? x = some y ∧ x ∈ b.tree.children y
  text_place : b.pending ≠ "" → b.current ≠ root ∧ b.html ≠ some b.current ∧ b.head ≠ some b.current

namespace Sound

variable (s : b.Sound)
include s

theorem beforeHtml_iff : b.mode = .beforeHtml ↔ b.html = none ∧ b.head = none ∧ b.body = none ∧ b.stack = [] := by
  constructor
  · intro hmode
    cases s.frame with
    | beforeHtml _ hhtml hhead hbody hstack => exact ⟨hhtml, hhead, hbody, hstack⟩
    | outsideHead mode | insideHead mode | insideBody mode => cases hmode.symm.trans mode
  · rintro ⟨hhtml, -⟩
    cases s.frame with
    | beforeHtml hmode => exact hmode
    | outsideHead _ hhtml' | insideHead _ hhtml' | insideBody _ hhtml' => cases hhtml.symm.trans hhtml'

theorem inHead_iff : b.mode = .inHead ↔ b.body = none ∧
    ∃ html, b.html = some html ∧ [html] <:+ b.stack ∧ ∀ x, [x, html] <:+ b.stack → b.head = some x := by
  constructor
  · intro hmode
    cases s.frame with
    | outsideHead _ hhtml hbody hstack =>
      refine ⟨hbody, _, hhtml, s.html_suffix hhtml, fun x longer => ?_⟩
      rw [hstack] at longer
      exact absurd longer.length_le (Nat.not_succ_le_self 1)
    | @insideHead html head _ hhtml hhead hbody hstack =>
      refine ⟨hbody, html, hhtml, s.html_suffix hhtml, fun x outer => ?_⟩
      -- two ends of one length are the same
      have same : [x, html] = [head, html] :=
        (List.suffix_of_suffix_length_le outer hstack (Nat.le_refl 2)).eq_of_length rfl
      cases same
      exact hhead
    | beforeHtml mode | insideBody mode => cases hmode.symm.trans mode
  · rintro ⟨hbody, html, hhtml, -⟩
    cases s.frame with
    | outsideHead hmode | insideHead hmode => exact hmode
    | beforeHtml _ hhtml' => cases hhtml.symm.trans hhtml'
    | insideBody _ _ _ hbody' => cases hbody.symm.trans hbody'

theorem inBody_iff : b.mode = .inBody ↔ (∀ head ∈ b.head, head ∉ b.stack) ∧
    ∃ html body, b.html = some html ∧ b.body = some body ∧ [body, html] <:+ b.stack := by
  constructor
  · intro hmode
    cases s.frame with
    | @insideBody html head body _ hhtml _ hbody hstack =>
      have there : b.body.isSome := by rw [hbody]; rfl
      exact ⟨fun head hhead => s.head_not_mem_stack there hhead, html, body, hhtml, hbody, hstack⟩
    | beforeHtml mode | outsideHead mode | insideHead mode => cases hmode.symm.trans mode
  · rintro ⟨-, html, body, -, hbody, -⟩
    obtain ⟨_, _, hmode, -⟩ := s.suffix_of_body hbody
    exact hmode

theorem head_isSome (hmode : b.mode = .inBody) : b.head.isSome = true := by
  obtain ⟨-, _, _, -, hbody, -⟩ := s.inBody_iff.mp hmode
  obtain ⟨_, _, -, -, hhead, -⟩ := s.suffix_of_body hbody
  rw [hhead]
  rfl

/-- **Between two changes the parts of a builder agree.** -/
theorem consistent : b.Consistent where
  beforeHtml_iff := s.beforeHtml_iff
  inHead_iff := s.inHead_iff
  inBody_iff := s.inBody_iff
  head_isSome := s.head_isSome
  nodup := s.nodup_stack
  child x y outer h := by
    have parent := s.hasParent_of_suffix h
    exact ⟨parent, (s.sequential.mem_children y x).mpr parent⟩
  text_place h := by
    have place := s.text_place.resolve_left (mt String.isEmpty_iff.mp h)
    obtain ⟨hroot, hhtml, hhead⟩ := s.current_ne place
    exact ⟨hroot.symm, hhtml, hhead⟩

end Sound

/-- **Behind any tokens the parts of the builder agree.** -/
theorem consistent_after (tokens : List Token) : (after tokens).Consistent := (changes_after tokens).sound.consistent

end Builder

end HtmlQuery
