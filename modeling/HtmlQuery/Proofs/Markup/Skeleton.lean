import HtmlQuery.Proofs.Markup.OpenElements

/-!
# The skeleton of a document

Whatever the tokens are, a document is one `html` element with one `head` and one `body`, in this order. Text stands
below the body or in elements of the head, only elements of the head stand in the head, and elements without content
stay empty.

* `Tree.Skeleton` — how far the skeleton of a tree is, and what stands where;
* `Builder.Arranged`, `Arranged.change` — every elementary change keeps it;
* `Tree.ofTokens_skeleton` — the skeleton of a document.
-/

namespace HtmlQuery

namespace Tree

variable {t : Tree} {p id : NodeId} {kind : NodeKind}

/-! ## What stands below a node -/

/-- The children of a node that are elements. -/
def elementChildren (t : Tree) (id : NodeId) : List NodeId := (t.children id).filter t.isElement

/-- None of the children is a text node. -/
def Textless (t : Tree) (id : NodeId) : Prop := ∀ c ∈ t.children id, t.text? c = none

/-- All elements below the node are elements of a head. -/
def HeadContent (t : Tree) (id : NodeId) : Prop := ∀ x, t.IsAncestor id x → ∀ tag ∈ t.tag? x, isHeadName tag = true

/-- Elements without content have no children. -/
def VoidsEmpty (t : Tree) : Prop := ∀ id, ∀ tag ∈ t.tag? id, isVoidName tag = true → t.children id = []

theorem textless_size (t : Tree) : t.Textless t.size := by
  intro c hc
  rw [children_size] at hc
  exact absurd hc List.not_mem_nil

theorem WellFormed.headContent_size (wf : t.WellFormed) : t.HeadContent t.size := by
  intro x below
  obtain ⟨c, -, hc⟩ := isAncestor_iff_child.mp below
  exact absurd (wf.parent_lt_size hc) (Nat.lt_irrefl _)

section Append

variable (wf : t.WellFormed) (hp : p < t.size)
include wf hp

theorem filter_children_append (kind : NodeKind) (id : NodeId) :
    (t.children id).filter (t.append p kind).isElement = t.elementChildren id := by
  refine List.filter_congr fun c hc => ?_
  rw [isElement_eq, tag?_append hp, if_neg (Nat.ne_of_lt (wf.lt_size_of_mem_children hc)), ← isElement_eq]

/-- A new element comes last. -/
theorem elementChildren_append_self (e : Element) :
    (t.append p (.element e)).elementChildren p = t.elementChildren p ++ [t.size] := by
  have new : (t.append p (.element e)).isElement t.size = true := by
    rw [isElement_eq, tag?_append hp, if_pos rfl]
    rfl
  rw [elementChildren, children_append hp, if_pos rfl, List.filter_append, filter_children_append wf hp,
    List.filter_cons_of_pos new, List.filter_nil]

/-- Elsewhere nothing changes, and a node that is no element changes nothing. -/
theorem elementChildren_append_of_ne (h : id ≠ p ∨ kind.tag? = none) :
    (t.append p kind).elementChildren id = t.elementChildren id := by
  rw [elementChildren, children_append hp]
  by_cases hid : id = p
  · have plain := h.resolve_left (not_not_intro hid)
    have new : ¬ (t.append p kind).isElement t.size = true := by
      rw [isElement_eq, tag?_append hp, if_pos rfl, plain]
      exact Bool.false_ne_true
    rw [if_pos hid, List.filter_append, filter_children_append wf hp, List.filter_cons_of_neg new, List.filter_nil,
      List.append_nil]
  · rw [if_neg hid, filter_children_append wf hp]

theorem Textless.append (h : t.Textless id) (place : id ≠ p ∨ kind.text? = none) : (t.append p kind).Textless id := by
  intro c hc
  rw [children_append hp] at hc
  rw [text?_append hp]
  by_cases new : c = t.size
  · rw [if_pos new]
    rcases place with elsewhere | plain
    · rw [if_neg elsewhere] at hc
      exact absurd (wf.lt_size_of_mem_children hc) (Nat.not_lt.mpr (Nat.le_of_eq new.symm))
    · exact plain
  · rw [if_neg new]
    split at hc
    · exact h c ((List.mem_append.mp hc).resolve_right fun mem => new (List.mem_singleton.mp mem))
    · exact h c hc

theorem HeadContent.append (h : t.HeadContent id)
    (place : t.IsInclusiveAncestor id p → ∀ tag ∈ kind.tag?, isHeadName tag = true) :
    (t.append p kind).HeadContent id := by
  intro x below tag htag
  rw [tag?_append hp] at htag
  rcases (wf.isAncestor_append hp kind).mp below with below | ⟨new, above⟩
  · obtain ⟨_, hx, -⟩ := isAncestor_iff_parent?.mp below
    rw [if_neg (Nat.ne_of_lt (lt_size_of_parent? hx))] at htag
    exact h x below tag htag
  · rw [if_pos new] at htag
    exact place above tag htag

omit wf in
theorem VoidsEmpty.append (h : t.VoidsEmpty) (place : ∀ tag ∈ t.tag? p, isVoidName tag = false) :
    (t.append p kind).VoidsEmpty := by
  intro id tag htag isVoid
  rw [tag?_append hp] at htag
  rw [children_append hp]
  by_cases hid : id = p
  · rw [hid, if_neg (Nat.ne_of_lt hp)] at htag
    rw [place tag htag] at isVoid
    cases isVoid
  · rw [if_neg hid]
    split at htag
    · rename_i new
      rw [new, children_size]
    · exact h id tag htag isVoid

end Append

section Attributes

variable (t : Tree) (a : NodeId) (f : Attributes → Attributes) (id : NodeId)

@[simp] theorem elementChildren_modifyAttributes :
    (t.modifyAttributes a f).elementChildren id = t.elementChildren id := by
  have same : (t.modifyAttributes a f).isElement = t.isElement := by
    funext c
    rw [isElement_eq, tag?_modifyAttributes, ← isElement_eq]
  rw [elementChildren, children_modifyAttributes, same, elementChildren]

@[simp] theorem textless_modifyAttributes : (t.modifyAttributes a f).Textless id ↔ t.Textless id := by
  simp [Textless]

@[simp] theorem headContent_modifyAttributes : (t.modifyAttributes a f).HeadContent id ↔ t.HeadContent id := by
  simp [HeadContent]

@[simp] theorem voidsEmpty_modifyAttributes : (t.modifyAttributes a f).VoidsEmpty ↔ t.VoidsEmpty := by
  simp [VoidsEmpty]

end Attributes

/-! ## The skeleton -/

/-- What stands where, as far as the `html` element and the head are there. -/
structure Content (t : Tree) (html head : Option NodeId) : Prop where
  textless_root : t.Textless root
  textless_html : ∀ id ∈ html, t.Textless id
  textless_head : ∀ id ∈ head, t.Textless id
  headContent : ∀ id ∈ head, t.HeadContent id
  voidsEmpty : t.VoidsEmpty

/-- The skeleton of a tree, as far as its three elements are there. -/
structure Skeleton (t : Tree) (html head body : Option NodeId) : Prop extends Content t html head where
  elementChildren_root : t.elementChildren root = html.toList
  elementChildren_html : ∀ id ∈ html, t.elementChildren id = head.toList ++ body.toList
  tag_html : ∀ id ∈ html, t.tag? id = some "html"
  tag_head : ∀ id ∈ head, t.tag? id = some "head"
  tag_body : ∀ id ∈ body, t.tag? id = some "body"

variable {html head body : Option NodeId}

/-- A new node keeps the content in place, also if it is itself the `html` element or the head. -/
theorem Content.append (c : t.Content html head) (wf : t.WellFormed) (hp : p < t.size) {html' head' : Option NodeId}
    (hhtml : ∀ id ∈ html', id ∈ html ∨ id = t.size) (hhead : ∀ id ∈ head', id ∈ head ∨ id = t.size)
    (text_place : kind.text? = none ∨ root ≠ p ∧ html ≠ some p ∧ head ≠ some p)
    (head_place : ∀ id ∈ head, t.IsInclusiveAncestor id p → ∀ tag ∈ kind.tag?, isHeadName tag = true)
    (void_place : ∀ tag ∈ t.tag? p, isVoidName tag = false) : (t.append p kind).Content html' head' where
  textless_root := c.textless_root.append wf hp (text_place.symm.imp And.left id)
  textless_html id h := by
    rcases hhtml id h with old | rfl
    · refine (c.textless_html id old).append wf hp (text_place.symm.imp (fun place eq => ?_) fun plain => plain)
      exact place.2.1 (eq ▸ old)
    · exact (textless_size t).append wf hp (.inl (Nat.ne_of_gt hp))
  textless_head id h := by
    rcases hhead id h with old | rfl
    · refine (c.textless_head id old).append wf hp (text_place.symm.imp (fun place eq => ?_) fun plain => plain)
      exact place.2.2 (eq ▸ old)
    · exact (textless_size t).append wf hp (.inl (Nat.ne_of_gt hp))
  headContent id h := by
    rcases hhead id h with old | rfl
    · exact (c.headContent id old).append wf hp (head_place id old)
    · -- nothing is below the new node, its parent neither
      refine wf.headContent_size.append wf hp fun above => ?_
      rcases isInclusiveAncestor_iff.mp above with eq | above
      · exact absurd eq (Nat.ne_of_gt hp)
      · obtain ⟨x, -, hx⟩ := isAncestor_iff_child.mp above
        exact absurd (wf.parent_lt_size hx) (Nat.lt_irrefl _)
  voidsEmpty := c.voidsEmpty.append hp void_place

theorem skeleton_empty : Skeleton .empty none none none where
  elementChildren_root := rfl
  elementChildren_html := nofun
  tag_html := nofun
  tag_head := nofun
  tag_body := nofun
  textless_root := nofun
  textless_html := nofun
  textless_head := nofun
  headContent := nofun
  voidsEmpty id tag htag := by
    rw [tag?_eq] at htag
    cases id with
    | zero => cases htag
    | succ n => rw [get?_eq_none_iff.mpr (Nat.succ_le_succ (Nat.zero_le n))] at htag; cases htag

namespace Skeleton

theorem modifyAttributes (k : t.Skeleton html head body) (a : NodeId) (f : Attributes → Attributes) :
    (t.modifyAttributes a f).Skeleton html head body where
  elementChildren_root := by simpa using k.elementChildren_root
  elementChildren_html := by simpa using k.elementChildren_html
  tag_html := by simpa using k.tag_html
  tag_head := by simpa using k.tag_head
  tag_body := by simpa using k.tag_body
  textless_root := by simpa using k.textless_root
  textless_html := by simpa using k.textless_html
  textless_head := by simpa using k.textless_head
  headContent := by simpa using k.headContent
  voidsEmpty := by simpa using k.voidsEmpty

/-- Content is added. Elements do not go to the document or to the `html` element. -/
theorem append (k : t.Skeleton html head body) (wf : t.WellFormed) (hp : p < t.size)
    (text_place : kind.text? = none ∨ root ≠ p ∧ html ≠ some p ∧ head ≠ some p)
    (element_place : kind.tag? = none ∨ root ≠ p ∧ html ≠ some p)
    (head_place : ∀ id ∈ head, t.IsInclusiveAncestor id p → ∀ tag ∈ kind.tag?, isHeadName tag = true)
    (void_place : ∀ tag ∈ t.tag? p, isVoidName tag = false) : (t.append p kind).Skeleton html head body where
  toContent := k.toContent.append wf hp (fun _ => .inl) (fun _ => .inl) text_place head_place void_place
  elementChildren_root := by
    rw [elementChildren_append_of_ne wf hp (element_place.symm.imp And.left fun plain => plain),
      k.elementChildren_root]
  elementChildren_html id h := by
    have elsewhere := element_place.symm.imp (fun place (eq : id = p) => place.2 (eq ▸ h)) fun plain => plain
    rw [elementChildren_append_of_ne wf hp elsewhere, k.elementChildren_html id h]
  tag_html id h := tag?_append_of_some hp _ (k.tag_html id h)
  tag_head id h := tag?_append_of_some hp _ (k.tag_head id h)
  tag_body id h := tag?_append_of_some hp _ (k.tag_body id h)

/-- The `html` element goes to the document. -/
theorem appendHtml (k : t.Skeleton none none none) (seq : t.Sequential) :
    (t.append root (.element (.ofTag "html"))).Skeleton (some t.size) none none where
  toContent := by
    refine k.toContent.append seq.toWellFormed seq.root_lt_size ?_ nofun (.inl rfl) nofun ?_
    · rintro id ⟨⟩
      exact .inr rfl
    · rw [seq.tag?_root]
      exact nofun
  elementChildren_root := by
    rw [elementChildren_append_self seq.toWellFormed seq.root_lt_size, k.elementChildren_root]
    rfl
  elementChildren_html := by
    rintro id ⟨⟩
    rw [elementChildren_append_of_ne seq.toWellFormed seq.root_lt_size (.inl (Nat.ne_of_gt seq.root_lt_size)),
      elementChildren, children_size]
    rfl
  tag_html := by
    rintro id ⟨⟩
    exact tag?_append_size seq.root_lt_size (.ofTag "html")
  tag_head := nofun
  tag_body := nofun

variable {top first : NodeId}

/-- The head goes to the `html` element. -/
theorem appendHead (k : t.Skeleton (some top) none none) (seq : t.Sequential) (hroot : root ≠ top) (hp : top < t.size) :
    (t.append top (.element (.ofTag "head"))).Skeleton (some top) (some t.size) none where
  toContent := by
    refine k.toContent.append seq.toWellFormed hp (fun _ => .inl) ?_ (.inl rfl) nofun ?_
    · rintro id ⟨⟩
      exact .inr rfl
    · rw [k.tag_html top rfl]
      rintro tag ⟨⟩
      decide
  elementChildren_root := by
    rw [elementChildren_append_of_ne seq.toWellFormed hp (.inl hroot), k.elementChildren_root]
  elementChildren_html := by
    rintro id ⟨⟩
    rw [elementChildren_append_self seq.toWellFormed hp, k.elementChildren_html top rfl]
    rfl
  tag_html id h := tag?_append_of_some hp _ (k.tag_html id h)
  tag_head := by
    rintro id ⟨⟩
    exact tag?_append_size hp (.ofTag "head")
  tag_body := nofun

/-- The body goes to the `html` element, behind the head. -/
theorem appendBody (k : t.Skeleton (some top) (some first) none) (seq : t.Sequential) (hroot : root ≠ top)
    (hp : top < t.size) (outside : ¬ t.IsInclusiveAncestor first top) :
    (t.append top (.element (.ofTag "body"))).Skeleton (some top) (some first) (some t.size) where
  toContent := by
    refine k.toContent.append seq.toWellFormed hp (fun _ => .inl) (fun _ => .inl) (.inl rfl) ?_ ?_
    · rintro id ⟨⟩ above
      exact absurd above outside
    · rw [k.tag_html top rfl]
      rintro tag ⟨⟩
      decide
  elementChildren_root := by
    rw [elementChildren_append_of_ne seq.toWellFormed hp (.inl hroot), k.elementChildren_root]
  elementChildren_html := by
    rintro id ⟨⟩
    rw [elementChildren_append_self seq.toWellFormed hp, k.elementChildren_html top rfl]
    rfl
  tag_html id h := tag?_append_of_some hp _ (k.tag_html id h)
  tag_head id h := tag?_append_of_some hp _ (k.tag_head id h)
  tag_body := by
    rintro id ⟨⟩
    exact tag?_append_size hp (.ofTag "body")

end Skeleton

end Tree

namespace Builder

open HtmlQuery.Tree (root)

variable {b b' : Builder} {id html head body : NodeId}

/-- What the changes keep of the skeleton. -/
structure Arranged (b : Builder) : Prop where
  skeleton : b.tree.Skeleton b.html b.head b.body
  /-- Elements without content are never open. -/
  open_tags : ∀ id ∈ b.stack, ∀ tag ∈ b.tree.tag? id, isVoidName tag = false

theorem arranged_initial : Arranged {} := ⟨Tree.skeleton_empty, nofun⟩

/-! ## Where the current node is -/

namespace Sound

variable (s : b.Sound)
include s

/-- Away from the frame, the current node is inside an element of the head or in the body. -/
theorem current_ne (h : b.betweenElements = false) :
    root ≠ b.current ∧ b.html ≠ some b.current ∧ b.head ≠ some b.current := by
  simp only [betweenElements, Bool.or_eq_false_iff, beq_eq_false_iff_ne] at h
  obtain ⟨⟨opened, notHtml⟩, notHead⟩ := h
  refine ⟨?_, notHtml, notHead⟩
  unfold current
  cases hs : b.stack with
  | nil => rw [hs] at opened; cases opened
  | cons id rest => exact (s.ne_root_of_mem (by rw [hs]; exact List.mem_cons_self)).symm

/-- In the body the head is not above the current node. -/
theorem not_isInclusiveAncestor_head (hbody : b.body.isSome) (hhead : b.head = some head) :
    ¬ b.tree.IsInclusiveAncestor head b.current := by
  obtain ⟨body, hbody⟩ := Option.isSome_iff_exists.mp hbody
  obtain ⟨html, head', -, hhtml, hhead', hstack⟩ := s.suffix_of_body hbody
  intro above
  have inside := s.isInclusiveAncestor_current (hstack.subset List.mem_cons_self)
  rcases above.comparable inside with below | below
  · exact (s.not_isInclusiveAncestor_body hbody).2 head hhead below
  · rcases Tree.isInclusiveAncestor_iff.mp below with rfl | below
    · exact s.head_ne_body head hhead hbody
    · -- the parent of the body comes before the head
      obtain ⟨p, hp, above⟩ := Tree.isAncestor_iff_parent?.mp below
      cases hp.symm.trans (s.hasParent_of_suffix hstack)
      exact absurd (s.sequential.le_of_isInclusiveAncestor above) (Nat.not_le.mpr (s.html_lt_head hhtml hhead))

/-- In the head the current node is the head or below it. -/
theorem current_ne_of_head (hhtml : b.html = some html) (hhead : b.head = some head) (h : head ∈ b.stack) :
    root ≠ b.current ∧ b.html ≠ some b.current := by
  have le := s.sequential.le_of_isInclusiveAncestor (s.isInclusiveAncestor_current h)
  have lt := Nat.lt_of_lt_of_le (s.html_lt_head hhtml hhead) le
  refine ⟨Nat.ne_of_lt (Nat.zero_lt_of_lt lt), fun eq => ?_⟩
  cases hhtml.symm.trans eq
  exact Nat.lt_irrefl _ lt

end Sound

/-! ## What each change keeps -/

namespace Arranged

variable (a : b.Arranged) (s : b.Sound)
include a s

theorem tag_current : ∀ tag ∈ b.tree.tag? b.current, isVoidName tag = false := by
  have opened := a.open_tags
  unfold current
  cases hs : b.stack with
  | nil =>
    intro tag htag
    rw [List.headD_nil, s.sequential.tag?_root] at htag
    cases htag
  | cons id rest => exact opened id (by rw [hs]; exact List.mem_cons_self)

/-- A new node leaves the open elements as they are. -/
theorem open_tags_append {p : NodeId} (hp : p < b.tree.size) (kind : NodeKind) :
    ∀ id ∈ b.stack, ∀ tag ∈ (b.tree.append p kind).tag? id, isVoidName tag = false := by
  intro id hid tag htag
  rw [Tree.tag?_append hp, if_neg (Nat.ne_of_lt (s.lt_size_of_mem hid))] at htag
  exact a.open_tags id hid tag htag

/-- A new element may be open if it can have content. -/
theorem open_tags_cons {p : NodeId} (hp : p < b.tree.size) {e : Element} (h : isVoidName e.tag = false)
    {stack : List NodeId} (outer : stack ⊆ b.stack) :
    ∀ id ∈ b.tree.size :: stack, ∀ tag ∈ (b.tree.append p (.element e)).tag? id, isVoidName tag = false := by
  intro id hid tag htag
  rcases List.mem_cons.mp hid with rfl | old
  · rw [Tree.tag?_append_size hp] at htag
    cases htag
    exact h
  · exact a.open_tags_append s hp (.element e) id (outer old) tag htag

/-- Texts and comments go to the current node. -/
theorem append {kind : NodeKind} {pending : String} (plain : kind.tag? = none)
    (text_place : kind.text? = none ∨ b.betweenElements = false) :
    Arranged { b.append kind with pending } where
  skeleton := a.skeleton.append s.sequential.toWellFormed s.current_lt_size (text_place.imp_right s.current_ne)
    (.inl plain) (fun _ _ _ tag htag => by rw [plain] at htag; cases htag) (a.tag_current s)
  open_tags := a.open_tags_append s s.current_lt_size kind

theorem addElement {name : String} (selfClosing : Bool) (attributes : List Attribute)
    (place : root ≠ b.current ∧ b.html ≠ some b.current)
    (head_place : ∀ id ∈ b.head, b.tree.IsInclusiveAncestor id b.current → isHeadName name = true) :
    (b.addElement name selfClosing attributes).Arranged := by
  rw [addElement_eq]
  refine ⟨?_, ?_⟩
  · refine a.skeleton.append s.sequential.toWellFormed s.current_lt_size (.inl rfl) (.inr place) ?_ (a.tag_current s)
    rintro id hid above tag ⟨⟩
    exact head_place id hid above
  · dsimp only
    split
    · exact a.open_tags_append s s.current_lt_size _
    · rename_i h
      rw [Bool.or_eq_true, not_or, Bool.not_eq_true, Bool.not_eq_true] at h
      exact a.open_tags_cons s s.current_lt_size h.2 (List.Subset.refl _)

theorem openHtml (h : b.html = none) : b.withHtml.1.Arranged := by
  obtain ⟨hhead, hbody, -⟩ := s.of_html_eq_none h
  have k := a.skeleton
  rw [h, hhead, hbody] at k
  rw [withHtml_of_none h]
  refine ⟨?_, a.open_tags_cons s s.sequential.root_lt_size (by decide) (List.Subset.refl _)⟩
  show (b.tree.append root _).Skeleton (some b.tree.size) b.head b.body
  rw [hhead, hbody]
  exact k.appendHtml s.sequential

theorem openHead (hhtml : b.html = some html) (h : b.head = none) : b.withHead.1.Arranged := by
  obtain ⟨-, hbody, -⟩ := s.of_head_eq_none hhtml h
  have small := s.html_lt_size hhtml
  have hroot := s.ne_root_of_mem ((s.html_suffix hhtml).subset List.mem_cons_self)
  have k := a.skeleton
  rw [hhtml, h, hbody] at k
  rw [withHead_of_none hhtml h]
  refine ⟨?_, a.open_tags_cons s small (by decide) (List.Subset.refl _)⟩
  show (b.tree.append html _).Skeleton b.html (some b.tree.size) b.body
  rw [hhtml, hbody]
  exact k.appendHead s.sequential hroot.symm small

theorem openBody (hhtml : b.html = some html) (hhead : b.head = some head) (h : b.body = none) :
    b.withBody.1.Arranged := by
  have small := s.html_lt_size hhtml
  have outer := (s.html_suffix hhtml).subset
  have hroot := s.ne_root_of_mem (outer List.mem_cons_self)
  have k := a.skeleton
  rw [hhtml, hhead, h] at k
  rw [withBody_of_none hhtml hhead h, s.popTo_html hhtml]
  refine ⟨?_, a.open_tags_cons s small (by decide) outer⟩
  show (b.tree.append html _).Skeleton b.html b.head (some b.tree.size)
  rw [hhtml, hhead]
  refine k.appendBody s.sequential hroot.symm small fun above => ?_
  exact absurd (s.sequential.le_of_isInclusiveAncestor above) (Nat.not_le.mpr (s.html_lt_head hhtml hhead))

omit s in
/-- The open elements are replaced by such as can have content. -/
theorem withStack {stack : List NodeId} (h : ∀ id ∈ stack, id ∈ b.stack ∨ b.head = some id) :
    Arranged { b with stack } where
  skeleton := a.skeleton
  open_tags id hid tag htag := by
    rcases h id hid with old | hhead
    · exact a.open_tags id old tag htag
    · rw [a.skeleton.tag_head id hhead] at htag
      cases htag
      decide

/-- **Every elementary change keeps the skeleton.** -/
theorem change (h : Change b b') : b'.Arranged := by
  cases h with
  | collect c place => exact ⟨a.skeleton, a.open_tags⟩
  | endText text =>
    have place := s.text_place.resolve_left (by rw [text]; exact Bool.false_ne_true)
    rw [endText_of_isEmpty_eq_false text]
    exact a.append s rfl (.inr place)
  | comment data empty => exact a.append s rfl (.inl rfl)
  | openHtml hhtml => exact a.openHtml s hhtml
  | openHead hhtml hhead => exact a.openHead s hhtml hhead
  | openBody hhtml hhead hbody => exact a.openBody s hhtml hhead hbody
  | merge attributes _ =>
    refine ⟨?_, fun id hid tag htag => a.open_tags id hid tag ?_⟩
    · exact a.skeleton.modifyAttributes _ (Attributes.merge · attributes)
    · rwa [Builder.merge, Tree.tag?_modifyAttributes] at htag
  | reopenHead _ hhead _ =>
    refine a.withStack fun id hid => ?_
    rcases List.mem_cons.mp hid with rfl | old
    · exact .inr hhead
    · exact .inl old
  | headElement selfClosing attributes _ hmode hhead opened isHead =>
    obtain ⟨html, -, hhtml, -, -⟩ := s.suffix_of_head hmode hhead opened
    exact a.addElement s selfClosing attributes (s.current_ne_of_head hhtml hhead opened) fun _ _ _ => isHead
  | bodyElement name selfClosing attributes _ hbody =>
    obtain ⟨hroot, hhtml, -⟩ := s.current_ne (s.betweenElements_of_body hbody)
    exact a.addElement s selfClosing attributes ⟨hroot, hhtml⟩ fun id hid above =>
      absurd above (s.not_isInclusiveAncestor_head hbody hid)
  | close _ _ => exact a.withStack fun id hid => .inl ((popThrough_suffix _ _).subset hid)

end Arranged

/-- The skeleton is kept by every sequence of changes. -/
theorem Changes.arranged (h : Changes {} b) : b.Arranged := by
  induction h with
  | refl => exact arranged_initial
  | tail changes change ih => exact ih.change (Changes.sound changes) change

end Builder

namespace Tree

/-- A search by tag looks at the elements only. -/
theorem find?_children (t : Tree) (id : NodeId) (test : String → Bool) :
    (t.children id).find? (fun c => (t.element? c).any fun e => test e.tag) =
      (t.elementChildren id).find? fun c => (t.tag? c).any test := by
  rw [elementChildren, List.find?_filter]
  congr 1
  funext c
  rw [tag?, isElement]
  cases t.element? c with
  | none => rfl
  | some e => simp

/-- The landmarks of a whole skeleton are its `html` element and its body. -/
theorem Skeleton.landmarks {t : Tree} {html head body : NodeId}
    (k : t.Skeleton (some html) (some head) (some body)) : t.documentElement? = some html ∧ t.body? = some body := by
  have first : t.documentElement? = some html := by
    rw [documentElement?, ← List.head?_filter, ← elementChildren, k.elementChildren_root]
    rfl
  refine ⟨first, ?_⟩
  rw [body?, first, Option.bind_some, t.find?_children html fun tag =>
    Text.sameIgnoringCase tag "body" || Text.sameIgnoringCase tag "frameset", k.elementChildren_html html rfl]
  show [head, body].find? _ = some body
  rw [List.find?_cons_of_neg, List.find?_cons_of_pos]
  · rw [k.tag_body body rfl]
    decide
  · rw [k.tag_head head rfl]
    decide

/-- **The skeleton of a document.** The document has one element, which is `html`. This has two elements, the head and
then the body, and the landmarks are found. Neither of the first three has a text among its children, all elements in
the head belong there, and elements without content are empty. -/
theorem ofTokens_skeleton (tokens : List Token) : ∃ html head body,
    (ofTokens tokens).elementChildren root = [html] ∧ (ofTokens tokens).tag? html = some "html" ∧
    (ofTokens tokens).elementChildren html = [head, body] ∧
    (ofTokens tokens).tag? head = some "head" ∧ (ofTokens tokens).tag? body = some "body" ∧
    (ofTokens tokens).documentElement? = some html ∧ (ofTokens tokens).body? = some body ∧
    (∀ id ∈ [root, html, head], ∀ c ∈ (ofTokens tokens).children id, (ofTokens tokens).text? c = none) ∧
    (∀ id ∈ (ofTokens tokens).descendants head, ∀ tag ∈ (ofTokens tokens).tag? id, isHeadName tag = true) ∧
    ∀ id, ∀ tag ∈ (ofTokens tokens).tag? id, isVoidName tag = true → (ofTokens tokens).children id = [] := by
  obtain ⟨b, changes, finished, eq⟩ := ofTokens_eq tokens
  obtain ⟨body, hbody⟩ := Option.isSome_iff_exists.mp finished
  have s := changes.sound
  obtain ⟨html, head, -, hhtml, hhead, -⟩ := s.suffix_of_body hbody
  have k := changes.arranged.skeleton
  rw [hhtml, hhead, hbody] at k
  obtain ⟨first, last⟩ := k.landmarks
  rw [eq]
  refine ⟨html, head, body, k.elementChildren_root, k.tag_html html rfl, k.elementChildren_html html rfl,
    k.tag_head head rfl, k.tag_body body rfl, first, last, ?textless, ?head, k.voidsEmpty⟩
  case textless =>
    intro id hid
    rcases List.mem_cons.mp hid with rfl | hid
    · exact k.textless_root
    rcases List.mem_cons.mp hid with rfl | hid
    · exact k.textless_html _ rfl
    · rw [List.mem_singleton.mp hid]
      exact k.textless_head head rfl
  case head =>
    intro id hid
    exact k.headContent head rfl id (s.sequential.mem_descendants_iff.mp hid)

end Tree

end HtmlQuery
