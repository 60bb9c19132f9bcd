import HtmlQuery.Proofs.Markup.OpenElements

/-!
# Closed nodes

Content goes to open elements, and attributes are added to the elements of the frame. A node that is neither can be
reached by no change any more: what it is when it is closed, it is in the whole tree. And no change takes anything away.

* `Builder.IsClosed` — the nodes that get no more content;
* `Builder.IsClosed.change`, `Builder.IsClosed.changes` — no change and no run touches them;
* `Builder.Changes.size_le`, `Builder.Changes.tag?_eq` — the tree only grows, and its nodes keep their tags.
-/

namespace HtmlQuery

/-- An appended node changes no old node but its parent. -/
theorem Tree.get?_append_of_ne {t : Tree} {id p : NodeId} (hp : p < t.size) (kind : NodeKind) (old : id < t.size)
    (ne : id ≠ p) : (t.append p kind).get? id = t.get? id := by
  rw [get?_append hp, if_neg (Nat.ne_of_lt old)]
  simp only [if_neg ne, Option.map_id']

namespace Builder

open HtmlQuery.Tree (root)

/-- A node that gets no more content: it is not open, and it is none of those that can be opened again. -/
structure IsClosed (b : Builder) (id : NodeId) : Prop where
  lt_size : id < b.tree.size
  ne_root : id ≠ root
  not_open : id ∉ b.stack
  outside : b.html ≠ some id ∧ b.head ≠ some id ∧ b.body ≠ some id

variable {b b' : Builder} {id p : NodeId}

namespace IsClosed

variable (closed : b.IsClosed id)
include closed

/-- Content goes to other nodes. -/
theorem ne_current : id ≠ b.current := by
  rintro eq
  cases hs : b.stack with
  | nil => exact closed.ne_root (by rw [eq, current, hs, List.headD_nil])
  | cons c rest => exact closed.not_open (by rw [eq, current, hs, List.headD_cons]; exact List.mem_cons_self)

/-- A node is added elsewhere, and perhaps opened or made one of the frame. -/
theorem grown {kind : NodeKind} (hp : p < b.tree.size) (ne : id ≠ p) (htree : b'.tree = b.tree.append p kind)
    (hstack : b'.stack ⊆ b.tree.size :: b.stack) (hhtml : b'.html = b.html ∨ b'.html = some b.tree.size)
    (hhead : b'.head = b.head ∨ b'.head = some b.tree.size) (hbody : b'.body = b.body ∨ b'.body = some b.tree.size) :
    b'.IsClosed id ∧ b'.tree.get? id = b.tree.get? id := by
  have old : id ≠ b.tree.size := Nat.ne_of_lt closed.lt_size
  have other {now before : Option NodeId} (h : now = before ∨ now = some b.tree.size) (outside : before ≠ some id) :
      now ≠ some id := by
    rcases h with rfl | rfl
    · exact outside
    · exact fun eq => old (Option.some.inj eq).symm
  refine ⟨⟨?_, closed.ne_root, fun mem => ?_, other hhtml closed.outside.1, other hhead closed.outside.2.1,
    other hbody closed.outside.2.2⟩, ?_⟩
  · rw [htree, Tree.size_append]
    exact Nat.lt_succ_of_lt closed.lt_size
  · rcases List.mem_cons.mp (hstack mem) with new | mem
    · exact old new
    · exact closed.not_open mem
  · rw [htree, Tree.get?_append_of_ne hp kind closed.lt_size ne]

theorem append (s : b.Sound) (kind : NodeKind) (pending : String) :
    IsClosed { b.append kind with pending } id ∧ (b.append kind).tree.get? id = b.tree.get? id :=
  closed.grown s.current_lt_size closed.ne_current rfl (List.subset_cons_self _ _) (.inl rfl) (.inl rfl) (.inl rfl)

theorem addElement (s : b.Sound) (name : String) (selfClosing : Bool) (attributes : List Attribute) :
    (b.addElement name selfClosing attributes).IsClosed id ∧
      (b.addElement name selfClosing attributes).tree.get? id = b.tree.get? id := by
  rw [addElement_eq]
  refine closed.grown s.current_lt_size closed.ne_current rfl ?_ (.inl rfl) (.inl rfl) (.inl rfl)
  dsimp only
  split
  · exact List.subset_cons_self _ _
  · exact List.Subset.refl _

/-- Other elements are open. -/
theorem withStack {stack : List NodeId} (h : id ∉ stack) : IsClosed { b with stack } id :=
  ⟨closed.lt_size, closed.ne_root, h, closed.outside⟩

/-- **No elementary change touches a closed node.** -/
theorem change (s : b.Sound) (h : Change b b') : b'.IsClosed id ∧ b'.tree.get? id = b.tree.get? id := by
  cases h with
  | collect c place => exact ⟨⟨closed.lt_size, closed.ne_root, closed.not_open, closed.outside⟩, rfl⟩
  | endText text =>
    rw [endText_of_isEmpty_eq_false text]
    exact closed.append s _ ""
  | comment data empty => exact closed.append s _ b.pending
  | openHtml hhtml =>
    rw [withHtml_of_none hhtml]
    exact closed.grown s.sequential.root_lt_size closed.ne_root rfl (List.Subset.refl _) (.inr rfl) (.inl rfl) (.inl rfl)
  | openHead hhtml hhead =>
    have ne : id ≠ _ := fun eq => closed.outside.1 (eq ▸ hhtml)
    rw [withHead_of_none hhtml hhead]
    exact closed.grown (s.html_lt_size hhtml) ne rfl (List.Subset.refl _) (.inl rfl) (.inr rfl) (.inl rfl)
  | openBody hhtml hhead hbody =>
    have ne : id ≠ _ := fun eq => closed.outside.1 (eq ▸ hhtml)
    rw [withBody_of_none hhtml hhead hbody, s.popTo_html hhtml]
    refine closed.grown (s.html_lt_size hhtml) ne rfl ?_ (.inl rfl) (.inl rfl) (.inr rfl)
    exact List.cons_subset_cons _ (s.html_suffix hhtml).subset
  | @merge other attributes frame =>
    have ne : other ≠ id := by
      rintro rfl
      exact frame.elim closed.outside.1 fun frame => frame.elim closed.outside.2.1 closed.outside.2.2
    refine ⟨⟨?_, closed.ne_root, closed.not_open, closed.outside⟩, ?_⟩
    · rw [Builder.merge, Tree.size_modifyAttributes]
      exact closed.lt_size
    · rw [Builder.merge, Tree.get?_modifyAttributes, if_neg ne]
  | reopenHead _ hhead _ =>
    refine ⟨closed.withStack fun mem => ?_, rfl⟩
    rcases List.mem_cons.mp mem with rfl | mem
    · exact closed.outside.2.1 hhead
    · exact closed.not_open mem
  | headElement selfClosing attributes => exact closed.addElement s _ selfClosing attributes
  | bodyElement name selfClosing attributes => exact closed.addElement s name selfClosing attributes
  | close => exact ⟨closed.withStack fun mem => closed.not_open ((popThrough_suffix _ _).subset mem), rfl⟩

/-- No run touches a closed node. -/
theorem changes (s : b.Sound) (h : Changes b b') : b'.IsClosed id ∧ b'.tree.get? id = b.tree.get? id := by
  induction h with
  | refl => exact ⟨closed, rfl⟩
  | tail before change ih =>
    obtain ⟨stays, same⟩ := ih.1.change (s.changes before) change
    exact ⟨stays, same.trans ih.2⟩

/-- A closed node is in the whole tree what it is now. -/
theorem get?_finish (s : b.Sound) (tokens : List Token) :
    (tokens.foldl step b).finish.get? id = b.tree.get? id := by
  have rest := ((changes_foldl tokens b).trans (changes_endText _)).trans (quiet_withBody _).changes
  exact (closed.changes s rest).2

end IsClosed

/-- Nodes that are added and not opened are closed. -/
theorem Sound.isClosed_of_size_le (s : b.Sound) {t : Tree} (new : b.tree.size ≤ id) (small : id < t.size) :
    IsClosed { b with tree := t } id where
  lt_size := small
  ne_root := Nat.ne_of_gt (Nat.lt_of_lt_of_le s.sequential.root_lt_size new)
  not_open mem := Nat.not_lt.mpr new (s.lt_size_of_mem mem)
  outside := s.ne_of_size_le new

/-- What is added without being opened is in the whole tree what it is now. -/
theorem Sound.get?_finish (s : b.Sound) {t : Tree} (added : Sound { b with tree := t }) (tokens : List Token)
    (new : b.tree.size ≤ id) (small : id < t.size) :
    (tokens.foldl step { b with tree := t }).finish.get? id = t.get? id :=
  (s.isClosed_of_size_le new small).get?_finish added tokens

/-! ## The tree only grows -/

theorem Change.size_le (h : Change b b') : b.tree.size ≤ b'.tree.size := by
  have grows (p : NodeId) (kind : NodeKind) : b.tree.size ≤ (b.tree.append p kind).size := by
    rw [Tree.size_append]
    exact Nat.le_succ _
  cases h with
  | endText text =>
    rw [endText_of_isEmpty_eq_false text]
    exact grows _ _
  | comment => exact grows _ _
  | openHtml hhtml =>
    rw [withHtml_of_none hhtml]
    exact grows _ _
  | openHead hhtml hhead =>
    rw [withHead_of_none hhtml hhead]
    exact grows _ _
  | openBody hhtml hhead hbody =>
    rw [withBody_of_none hhtml hhead hbody]
    exact grows _ _
  | merge => rw [Builder.merge, Tree.size_modifyAttributes]
  | headElement | bodyElement =>
    rw [addElement_eq]
    exact grows _ _
  | collect | reopenHead | close => exact Nat.le_refl _

theorem Changes.size_le (h : Changes b b') : b.tree.size ≤ b'.tree.size := by
  induction h with
  | refl => exact Nat.le_refl _
  | tail _ change ih => exact Nat.le_trans ih change.size_le

/-- No change gives a node another tag, or takes its tag away. -/
theorem Change.tag?_eq (s : b.Sound) (h : Change b b') (old : id < b.tree.size) :
    b'.tree.tag? id = b.tree.tag? id := by
  have appended {p : NodeId} (hp : p < b.tree.size) (kind : NodeKind) :
      (b.tree.append p kind).tag? id = b.tree.tag? id := by
    rw [Tree.tag?_append hp, if_neg (Nat.ne_of_lt old)]
  cases h with
  | endText text =>
    rw [endText_of_isEmpty_eq_false text]
    exact appended s.current_lt_size _
  | comment => exact appended s.current_lt_size _
  | openHtml hhtml =>
    rw [withHtml_of_none hhtml]
    exact appended s.sequential.root_lt_size _
  | openHead hhtml hhead =>
    rw [withHead_of_none hhtml hhead]
    exact appended (s.html_lt_size hhtml) _
  | openBody hhtml hhead hbody =>
    rw [withBody_of_none hhtml hhead hbody]
    exact appended (s.html_lt_size hhtml) _
  | merge => rw [Builder.merge, Tree.tag?_modifyAttributes]
  | headElement | bodyElement =>
    rw [addElement_eq]
    exact appended s.current_lt_size _
  | collect | reopenHead | close => rfl

theorem Changes.tag?_eq (s : b.Sound) (h : Changes b b') (old : id < b.tree.size) :
    b'.tree.tag? id = b.tree.tag? id := by
  induction h with
  | refl => rfl
  | tail before change ih =>
    rw [change.tag?_eq (s.changes before) (Nat.lt_of_lt_of_le old (Changes.size_le before)), ih]

/-- A node has in the whole tree the tag that it has now. -/
theorem Sound.tag?_finish (s : b.Sound) (tokens : List Token) (old : id < b.tree.size) :
    (tokens.foldl step b).finish.tag? id = b.tree.tag? id :=
  Changes.tag?_eq s (((changes_foldl tokens b).trans (changes_endText _)).trans (quiet_withBody _).changes) old

end Builder

end HtmlQuery
