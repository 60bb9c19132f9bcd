import HtmlQuery.Proofs.Tree.Ancestry

/-!
# Trees that are built node by node

A tree grows from the empty one: nodes are added on their own, elements are added below a node, and nodes that have no
parent yet are attached to a node that is not below them. What is never attached stays in the tree, out of reach of the
document. A node may be attached to one that was added after it.

* `Tree.Grown` — the trees that come about in this way;
* `Grown.wellFormed` — their links agree.
-/

namespace HtmlQuery.Tree

variable {t : Tree} {a id parent child : NodeId} {kind : NodeKind}

/-- The trees that additions and attachments build from the empty one. -/
inductive Grown : Tree → Prop
  | empty : Grown .empty
  | add {t : Tree} (kind : NodeKind) : Grown t → Grown (t.add kind)
  | append {t : Tree} {parent : NodeId} (e : Element) : Grown t → parent < t.size → Grown (t.append parent (.element e))
  | attach {t : Tree} {parent child : NodeId} : Grown t → parent < t.size → child < t.size → child ≠ root →
      t.parent? child = none → child ≠ parent → t.isBelow parent child = false → Grown (t.attach parent child)

/-! ## The links after an addition -/

theorem parent?_add (t : Tree) (kind : NodeKind) (id : NodeId) : (t.add kind).parent? id = t.parent? id := by
  rw [parent?, get?_add]
  split
  · rename_i h
    rw [h, parent?, get?_eq_none_iff.mpr (Nat.le_refl _)]
    rfl
  · rfl

theorem children_eq (t : Tree) (id : NodeId) :
    t.children id = ((t.get? id).map fun node => node.children.toList).getD [] := by
  unfold children
  cases t.get? id <;> rfl

theorem children_add (t : Tree) (kind : NodeKind) (id : NodeId) : (t.add kind).children id = t.children id := by
  rw [children_eq, get?_add]
  split
  · rename_i h
    rw [h, children_eq, get?_eq_none_iff.mpr (Nat.le_refl _)]
    rfl
  · rw [children_eq]

theorem hasParent_add (t : Tree) (kind : NodeKind) : (t.add kind).HasParent = t.HasParent := by
  funext id p
  rw [HasParent, parent?_add, HasParent]

theorem isAncestor_add : (t.add kind).IsAncestor a id ↔ t.IsAncestor a id := by
  rw [IsAncestor, hasParent_add, IsAncestor]

/-- A node on its own is linked to nothing. -/
theorem WellFormed.add (wf : t.WellFormed) (kind : NodeKind) : (t.add kind).WellFormed where
  parent?_root := by rw [parent?_add, wf.parent?_root]
  mem_children p id := by rw [children_add, parent?_add, wf.mem_children]
  nodup_children p := by rw [children_add]; exact wf.nodup_children p
  acyclic id h := wf.acyclic id (isAncestor_add.mp h)

/-! ## The links after an attachment -/

theorem parent?_attach (hc : child < t.size) (id : NodeId) :
    (t.attach parent child).parent? id = if id = child then some parent else t.parent? id := by
  simp only [parent?, get?_attach, Option.bind_map]
  split
  · rename_i h
    subst h
    obtain ⟨node, hn⟩ : ∃ node, t.get? id = some node := Option.ne_none_iff_exists'.mp fun h =>
      absurd hc (Nat.not_lt.mpr (get?_eq_none_iff.mp h))
    rw [hn]
    simp
  · cases t.get? id <;> rfl

theorem children_attach (hp : parent < t.size) (id : NodeId) :
    (t.attach parent child).children id = if id = parent then t.children id ++ [child] else t.children id := by
  rw [children_eq, children_eq, get?_attach]
  cases hn : t.get? id with
  | none =>
    have hid : id ≠ parent := fun h => Nat.not_lt.mpr (get?_eq_none_iff.mp hn) (h ▸ hp)
    rw [if_neg hid]
    rfl
  | some node => by_cases hid : id = parent <;> simp [hid]

/-- A path in the new tree either takes no new step, or it goes up to the attached node and from its new parent on. -/
theorem isAncestor_of_attach (hc : child < t.size) (h : (t.attach parent child).IsAncestor a id) :
    t.IsAncestor a id ∨ t.IsInclusiveAncestor child id ∧ t.IsInclusiveAncestor a parent := by
  have step {x y : NodeId} (h : (t.attach parent child).HasParent x y) : t.HasParent x y ∨ x = child ∧ y = parent := by
    rw [HasParent, parent?_attach hc] at h
    split at h
    · rename_i eq
      exact .inr ⟨eq, (Option.some.inj h).symm⟩
    · exact .inl h
  induction h with
  | single h =>
    rcases step h with h | ⟨rfl, rfl⟩
    · exact .inl (.single h)
    · exact .inr ⟨.refl, .refl⟩
  | tail _ h ih =>
    rcases step h with h | ⟨rfl, rfl⟩
    · exact ih.imp (·.tail h) fun ⟨below, above⟩ => ⟨below, above.tail h⟩
    · exact .inr ⟨ih.elim (·.inclusive) fun ⟨below, _⟩ => below, .refl⟩

/-- Attaching a node keeps the links in agreement if it has no parent, is not the document, and the new parent is
neither the node itself nor below it. -/
theorem WellFormed.attach (wf : t.WellFormed) (hp : parent < t.size) (hc : child < t.size) (hroot : child ≠ root)
    (free : t.parent? child = none) (apart : ¬ t.IsInclusiveAncestor child parent) :
    (t.attach parent child).WellFormed where
  parent?_root := by rw [parent?_attach hc, if_neg hroot.symm, wf.parent?_root]
  mem_children p id := by
    have nobody (p : NodeId) : child ∉ t.children p := fun h => by
      rw [wf.mem_children, free] at h
      cases h
    have old := wf.mem_children p id
    rw [children_attach hp, parent?_attach hc]
    by_cases hid : id = child
    · subst hid
      by_cases hpp : p = parent
      · simp [hpp]
      · simp [hpp, nobody p, Ne.symm hpp]
    · by_cases hpp : p = parent
      · subst hpp
        simp [hid, old]
      · simp [hpp, hid, old]
  nodup_children p := by
    rw [children_attach hp]
    split
    · refine List.nodup_append.mpr ⟨wf.nodup_children p, List.nodup_cons.mpr ⟨List.not_mem_nil, .nil⟩, ?_⟩
      rintro x hx y hy rfl
      rw [List.mem_singleton] at hy
      rw [hy, wf.mem_children, free] at hx
      cases hx
    · exact wf.nodup_children p
  acyclic id h := by
    rcases isAncestor_of_attach hc h with h | ⟨below, above⟩
    · exact wf.acyclic id h
    · exact apart (Relation.ReflTransGen.trans above below)

/-- A new node can be attached to any node of the tree. -/
theorem WellFormed.append (wf : t.WellFormed) (hp : parent < t.size) (kind : NodeKind) :
    (t.append parent kind).WellFormed := by
  have free : (t.add kind).parent? t.size = none := by
    rw [parent?_add, parent?, get?_eq_none_iff.mpr (Nat.le_refl _)]
    rfl
  refine (wf.add kind).attach ?_ ?_ (Nat.ne_of_gt (Nat.zero_lt_of_lt hp)) free fun h => ?_
  · rw [size_add]; exact Nat.lt_succ_of_lt hp
  · rw [size_add]; exact Nat.lt_succ_self _
  · rcases isInclusiveAncestor_iff.mp h with h | h
    · exact Nat.ne_of_gt hp h
    · -- an ancestor of an old node is an old node
      obtain ⟨c, -, hc⟩ := isAncestor_iff_child.mp (isAncestor_add.mp h)
      exact Nat.lt_irrefl _ (wf.parent_lt_size hc)

/-! ## Whole histories -/

/-- The empty tree has no node but the document. -/
theorem get?_empty_succ (n : Nat) : empty.get? (n + 1) = none :=
  get?_eq_none_iff.mpr (Nat.succ_le_succ (Nat.zero_le n))

theorem parent?_empty (id : NodeId) : empty.parent? id = none := by
  cases id with
  | zero => rfl
  | succ n => rw [parent?, get?_empty_succ]; rfl

theorem children_empty (id : NodeId) : empty.children id = [] := by
  cases id with
  | zero => rfl
  | succ n => rw [children, get?_empty_succ]

/-- The empty tree has no links. -/
theorem wellFormed_empty : WellFormed .empty := by
  refine ⟨parent?_empty _, fun p id => ?_, fun p => ?_, fun id h => ?_⟩
  · rw [children_empty, parent?_empty]
    simp
  · rw [children_empty]
    exact .nil
  · obtain ⟨p, hp, -⟩ := isAncestor_iff_parent?.mp h
    rw [parent?_empty] at hp
    cases hp

/-- **Grown trees are well-formed.** -/
theorem Grown.wellFormed (h : Grown t) : t.WellFormed := by
  induction h with
  | empty => exact wellFormed_empty
  | add kind _ ih => exact ih.add kind
  | append e _ hp ih => exact ih.append hp (.element e)
  | attach _ hp hc hroot free hne below ih =>
    apply ih.attach hp hc hroot free
    intro h
    rcases isInclusiveAncestor_iff.mp h with h | h
    · exact hne h
    · exact ih.isBelow_eq_false_iff.mp below h

/-- The first node stays the document. -/
theorem Grown.kind_root (h : Grown t) : (t.get? root).map Node.kind = some .document := by
  have added {t : Tree} (kind : NodeKind) (h : (t.get? root).map Node.kind = some .document) :
      ((t.add kind).get? root).map Node.kind = some .document := by
    have old : root ≠ t.size := fun eq => by
      rw [get?_eq_none_iff.mpr (Nat.le_of_eq eq.symm)] at h
      cases h
    rw [get?_add, if_neg old, h]
  have attached {t : Tree} (parent child : NodeId) (h : (t.get? root).map Node.kind = some .document) :
      ((t.attach parent child).get? root).map Node.kind = some .document := by
    rw [get?_attach, Option.map_map]
    exact h
  induction h with
  | empty => rfl
  | add kind _ ih => exact added kind ih
  | append e _ _ ih => exact attached _ _ (added _ ih)
  | attach _ _ _ _ _ _ _ ih => exact attached _ _ ih

theorem Grown.isElement_root (h : Grown t) : t.isElement root = false := by
  obtain ⟨⟨_, _, _⟩, get, kind⟩ := Option.map_eq_some_iff.mp h.kind_root
  cases kind
  rw [isElement, element?, get]
  rfl

/-- A small grown tree: `ul#menu > ul#menu > li.x` in the document, and `ul > li.x` on its own. -/
def grove : Tree :=
  let item : Element := ⟨"li", .ofList [("class", "x")]⟩
  let t := (empty.add (.element item)).append root (.element ⟨"ul", .ofList [("id", "menu")]⟩)
  let t := (t.append 2 (.element ⟨"ul", .ofList [("id", " menu ")]⟩)).attach 3 1
  (t.add (.element (.ofTag "ul"))).append 4 (.element item)

theorem grown_grove : Grown grove :=
  .append _ (.add _ (.attach (.append _ (.append _ (.add _ .empty) (by decide)) (by decide))
    (by decide) (by decide) (by decide) (by decide) (by decide) (by decide))) (by decide)

end HtmlQuery.Tree
