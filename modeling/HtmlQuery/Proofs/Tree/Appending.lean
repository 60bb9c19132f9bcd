import HtmlQuery.Proofs.Tree.DocumentOrder
import HtmlQuery.Proofs.Tree.Growth

/-!
# Trees that are built from the top

A tree that is built from its document downwards names its nodes in the order in which they were appended, so parents
have smaller names than their children. Nothing in such a tree is out of reach of the document.

* `Tree.get?_append`, `Tree.get?_modifyAttributes` — what the two ways of building do to each node;
* `Tree.Sequential` — what the order of the names promises;
* `Sequential.append`, `Sequential.modifyAttributes` — building keeps the promise;
* `Sequential.descendants_root_perm` — the walk from the document meets every other node once.
-/

namespace HtmlQuery

/-- The tag of an element. -/
def NodeKind.tag? : NodeKind → Option String
  | .element e => some e.tag
  | _ => none

/-- What a node is, if it is an element. -/
def NodeKind.element? : NodeKind → Option Element
  | .element e => some e
  | _ => none

/-- The data of a text node. -/
def NodeKind.text? : NodeKind → Option String
  | .text data => some data
  | _ => none

namespace Tree

variable {t : Tree} {a b id parent : NodeId} {kind : NodeKind}

/-! ## Views of a node -/

theorem tag?_eq (t : Tree) (id : NodeId) : t.tag? id = (t.get? id).bind fun node => node.kind.tag? := by
  unfold tag? element?
  cases t.get? id with
  | none => rfl
  | some node =>
    obtain ⟨kind, parent, children⟩ := node
    cases kind <;> rfl

theorem element?_eq (t : Tree) (id : NodeId) : t.element? id = (t.get? id).bind fun node => node.kind.element? := by
  unfold element?
  cases t.get? id with
  | none => rfl
  | some node =>
    obtain ⟨kind, parent, children⟩ := node
    cases kind <;> rfl

theorem text?_eq (t : Tree) (id : NodeId) : t.text? id = (t.get? id).bind fun node => node.kind.text? := by
  unfold text?
  cases t.get? id with
  | none => rfl
  | some node =>
    obtain ⟨kind, parent, children⟩ := node
    cases kind <;> rfl

theorem isElement_eq (t : Tree) (id : NodeId) : t.isElement id = (t.tag? id).isSome := by
  rw [isElement, tag?, Option.isSome_map]

theorem WellFormed.lt_size_of_mem_children (wf : t.WellFormed) {c : NodeId} (h : c ∈ t.children id) : c < t.size :=
  lt_size_of_parent? ((wf.mem_children id c).mp h)

/-- The next node has no children yet. -/
theorem children_size (t : Tree) : t.children t.size = [] := by
  rw [children_eq, get?_eq_none_iff.mpr (Nat.le_refl _)]
  rfl

/-! ## A new node at the end -/

@[simp] theorem size_append (t : Tree) (parent : NodeId) (kind : NodeKind) :
    (t.append parent kind).size = t.size + 1 := by
  rw [append, size_attach, size_add]

theorem get?_append (hp : parent < t.size) (kind : NodeKind) (id : NodeId) :
    (t.append parent kind).get? id =
      if id = t.size then some ⟨kind, some parent, #[]⟩
      else (t.get? id).map fun node =>
        { node with children := if id = parent then node.children.push t.size else node.children } := by
  rw [append, get?_attach, get?_add]
  by_cases h : id = t.size
  · subst h
    simp [Nat.ne_of_gt hp]
  · simp [h]

variable (hp : parent < t.size)
include hp

theorem parent?_append (kind : NodeKind) (id : NodeId) :
    (t.append parent kind).parent? id = if id = t.size then some parent else t.parent? id := by
  rw [parent?, get?_append hp, parent?]
  split
  · rfl
  · rw [Option.bind_map]
    rfl

theorem children_append (kind : NodeKind) (id : NodeId) :
    (t.append parent kind).children id = if id = parent then t.children id ++ [t.size] else t.children id := by
  rw [append, children_attach (by rw [size_add]; exact Nat.lt_succ_of_lt hp), children_add]

theorem tag?_append (kind : NodeKind) (id : NodeId) :
    (t.append parent kind).tag? id = if id = t.size then kind.tag? else t.tag? id := by
  rw [tag?_eq, get?_append hp, tag?_eq]
  split
  · rfl
  · rw [Option.bind_map]
    rfl

/-- Old nodes keep their tags. -/
theorem tag?_append_of_some (kind : NodeKind) {tag : String} (h : t.tag? id = some tag) :
    (t.append parent kind).tag? id = some tag := by
  have old : id ≠ t.size := by
    rintro rfl
    rw [tag?_eq, get?_eq_none_iff.mpr (Nat.le_refl _)] at h
    cases h
  rw [tag?_append hp, if_neg old, h]

theorem tag?_append_size (e : Element) : (t.append parent (.element e)).tag? t.size = some e.tag := by
  rw [tag?_append hp, if_pos rfl]
  rfl

theorem element?_append (kind : NodeKind) (id : NodeId) :
    (t.append parent kind).element? id = if id = t.size then kind.element? else t.element? id := by
  rw [element?_eq, get?_append hp, element?_eq]
  split
  · rfl
  · rw [Option.bind_map]
    rfl

theorem text?_append (kind : NodeKind) (id : NodeId) :
    (t.append parent kind).text? id = if id = t.size then kind.text? else t.text? id := by
  rw [text?_eq, get?_append hp, text?_eq]
  split
  · rfl
  · rw [Option.bind_map]
    rfl

/-- Old nodes keep their parents. -/
theorem hasParent_append (kind : NodeKind) (h : t.HasParent id a) : (t.append parent kind).HasParent id a := by
  rw [HasParent, parent?_append hp, if_neg (Nat.ne_of_lt (lt_size_of_parent? h))]
  exact h

/-- The new node has the parent that it was appended to. -/
theorem hasParent_append_size (kind : NodeKind) : (t.append parent kind).HasParent t.size parent := by
  rw [HasParent, parent?_append hp, if_pos rfl]

/-- The new node lies below its parent and everything above that. The old nodes lie where they were. -/
theorem WellFormed.isAncestor_append (wf : t.WellFormed) (kind : NodeKind) :
    (t.append parent kind).IsAncestor a id ↔
      t.IsAncestor a id ∨ id = t.size ∧ t.IsInclusiveAncestor a parent := by
  have old {x y : NodeId} (h : t.HasParent x y) := hasParent_append hp kind h
  constructor
  · intro h
    rcases isAncestor_of_attach (by rw [size_add]; exact Nat.lt_succ_self _) h with h | ⟨below, above⟩
    · exact .inl (isAncestor_add.mp h)
    · rw [IsInclusiveAncestor, hasParent_add] at above below
      rcases isInclusiveAncestor_iff.mp below with eq | below
      · exact .inr ⟨eq.symm, above⟩
      · -- the new node has no children
        obtain ⟨c, -, hc⟩ := isAncestor_iff_child.mp below
        exact absurd (wf.parent_lt_size hc) (Nat.lt_irrefl _)
  · rintro (h | ⟨rfl, h⟩)
    · exact Relation.TransGen.mono (fun _ _ h => old h) _ _ h
    · have above := Relation.ReflTransGen.mono (fun _ _ h => old h) _ _ h
      exact Relation.TransGen.head' (hasParent_append_size hp kind) above

omit hp

/-! ## Other attributes -/

/-- Attributes are changed without a change to the links or the tags. -/
theorem get?_modifyAttributes (t : Tree) (a : NodeId) (f : Attributes → Attributes) (id : NodeId) :
    (t.modifyAttributes a f).get? id = if a = id then (t.get? id).map fun node =>
      match node.kind with
      | .element e => { node with kind := .element { e with attributes := f e.attributes } }
      | _ => node
    else t.get? id :=
  get?_modify t a _ id

section Attributes

variable (t : Tree) (a : NodeId) (f : Attributes → Attributes) (id : NodeId)

@[simp] theorem size_modifyAttributes : (t.modifyAttributes a f).size = t.size := size_modify t a _

/-- What does not depend on attributes is not changed with them. -/
theorem bind_get?_modifyAttributes {α : Type} (view : Node → Option α)
    (h : ∀ e parent children attributes, view ⟨.element { e with attributes }, parent, children⟩ =
      view ⟨.element e, parent, children⟩) :
    ((t.modifyAttributes a f).get? id).bind view = (t.get? id).bind view := by
  rw [get?_modifyAttributes]
  split
  · cases t.get? id with
    | none => rfl
    | some node =>
      obtain ⟨kind, parent, children⟩ := node
      cases kind with
      | element e => exact h e parent children _
      | _ => rfl
  · rfl

@[simp] theorem parent?_modifyAttributes : (t.modifyAttributes a f).parent? id = t.parent? id :=
  bind_get?_modifyAttributes t a f id Node.parent fun _ _ _ _ => rfl

@[simp] theorem tag?_modifyAttributes : (t.modifyAttributes a f).tag? id = t.tag? id := by
  rw [tag?_eq, tag?_eq]
  exact bind_get?_modifyAttributes t a f id _ fun _ _ _ _ => rfl

@[simp] theorem text?_modifyAttributes : (t.modifyAttributes a f).text? id = t.text? id := by
  rw [text?_eq, text?_eq]
  exact bind_get?_modifyAttributes t a f id _ fun _ _ _ _ => rfl

@[simp] theorem children_modifyAttributes : (t.modifyAttributes a f).children id = t.children id := by
  rw [children_eq, children_eq, Option.map_eq_bind, Option.map_eq_bind]
  exact congrArg (·.getD []) (bind_get?_modifyAttributes t a f id
    (some ∘ fun node => node.children.toList) fun _ _ _ _ => rfl)

theorem element?_modifyAttributes : (t.modifyAttributes a f).element? id =
    if a = id then (t.element? id).map fun e => { e with attributes := f e.attributes } else t.element? id := by
  rw [element?_eq, get?_modifyAttributes, element?_eq]
  split
  · cases t.get? id with
    | none => rfl
    | some node =>
      obtain ⟨kind, parent, children⟩ := node
      cases kind <;> rfl
  · rfl

theorem hasParent_modifyAttributes : (t.modifyAttributes a f).HasParent = t.HasParent := by
  funext id p
  rw [HasParent, parent?_modifyAttributes, HasParent]

@[simp] theorem isAncestor_modifyAttributes :
    (t.modifyAttributes a f).IsAncestor b id ↔ t.IsAncestor b id := by
  rw [IsAncestor, hasParent_modifyAttributes, IsAncestor]

end Attributes

/-! ## Names in the order of building -/

/-- The first node is the document, and every other one was appended to an earlier one. -/
structure Sequential (t : Tree) : Prop extends WellFormed t where
  kind_root : (t.get? root).map Node.kind = some .document
  exists_parent : ∀ id, root < id → id < t.size → ∃ p, t.parent? id = some p ∧ p < id

theorem sequential_empty : Sequential .empty where
  toWellFormed := wellFormed_empty
  kind_root := rfl
  exists_parent _ pos small := absurd small (Nat.not_lt.mpr pos)

namespace Sequential

/-- Every tree has a document. -/
theorem root_lt_size (seq : t.Sequential) : root < t.size := by
  apply Nat.lt_of_not_le
  intro le
  have kind := seq.kind_root
  rw [get?_eq_none_iff.mpr le] at kind
  cases kind

/-- The document is no element. -/
theorem tag?_root (seq : t.Sequential) : t.tag? root = none := by
  obtain ⟨node, get, kind⟩ := Option.map_eq_some_iff.mp seq.kind_root
  rw [tag?_eq, get, Option.bind_some, kind]
  rfl

theorem append (seq : t.Sequential) (hp : parent < t.size) (kind : NodeKind) : (t.append parent kind).Sequential where
  toWellFormed := seq.toWellFormed.append hp kind
  kind_root := by
    rw [get?_append hp, if_neg (Nat.ne_of_lt seq.root_lt_size), Option.map_map]
    exact seq.kind_root
  exists_parent id pos small := by
    rw [size_append] at small
    rw [parent?_append hp]
    by_cases h : id = t.size
    · rw [if_pos h, h]
      exact ⟨parent, rfl, hp⟩
    · rw [if_neg h]
      exact seq.exists_parent id pos (Nat.lt_of_le_of_ne (Nat.le_of_lt_succ small) h)

theorem modifyAttributes (seq : t.Sequential) (a : NodeId) (f : Attributes → Attributes) :
    (t.modifyAttributes a f).Sequential where
  parent?_root := by rw [parent?_modifyAttributes, seq.parent?_root]
  mem_children p id := by rw [children_modifyAttributes, parent?_modifyAttributes, seq.mem_children]
  nodup_children p := by rw [children_modifyAttributes]; exact seq.nodup_children p
  acyclic id h := seq.acyclic id ((isAncestor_modifyAttributes t a f id).mp h)
  kind_root := by
    have old := seq.kind_root
    rw [get?_modifyAttributes]
    split
    · cases hroot : t.get? root with
      | none => rw [hroot] at old; cases old
      | some node =>
        obtain ⟨kind, parent, children⟩ := node
        rw [hroot] at old
        cases Option.some.inj old
        rfl
    · exact old
  exists_parent id pos small := by
    rw [parent?_modifyAttributes]
    exact seq.exists_parent id pos (by rwa [size_modifyAttributes] at small)

variable (seq : t.Sequential)
include seq

/-- Ancestors have smaller names. -/
theorem lt_of_parent? (h : t.parent? id = some a) : a < id := by
  have pos : root < id := Nat.pos_of_ne_zero fun eq => by
    rw [eq] at h
    exact absurd (seq.parent?_root.symm.trans h) (by simp)
  obtain ⟨p, hp, lt⟩ := seq.exists_parent id pos (lt_size_of_parent? h)
  cases hp.symm.trans h
  exact lt

theorem lt_of_isAncestor (h : t.IsAncestor a id) : a < id := by
  induction h with
  | single h => exact seq.lt_of_parent? h
  | tail _ h ih => exact Nat.lt_trans (seq.lt_of_parent? h) ih

theorem le_of_isInclusiveAncestor (h : t.IsInclusiveAncestor a id) : a ≤ id := by
  rcases isInclusiveAncestor_iff.mp h with rfl | h
  · exact Nat.le_refl _
  · exact Nat.le_of_lt (seq.lt_of_isAncestor h)

/-- The document is above all nodes. -/
theorem isAncestor_root (pos : root < id) (small : id < t.size) : t.IsAncestor root id := by
  induction id using Nat.strongRecOn with
  | _ id ih =>
    obtain ⟨p, hp, lt⟩ := seq.exists_parent id pos small
    rcases Nat.eq_zero_or_pos p with rfl | ppos
    · exact .single hp
    · exact .head hp (ih p lt ppos (Nat.lt_trans lt small))

/-- **The walk from the document meets every other node once.** -/
theorem descendants_root_perm : (t.descendants root).Perm (List.range' 1 (t.size - 1)) := by
  refine (List.perm_ext_iff_of_nodup (seq.nodup_descendants root) List.nodup_range').mpr fun id => ?_
  rw [seq.mem_descendants_iff, List.mem_range'_1]
  have size : 1 + (t.size - 1) = t.size := Nat.add_sub_cancel' seq.root_lt_size
  rw [size]
  constructor
  · intro h
    obtain ⟨p, hp, -⟩ := isAncestor_iff_parent?.mp h
    exact ⟨seq.lt_of_isAncestor h, lt_size_of_parent? hp⟩
  · rintro ⟨pos, small⟩
    exact seq.isAncestor_root pos small

end Sequential

end Tree

end HtmlQuery
