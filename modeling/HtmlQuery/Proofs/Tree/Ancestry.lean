import HtmlQuery.Tree.Traversal
import Mathlib.Data.List.Perm.Subperm
import Mathlib.Logic.Relation

/-!
# Ancestors of nodes

The ancestors of a node are what the parents lead to. In a tree whose links agree and whose parents do not lead around
in a circle, no path of parents is longer than the tree has nodes, so the bounded walk of `Tree.ancestors` finds all.

* `Tree.WellFormed` — what the links of a tree promise;
* `WellFormed.ancestors_of_parent?` — the ancestors of a node are its parent and the ancestors of that;
* `WellFormed.mem_ancestors_iff`, `WellFormed.isBelow_iff` — the walk finds the ancestors and nothing else.
-/

namespace HtmlQuery.Tree

variable {t : Tree} {a b c id p : NodeId}

/-! ## Paths of parents -/

/-- `p` is the parent of `id`. -/
def HasParent (t : Tree) (id p : NodeId) : Prop := t.parent? id = some p

/-- The parents lead from `id` up to `a`, in one step or more. -/
def IsAncestor (t : Tree) (a id : NodeId) : Prop := Relation.TransGen t.HasParent id a

/-- The parents lead from `id` up to `a`, or the two are the same. -/
def IsInclusiveAncestor (t : Tree) (a id : NodeId) : Prop := Relation.ReflTransGen t.HasParent id a

theorem isInclusiveAncestor_iff : t.IsInclusiveAncestor a id ↔ a = id ∨ t.IsAncestor a id :=
  Relation.reflTransGen_iff_eq_or_transGen

/-- The first step of a path leads to the parent. -/
theorem isAncestor_iff_parent? :
    t.IsAncestor a id ↔ ∃ p, t.parent? id = some p ∧ t.IsInclusiveAncestor a p :=
  Relation.TransGen.head'_iff

/-- The last step of a path starts at a node whose parent is the ancestor. -/
theorem isAncestor_iff_child :
    t.IsAncestor a id ↔ ∃ c, t.IsInclusiveAncestor c id ∧ t.parent? c = some a :=
  Relation.TransGen.tail'_iff

theorem IsAncestor.inclusive (h : t.IsAncestor a id) : t.IsInclusiveAncestor a id :=
  Relation.TransGen.to_reflTransGen h

theorem IsInclusiveAncestor.trans_ancestor (hab : t.IsInclusiveAncestor a b) (hbc : t.IsAncestor b c) :
    t.IsAncestor a c :=
  Relation.TransGen.trans_left hbc hab

/-- There is one way up, so two ancestors of a node lie on the same path. -/
theorem IsInclusiveAncestor.comparable (ha : t.IsInclusiveAncestor a id) (hb : t.IsInclusiveAncestor b id) :
    t.IsInclusiveAncestor b a ∨ t.IsInclusiveAncestor a b :=
  Relation.ReflTransGen.total_of_right_unique
    (fun _ _ _ h₁ h₂ => Option.some.inj (h₁.symm.trans h₂)) ha hb

/-- The nodes of a tree are those with a name below its size; only they have parents. -/
theorem lt_size_of_parent? (h : t.parent? id = some p) : id < t.size := by
  apply Nat.lt_of_not_le
  intro le
  rw [parent?, get?_eq_none_iff.mpr le] at h
  cases h

/-! ## Trees whose links agree -/

/-- The children of a node are the nodes that it is the parent of, each once. The document has no parent, and no node is
its own ancestor. -/
structure WellFormed (t : Tree) : Prop where
  parent?_root : t.parent? root = none
  mem_children : ∀ p id, id ∈ t.children p ↔ t.parent? id = some p
  nodup_children : ∀ p, (t.children p).Nodup
  acyclic : ∀ id, ¬ t.IsAncestor id id

/-- The children lead from the document to the node. -/
def Reachable (t : Tree) (id : NodeId) : Prop := Relation.ReflTransGen (fun p c => c ∈ t.children p) root id

/-- The nodes to which the children lead from the document are those from which the parents lead up to it. -/
theorem WellFormed.reachable_iff (wf : t.WellFormed) : t.Reachable id ↔ t.IsInclusiveAncestor root id := by
  have swap : (fun p c => c ∈ t.children p) = Function.swap t.HasParent := by
    funext p c
    exact propext (wf.mem_children p c)
  rw [Reachable, swap, Relation.reflTransGen_swap, IsInclusiveAncestor]

/-- Nothing is above the document. -/
theorem WellFormed.eq_root_of_isInclusiveAncestor (wf : t.WellFormed) (h : t.IsInclusiveAncestor a root) :
    a = root := by
  rcases isInclusiveAncestor_iff.mp h with h | h
  · exact h
  · obtain ⟨p, hp, -⟩ := isAncestor_iff_parent?.mp h
    rw [wf.parent?_root] at hp
    cases hp

/-- Of what is below a node, the document reaches all or nothing. -/
theorem WellFormed.isAncestor_root_iff (wf : t.WellFormed) (h : t.IsAncestor a id) :
    t.IsAncestor root id ↔ t.Reachable a := by
  rw [wf.reachable_iff]
  constructor
  · intro below
    rcases below.inclusive.comparable h.inclusive with above | above
    · rw [wf.eq_root_of_isInclusiveAncestor above]
      exact .refl
    · exact above
  · intro above
    exact above.trans_ancestor h

/-! ## The walk along the parents -/

/-- Whatever a walk along the parents meets is an ancestor. -/
theorem isAncestor_of_mem_ancestorsWithin : ∀ {n : Nat} {id : NodeId}, a ∈ t.ancestorsWithin n id → t.IsAncestor a id
  | 0, _, h => absurd h List.not_mem_nil
  | n + 1, id, h => by
    unfold ancestorsWithin at h
    cases hp : t.parent? id with
    | none => rw [hp] at h; exact absurd h List.not_mem_nil
    | some p =>
      rw [hp] at h
      rcases List.mem_cons.mp h with rfl | h
      · exact .single hp
      · exact .head hp (isAncestor_of_mem_ancestorsWithin h)

/-- A walk that ends before its bound is not changed by a higher bound. -/
theorem ancestorsWithin_succ : ∀ {n : Nat} {id : NodeId}, (t.ancestorsWithin n id).length < n →
    t.ancestorsWithin (n + 1) id = t.ancestorsWithin n id
  | 0, _, h => absurd h (Nat.not_lt_zero _)
  | n + 1, id, h => by
    rw [ancestorsWithin, ancestorsWithin]
    rw [ancestorsWithin] at h
    cases hp : t.parent? id with
    | none => rfl
    | some p =>
      rw [hp] at h
      exact congrArg (p :: ·) (ancestorsWithin_succ (Nat.lt_of_succ_lt_succ h))

namespace WellFormed

variable (wf : t.WellFormed)
include wf

theorem parent_lt_size (h : t.parent? id = some p) : p < t.size := by
  apply Nat.lt_of_not_le
  intro le
  have child := (wf.mem_children p id).mpr h
  rw [children, get?_eq_none_iff.mpr le] at child
  exact List.not_mem_nil child

/-- A walk along the parents meets no node twice, and never the one it starts from. -/
theorem nodup_ancestorsWithin : ∀ (n : Nat) (id : NodeId), (id :: t.ancestorsWithin n id).Nodup
  | 0, id => List.nodup_cons.mpr ⟨List.not_mem_nil, List.nodup_nil⟩
  | n + 1, id => by
    refine List.nodup_cons.mpr ⟨fun h => wf.acyclic id (isAncestor_of_mem_ancestorsWithin h), ?_⟩
    unfold ancestorsWithin
    cases t.parent? id with
    | none => exact List.nodup_nil
    | some p => exact nodup_ancestorsWithin n p

theorem lt_size_of_mem_ancestorsWithin {n : Nat} (h : a ∈ t.ancestorsWithin n id) : a < t.size := by
  obtain ⟨c, -, hc⟩ := isAncestor_iff_child.mp (isAncestor_of_mem_ancestorsWithin h)
  exact wf.parent_lt_size hc

/-- A walk that starts in the tree has fewer steps than the tree has nodes. -/
theorem length_ancestorsWithin_lt (n : Nat) (h : id < t.size) : (t.ancestorsWithin n id).length < t.size := by
  have sub : id :: t.ancestorsWithin n id ⊆ List.range t.size := by
    intro x hx
    rcases List.mem_cons.mp hx with rfl | hx
    · exact List.mem_range.mpr h
    · exact List.mem_range.mpr (wf.lt_size_of_mem_ancestorsWithin hx)
  have le := ((wf.nodup_ancestorsWithin n id).subperm sub).length_le
  rw [List.length_range, List.length_cons] at le
  exact le

/-! ## All ancestors -/

omit wf in
theorem ancestors_of_parent?_eq_none (h : t.parent? id = none) : t.ancestors id = [] := by
  unfold ancestors
  cases t.size with
  | zero => rfl
  | succ n => rw [ancestorsWithin, h]

/-- The ancestors of a node are its parent and the ancestors of its parent. -/
theorem ancestors_of_parent? (h : t.parent? id = some p) : t.ancestors id = p :: t.ancestors p := by
  have bound := wf.length_ancestorsWithin_lt t.size (lt_size_of_parent? h)
  unfold ancestors
  cases size : t.size with
  | zero =>
    rw [size] at bound
    exact absurd bound (Nat.not_lt_zero _)
  | succ n =>
    rw [size, ancestorsWithin, h] at bound
    rw [ancestorsWithin_succ (Nat.lt_of_succ_lt_succ bound), ancestorsWithin, h]

/-- `Tree.ancestors` lists the ancestors of a node and nothing else. -/
theorem mem_ancestors_iff : a ∈ t.ancestors id ↔ t.IsAncestor a id := by
  constructor
  · exact isAncestor_of_mem_ancestorsWithin
  · intro h
    induction h using Relation.TransGen.head_induction_on with
    | single hp =>
      rw [wf.ancestors_of_parent? hp]
      exact List.mem_cons_self
    | head hp _ ih =>
      rw [wf.ancestors_of_parent? hp]
      exact List.mem_cons_of_mem _ ih

theorem isBelow_iff : t.isBelow id a = true ↔ t.IsAncestor a id := by
  rw [isBelow, List.contains_iff_mem, wf.mem_ancestors_iff]

theorem isBelow_eq_false_iff : t.isBelow id a = false ↔ ¬ t.IsAncestor a id := by
  rw [← wf.isBelow_iff, Bool.not_eq_true]

/-- The ancestors of a node continue above each of them with its own. -/
theorem cons_ancestors_suffix (h : t.IsAncestor a id) : (a :: t.ancestors a) <:+ t.ancestors id := by
  induction h using Relation.TransGen.head_induction_on with
  | single hp => exact ⟨[], (wf.ancestors_of_parent? hp).symm⟩
  | head hp _ ih =>
    rw [wf.ancestors_of_parent? hp]
    exact ih.trans (List.suffix_cons _ _)

end WellFormed

/-! ## Levels -/

/-- The number of ancestors of a node. -/
def depth (t : Tree) (id : NodeId) : Nat := (t.ancestors id).length

namespace WellFormed

variable (wf : t.WellFormed)
include wf

theorem depth_of_parent? (h : t.parent? id = some p) : t.depth id = t.depth p + 1 := by
  rw [depth, wf.ancestors_of_parent? h, List.length_cons, depth]

theorem depth_lt_size (h : id < t.size) : t.depth id < t.size := wf.length_ancestorsWithin_lt t.size h

end WellFormed

end HtmlQuery.Tree
