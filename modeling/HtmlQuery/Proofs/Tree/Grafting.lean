import HtmlQuery.Proofs.Tree.Appending

/-!
# Forests in a tree

A forest is grafted onto a node of a tree when its nodes are added below that node one by one, each before what is below
it. The names of its nodes then go on in this order from the size of the tree.

* `Forest.nodes` — the nodes of a forest with the links that these names give;
* `Tree.graft` — the tree with all nodes of a forest below a node;
* `Tree.graft_node` — how it comes about, node by node.
-/

namespace HtmlQuery

/-- Nodes with what is below them, one after another. -/
inductive Forest where
  | nil
  | node (kind : NodeKind) (content rest : Forest)
  deriving DecidableEq

namespace Forest

/-- The number of nodes. -/
def size : Forest → Nat
  | nil => 0
  | node _ content rest => 1 + content.size + rest.size

/-- The names of the first nodes, if the names of all nodes go on from `first` in document order. -/
def roots : (first : NodeId) → Forest → List NodeId
  | _, nil => []
  | first, node _ content rest => first :: rest.roots (first + 1 + content.size)

/-- All nodes in document order, named from `first` on, the first ones below `parent`. -/
def nodes : (parent first : NodeId) → Forest → List Node
  | _, _, nil => []
  | parent, first, node kind content rest =>
    ⟨kind, some parent, (content.roots (first + 1)).toArray⟩ ::
      (content.nodes first (first + 1) ++ rest.nodes parent (first + 1 + content.size))

theorem length_nodes : ∀ (parent first : NodeId) (f : Forest), (f.nodes parent first).length = f.size
  | _, _, nil => rfl
  | parent, first, node kind content rest => by
    rw [nodes, List.length_cons, List.length_append, length_nodes, length_nodes, size]
    omega

end Forest

namespace Tree

variable {t u : Tree} {p id : NodeId} {kind : NodeKind} {content rest : Forest}

/-- A tree is known by its nodes. -/
theorem ext_get? (h : ∀ id, t.get? id = u.get? id) : t = u := by
  cases t
  cases u
  exact congrArg Tree.mk (Array.ext_getElem? h)

/-- The tree with a forest below a node, behind the children that are there. -/
def graft (t : Tree) (p : NodeId) (f : Forest) : Tree :=
  ⟨(t.modify p fun node => { node with children := node.children ++ (f.roots t.size).toArray }).nodes ++
    (f.nodes p t.size).toArray⟩

@[simp] theorem size_graft (t : Tree) (p : NodeId) (f : Forest) : (t.graft p f).size = t.size + f.size := by
  have old := size_modify t p fun node => { node with children := node.children ++ (f.roots t.size).toArray }
  rw [size] at old
  rw [size, graft, Array.size_append, old, List.size_toArray, Forest.length_nodes]

/-- The old nodes are there with more children at `p`, and then come the nodes of the forest. -/
theorem get?_graft (t : Tree) (p : NodeId) (f : Forest) (id : NodeId) :
    (t.graft p f).get? id =
      if id < t.size then (t.get? id).map fun node =>
        { node with
          children := if id = p then node.children ++ (f.roots t.size).toArray else node.children }
      else (f.nodes p t.size)[id - t.size]? := by
  have old := size_modify t p fun node => { node with children := node.children ++ (f.roots t.size).toArray }
  have look := get?_modify t p (fun node => { node with children := node.children ++ (f.roots t.size).toArray }) id
  rw [size] at old
  rw [get?] at look
  rw [get?, graft, Array.getElem?_append, old, look, List.getElem?_toArray]
  split
  · by_cases h : p = id
    · rw [if_pos h]
      simp [h]
    · rw [if_neg h]
      simp [Ne.symm h]
  · rfl

/-- A forest without nodes changes nothing. -/
@[simp] theorem graft_nil (t : Tree) (p : NodeId) : t.graft p .nil = t := by
  refine ext_get? fun id => ?_
  rw [get?_graft]
  split
  · simp [Forest.roots]
  · rename_i h
    rw [get?_eq_none_iff.mpr (Nat.not_lt.mp h)]
    rfl

/-- Old nodes keep their tags. -/
theorem tag?_graft (f : Forest) (h : id < t.size) : (t.graft p f).tag? id = t.tag? id := by
  rw [tag?_eq, get?_graft, if_pos h, Option.bind_map, tag?_eq]
  rfl

/-- **A forest is grafted by appending its first node, grafting what is below that, and grafting the rest.** -/
theorem graft_node (hp : p < t.size) (kind : NodeKind) (content rest : Forest) :
    t.graft p (.node kind content rest) = ((t.append p kind).graft t.size content).graft p rest := by
  refine ext_get? fun id => ?_
  have new : p ≠ t.size := Nat.ne_of_lt hp
  rw [get?_graft, get?_graft, get?_graft, get?_append hp, size_graft, size_append]
  rcases Nat.lt_trichotomy id t.size with old | rfl | later
  · -- an old node: the new names behind the children of `p`
    have notNew : id ≠ t.size := Nat.ne_of_lt old
    have inner : id < t.size + 1 := Nat.lt_succ_of_lt old
    have outer : id < t.size + 1 + content.size := Nat.lt_add_right _ inner
    simp only [old, outer, inner, notNew, if_true, if_false, Option.map_map]
    congr 1
    funext node
    by_cases hid : id = p
    · simp [hid, Forest.roots]
    · simp [hid]
  · -- the first node of the forest
    have outer : t.size < t.size + 1 + content.size := Nat.lt_add_right _ (Nat.lt_succ_self _)
    simp [outer, new.symm, Forest.nodes]
  · have notOld : ¬ id < t.size := Nat.not_lt.mpr (Nat.le_of_lt later)
    have notInner : ¬ id < t.size + 1 := Nat.not_lt.mpr later
    obtain ⟨n, rfl⟩ := Nat.exists_eq_add_of_lt later
    have first : t.size + n + 1 - t.size = n + 1 := by omega
    have second : t.size + n + 1 - (t.size + 1) = n := by omega
    have third : t.size + n + 1 - (t.size + 1 + content.size) = n - content.size := by omega
    have notP : t.size + n + 1 ≠ p := Nat.ne_of_gt (Nat.lt_trans hp later)
    rw [if_neg notOld, first, Forest.nodes, List.getElem?_cons_succ, List.getElem?_append, Forest.length_nodes, third]
    by_cases inContent : n < content.size
    · have outer : t.size + n + 1 < t.size + 1 + content.size := by omega
      simp [inContent, outer, notInner, second, notP]
    · have outer : ¬ t.size + n + 1 < t.size + 1 + content.size := by omega
      simp [inContent, outer]

end Tree

end HtmlQuery
