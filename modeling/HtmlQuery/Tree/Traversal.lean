import HtmlQuery.Text.Ascii
import HtmlQuery.Tree.Basic

/-!
# Walks through a tree

Upwards a walk follows the parents, downwards it follows the children and lists them in document order: each node before
the nodes below it, siblings from first to last. No node is its own descendant in the trees that are meant here, so no
path is longer than the tree has nodes, and the walks stop there.

* `Tree.ancestors`, `Tree.descendants` — the two directions;
* `Tree.documentElement?`, `Tree.body?` — the landmarks of a document.
-/

namespace HtmlQuery.Tree

/-! ## Upwards -/

/-- The nearest ancestors of a node, from its parent on, as many as `n`. -/
def ancestorsWithin (t : Tree) : (n : Nat) → NodeId → List NodeId
  | 0, _ => []
  | n + 1, id =>
    match t.parent? id with
    | none => []
    | some p => p :: t.ancestorsWithin n p

/-- All ancestors of a node, from its parent to the top of its tree. -/
def ancestors (t : Tree) (id : NodeId) : List NodeId := t.ancestorsWithin t.size id

/-- Whether `id` has the ancestor `ancestor`. -/
def isBelow (t : Tree) (id ancestor : NodeId) : Bool := (t.ancestors id).contains ancestor

/-! ## Downwards -/

/-- The children of a node, each with its level. Levels end with the size of the tree. -/
def childrenAt (t : Tree) (id : NodeId) (level : Nat) : List (NodeId × Nat) :=
  if level < t.size then (t.children id).map (·, level + 1) else []

/-- The largest number of children. -/
def fanout (t : Tree) : Nat := t.nodes.toList.foldr (fun node n => max node.children.size n) 0

/-- The work that a waiting node stands for, with everything below it. -/
def weight (t : Tree) (level : Nat) : Nat := Nat.pow (t.fanout + 1) (t.size - level)

/-- The work that a stack of waiting nodes stands for. -/
def load (t : Tree) : (stack : List (NodeId × Nat)) → Nat
  | [] => 0
  | (_, level) :: stack => t.weight level + t.load stack

theorem size_children_le {node : Node} : ∀ {nodes : List Node}, node ∈ nodes →
    node.children.size ≤ nodes.foldr (fun node n => max node.children.size n) 0
  | _ :: _, h => by
    rcases List.mem_cons.mp h with rfl | h
    · exact Nat.le_max_left _ _
    · exact Nat.le_trans (size_children_le h) (Nat.le_max_right _ _)

theorem length_children_le (t : Tree) (id : NodeId) : (t.children id).length ≤ t.fanout := by
  unfold children
  split
  · rename_i node h
    exact size_children_le (Array.mem_toList_iff.mpr (Array.mem_of_getElem? h))
  · exact Nat.zero_le _

theorem load_append (t : Tree) : ∀ (s u : List (NodeId × Nat)), t.load (s ++ u) = t.load s + t.load u
  | [], u => by simp [load]
  | (_, _) :: s, u => by simp [load, load_append t s u, Nat.add_assoc]

theorem load_map (t : Tree) (level : Nat) : ∀ ids : List NodeId,
    t.load (ids.map (·, level)) = ids.length * t.weight level
  | [] => by simp [load]
  | _ :: ids => by simp [load, load_map t level ids, Nat.add_mul, Nat.add_comm]

theorem weight_pos (t : Tree) (level : Nat) : 0 < t.weight level := Nat.pow_pos (Nat.succ_pos _)

/-- One level further down there is so much less work that all children together are less than their parent. -/
theorem weight_of_lt {t : Tree} {level : Nat} (h : level < t.size) :
    t.weight level = t.weight (level + 1) * (t.fanout + 1) := by
  have : t.size - level = (t.size - (level + 1)) + 1 := by omega
  unfold weight
  rw [this]
  rfl

/-- The children of a node are less work than the node. -/
theorem load_childrenAt_lt (t : Tree) (id : NodeId) (level : Nat) :
    t.load (t.childrenAt id level) < t.weight level := by
  unfold childrenAt
  split
  · rename_i h
    rw [load_map, weight_of_lt h, Nat.mul_comm]
    exact Nat.mul_lt_mul_of_pos_left (Nat.lt_succ_of_le (t.length_children_le id)) (t.weight_pos _)
  · exact t.weight_pos level

/-- The nodes on the stack, each followed by the nodes below it, behind those already in `out`. -/
def walk (t : Tree) (stack : List (NodeId × Nat)) (out : Array (NodeId × Nat)) : Array (NodeId × Nat) :=
  match stack with
  | [] => out
  | (id, level) :: stack => t.walk (t.childrenAt id level ++ stack) (out.push (id, level))
termination_by t.load stack
decreasing_by
  rw [load_append, load]
  exact Nat.add_lt_add_right (t.load_childrenAt_lt id level) _

/-- A node and everything below it in document order, each node with its level below the first. -/
def subtree (t : Tree) (id : NodeId) : List (NodeId × Nat) := (t.walk [(id, 0)] #[]).toList

/-- Everything below a node, in document order. -/
def descendants (t : Tree) (id : NodeId) : List NodeId := (t.subtree id).tail.map Prod.fst

/-- The elements below a node, in document order. -/
def elementsBelow (t : Tree) (id : NodeId) : List NodeId := (t.descendants id).filter t.isElement

/-! ## Landmarks -/

/-- The first element below the document itself. -/
def documentElement? (t : Tree) : Option NodeId := (t.children root).find? t.isElement

/-- The first body or frame set directly below the document element. -/
def body? (t : Tree) : Option NodeId :=
  t.documentElement?.bind fun html =>
    (t.children html).find? fun id =>
      (t.element? id).any fun e => Text.sameIgnoringCase e.tag "body" || Text.sameIgnoringCase e.tag "frameset"

end HtmlQuery.Tree
