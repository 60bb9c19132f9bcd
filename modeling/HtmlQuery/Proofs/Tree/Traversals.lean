import HtmlQuery.Proofs.Tree.DocumentOrder
import HtmlQuery.Proofs.Tree.Growth

/-!
# The two directions of a walk

A walk downwards needs nothing but a stack of the nodes that wait: it takes the first one off, lists it, and puts its
children in its place. Whatever the tree is, the walk lists what it lists in document order. In a tree that has grown it
comes to an end, and the bounds of `Tree.descendants` and `Tree.ancestors` cut nothing off, so that the walks downwards
and upwards are about the same tree.

* `Tree.Unstacks` — the walk downwards, without levels and without a bound;
* `Tree.unstacks_iff_documentOrder` — it gives the document order of its stack and nothing else;
* `Tree.Grown.traversals_agree` — the two directions.
-/

namespace HtmlQuery.Tree

variable {t : Tree} {ids ids' stack order rest : List NodeId}

/-- The walk that begins with the waiting nodes `stack` ends, and has listed `order`. -/
inductive Unstacks (t : Tree) : (stack order : List NodeId) → Prop
  | nil : Unstacks t [] []
  | cons {id : NodeId} {stack order : List NodeId} : Unstacks t (t.children id ++ stack) order →
      Unstacks t (id :: stack) (id :: order)

/-- Nodes are put in order one part after the other. -/
theorem documentOrder_append_iff : t.DocumentOrder (ids ++ ids') order ↔
    ∃ first second, order = first ++ second ∧ t.DocumentOrder ids first ∧ t.DocumentOrder ids' second := by
  constructor
  · intro h
    induction ids generalizing order with
    | nil => exact ⟨[], order, rfl, .nil, h⟩
    | cons id ids ih =>
      cases h with
      | cons hBelow hRest =>
        obtain ⟨first, second, rfl, hFirst, hSecond⟩ := ih hRest
        exact ⟨_, second, by rw [List.cons_append, List.append_assoc], .cons hBelow hFirst, hSecond⟩
  · rintro ⟨first, second, rfl, hFirst, hSecond⟩
    induction hFirst with
    | nil => exact hSecond
    | cons hBelow _ _ ih =>
      rw [List.cons_append, List.cons_append, List.append_assoc]
      exact .cons hBelow ih

/-- The walk lists the nodes at the front of its stack in document order before it comes to the others. -/
theorem DocumentOrder.unstacks_append (h : t.DocumentOrder ids order) (others : t.Unstacks stack rest) :
    t.Unstacks (ids ++ stack) (order ++ rest) := by
  induction h generalizing stack rest with
  | nil => exact others
  | cons _ _ ihBelow ihRest =>
    rw [List.cons_append, List.cons_append, List.append_assoc]
    exact .cons (ihBelow (ihRest others))

/-- **The walk with a stack lists document order.** -/
theorem unstacks_iff_documentOrder : t.Unstacks stack order ↔ t.DocumentOrder stack order := by
  constructor
  · intro h
    induction h with
    | nil => exact .nil
    | cons _ ih =>
      -- the children have gone onto the stack in front of the nodes that wait
      obtain ⟨below, rest, rfl, hBelow, hRest⟩ := documentOrder_append_iff.mp ih
      exact .cons hBelow hRest
  · intro h
    have walk := h.unstacks_append .nil
    rwa [List.append_nil, List.append_nil] at walk

/-- **The walks downwards and upwards describe the same tree.** The walk with a stack comes to an end, and what it lists
below a node is the document order of the children of the node, in which no node comes twice. The walk upwards goes from
parent to parent to the end. A node is listed below another one exactly if it is below it, which means that the walk
upwards comes to that. -/
theorem Grown.traversals_agree (grown : t.Grown) (n : NodeId) :
    t.Unstacks (t.children n) (t.descendants n) ∧
    (∀ order, t.DocumentOrder (t.children n) order ↔ order = t.descendants n) ∧
    (t.descendants n).Nodup ∧
    t.ancestors n = (t.parent? n).elim [] (fun p => p :: t.ancestors p) ∧
    ∀ x, (x ∈ t.descendants n ↔ t.isBelow x n = true) ∧ (t.isBelow x n = true ↔ n ∈ t.ancestors x) := by
  have wf := grown.wellFormed
  have order := wf.documentOrder_descendants n
  refine ⟨unstacks_iff_documentOrder.mpr order, fun _ => ⟨fun h => h.unique order, fun h => h ▸ order⟩,
    wf.nodup_descendants n, ?upwards, fun x => ⟨?_, ?_⟩⟩
  case upwards =>
    cases hp : t.parent? n with
    | none => exact WellFormed.ancestors_of_parent?_eq_none hp
    | some p => exact wf.ancestors_of_parent? hp
  · rw [wf.mem_descendants_iff, wf.isBelow_iff]
  · rw [wf.isBelow_iff, wf.mem_ancestors_iff]

theorem documentOrder_menu : grove.DocumentOrder (grove.children 2) [3, 1] :=
  @DocumentOrder.cons _ 3 [] [1] [] (@DocumentOrder.cons _ 1 [] [] [] .nil .nil) .nil

theorem documentOrder_grove : grove.DocumentOrder (grove.children root) [2, 3, 1] :=
  @DocumentOrder.cons _ 2 [] [3, 1] [] documentOrder_menu .nil

/-- In the small tree, the first item was attached to a node that was added after it. -/
theorem traversals_agree_grove : Grown grove ∧ grove.descendants 2 = [3, 1] ∧ grove.ancestors 1 = [3, 2, root] ∧
    grove.isBelow 1 2 = true := by
  obtain ⟨-, order, -, -, below⟩ := Grown.traversals_agree grown_grove 2
  have listed := (order _).mp documentOrder_menu
  have mem : 1 ∈ grove.descendants 2 := by
    rw [← listed]
    decide
  exact ⟨grown_grove, listed.symm, by decide, (below 1).1.mp mem⟩

end HtmlQuery.Tree
