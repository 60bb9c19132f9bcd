import HtmlQuery.Proofs.Selector.Searches

/-!
# Lookups and conditions

A lookup reads single data of the nodes, or an index that was made from them, while a condition is checked at one
element at a time. They mean the same elements: whatever the attributes hold, a lookup finds the nodes below its context
at which the condition holds.

* `Finder.lookups_eq_filter_documentOrder` — all kinds of lookups, under every configuration.
-/

namespace HtmlQuery

open HtmlQuery.Tree (root)

variable {t : Tree} {context : Option NodeId}

namespace Tree

/-- Conditions hold at elements only, so they leave out the other nodes by themselves. -/
theorem isElement_and_holdsAt (t : Tree) (s : SimpleSelector) (id : NodeId) :
    (t.isElement id && s.holdsAt t id) = s.holdsAt t id := by
  cases h : s.holdsAt t id with
  | false => rw [Bool.and_false]
  | true => rw [SimpleSelector.isElement_of_holdsAt h, Bool.and_true]

theorem filter_elementsBelow (t : Tree) (a : NodeId) (s : SimpleSelector) :
    ((t.elementsBelow a).filter fun id => s.holdsAt t id) = (t.descendants a).filter fun id => s.holdsAt t id := by
  rw [elementsBelow, List.filter_filter]
  congr 1
  funext id
  rw [Bool.and_comm, isElement_and_holdsAt]

theorem find?_elementsBelow (t : Tree) (a : NodeId) (s : SimpleSelector) :
    ((t.elementsBelow a).find? fun id => s.holdsAt t id) = (t.descendants a).find? fun id => s.holdsAt t id := by
  rw [elementsBelow, List.find?_filter]
  congr 1
  funext id
  rw [Bool.decide_and, Bool.decide_eq_true, Bool.decide_eq_true, isElement_and_holdsAt]

end Tree

namespace Finder

/-- **A lookup finds the nodes below the context at which its condition holds**, each once and in document order. The
lookup by id finds the first of them in the whole document. -/
theorem lookups_eq_filter_documentOrder (grown : t.Grown) (config : Config) (reached : ∀ a ∈ context, t.Reachable a) :
    ∃ whole below, t.DocumentOrder (t.children root) whole ∧ t.DocumentOrder (t.children (context.getD root)) below ∧
      below.Nodup ∧ (∀ id, id ∈ below ↔ t.IsAncestor (context.getD root) id) ∧
      (∀ name, (ofTree t config).elementsByTag name context =
        below.filter fun id => (SimpleSelector.hasTag name).holdsAt t id) ∧
      (∀ name, (ofTree t config).elementsByClass name context =
        below.filter fun id => (SimpleSelector.hasClass name).holdsAt t id) ∧
      (∀ name value, (ofTree t config).elementsByAttribute name value context =
        below.filter fun id => (SimpleSelector.hasAttribute name value).holdsAt t id) ∧
      ∀ name, (ofTree t config).elementById? name =
        whole.find? fun id => (SimpleSelector.hasId name).holdsAt t id := by
  have wf := grown.wellFormed
  refine ⟨_, _, wf.documentOrder_descendants root, wf.documentOrder_descendants _, wf.nodup_descendants _,
    fun _ => wf.mem_descendants_iff, fun name => ?byTag, fun name => ?byClass, fun name value => ?byAttribute,
    fun name => ?byId⟩
  case byTag => rw [elementsByTag_ofTree, Tree.filter_elementsBelow]
  case byClass => rw [elementsByClass_ofTree wf config name reached, Tree.filter_elementsBelow]
  case byAttribute => rw [elementsByAttribute_ofTree, Tree.filter_elementsBelow]
  case byId => rw [elementById?_ofTree, Tree.firstWithId?, Tree.find?_elementsBelow]

/-- Below the first `ul` of the small tree there are another one and the item. Both `ul` have the id `menu`, and the
first of them is the context itself. -/
theorem lookups_grove : (∀ a ∈ some 2, Tree.grove.Reachable a) ∧
    (ofTree .grove .indexed).elementsByTag "UL" (some 2) = [3] ∧
    (ofTree .grove .indexed).elementsByClass "x" (some 2) = [1] ∧
    (ofTree .grove .indexed).elementsByAttribute "id" none (some 2) = [3] ∧
    (ofTree .grove .indexed).elementById? "menu" = some 2 := by
  have reached : ∀ a ∈ some 2, Tree.grove.Reachable a := by
    rintro _ ⟨⟩
    exact .single (by decide)
  obtain ⟨_, _, whole, below, -, -, byTag, byClass, byAttribute, byId⟩ :=
    lookups_eq_filter_documentOrder Tree.grown_grove .indexed reached
  cases whole.unique Tree.documentOrder_grove
  cases below.unique Tree.documentOrder_menu
  refine ⟨reached, ?_, ?_, ?_, ?_⟩
  · rw [byTag]
    decide
  · rw [byClass]
    decide
  · rw [byAttribute]
    decide
  · rw [byId]
    decide

end Finder

end HtmlQuery
