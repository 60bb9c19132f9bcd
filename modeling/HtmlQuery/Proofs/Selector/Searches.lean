import HtmlQuery.Proofs.Lookup.Indexes
import HtmlQuery.Proofs.Selector.AncestorChains
import HtmlQuery.Proofs.Selector.Selections
import HtmlQuery.Proofs.Tree.Traversals
import HtmlQuery.Selector.Reader
import HtmlQuery.Selector.Search

/-!
# Searches and matches

A search looks up one condition and then checks the others on what it has found. It gives the elements that match, in
document order. The choice of the condition shows in one case: a search for an id sees only the first element with it.

* `ComplexSelector.nodes_search` — a search keeps the matching elements below the context;
* `ComplexSelector.search_eq_filter_documentOrder` — the same, without walks and indexes;
* `Selector.mem_search_iff` — which of the matching nodes of the document a search finds.
-/

namespace HtmlQuery

open HtmlQuery.Tree (root)

variable {t : Tree} {id : NodeId} {config : Config} {context : Option NodeId}

/-! ## The condition that is looked up -/

/-- The first condition on the id is the one whose name counts. -/
theorem SimpleSelector.findSome?_idName? : ∀ terms : List SimpleSelector,
    terms.findSome? idName? = (terms.find? isId).bind idName?
  | [] => rfl
  | .hasId _ :: _ => rfl
  | .hasClass _ :: terms => findSome?_idName? terms
  | .hasTag _ :: terms => findSome?_idName? terms
  | .hasAttribute _ _ :: terms => findSome?_idName? terms

theorem SimpleSelector.idName?_eq_none {s : SimpleSelector} (h : s.isId = false) : s.idName? = none := by
  cases s with
  | hasId name => cases h
  | _ => rfl

namespace CompoundSelector

/-- The id that is asked for, by the first condition on the id. -/
def idName? (c : CompoundSelector) : Option String := c.terms.findSome? SimpleSelector.idName?

theorem anchor_mem (c : CompoundSelector) : c.anchor ∈ c.terms := by
  rw [anchor]
  cases h : c.terms.find? SimpleSelector.isId with
  | none => exact List.head_mem c.terms_ne_nil
  | some s => exact List.mem_of_find?_eq_some h

/-- If there is a condition on the id, then it is the first of these that is looked up. -/
theorem idName?_anchor (c : CompoundSelector) : c.anchor.idName? = c.idName? := by
  rw [idName?, SimpleSelector.findSome?_idName?, anchor]
  cases h : c.terms.find? SimpleSelector.isId with
  | none =>
    have first := List.find?_eq_none.mp h _ (List.head_mem c.terms_ne_nil)
    exact SimpleSelector.idName?_eq_none (Bool.not_eq_true _ ▸ first)
  | some s => rfl

/-- The condition that is looked up and those that are checked afterwards are all conditions. -/
theorem holdsAt_eq_anchor (c : CompoundSelector) (t : Tree) (id : NodeId) :
    c.holdsAt t id = (c.anchor.holdsAt t id && c.others.all fun s => s.holdsAt t id) := by
  rw [holdsAt, (List.perm_cons_erase c.anchor_mem).all_eq, List.all_cons]
  rfl

end CompoundSelector

/-! ## Searches -/

namespace ComplexSelector

theorem mem_search {c : ComplexSelector} {f : Finder} : id ∈ (c.search f context).nodes ↔
    id ∈ f.lookup c.subject.anchor context ∧ c.subject.others.all (fun s => s.holdsAt f.tree id) = true ∧
      c.holdsAbove f.tree id = true := by
  show id ∈ Selection.firstOccurrences ∅ _ ↔ _
  rw [Selection.mem_firstOccurrences, and_iff_left Std.HashSet.not_mem_empty, List.mem_filter, Bool.and_eq_true]

/-- **A search keeps the matching elements below the context**, but of the elements with the id that is asked for it
sees only the first of the document. -/
theorem nodes_search (wf : t.WellFormed) (config : Config) (c : ComplexSelector)
    (reached : ∀ a ∈ context, t.Reachable a) : (c.search (.ofTree t config) context).nodes =
      (t.elementsBelow (context.getD root)).filter fun id =>
        c.holdsAt t id && c.subject.idName?.all fun name => t.firstWithId? name == some id := by
  have found := Finder.lookup_ofTree wf config c.subject.anchor reached
  have nodup : ((Finder.ofTree t config).lookup c.subject.anchor context).Nodup := by
    rw [found]
    exact (wf.nodup_elementsBelow _).filter _
  rw [search, Selection.nodes_ofList (nodup.filter _), found, List.filter_filter, c.subject.idName?_anchor]
  congr 1
  funext id
  rw [holdsAt, c.subject.holdsAt_eq_anchor]
  show (c.subject.others.all (fun s => s.holdsAt t id) && c.holdsAbove t id && (_ && _)) = _
  ac_rfl

end ComplexSelector

/-! ## Searches without walks and indexes -/

theorem Tree.firstWithId?_eq (t : Tree) (name : String) :
    t.firstWithId? name = (t.descendants root).find? fun id => t.trimmedId? id == some name := by
  rw [firstWithId?, elementsBelow, List.find?_filter]
  congr 1
  funext id
  rw [← SimpleSelector.holdsAt_hasId]
  cases h : (SimpleSelector.hasId name).holdsAt t id with
  | false => simp
  | true => simp [SimpleSelector.isElement_of_holdsAt h]

/-- **A search finds the matching ones of the elements below the context**, each once and in document order. If it asks
for an id, then only the first element with it in the order of the whole document can be among them. -/
theorem ComplexSelector.search_eq_filter_documentOrder (grown : t.Grown) (config : Config) (c : ComplexSelector)
    (reached : ∀ a ∈ context, t.Reachable a) :
    ∃ whole below, t.DocumentOrder (t.children root) whole ∧ t.DocumentOrder (t.children (context.getD root)) below ∧
      below.Nodup ∧ (c.search (.ofTree t config) context).nodes = below.filter fun id =>
        t.isElement id && c.holdsAt t id &&
          c.subject.idName?.all fun name => whole.find? (t.trimmedId? · == some name) == some id := by
  have wf := grown.wellFormed
  refine ⟨_, _, wf.documentOrder_descendants root, wf.documentOrder_descendants _, wf.nodup_descendants _, ?_⟩
  rw [c.nodes_search wf config reached, Tree.elementsBelow, List.filter_filter]
  congr 1
  funext id
  simp only [Tree.firstWithId?_eq, Bool.and_comm, Bool.and_assoc, Bool.and_left_comm]

/-- Below the first `ul` of the small tree, `ul .x` finds the one item of the document. -/
theorem ComplexSelector.search_grove : (∀ a ∈ some 2, Tree.grove.Reachable a) ∧
    (ComplexSelector.search ⟨[⟨[.hasTag "ul"], nofun⟩], ⟨[.hasClass "x"], nofun⟩⟩ (.ofTree .grove .indexed)
      (some 2)).nodes = [1] := by
  have reached : ∀ a ∈ some 2, Tree.grove.Reachable a := by
    rintro _ ⟨⟩
    exact .single (by decide)
  obtain ⟨_, _, whole, below, -, found⟩ := search_eq_filter_documentOrder Tree.grown_grove .indexed
    ⟨[⟨[.hasTag "ul"], nofun⟩], ⟨[.hasClass "x"], nofun⟩⟩ reached
  cases whole.unique Tree.documentOrder_grove
  cases below.unique Tree.documentOrder_menu
  exact ⟨reached, found⟩

/-- The elements of the document are those that it reaches. -/
theorem Tree.Grown.mem_elementsBelow_root_iff (grown : t.Grown) (h : t.isElement id = true) :
    id ∈ t.elementsBelow root ↔ t.Reachable id := by
  have wf := grown.wellFormed
  have other : root ≠ id := by
    rintro rfl
    rw [grown.isElement_root] at h
    cases h
  rw [wf.mem_elementsBelow_iff, and_iff_left h, wf.reachable_iff, isInclusiveAncestor_iff, or_iff_right other]

namespace Selector

/-- **A search of the document finds the matching nodes that the document reaches**, but of the elements with the id
that it asks for only the first. -/
theorem mem_search_iff (grown : t.Grown) (config : Config) (s : Selector) :
    ∃ whole, t.DocumentOrder (t.children root) whole ∧ ∀ id, id ∈ (s.search (.ofTree t config) none).nodes ↔
      t.Reachable id ∧ s.holdsAt t id = true ∧ ∀ c ∈ s.complex?, ∀ name ∈ c.subject.idName?,
        whole.find? (t.trimmedId? · == some name) = some id := by
  have wf := grown.wellFormed
  have everywhere : ∀ a ∈ none, t.Reachable a := nofun
  refine ⟨_, wf.documentOrder_descendants root, fun id => ?_⟩
  obtain ⟨_ | c⟩ := s
  · -- the empty selector
    exact iff_of_false List.not_mem_nil fun h => Bool.false_ne_true h.2.1
  · have first : (c.subject.idName?.all fun name => t.firstWithId? name == some id) = true ↔
        ∀ name ∈ c.subject.idName?, (t.descendants root).find? (t.trimmedId? · == some name) = some id := by
      simp only [Option.all_eq_true, beq_iff_eq, Tree.firstWithId?_eq, Option.mem_def]
    show id ∈ (c.search _ none).nodes ↔ t.Reachable id ∧ c.holdsAt t id = true ∧ ∀ c' ∈ some c, _
    rw [c.nodes_search wf config everywhere, List.mem_filter, Bool.and_eq_true, first]
    constructor
    · rintro ⟨mem, holds, unique⟩
      refine ⟨(grown.mem_elementsBelow_root_iff (ComplexSelector.isElement_of_holdsAt holds)).mp mem, holds, ?_⟩
      intro _ hc
      cases hc
      exact unique
    · rintro ⟨reached, holds, unique⟩
      exact ⟨(grown.mem_elementsBelow_root_iff (ComplexSelector.isElement_of_holdsAt holds)).mpr reached, holds,
        unique c rfl⟩

/-- Both `ul` elements of the small tree have the id `menu`. The search finds the first. -/
theorem search_menu_grove : (2 ∈ (search ⟨some ⟨[], ⟨[.hasTag "ul", .hasId "menu"], nofun⟩⟩⟩
      (.ofTree .grove .indexed) none).nodes) ∧
    3 ∉ (search ⟨some ⟨[], ⟨[.hasTag "ul", .hasId "menu"], nofun⟩⟩⟩ (.ofTree .grove .indexed) none).nodes := by
  obtain ⟨_, whole, found⟩ := mem_search_iff Tree.grown_grove .indexed
    ⟨some ⟨[], ⟨[.hasTag "ul", .hasId "menu"], nofun⟩⟩⟩
  cases whole.unique Tree.documentOrder_grove
  refine ⟨(found 2).mpr ⟨.single (by decide), by decide, ?_⟩, fun h => ?_⟩
  · rintro _ ⟨⟩ _ ⟨⟩
    decide
  · exact absurd (((found 3).mp h).2.2 _ rfl "menu" rfl) (by decide)

/-- Not every matching node of the document is found. -/
theorem not_forall_mem_search_iff : ¬ ∀ (t : Tree) (config : Config) (text : String) (s : Selector), t.Grown →
    parse text = .ok s → ∀ id,
      id ∈ (s.search (.ofTree t config) none).nodes ↔ t.Reachable id ∧ s.holdsAt t id = true := by
  intro all
  have wf := Tree.grown_grove.wellFormed
  have reached : Tree.grove.Reachable 3 := .tail (.single (by decide : 2 ∈ Tree.grove.children root)) (by decide)
  have found := (all .grove {} "#menu" ⟨some ⟨[], ⟨[.hasId "menu"], nofun⟩⟩⟩ Tree.grown_grove rfl 3).mpr
    ⟨reached, by decide⟩
  have first : Tree.grove.firstWithId? "menu" = some 2 := by
    rw [Tree.firstWithId?_eq, wf.descendants_eq Tree.documentOrder_grove]
    decide
  have everywhere : ∀ a ∈ none, Tree.grove.Reachable a := nofun
  change 3 ∈ (ComplexSelector.search _ _ none).nodes at found
  rw [ComplexSelector.nodes_search wf {} _ everywhere, List.mem_filter, Bool.and_eq_true] at found
  have only : (Tree.grove.firstWithId? "menu" == some 3) = true := found.2.2
  rw [first] at only
  exact absurd only (by decide)

end Selector

end HtmlQuery
