import HtmlQuery.Proofs.Markup.ElementShapes
import HtmlQuery.Proofs.Tree.Outlines
import Mathlib.Algebra.Order.BigOperators.Group.List
import Mathlib.Algebra.Order.Ring.Nat

/-!
# The lines of an outline

Each node of an outline ends its line with a line feed. Other line feeds come from the document. The data of a text is
written without them, and tags and the names of attributes have none. The data of a comment and the values of attributes
stand in the outline as they are, and then a node takes more than one line.

* `NodeKind.breaks` — the line feeds inside the label of a node;
* `Tree.WellFormed.lineFeeds_outline` — the line feeds of an outline;
* `Tree.lineFeeds_outline_parse` — when the lines of an outline are its nodes.
-/

namespace HtmlQuery

/-! ## Line feeds -/

/-- The number of line feeds in a text. -/
def lineFeeds (s : String) : Nat := s.toList.count '\n'

theorem lineFeeds_append (s u : String) : lineFeeds (s ++ u) = lineFeeds s + lineFeeds u := by
  rw [lineFeeds, String.toList_append, List.count_append, lineFeeds, lineFeeds]

theorem lineFeeds_join (texts : List String) : lineFeeds (String.join texts) = (texts.map lineFeeds).sum := by
  rw [lineFeeds, String.toList_join, List.count_flatMap]
  rfl

theorem lineFeeds_eq_zero_iff {s : String} : lineFeeds s = 0 ↔ '\n' ∉ s.toList := List.count_eq_zero

theorem lineFeeds_escapeLineFeeds (s : String) : lineFeeds (escapeLineFeeds s) = 0 := by
  rw [lineFeeds_eq_zero_iff, escapeLineFeeds, String.toList_ofList, List.mem_flatMap]
  rintro ⟨c, -, mem⟩
  split at mem
  · exact absurd mem (by decide)
  · rename_i other
    exact other (List.mem_singleton.mp mem).symm

theorem lineFeeds_indent (level : Nat) : lineFeeds (indent level) = 0 := by
  rw [lineFeeds_eq_zero_iff, indent, String.toList_ofList]
  exact fun mem => absurd (List.eq_of_mem_replicate mem) (by decide)

/-! ## Labels -/

/-- A name in markup has no line feed. -/
theorem lineFeeds_eq_zero_of_isNameChar {name : String} (h : ∀ c ∈ name.toList, isNameChar c = true) :
    lineFeeds name = 0 :=
  lineFeeds_eq_zero_iff.mpr fun mem => absurd (h '\n' mem) (by decide)

theorem lineFeeds_attributeText {name : String} (value : String) (h : lineFeeds name = 0) :
    lineFeeds (attributeText name value) = lineFeeds value := by
  have blank : lineFeeds " " = 0 := by decide
  have opens : lineFeeds "=\"" = 0 := by decide
  have closes : lineFeeds "\"" = 0 := by decide
  unfold attributeText
  split
  · rename_i empty
    rw [String.isEmpty_iff.mp empty, lineFeeds_append, blank, h]
    rfl
  · simp only [lineFeeds_append, blank, h, opens, closes, Nat.zero_add, Nat.add_zero]

/-- The line feeds that the label of a node has from the document. -/
def NodeKind.breaks : NodeKind → Nat
  | .document | .text _ => 0
  | .element e => (e.attributes.toList.map fun entry => lineFeeds entry.2).sum
  | .comment data => lineFeeds data

/-- No line feed is in the data of a comment or in the values of the attributes of an element. -/
def NodeKind.OnOneLine : NodeKind → Prop
  | .document | .text _ => True
  | .element e => ∀ name value, e.attribute? name = some value → '\n' ∉ value.toList
  | .comment data => '\n' ∉ data.toList

theorem NodeKind.breaks_eq_zero_iff (kind : NodeKind) : kind.breaks = 0 ↔ kind.OnOneLine := by
  cases kind with
  | document | text => exact iff_of_true rfl trivial
  | comment data => exact lineFeeds_eq_zero_iff
  | element e =>
    rw [breaks, List.sum_eq_zero_iff, List.forall_mem_map, OnOneLine]
    constructor
    · exact fun all name value get => lineFeeds_eq_zero_iff.mp (all (name, value) (Attributes.mem_toList.mpr get))
    · exact fun all entry mem => lineFeeds_eq_zero_iff.mpr (all entry.1 entry.2 (Attributes.mem_toList.mp mem))

theorem Element.IsShaped.lineFeeds_startTag {e : Element} (h : e.IsShaped) :
    lineFeeds e.startTag = (NodeKind.element e).breaks := by
  have attributes : ∀ entry ∈ e.attributes.toList, lineFeeds (attributeText entry.1 entry.2) = lineFeeds entry.2 := by
    intro entry mem
    have named := h.named entry.1 entry.2 (Attributes.mem_toList.mp mem)
    exact lineFeeds_attributeText entry.2 (lineFeeds_eq_zero_of_isNameChar fun c hc => (named c hc).1)
  have opens : lineFeeds "<" = 0 := by decide
  have closes : lineFeeds ">" = 0 := by decide
  rw [startTag, lineFeeds_append, lineFeeds_append, lineFeeds_append, opens, closes,
    lineFeeds_eq_zero_of_isNameChar h.tag.chars, lineFeeds_join, List.map_map, NodeKind.breaks]
  simp only [Nat.zero_add, Nat.add_zero]
  exact congrArg List.sum (List.map_congr_left attributes)

/-- **The label of a node** breaks its line where the document does. -/
theorem NodeKind.lineFeeds_label {kind : NodeKind} (h : ∀ e, kind = .element e → e.IsShaped) :
    lineFeeds kind.label = kind.breaks := by
  cases kind with
  | document => decide
  | element e => exact (h e rfl).lineFeeds_startTag
  | text data =>
    have quote : lineFeeds "\"" = 0 := by decide
    rw [label, lineFeeds_append, lineFeeds_append, quote, lineFeeds_escapeLineFeeds, breaks]
  | comment data =>
    have opens : lineFeeds "<!-- " = 0 := by decide
    have closes : lineFeeds " -->" = 0 := by decide
    rw [label, lineFeeds_append, lineFeeds_append, opens, closes, breaks, Nat.zero_add, Nat.add_zero]

namespace Tree

variable {t : Tree} {r id : NodeId}

/-! ## Outlines -/

/-- The line feeds that the line of a node has from the document. -/
def breaksAt (t : Tree) (id : NodeId) : Nat := (t.get? id).elim 0 fun node => node.kind.breaks

/-- Besides these, a line has the line feed that ends it. -/
theorem IsShaped.lineFeeds_outlineLine (h : t.IsShaped) {node : Node} (get : t.get? id = some node) (level : Nat) :
    lineFeeds (t.outlineLine id level) = 1 + t.breaksAt id := by
  have shaped : ∀ e, node.kind = .element e → e.IsShaped := by
    intro e kind
    refine h id e ?_
    rw [element?_eq, get]
    simp [NodeKind.element?, kind]
  have ends : lineFeeds "\n" = 1 := by decide
  rw [outlineLine, get, breaksAt, get]
  dsimp only [Option.elim]
  rw [lineFeeds_append, lineFeeds_append, lineFeeds_indent, NodeKind.lineFeeds_label shaped, ends, Nat.zero_add,
    Nat.add_comm]

/-- **The line feeds of an outline**: one for each node, and those from the document. -/
theorem WellFormed.lineFeeds_outline (wf : t.WellFormed) (shaped : t.IsShaped) (h : r < t.size) :
    lineFeeds (t.outline r) =
      1 + (t.descendants r).length + ((r :: t.descendants r).map t.breaksAt).sum := by
  have lines : ∀ entry ∈ t.subtree r, lineFeeds (t.outlineLine entry.1 entry.2) = 1 + t.breaksAt entry.1 := by
    intro entry mem
    have listed : entry.1 ∈ r :: t.descendants r := wf.map_fst_subtree r ▸ List.mem_map_of_mem mem
    obtain ⟨node, get⟩ := wf.exists_get?_of_mem_cons_descendants h listed
    exact shaped.lineFeeds_outlineLine get entry.2
  calc lineFeeds (t.outline r)
    _ = ((t.subtree r).map fun entry => 1 + t.breaksAt entry.1).sum := by
      rw [outline, lineFeeds_join, List.map_map]
      exact congrArg List.sum (List.map_congr_left lines)
    _ = ((r :: t.descendants r).map fun id => 1 + t.breaksAt id).sum := by
      rw [← wf.map_fst_subtree r, List.map_map]
      rfl
    _ = 1 + (t.descendants r).length + ((r :: t.descendants r).map t.breaksAt).sum := by
      rw [List.sum_map_add, List.map_const', List.sum_replicate, List.length_cons]
      simp [Nat.add_comm]

/-- **When the lines of an outline are its nodes.** Whatever the document, the outline of a node has a line feed for the
node, one for each node below it, and those in the data of their comments and in the values of their attributes. So it
has a line for each node exactly if these have none. -/
theorem lineFeeds_outline_parse (html : String) (h : r < (parse html).size) :
    lineFeeds ((parse html).outline r) = 1 + ((parse html).descendants r).length +
      ((r :: (parse html).descendants r).map (parse html).breaksAt).sum ∧
    (lineFeeds ((parse html).outline r) = 1 + ((parse html).descendants r).length ↔
      ∀ id ∈ r :: (parse html).descendants r, ∀ node ∈ (parse html).get? id, node.kind.OnOneLine) := by
  have count := (wellFormed_parse html).lineFeeds_outline (isShaped_parse html) h
  have none (id : NodeId) : (parse html).breaksAt id = 0 ↔ ∀ node ∈ (parse html).get? id, node.kind.OnOneLine := by
    rw [breaksAt]
    cases (parse html).get? id with
    | none => exact iff_of_true rfl nofun
    | some node => simp [NodeKind.breaks_eq_zero_iff]
  refine ⟨count, ?_⟩
  rw [count, Nat.add_eq_left, List.sum_eq_zero_iff, List.forall_mem_map]
  simp only [none]

/-- A line feed in the value of an attribute: the body and the paragraph in it take three lines. -/
theorem lineFeeds_outline_title : 3 < (parse "<p title='\n'>").size ∧ (parse "<p title='\n'>").descendants 3 = [4] ∧
    lineFeeds ((parse "<p title='\n'>").outline 3) = 3 := by
  have children : (parse "<p title='\n'>").children 3 = [4] ∧ (parse "<p title='\n'>").children 4 = [] := by
    decide +kernel
  have below : (parse "<p title='\n'>").DocumentOrder ((parse "<p title='\n'>").children 3) [4] := by
    rw [children.1]
    exact @DocumentOrder.cons _ 4 [] [] [] (documentOrder_leaf children.2) .nil
  have size : 3 < (parse "<p title='\n'>").size := by decide +kernel
  have listed := (wellFormed_parse "<p title='\n'>").descendants_eq below
  have count := (lineFeeds_outline_parse "<p title='\n'>" size).1
  rw [listed] at count
  exact ⟨size, listed, count.trans (by decide +kernel)⟩

/-- Not every outline has one line for each node: a comment can have more. -/
theorem not_forall_lineFeeds_outline : ¬ ∀ html r, r < (parse html).size →
    lineFeeds ((parse html).outline r) = 1 + ((parse html).descendants r).length := by
  intro all
  have one := all "<!--\n-->" 1 (by decide +kernel)
  have leaf : (parse "<!--\n-->").DocumentOrder ((parse "<!--\n-->").children 1) [] :=
    documentOrder_leaf (by decide +kernel)
  have wf := wellFormed_parse "<!--\n-->"
  rw [wf.lineFeeds_outline (isShaped_parse _) (by decide +kernel), wf.descendants_eq leaf] at one
  exact absurd one (by decide +kernel)

end Tree

end HtmlQuery
