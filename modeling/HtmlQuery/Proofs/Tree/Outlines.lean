import HtmlQuery.Proofs.Tree.Traversals
import HtmlQuery.Tree.Outline

/-!
# Outlines

An outline is written by a walk of its own, with a stack of waiting nodes and their levels. What it writes are the lines
of the document order. The level of a line is the number of parents on the way from its node up to the first one.

* `NodeKind.IsRendering` — how each kind of node is written;
* `Tree.levelBelow` — the number of parents on the way;
* `Tree.Writes` — the walk, without a bound;
* `Tree.WellFormed.writes_append` — it writes the lines of document order;
* `Tree.WellFormed.outline_eq` — the outline of a node.
-/

namespace HtmlQuery

/-! ## Renderings -/

/-- How a node of each kind is written. The line feeds of a text stand between pieces of it, and a backslash and an `n`
are written in their places. -/
inductive NodeKind.IsRendering : NodeKind → String → Prop
  | document : IsRendering .document "Document"
  | element (e : Element) : IsRendering (.element e) e.startTag
  | text {pieces : List String} : (∀ piece ∈ pieces, '\n' ∉ piece.toList) →
      IsRendering (.text ("\n".intercalate pieces)) ("\"" ++ "\\n".intercalate pieces ++ "\"")
  | comment (data : String) : IsRendering (.comment data) ("<!-- " ++ data ++ " -->")

/-- The pieces of a text between its line feeds. -/
theorem exists_pieces : ∀ cs : List Char, ∃ piece pieces, (∀ p ∈ piece :: pieces, '\n' ∉ p) ∧
    ['\n'].intercalate (piece :: pieces) = cs ∧
    ['\\', 'n'].intercalate (piece :: pieces) = cs.flatMap fun c => if c = '\n' then ['\\', 'n'] else [c]
  | [] => ⟨[], [], by simp, by simp, by simp⟩
  | c :: cs => by
    obtain ⟨piece, pieces, without, joined, escaped⟩ := exists_pieces cs
    by_cases lineFeed : c = '\n'
    · refine ⟨[], piece :: pieces, List.forall_mem_cons.mpr ⟨List.not_mem_nil, without⟩, ?_, ?_⟩
      · rw [List.intercalate_cons_cons, joined, lineFeed]
        rfl
      · rw [List.intercalate_cons_cons, escaped, List.flatMap_cons, if_pos lineFeed]
        rfl
    · obtain ⟨own, others⟩ := List.forall_mem_cons.mp without
      refine ⟨c :: piece, pieces, List.forall_mem_cons.mpr ⟨?_, others⟩, ?_, ?_⟩
      · exact List.not_mem_cons_of_ne_of_not_mem (Ne.symm lineFeed) own
      · rw [List.intercalate_cons_cons_left, joined]
      · rw [List.intercalate_cons_cons_left, escaped, List.flatMap_cons, if_neg lineFeed]
        rfl

theorem exists_pieces_of_string (s : String) : ∃ pieces : List String, (∀ p ∈ pieces, '\n' ∉ p.toList) ∧
    "\n".intercalate pieces = s ∧ "\\n".intercalate pieces = escapeLineFeeds s := by
  obtain ⟨piece, pieces, without, joined, escaped⟩ := exists_pieces s.toList
  have inverse (ps : List (List Char)) : (ps.map String.ofList).map String.toList = ps := by simp
  refine ⟨(piece :: pieces).map String.ofList, fun p mem => ?_, ?_, ?_⟩
  · obtain ⟨cs, inside, rfl⟩ := List.mem_map.mp mem
    rw [String.toList_ofList]
    exact without cs inside
  · rw [← String.toList_inj, String.toList_intercalate, inverse]
    exact joined
  · rw [← String.toList_inj, String.toList_intercalate, inverse]
    exact escaped.trans String.toList_ofList.symm

theorem NodeKind.isRendering_label (kind : NodeKind) : kind.IsRendering kind.label := by
  cases kind with
  | document => exact .document
  | element e => exact .element e
  | text data =>
    obtain ⟨pieces, without, joined, escaped⟩ := exists_pieces_of_string data
    rw [label, ← escaped, ← joined]
    exact .text without
  | comment data => exact .comment data

namespace Tree

variable {t : Tree} {r id p : NodeId} {ids order : List NodeId}

/-! ## Nodes of an outline -/

/-- What is listed is in the tree. -/
theorem WellFormed.exists_get?_of_mem_cons_descendants (wf : t.WellFormed) (h : r < t.size)
    (mem : id ∈ r :: t.descendants r) : ∃ node, t.get? id = some node := by
  have bound : id < t.size := by
    rcases List.mem_cons.mp mem with rfl | below
    · exact h
    · obtain ⟨_, parent, -⟩ := isAncestor_iff_parent?.mp (wf.mem_descendants_iff.mp below)
      exact lt_size_of_parent? parent
  exact Option.ne_none_iff_exists'.mp fun none => absurd bound (Nat.not_lt.mpr (get?_eq_none_iff.mp none))

/-- The walk of an outline comes to the node and to what is below it. -/
theorem WellFormed.map_fst_subtree (wf : t.WellFormed) (r : NodeId) :
    (t.subtree r).map Prod.fst = r :: t.descendants r := by
  rw [wf.subtree_eq (wf.documentOrder_descendants r), List.map_cons, List.map_map]
  exact congrArg (r :: ·) (List.map_id' _)

/-! ## Levels -/

/-- The number of parents on the way from a node up to `r`. -/
def levelBelow (t : Tree) (r id : NodeId) : Nat := (id :: t.ancestors id).idxOf r

theorem levelBelow_self (t : Tree) (r : NodeId) : t.levelBelow r r = 0 := List.idxOf_cons_self

/-- Below `r`, a node is one level deeper than its parent. -/
theorem WellFormed.levelBelow_of_parent? (wf : t.WellFormed) (h : t.parent? id = some p) (ne : id ≠ r) :
    t.levelBelow r id = t.levelBelow r p + 1 := by
  rw [levelBelow, List.idxOf_cons_ne _ ne, wf.ancestors_of_parent? h, levelBelow]

theorem WellFormed.ne_of_isAncestor (wf : t.WellFormed) (h : t.IsAncestor r id) : id ≠ r := by
  rintro rfl
  exact wf.acyclic _ h

/-- The children of a node below `r` are one level deeper than the node. -/
theorem WellFormed.levelBelow_of_mem_children (wf : t.WellFormed) (above : t.IsInclusiveAncestor r p)
    (h : id ∈ t.children p) : t.IsInclusiveAncestor r id ∧ t.levelBelow r id = t.levelBelow r p + 1 := by
  have parent := (wf.mem_children p id).mp h
  have below : t.IsAncestor r id := isAncestor_iff_parent?.mpr ⟨p, parent, above⟩
  exact ⟨below.inclusive, wf.levelBelow_of_parent? parent (wf.ne_of_isAncestor below)⟩

/-- Levels are differences of depths. -/
theorem WellFormed.levelBelow_add_depth (wf : t.WellFormed) (h : t.IsInclusiveAncestor r id) :
    t.levelBelow r id + t.depth r = t.depth id := by
  induction h using Relation.ReflTransGen.head_induction_on with
  | refl => rw [levelBelow_self, Nat.zero_add]
  | @head id p parent above ih =>
    have below : t.IsAncestor r id := isAncestor_iff_parent?.mpr ⟨p, parent, above⟩
    rw [wf.levelBelow_of_parent? parent (wf.ne_of_isAncestor below), wf.depth_of_parent? parent]
    omega

/-! ## The walk -/

/-- The walk that begins with the waiting nodes `stack` ends, and has written `text`. It takes the first node off the
stack, writes its line, and puts its children in its place, one level deeper. -/
inductive Writes (t : Tree) : (stack : List (NodeId × Nat)) → (text : String) → Prop
  | nil : Writes t [] ""
  | cons {id : NodeId} {level : Nat} {stack : List (NodeId × Nat)} {text : String} :
      Writes t ((t.children id).map (·, level + 1) ++ stack) text →
      Writes t ((id, level) :: stack) (t.outlineLine id level ++ text)

/-- The line of a node in the outline of `r`. -/
def lineBelow (t : Tree) (r id : NodeId) : String := t.outlineLine id (t.levelBelow r id)

/-- The walk writes the lines of the nodes at the front of its stack in document order before it comes to the others. -/
theorem WellFormed.writes_append (wf : t.WellFormed) (h : t.DocumentOrder ids order) {level : Nat}
    (levels : ∀ id ∈ ids, t.IsInclusiveAncestor r id ∧ t.levelBelow r id = level) {stack : List (NodeId × Nat)}
    {text : String} (others : t.Writes stack text) :
    t.Writes (ids.map (·, level) ++ stack) (String.join (order.map (t.lineBelow r)) ++ text) := by
  induction h generalizing level stack text with
  | nil =>
    rw [List.map_nil, List.map_nil, List.nil_append, String.join_nil, String.empty_append]
    exact others
  | @cons id ids below rest _ _ ihBelow ihRest =>
    obtain ⟨above, hid⟩ := levels id List.mem_cons_self
    have children : ∀ c ∈ t.children id, t.IsInclusiveAncestor r c ∧ t.levelBelow r c = level + 1 :=
      fun c hc => hid ▸ wf.levelBelow_of_mem_children above hc
    have behind := ihRest (fun x hx => levels x (List.mem_cons_of_mem _ hx)) others
    rw [List.map_cons, List.map_cons, List.map_append, String.join_cons, String.join_append, lineBelow, hid,
      String.append_assoc, String.append_assoc]
    exact .cons (ihBelow children behind)

/-- **The outline of a node.** The walk that begins with the node at level zero comes to an end. It writes a line for the
node and one for each node below it, in document order. A line begins with two spaces for each parent on the way from
its node up to the first one, and then the node is written as its kind has it. -/
theorem WellFormed.outline_eq (wf : t.WellFormed) (h : r < t.size) :
    t.Writes [(r, 0)] (t.outline r) ∧
    t.outline r = String.join ((r :: t.descendants r).map (t.lineBelow r)) ∧
    ∀ id ∈ r :: t.descendants r, ∃ node, t.get? id = some node ∧ node.kind.IsRendering node.kind.label ∧
      t.lineBelow r id = indent (t.levelBelow r id) ++ node.kind.label ++ "\n" := by
  have order := wf.documentOrder_descendants r
  have lines : t.outline r = String.join ((r :: t.descendants r).map (t.lineBelow r)) := by
    -- below `r`, the levels of the listing are those on the way up
    have level : ∀ id ∈ t.descendants r, t.depth id - t.depth r = t.levelBelow r id := fun id hid => by
      have := wf.levelBelow_add_depth (wf.mem_descendants_iff.mp hid).inclusive
      omega
    rw [outline, wf.subtree_eq order, List.map_cons, List.map_cons, List.map_map, lineBelow, levelBelow_self]
    congr 2
    exact List.map_congr_left fun id hid => by rw [Function.comp_apply, level id hid, lineBelow]
  refine ⟨?walk, lines, fun id hid => ?line⟩
  case walk =>
    have start : ∀ id ∈ [r], t.IsInclusiveAncestor r id ∧ t.levelBelow r id = 0 := fun id hid => by
      rw [List.mem_singleton.mp hid]
      exact ⟨.refl, levelBelow_self t r⟩
    have walk := wf.writes_append (.cons order .nil) start .nil
    rwa [String.append_empty, List.append_nil, List.append_nil, ← lines] at walk
  case line =>
    obtain ⟨node, get⟩ := wf.exists_get?_of_mem_cons_descendants h hid
    refine ⟨node, get, node.kind.isRendering_label, ?_⟩
    rw [lineBelow, outlineLine, get]

/-- A document with a comment, and with a paragraph that holds a text of two lines. -/
def notice : Tree :=
  let t := ((empty.add (.comment "c")).attach root 1).append root (.element ⟨"p", .ofList [("id", "x")]⟩)
  (t.add (.text "a\nb")).attach 2 3

theorem grown_notice : Grown notice :=
  .attach (.add _ (.append _ (.attach (.add _ .empty) (by decide) (by decide) (by decide) (by decide) (by decide)
    (by decide)) (by decide))) (by decide) (by decide) (by decide) (by decide) (by decide) (by decide)

theorem documentOrder_notice : notice.DocumentOrder (notice.children root) [1, 2, 3] :=
  @DocumentOrder.cons _ 1 [2] [] [2, 3] .nil
    (@DocumentOrder.cons _ 2 [] [3] [] (@DocumentOrder.cons _ 3 [] [] [] .nil .nil) .nil)

/-- Every kind of node has a line, and the text of two lines has one. -/
theorem outline_notice : notice.WellFormed ∧ root < notice.size ∧
    notice.outline root = "Document\n  <!-- c -->\n  <p id=\"x\">\n    \"a\\nb\"\n" := by
  have wf := grown_notice.wellFormed
  obtain ⟨-, lines, -⟩ := WellFormed.outline_eq wf (r := root) (by decide)
  rw [wf.descendants_eq documentOrder_notice] at lines
  exact ⟨wf, by decide, lines.trans (by decide)⟩

end Tree

end HtmlQuery
