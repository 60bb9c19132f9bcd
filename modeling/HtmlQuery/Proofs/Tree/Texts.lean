import HtmlQuery.Proofs.Tree.Appending
import Mathlib.Data.List.Sort

/-!
# Texts in document order

A tree that is built from the top names its nodes in the order in which they were appended. Document order is another
order, but the texts stand in both orders alike if each new text is put where no other text comes behind it.

* `Tree.Behind` — the nodes that come behind a node and everything below it;
* `Tree.AtEnd`, `AtEnd.append` — the nodes behind which no text comes;
* `Tree.TextsInOrder`, `TextsInOrder.append` — texts that stand in the order of their names, and when this is kept;
* `Tree.texts`, `Tree.texts_append` — the texts in the order of the names: a new text comes last;
* `TextsInOrder.filterMap_text?_documentOrder` — these are the texts in document order.
-/

namespace HtmlQuery.Tree

variable {t : Tree} {a id p x y : NodeId} {ids order : List NodeId} {kind : NodeKind}

/-! ## What comes behind a node -/

/-- In document order `y` comes behind `x` and everything below it: `y` is a later sibling of `x` or of a node above
`x`, or it lies below such a sibling. Of siblings, the later one has the larger name. -/
def Behind (t : Tree) (x y : NodeId) : Prop :=
  ∃ a c d, t.HasParent c a ∧ t.HasParent d a ∧ c < d ∧ t.IsInclusiveAncestor c x ∧ t.IsInclusiveAncestor d y

/-- What comes behind a node comes behind everything below it. -/
theorem Behind.below (h : t.Behind x y) (below : t.IsInclusiveAncestor x id) : t.Behind id y := by
  obtain ⟨a, c, d, hc, hd, lt, above, aboveY⟩ := h
  exact ⟨a, c, d, hc, hd, lt, below.trans above, aboveY⟩

/-- What is at or below a node does not come behind it. -/
theorem Behind.not_isInclusiveAncestor (wf : t.WellFormed) (h : t.Behind x y) : ¬ t.IsInclusiveAncestor x y := by
  intro below
  obtain ⟨a, c, d, hc, hd, lt, above, aboveY⟩ := h.below below
  rcases above.comparable aboveY with h | h
  · exact absurd (wf.eq_of_siblings hd hc h) (Nat.ne_of_gt lt)
  · exact absurd (wf.eq_of_siblings hc hd h) (Nat.ne_of_lt lt)

@[simp] theorem behind_modifyAttributes (t : Tree) (a : NodeId) (f : Attributes → Attributes) :
    (t.modifyAttributes a f).Behind x y ↔ t.Behind x y := by
  simp only [Behind, IsInclusiveAncestor, hasParent_modifyAttributes]

section Append

variable (seq : t.Sequential) (hp : p < t.size)
include seq hp

/-- What is above the new node was above its parent. -/
theorem isInclusiveAncestor_of_append (old : a ≠ t.size) (h : (t.append p kind).IsInclusiveAncestor a x) :
    t.IsInclusiveAncestor a (if x = t.size then p else x) := by
  rcases isInclusiveAncestor_iff.mp h with rfl | h
  · rw [if_neg old]
    exact .refl
  · rcases (seq.isAncestor_append hp kind).mp h with h | ⟨rfl, above⟩
    · obtain ⟨_, hx, -⟩ := isAncestor_iff_parent?.mp h
      rw [if_neg (Nat.ne_of_lt (lt_size_of_parent? hx))]
      exact h.inclusive
    · rw [if_pos rfl]
      exact above

/-- The old nodes behind a node were behind it before, and those behind the new node were behind its parent. -/
theorem Behind.of_append (h : (t.append p kind).Behind x y) (old : y < t.size) :
    t.Behind (if x = t.size then p else x) y := by
  obtain ⟨a, c, d, hc, hd, lt, above, aboveY⟩ := h
  have smallD : d < t.size :=
    Nat.lt_of_le_of_lt ((seq.append hp kind).le_of_isInclusiveAncestor aboveY) old
  have smallC := Nat.lt_trans lt smallD
  have aboveY := isInclusiveAncestor_of_append seq hp (Nat.ne_of_lt smallD) aboveY
  rw [HasParent, parent?_append hp, if_neg (Nat.ne_of_lt smallC)] at hc
  rw [HasParent, parent?_append hp, if_neg (Nat.ne_of_lt smallD)] at hd
  rw [if_neg (Nat.ne_of_lt old)] at aboveY
  exact ⟨a, c, d, hc, hd, lt, isInclusiveAncestor_of_append seq hp (Nat.ne_of_lt smallC) above, aboveY⟩

end Append

/-! ## Nodes at the end of the text -/

theorem lt_size_of_text? (h : (t.text? id).isSome) : id < t.size := by
  apply Nat.lt_of_not_le
  intro le
  rw [text?_eq, get?_eq_none_iff.mpr le] at h
  cases h

/-- The document is no text. -/
theorem Sequential.text?_root (seq : t.Sequential) : t.text? root = none := by
  obtain ⟨node, get, kind⟩ := Option.map_eq_some_iff.mp seq.kind_root
  rw [text?_eq, get, Option.bind_some, kind]
  rfl

/-- No text comes behind the node. -/
def AtEnd (t : Tree) (x : NodeId) : Prop := ∀ y, t.Behind x y → t.text? y = none

/-- What is above a node at the end is there too. -/
theorem AtEnd.above (h : t.AtEnd x) (above : t.IsInclusiveAncestor a x) : t.AtEnd a :=
  fun y behind => h y (behind.below above)

/-- The document is above everything. -/
theorem WellFormed.atEnd_root (wf : t.WellFormed) : t.AtEnd root := by
  rintro y ⟨a, c, d, hc, -, -, above, -⟩
  rw [wf.eq_root_of_isInclusiveAncestor above, HasParent, wf.parent?_root] at hc
  cases hc

@[simp] theorem atEnd_modifyAttributes (t : Tree) (a : NodeId) (f : Attributes → Attributes) :
    (t.modifyAttributes a f).AtEnd x ↔ t.AtEnd x := by
  simp only [AtEnd, behind_modifyAttributes, text?_modifyAttributes]

/-- A node at the end stays there when nodes are added to it, and these are at the end too. -/
theorem AtEnd.append (h : t.AtEnd p) (seq : t.Sequential) (hp : p < t.size) (kind : NodeKind)
    (hx : x = p ∨ x = t.size) : (t.append p kind).AtEnd x := by
  intro y behind
  have ne : y ≠ t.size := by
    rintro rfl
    refine behind.not_isInclusiveAncestor (seq.append hp kind).toWellFormed ?_
    rcases hx with rfl | rfl
    · exact .single (hasParent_append_size hp kind)
    · exact .refl
  rw [text?_append hp, if_neg ne]
  cases text : t.text? y with
  | none => rfl
  | some data =>
    have behind := behind.of_append seq hp (lt_size_of_text? (by rw [text]; rfl))
    have parent : (if x = t.size then p else x) = p := by
      rcases hx with rfl | rfl
      · rw [if_neg (Nat.ne_of_lt hp)]
      · rw [if_pos rfl]
    rw [parent] at behind
    exact text.symm.trans (h y behind)

/-! ## Texts that stand in the order of their names -/

/-- Children and texts stand in the order of their names. -/
structure TextsInOrder (t : Tree) : Prop where
  sorted_children : ∀ id, (t.children id).Pairwise (· < ·)
  lt_of_behind : ∀ x y, (t.text? x).isSome → (t.text? y).isSome → t.Behind x y → x < y

theorem text?_empty (id : NodeId) : empty.text? id = none := by
  rw [text?_eq]
  cases id with
  | zero => rfl
  | succ n => rw [get?_empty_succ]; rfl

theorem textsInOrder_empty : TextsInOrder .empty where
  sorted_children id := by
    rw [children_empty]
    exact .nil
  lt_of_behind x y hx := by
    rw [text?_empty] at hx
    cases hx

/-- **A new node keeps the texts in order** if it is no text, or if no text comes behind its parent. -/
theorem TextsInOrder.append (o : t.TextsInOrder) (seq : t.Sequential) (hp : p < t.size)
    (h : kind.text? = none ∨ t.AtEnd p) : (t.append p kind).TextsInOrder where
  sorted_children id := by
    rw [children_append hp]
    split
    · refine List.pairwise_append.mpr ⟨o.sorted_children id, List.pairwise_singleton _ _, fun c hc d hd => ?_⟩
      rw [List.mem_singleton.mp hd]
      exact seq.lt_size_of_mem_children hc
    · exact o.sorted_children id
  lt_of_behind x y hx hy behind := by
    by_cases new : y = t.size
    · -- nothing comes after the new node
      have small := lt_size_of_text? hx
      rw [size_append, ← new] at small
      refine Nat.lt_of_le_of_ne (Nat.le_of_lt_succ small) ?_
      rintro rfl
      exact behind.not_isInclusiveAncestor (seq.append hp kind).toWellFormed .refl
    · rw [text?_append hp] at hx hy
      rw [if_neg new] at hy
      have old := behind.of_append seq hp (lt_size_of_text? hy)
      split at old
      case isTrue eq =>
        rw [if_pos eq] at hx
        rcases h with plain | last
        · rw [plain] at hx
          cases hx
        · rw [last y old] at hy
          cases hy
      case isFalse ne =>
        rw [if_neg ne] at hx
        exact o.lt_of_behind x y hx hy old

theorem TextsInOrder.modifyAttributes (o : t.TextsInOrder) (a : NodeId) (f : Attributes → Attributes) :
    (t.modifyAttributes a f).TextsInOrder where
  sorted_children id := by
    rw [children_modifyAttributes]
    exact o.sorted_children id
  lt_of_behind x y := by
    rw [text?_modifyAttributes, text?_modifyAttributes, behind_modifyAttributes]
    exact o.lt_of_behind x y

/-! ## The two orders -/

/-- The texts of all nodes, in the order of their names. -/
def texts (t : Tree) : List String := (List.range t.size).filterMap t.text?

/-- A new text is the last one. -/
theorem texts_append (hp : p < t.size) (kind : NodeKind) :
    (t.append p kind).texts = t.texts ++ kind.text?.toList := by
  have old : ∀ id ∈ List.range t.size, (t.append p kind).text? id = t.text? id := by
    intro id small
    rw [text?_append hp, if_neg (Nat.ne_of_lt (List.mem_range.mp small))]
  rw [texts, size_append, List.range_succ, List.filterMap_append, List.filterMap_congr old, texts]
  congr 1
  rw [List.filterMap_cons, text?_append hp, if_pos rfl]
  cases kind.text? <;> rfl

theorem texts_modifyAttributes (t : Tree) (a : NodeId) (f : Attributes → Attributes) :
    (t.modifyAttributes a f).texts = t.texts := by
  have same : (t.modifyAttributes a f).text? = t.text? := by
    funext id
    rw [text?_modifyAttributes]
  rw [texts, size_modifyAttributes, same, texts]

/-- A document order lists the texts in the order of their names, if it starts from siblings in this order. -/
theorem TextsInOrder.pairwise_documentOrder (o : t.TextsInOrder) (seq : t.Sequential) (h : t.DocumentOrder ids order)
    (sorted : ids.Pairwise (· < ·)) (siblings : ∀ id ∈ ids, t.HasParent id a) :
    order.Pairwise fun x y => (t.text? x).isSome → (t.text? y).isSome → x < y := by
  induction h generalizing a with
  | nil => exact .nil
  | @cons id ids below rest hBelow hRest ihBelow ihRest =>
    obtain ⟨first, others⟩ := List.pairwise_cons.mp sorted
    obtain ⟨hid, siblings⟩ := List.forall_mem_cons.mp siblings
    -- the rest lies at or below later siblings of `id`
    have behind {x y : NodeId} (hx : t.IsInclusiveAncestor id x) (hy : y ∈ rest) : t.Behind x y := by
      obtain ⟨d, hd, aboveY⟩ := (seq.mem_documentOrder_iff hRest).mp hy
      exact ⟨a, id, d, hid, siblings d hd, first d hd, hx, aboveY⟩
    have inner := ihBelow (o.sorted_children id) fun c hc => (seq.mem_children id c).mp hc
    refine List.pairwise_cons.mpr ⟨fun y hy hx hy' => ?_, List.pairwise_append.mpr ⟨inner, ihRest others siblings, ?_⟩⟩
    · rcases List.mem_append.mp hy with hy | hy
      · exact seq.lt_of_isAncestor ((seq.mem_documentOrder_children_iff hBelow).mp hy)
      · exact o.lt_of_behind id y hx hy' (behind .refl hy)
    · intro x hx y hy hx' hy'
      exact o.lt_of_behind x y hx' hy' (behind ((seq.mem_documentOrder_children_iff hBelow).mp hx).inclusive hy)

/-- **The texts in document order are the texts in the order of their names.** -/
theorem TextsInOrder.filterMap_text?_documentOrder (o : t.TextsInOrder) (seq : t.Sequential)
    (h : t.DocumentOrder (t.children root) order) : order.filterMap t.text? = t.texts := by
  have split (ids : List NodeId) :
      ids.filterMap t.text? = (ids.filter fun id => (t.text? id).isSome).filterMap t.text? := by
    rw [List.filterMap_filter]
    refine List.filterMap_congr fun id _ => ?_
    cases t.text? id <;> rfl
  have sorted := o.pairwise_documentOrder seq h (o.sorted_children root) fun c hc => (seq.mem_children root c).mp hc
  rw [texts, split, split (List.range t.size)]
  congr 1
  -- both lists are sorted, so it is enough that they have the same nodes
  refine (List.pairwise_filter.mpr sorted).eq_of_mem_iff (List.pairwise_lt_range.filter _) fun id => ?_
  rw [List.mem_filter, List.mem_filter, and_congr_left_iff]
  intro text
  have small := lt_size_of_text? text
  have other : id ≠ root := by
    rintro rfl
    rw [seq.text?_root] at text
    cases text
  have below := seq.isAncestor_root (Nat.pos_of_ne_zero other) small
  exact iff_of_true ((seq.mem_documentOrder_children_iff h).mpr below) (List.mem_range.mpr small)

end HtmlQuery.Tree
