import HtmlQuery.Proofs.Tree.Ancestry
import Mathlib.Data.List.Nodup

/-!
# Document order

Document order lists nodes, each followed by everything below it. The relation `DocumentOrder` says this by the children
alone, without a stack, levels or a bound. In a well-formed tree it agrees with both walks:

* `WellFormed.documentOrder_descendants` — the walk downwards with its stack lists what is below a node in this order;
* `WellFormed.mem_descendants_iff`, `WellFormed.nodup_descendants` — it lists the nodes of which the walk upwards says
  that they are below, each once;
* `WellFormed.filter_isBelow_descendants` — what a subtree lists below one of its nodes is what the node itself lists.
-/

namespace HtmlQuery.Tree

variable {t : Tree} {a b c id : NodeId} {ids order order' below whole : List NodeId}

/-- `order` consists of the nodes `ids`, each followed by everything below it. -/
inductive DocumentOrder (t : Tree) : (ids order : List NodeId) → Prop
  | nil : DocumentOrder t [] []
  | cons {id : NodeId} {ids below rest : List NodeId} : DocumentOrder t (t.children id) below →
      DocumentOrder t ids rest → DocumentOrder t (id :: ids) (id :: (below ++ rest))

/-- There is at most one document order. -/
theorem DocumentOrder.unique (h : t.DocumentOrder ids order) (h' : t.DocumentOrder ids order') : order = order' := by
  induction h generalizing order' with
  | nil => cases h'; rfl
  | cons _ _ ihBelow ihRest =>
    cases h' with
    | cons hBelow hRest => rw [ihBelow hBelow, ihRest hRest]

/-- Nothing is listed below a leaf. -/
theorem documentOrder_leaf (h : t.children id = []) : t.DocumentOrder (t.children id) [] := by
  rw [h]
  exact .nil

/-! ## Every list of nodes has an order -/

/-- Induction from the leaves of a tree upwards. -/
theorem WellFormed.induction_children (wf : t.WellFormed) {motive : NodeId → Prop}
    (step : ∀ id, (∀ c ∈ t.children id, motive c) → motive id) (id : NodeId) : motive id := by
  induction h : t.size - t.depth id using Nat.strongRecOn generalizing id with
  | _ n ih =>
    refine step id fun c hc => ih _ ?_ c rfl
    have parent := (wf.mem_children id c).mp hc
    have bound := wf.depth_lt_size (lt_size_of_parent? parent)
    rw [wf.depth_of_parent? parent] at bound ⊢
    omega

theorem exists_documentOrder_of_children : ∀ {ids : List NodeId},
    (∀ id ∈ ids, ∃ below, t.DocumentOrder (t.children id) below) → ∃ order, t.DocumentOrder ids order
  | [], _ => ⟨[], .nil⟩
  | id :: ids, h => by
    obtain ⟨below, hBelow⟩ := h id List.mem_cons_self
    obtain ⟨rest, hRest⟩ := exists_documentOrder_of_children fun x hx => h x (List.mem_cons_of_mem _ hx)
    exact ⟨_, .cons hBelow hRest⟩

theorem WellFormed.exists_documentOrder (wf : t.WellFormed) (id : NodeId) :
    ∃ below, t.DocumentOrder (t.children id) below :=
  wf.induction_children (fun _ ih => exists_documentOrder_of_children ih) id

/-! ## What is listed -/

/-- A document order lists the nodes that lie at or below one of its first nodes. -/
theorem WellFormed.mem_documentOrder_iff (wf : t.WellFormed) (h : t.DocumentOrder ids order) :
    a ∈ order ↔ ∃ id ∈ ids, t.IsInclusiveAncestor id a := by
  induction h with
  | nil => simp
  | @cons id ids below rest _ _ ihBelow ihRest =>
    have hid : t.IsInclusiveAncestor id a ↔ a = id ∨ a ∈ below := by
      rw [ihBelow, isInclusiveAncestor_iff, isAncestor_iff_child, eq_comm]
      refine or_congr Iff.rfl ⟨?_, ?_⟩
      · rintro ⟨c, hc, hp⟩
        exact ⟨c, (wf.mem_children id c).mpr hp, hc⟩
      · rintro ⟨c, hp, hc⟩
        exact ⟨c, hc, (wf.mem_children id c).mp hp⟩
    rw [List.mem_cons, List.mem_append, ihRest, List.exists_mem_cons_iff, hid, or_assoc]

/-- The document order of the children of a node lists what is below the node. -/
theorem WellFormed.mem_documentOrder_children_iff (wf : t.WellFormed) (h : t.DocumentOrder (t.children id) below) :
    a ∈ below ↔ t.IsAncestor id a := by
  rw [wf.mem_documentOrder_iff h, isAncestor_iff_child]
  refine exists_congr fun c => ?_
  rw [wf.mem_children, and_comm]

/-! ## Nodes with nothing in common -/

/-- Neither node lies at or below the other. -/
def Apart (t : Tree) (a b : NodeId) : Prop := ¬ t.IsInclusiveAncestor a b ∧ ¬ t.IsInclusiveAncestor b a

/-- What lies at or below one of two nodes that are apart does not lie at or below the other. -/
theorem Apart.disjoint (h : t.Apart a b) (ha : t.IsInclusiveAncestor a id) : ¬ t.IsInclusiveAncestor b id :=
  fun hb => (ha.comparable hb).elim h.2 h.1

/-- A node is not below its siblings. -/
theorem WellFormed.eq_of_siblings (wf : t.WellFormed) (ha : t.parent? a = some id) (hb : t.parent? b = some id)
    (h : t.IsInclusiveAncestor a b) : a = b := by
  rcases isInclusiveAncestor_iff.mp h with eq | h
  · exact eq
  · -- the way up from `b` passes the common parent before it gets to `a`
    obtain ⟨p, hp, hap⟩ := isAncestor_iff_parent?.mp h
    cases hp.symm.trans hb
    exact absurd (isAncestor_iff_parent?.mpr ⟨id, ha, hap⟩) (wf.acyclic a)

/-- Different children of a node are apart. -/
theorem WellFormed.apart_children (wf : t.WellFormed) (id : NodeId) : (t.children id).Pairwise t.Apart := by
  refine (wf.nodup_children id).imp_of_mem fun {a b} ha hb hne => ?_
  have ha := (wf.mem_children id a).mp ha
  have hb := (wf.mem_children id b).mp hb
  exact ⟨fun h => hne (wf.eq_of_siblings ha hb h), fun h => hne (wf.eq_of_siblings hb ha h).symm⟩

/-- What one of the first nodes has at or below it does not lie at or below the others. -/
theorem WellFormed.not_mem_rest (wf : t.WellFormed) (apart : ∀ b ∈ ids, t.Apart id b)
    (h : t.DocumentOrder ids order) (ha : t.IsInclusiveAncestor id a) : a ∉ order := by
  intro mem
  obtain ⟨b, hb, hba⟩ := (wf.mem_documentOrder_iff h).mp mem
  exact (apart b hb).disjoint ha hba

/-- A document order that starts from nodes apart lists no node twice. -/
theorem WellFormed.nodup_documentOrder (wf : t.WellFormed) (h : t.DocumentOrder ids order)
    (apart : ids.Pairwise t.Apart) : order.Nodup := by
  induction h with
  | nil => exact .nil
  | @cons id ids below rest hBelow hRest ihBelow ihRest =>
    obtain ⟨first, others⟩ := List.pairwise_cons.mp apart
    refine List.nodup_cons.mpr ⟨fun mem => ?_, List.nodup_append'.mpr
      ⟨ihBelow (wf.apart_children id), ihRest others, fun a ha => ?_⟩⟩
    · rcases List.mem_append.mp mem with mem | mem
      · exact wf.acyclic id ((wf.mem_documentOrder_children_iff hBelow).mp mem)
      · exact wf.not_mem_rest first hRest .refl mem
    · exact wf.not_mem_rest first hRest ((wf.mem_documentOrder_children_iff hBelow).mp ha).inclusive

/-! ## The part below one node -/

theorem WellFormed.filter_isBelow_eq_nil (wf : t.WellFormed) (h : ∀ x ∈ order, ¬ t.IsAncestor a x) :
    order.filter (t.isBelow · a) = [] :=
  List.filter_eq_nil_iff.mpr fun x hx => by rw [wf.isBelow_iff]; exact h x hx

/-- What is below a node stands together in every document order that lists the node, in its own document order. -/
theorem WellFormed.filter_isBelow_documentOrder (wf : t.WellFormed) (h : t.DocumentOrder ids order)
    (apart : ids.Pairwise t.Apart) (mem : a ∈ order) (hBelow : t.DocumentOrder (t.children a) below) :
    order.filter (t.isBelow · a) = below := by
  induction h with
  | nil => exact absurd mem List.not_mem_nil
  | @cons id ids inner rest hInner hRest ihInner ihRest =>
    obtain ⟨first, others⟩ := List.pairwise_cons.mp apart
    have notSelf : t.IsInclusiveAncestor id a → t.isBelow id a = false := fun h =>
      wf.isBelow_eq_false_iff.mpr fun h' => wf.acyclic id (h.trans_ancestor h')
    have noRest : t.IsInclusiveAncestor id a → rest.filter (t.isBelow · a) = [] := fun h =>
      wf.filter_isBelow_eq_nil fun x hx hax =>
        wf.not_mem_rest first hRest (h.trans_ancestor hax).inclusive hx
    rw [List.filter_cons, List.filter_append]
    rcases List.mem_cons.mp mem with rfl | mem
    · -- the node itself: everything behind it that is below it
      have all : inner.filter (t.isBelow · a) = inner := List.filter_eq_self.mpr fun x hx =>
        wf.isBelow_iff.mpr ((wf.mem_documentOrder_children_iff hInner).mp hx)
      rw [notSelf .refl, if_neg Bool.false_ne_true, noRest .refl, all, List.append_nil]
      exact hInner.unique hBelow
    · rcases List.mem_append.mp mem with mem | mem
      · have under := ((wf.mem_documentOrder_children_iff hInner).mp mem).inclusive
        rw [notSelf under, if_neg Bool.false_ne_true, noRest under, List.append_nil]
        exact ihInner (wf.apart_children id) mem
      · -- the node lies under another of the first nodes, so nothing at or below `id` is below it
        have outside {x : NodeId} (hx : t.IsInclusiveAncestor id x) : ¬ t.IsAncestor a x := fun hax => by
          obtain ⟨b, hb, hba⟩ := (wf.mem_documentOrder_iff hRest).mp mem
          exact (first b hb).disjoint hx (hba.trans_ancestor hax).inclusive
        have noInner : inner.filter (t.isBelow · a) = [] := wf.filter_isBelow_eq_nil fun x hx =>
          outside ((wf.mem_documentOrder_children_iff hInner).mp hx).inclusive
        rw [wf.isBelow_eq_false_iff.mpr (outside .refl), if_neg Bool.false_ne_true, noInner, List.nil_append]
        exact ihRest others mem

/-! ## The walk with a stack -/

/-- Levels that are no larger than depths do not run into the bound. -/
theorem WellFormed.childrenAt_eq (wf : t.WellFormed) {level : Nat} (h : level ≤ t.depth id) :
    t.childrenAt id level = (t.children id).map (·, level + 1) := by
  unfold childrenAt
  split
  · rfl
  · rename_i high
    -- a child would be deeper than the tree is large
    have leaf : t.children id = [] := List.eq_nil_iff_forall_not_mem.mpr fun c hc => by
      have parent := (wf.mem_children id c).mp hc
      have bound := wf.depth_lt_size (lt_size_of_parent? parent)
      rw [wf.depth_of_parent? parent] at bound
      omega
    rw [leaf]
    rfl

/-- The walk takes the nodes at the front of its stack off in document order, each with its level above `base`. -/
theorem WellFormed.walk_append (wf : t.WellFormed) (base : Nat) (h : t.DocumentOrder ids order) (level : Nat)
    (stack : List (NodeId × Nat)) (out : Array (NodeId × Nat)) (hlevel : ∀ id ∈ ids, t.depth id = base + level) :
    t.walk (ids.map (·, level) ++ stack) out =
      t.walk stack (out ++ (order.map fun id => (id, t.depth id - base)).toArray) := by
  induction h generalizing level stack out with
  | nil => simp
  | @cons id ids below rest _ _ ihBelow ihRest =>
    have hid := hlevel id List.mem_cons_self
    have hchildren (c : NodeId) (hc : c ∈ t.children id) : t.depth c = base + (level + 1) := by
      rw [wf.depth_of_parent? ((wf.mem_children id c).mp hc), hid, Nat.add_assoc]
    rw [List.map_cons, List.cons_append, walk, wf.childrenAt_eq (by omega), ihBelow _ _ _ hchildren,
      ihRest _ _ _ fun x hx => hlevel x (List.mem_cons_of_mem _ hx)]
    congr 1
    simp [hid]

/-- A node and everything below it in document order, with the levels below the node. -/
theorem WellFormed.subtree_eq (wf : t.WellFormed) (h : t.DocumentOrder (t.children id) below) :
    t.subtree id = (id, 0) :: below.map fun x => (x, t.depth x - t.depth id) := by
  have run := wf.walk_append (t.depth id) (.cons h .nil) 0 [] #[] fun x hx => by
    rw [List.mem_singleton.mp hx, Nat.add_zero]
  rw [subtree]
  show (t.walk ([id].map (·, 0) ++ []) #[]).toList = _
  rw [run, walk]
  simp

/-- The walk downwards gives the document order. -/
theorem WellFormed.descendants_eq (wf : t.WellFormed) (h : t.DocumentOrder (t.children id) below) :
    t.descendants id = below := by
  rw [descendants, wf.subtree_eq h, List.tail_cons, List.map_map]
  exact List.map_id' below

theorem WellFormed.documentOrder_descendants (wf : t.WellFormed) (id : NodeId) :
    t.DocumentOrder (t.children id) (t.descendants id) := by
  obtain ⟨below, h⟩ := wf.exists_documentOrder id
  rw [wf.descendants_eq h]
  exact h

theorem WellFormed.mem_descendants_iff (wf : t.WellFormed) : a ∈ t.descendants id ↔ t.IsAncestor id a :=
  wf.mem_documentOrder_children_iff (wf.documentOrder_descendants id)

theorem WellFormed.nodup_descendants (wf : t.WellFormed) (id : NodeId) : (t.descendants id).Nodup :=
  wf.nodup_documentOrder (wf.documentOrder_descendants id) (wf.apart_children id)

/-- What is below a node of a subtree stands together in the document order of the subtree. -/
theorem WellFormed.filter_isBelow_descendants (wf : t.WellFormed) (h : t.IsInclusiveAncestor id a) :
    (t.descendants id).filter (t.isBelow · a) = t.descendants a := by
  rcases isInclusiveAncestor_iff.mp h with rfl | h
  · exact List.filter_eq_self.mpr fun x hx => wf.isBelow_iff.mpr (wf.mem_descendants_iff.mp hx)
  · exact wf.filter_isBelow_documentOrder (wf.documentOrder_descendants id) (wf.apart_children id)
      (wf.mem_descendants_iff.mpr h) (wf.documentOrder_descendants a)

end HtmlQuery.Tree
