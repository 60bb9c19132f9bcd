import HtmlQuery.Proofs.Tree.DocumentOrder
import HtmlQuery.Proofs.Tree.Growth

/-!
# Both ends of a link

A node that is attached becomes the last child of its new parent, and this becomes its parent. Nothing is taken away: the
node stays a child of the nodes to which it was attached before. So the children of a node tell all attachments to it,
and the parent of a node tells the last attachment of the node. The two agree as long as no node is attached a second
time.

* `Tree.Built` — trees with all the attachments that were made;
* `Built.children_eq`, `Built.parent?_eq` — the two ends of the links, by the attachments;
* `Built.wellFormed` — trees whose nodes are attached once;
* `Built.links_agree_iff` — when the two ends agree.
-/

namespace HtmlQuery.Tree

/-- An attachment. -/
structure Link where
  parent : NodeId
  child : NodeId
  deriving DecidableEq

variable {t : Tree} {links : List Link} {id p parent child : NodeId}

/-- The trees that additions and attachments build from the empty one, with the attachments in their order. -/
inductive Built : List Link → Tree → Prop
  | empty : Built [] .empty
  | add {links : List Link} {t : Tree} (kind : NodeKind) : Built links t → Built links (t.add kind)
  | attach {links : List Link} {t : Tree} {parent child : NodeId} : Built links t → parent < t.size → child < t.size →
      Built (links ++ [⟨parent, child⟩]) (t.attach parent child)

/-- A node that is appended is added and then attached. -/
theorem Built.append (built : Built links t) (hp : parent < t.size) (e : Element) :
    Built (links ++ [⟨parent, t.size⟩]) (t.append parent (.element e)) :=
  .attach (.add _ built) (by rw [size_add]; exact Nat.lt_succ_of_lt hp) (by rw [size_add]; exact Nat.lt_succ_self _)

/-- The links of the children agree with those of the parents, and no node is twice among the children of another. -/
def LinksAgree (t : Tree) : Prop :=
  ∀ p id, (id ∈ t.children p ↔ t.parent? id = some p) ∧ (t.children p).count id ≤ 1

/-- The children lead from no node back to the node. -/
def AcyclicDown (t : Tree) : Prop := ∀ id, ¬ Relation.TransGen (fun p c => c ∈ t.children p) id id

/-- Where the two ends agree, the children lead down where the parents lead up. -/
theorem acyclicDown_iff (h : ∀ p id, id ∈ t.children p ↔ t.parent? id = some p) :
    t.AcyclicDown ↔ ∀ id, ¬ t.IsAncestor id id := by
  have swap : (fun p c => c ∈ t.children p) = Function.swap t.HasParent := by
    funext p c
    exact propext (h p c)
  simp only [AcyclicDown, swap, Relation.transGen_swap, IsAncestor]

namespace Built

variable (built : Built links t)
include built

/-! ## The ends of the links -/

/-- The children of a node are what was attached to it. -/
theorem children_eq (p : NodeId) : t.children p = (links.filter fun l => l.parent = p).map Link.child := by
  induction built with
  | empty => exact children_empty p
  | add kind _ ih => rw [children_add, ih]
  | @attach links t parent child _ hp hc ih =>
    rw [children_attach hp, ih, List.filter_append, List.map_append]
    by_cases h : p = parent
    · simp [h]
    · simp [h, Ne.symm h]

/-- The parent of a node is that of its last attachment. -/
theorem parent?_eq (id : NodeId) :
    t.parent? id = (links.filter fun l => l.child = id).getLast?.map Link.parent := by
  induction built with
  | empty => exact parent?_empty id
  | add kind _ ih => rw [parent?_add, ih]
  | @attach links t parent child _ hp hc ih =>
    rw [parent?_attach hc, ih, List.filter_append]
    by_cases h : id = child
    · simp [h]
    · simp [h, Ne.symm h]

theorem mem_children_iff : id ∈ t.children p ↔ ⟨p, id⟩ ∈ links := by
  rw [built.children_eq, List.mem_map]
  constructor
  · rintro ⟨l, h, rfl⟩
    obtain ⟨mem, hp⟩ := List.mem_filter.mp h
    rw [← of_decide_eq_true hp]
    exact mem
  · intro mem
    exact ⟨_, List.mem_filter.mpr ⟨mem, decide_eq_true rfl⟩, rfl⟩

/-- The parent of a node is one of the nodes to which it was attached. -/
theorem mem_of_parent? (h : t.parent? id = some p) : ⟨p, id⟩ ∈ links := by
  rw [built.parent?_eq] at h
  obtain ⟨l, last, rfl⟩ := Option.map_eq_some_iff.mp h
  obtain ⟨mem, hid⟩ := List.mem_filter.mp (List.mem_of_getLast? last)
  rw [← of_decide_eq_true hid]
  exact mem

/-- A node that was attached has a parent. -/
theorem exists_parent? (h : ⟨p, id⟩ ∈ links) : ∃ q, t.parent? id = some q := by
  have mem : ⟨p, id⟩ ∈ links.filter fun l => l.child = id := List.mem_filter.mpr ⟨h, decide_eq_true rfl⟩
  rw [built.parent?_eq, List.getLast?_eq_some_getLast (List.ne_nil_of_mem mem)]
  exact ⟨_, rfl⟩

/-! ## When they agree -/

theorem count_children (p id : NodeId) :
    (t.children p).count id = links.countP fun l => l.child = id ∧ l.parent = p := by
  rw [built.children_eq, List.count, List.countP_map, List.countP_filter]
  congr 1
  funext l
  simp [beq_eq_decide]

omit built in
/-- The attachments of a node, counted among all. -/
theorem count_map_child (links : List Link) (id : NodeId) :
    (links.map Link.child).count id = links.countP fun l => l.child = id := by
  rw [List.count, List.countP_map]
  rfl

/-- If no node is attached twice, the two ends agree. -/
theorem linksAgree (nodup : (links.map Link.child).Nodup) : t.LinksAgree := by
  intro p id
  have parent_of (h : ⟨p, id⟩ ∈ links) : t.parent? id = some p := by
    obtain ⟨q, hq⟩ := built.exists_parent? h
    -- there is no other attachment
    cases List.inj_on_of_nodup_map nodup h (built.mem_of_parent? hq) rfl
    exact hq
  refine ⟨built.mem_children_iff.trans ⟨parent_of, built.mem_of_parent?⟩, ?_⟩
  calc (t.children p).count id
      = links.countP fun l => l.child = id ∧ l.parent = p := built.count_children p id
    _ ≤ links.countP fun l => l.child = id := List.countP_mono_left fun l _ => by simp +contextual
    _ = (links.map Link.child).count id := (count_map_child links id).symm
    _ ≤ 1 := List.nodup_iff_count_le_one.mp nodup id

/-- If the two ends agree, no node is attached twice. -/
theorem nodup_of_linksAgree (agree : t.LinksAgree) : (links.map Link.child).Nodup := by
  refine List.nodup_iff_count_le_one.mpr fun id => ?_
  have parent_of {l : Link} (h : l ∈ links) (hid : l.child = id) : t.parent? id = some l.parent := by
    subst hid
    exact (agree l.parent l.child).1.mp (built.mem_children_iff.mpr h)
  rw [count_map_child]
  cases hp : t.parent? id with
  | none =>
    have never : links.countP (fun l => l.child = id) = 0 := List.countP_eq_zero.mpr fun l hl hid => by
      rw [parent_of hl (of_decide_eq_true hid)] at hp
      cases hp
    omega
  | some p =>
    -- all attachments of the node were to the one parent
    have same : links.countP (fun l => l.child = id) = links.countP fun l => l.child = id ∧ l.parent = p := by
      refine List.countP_congr fun l hl => ?_
      simp only [decide_eq_true_eq]
      refine ⟨fun hid => ⟨hid, ?_⟩, And.left⟩
      exact Option.some.inj ((parent_of hl hid).symm.trans hp)
    rw [same, ← built.count_children]
    exact (agree p id).2

/-- Where no node is attached twice, the document to none, and nothing in a circle, the tree is well-formed. -/
theorem wellFormed (nodup : (links.map Link.child).Nodup) (free : root ∉ links.map Link.child)
    (acyclic : t.AcyclicDown) : t.WellFormed where
  parent?_root := Option.eq_none_iff_forall_ne_some.mpr fun _ hp =>
    free (List.mem_map_of_mem (f := Link.child) (built.mem_of_parent? hp))
  mem_children p id := (built.linksAgree nodup p id).1
  nodup_children p := List.nodup_iff_count_le_one.mpr fun id => (built.linksAgree nodup p id).2
  acyclic := (acyclicDown_iff fun _ _ => (built.linksAgree nodup _ _).1).mp acyclic

/-- Nothing leads around in a circle if all nodes were attached to earlier ones. -/
theorem acyclicDown_of_lt (h : ∀ l ∈ links, l.parent < l.child) : t.AcyclicDown := by
  intro id path
  have lt {p c : NodeId} (path : Relation.TransGen (fun p c => c ∈ t.children p) p c) : p < c := by
    induction path with
    | single step => exact h _ (built.mem_children_iff.mp step)
    | tail _ step ih => exact Nat.lt_trans ih (h _ (built.mem_children_iff.mp step))
  exact Nat.lt_irrefl _ (lt path)

/-- **Both ends of the links, by the attachments.** The children of a node are what was attached to it, and its parent is
that to which it was attached last. The two ends agree exactly if no node was attached twice. Then, in a tree without
circles, no node is listed twice below another one. -/
theorem links_agree_iff :
    (∀ p, t.children p = (links.filter fun l => l.parent = p).map Link.child) ∧
    (∀ id, t.parent? id = (links.filter fun l => l.child = id).getLast?.map Link.parent) ∧
    (t.LinksAgree ↔ (links.map Link.child).Nodup) ∧
    ((links.map Link.child).Nodup → root ∉ links.map Link.child → t.AcyclicDown → ∀ id, (t.descendants id).Nodup) :=
  ⟨built.children_eq, built.parent?_eq, ⟨built.nodup_of_linksAgree, built.linksAgree⟩,
    fun nodup free acyclic => (built.wellFormed nodup free acyclic).nodup_descendants⟩

end Built

/-- The attachments of the small tree, one of them to a node that was added after the attached one. -/
theorem built_grove : Built [⟨0, 2⟩, ⟨2, 3⟩, ⟨3, 1⟩, ⟨4, 5⟩] grove := by
  have built : Built _ grove :=
    .append (.add _ (.attach (.append (.append (.add _ .empty) (by decide) _) (by decide) _) (by decide) (by decide)))
      (by decide) _
  exact built

theorem links_agree_grove : Built [⟨0, 2⟩, ⟨2, 3⟩, ⟨3, 1⟩, ⟨4, 5⟩] grove ∧ grove.LinksAgree ∧
    ∀ id, (grove.descendants id).Nodup := by
  obtain ⟨-, -, agree, listed⟩ := Built.links_agree_iff built_grove
  have nodup : ([⟨0, 2⟩, ⟨2, 3⟩, ⟨3, 1⟩, ⟨4, 5⟩] : List Link).map Link.child |>.Nodup := by decide
  have wf := grown_grove.wellFormed
  exact ⟨built_grove, agree.mpr nodup, listed nodup (by decide) ((acyclicDown_iff wf.mem_children).mpr wf.acyclic)⟩

/-- A tree with a node that was attached to the first child of the document and then to the second. -/
def forked : Tree :=
  let t := (empty.append root (.element (.ofTag "div"))).append root (.element (.ofTag "p"))
  (t.append 1 (.element (.ofTag "span"))).attach 2 3

/-- The two ends do not agree in all trees without circles: a node that is attached again stays where it was, too. -/
theorem not_forall_linksAgree : ¬ ∀ (links : List Link) (t : Tree), Built links t → root ∉ links.map Link.child →
    t.AcyclicDown → t.LinksAgree ∧ ∀ id, (t.descendants id).Nodup := by
  intro all
  have built : Built [⟨0, 1⟩, ⟨0, 2⟩, ⟨1, 3⟩, ⟨2, 3⟩] forked :=
    .attach (.append (.append (.append .empty (by decide) _) (by decide) _) (by decide) _) (by decide) (by decide)
  have agree := (all _ _ built (by decide) (built.acyclicDown_of_lt (by decide))).1
  have first : forked.parent? 3 = some 1 := (agree 1 3).1.mp (by decide)
  exact absurd first (by decide)

end HtmlQuery.Tree
