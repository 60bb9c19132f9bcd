import HtmlQuery.Selector.Selection
import Mathlib.Data.List.Induction
import Mathlib.Data.List.Perm.Subperm

/-!
# Lists and selections

A selection takes each node of a list where it comes first. What has been seen is kept in a set, and the nodes that pass
are those that no equal node comes before. As no node is repeated, the number of the nodes and one inclusion are enough
to compare two selections without their order.

* `firstPlaces` — the nodes of a list that no equal node comes before;
* `Selection.nodes_ofList_eq` — what a selection takes of a list;
* `Selection.sameNodes_iff` — two selections with the same nodes;
* `Selection.ofList_collects` — lists and their selections.
-/

namespace HtmlQuery

variable {id a b : NodeId} {ids : List NodeId}

/-! ## First places -/

/-- The nodes of a list at the places where no equal node comes before. -/
def firstPlaces (ids : List NodeId) : List NodeId :=
  (ids.zipIdx.filter fun entry => entry.1 ∉ ids.take entry.2).map Prod.fst

/-- One more node stays or goes, by the nodes before it. -/
theorem firstPlaces_concat (ids : List NodeId) (id : NodeId) :
    firstPlaces (ids ++ [id]) = if id ∈ ids then firstPlaces ids else firstPlaces ids ++ [id] := by
  have before : (ids.zipIdx.filter fun entry => entry.1 ∉ (ids ++ [id]).take entry.2) =
      ids.zipIdx.filter fun entry => entry.1 ∉ ids.take entry.2 := by
    refine List.filter_congr fun entry mem => ?_
    have inside : entry.2 < ids.length := by simpa using List.snd_lt_of_mem_zipIdx mem
    rw [List.take_append_of_le_length (Nat.le_of_lt inside)]
  rw [firstPlaces, List.zipIdx_append, List.filter_append, before, List.map_append]
  by_cases earlier : id ∈ ids
  · simp [firstPlaces, earlier]
  · simp [firstPlaces, earlier]

theorem mem_firstPlaces : id ∈ firstPlaces ids ↔ id ∈ ids := by
  induction ids using List.reverseRecOn with
  | nil => rfl
  | append_singleton ids last ih =>
    rw [firstPlaces_concat, List.mem_append, List.mem_singleton]
    split
    case isTrue earlier =>
      rw [ih]
      exact ⟨.inl, fun h => h.elim (fun mem => mem) fun eq => eq ▸ earlier⟩
    case isFalse => rw [List.mem_append, List.mem_singleton, ih]

theorem firstPlaces_sublist (ids : List NodeId) : (firstPlaces ids).Sublist ids := by
  have places : ids.zipIdx.map Prod.fst = ids := List.zipIdx_map_fst 0 ids
  have kept : (firstPlaces ids).Sublist (ids.zipIdx.map Prod.fst) := List.filter_sublist.map Prod.fst
  rwa [places] at kept

/-- Nothing is left out of a list without repetition. -/
theorem firstPlaces_of_nodup (nodup : ids.Nodup) : firstPlaces ids = ids := by
  induction ids using List.reverseRecOn with
  | nil => rfl
  | append_singleton ids last ih =>
    obtain ⟨nodup, -, apart⟩ := List.nodup_append.mp nodup
    have new : last ∉ ids := fun mem => apart last mem last List.mem_cons_self rfl
    rw [firstPlaces_concat, if_neg new, ih nodup]

/-- Among the nodes of a list with a new last one, the nodes of the list come in their order before the last. -/
theorem idxOf_concat_lt_iff {last : NodeId} (new : last ∉ ids) (ha : a ∈ ids ++ [last]) (hb : b ∈ ids ++ [last]) :
    (ids ++ [last]).idxOf a < (ids ++ [last]).idxOf b ↔ a ∈ ids ∧ (b ∈ ids → ids.idxOf a < ids.idxOf b) := by
  have place {x : NodeId} (hx : x ∈ ids ++ [last]) :
      (ids ++ [last]).idxOf x = if x ∈ ids then ids.idxOf x else ids.length := by
    split
    case isTrue old => exact List.idxOf_append_of_mem old
    case isFalse old =>
      obtain rfl := List.mem_singleton.mp ((List.mem_append.mp hx).resolve_left old)
      rw [List.idxOf_append_of_notMem new, List.idxOf_cons_self, Nat.add_zero]
  rw [place ha, place hb]
  by_cases olda : a ∈ ids
  · have inside := List.idxOf_lt_length_of_mem olda
    by_cases oldb : b ∈ ids
    · simp [olda, oldb]
    · simp [olda, oldb, inside]
  · have bound : ids.idxOf b ≤ ids.length := List.idxOf_le_length
    simp only [olda, if_false, false_and, iff_false, Nat.not_lt]
    split
    · exact bound
    · exact Nat.le_refl _

/-- A node comes before another one if its first place does. -/
theorem idxOf_firstPlaces_lt_iff (ha : a ∈ ids) (hb : b ∈ ids) :
    (firstPlaces ids).idxOf a < (firstPlaces ids).idxOf b ↔ ids.idxOf a < ids.idxOf b := by
  induction ids using List.reverseRecOn with
  | nil => cases ha
  | append_singleton ids last ih =>
    rw [firstPlaces_concat]
    by_cases earlier : last ∈ ids
    · have among {x : NodeId} (hx : x ∈ ids ++ [last]) : x ∈ ids := by
        rcases List.mem_append.mp hx with hx | hx
        · exact hx
        · exact List.mem_singleton.mp hx ▸ earlier
      rw [if_pos earlier, ih (among ha) (among hb), List.idxOf_append_of_mem (among ha),
        List.idxOf_append_of_mem (among hb)]
    · have new : last ∉ firstPlaces ids := fun mem => earlier (mem_firstPlaces.mp mem)
      have among {x : NodeId} (hx : x ∈ ids ++ [last]) : x ∈ firstPlaces ids ++ [last] :=
        List.mem_append.mpr ((List.mem_append.mp hx).imp_left mem_firstPlaces.mpr)
      rw [if_neg earlier, idxOf_concat_lt_iff new (among ha) (among hb), idxOf_concat_lt_iff earlier ha hb,
        mem_firstPlaces, mem_firstPlaces]
      refine and_congr_right fun olda => forall_congr' fun oldb => ih olda oldb

namespace Selection

variable {s u : Selection} {seen : Std.HashSet NodeId}

/-! ## Selections -/

/-- Selections with the same nodes in the same order are equal. -/
theorem eq_of_nodes (h : s.nodes = u.nodes) : s = u := by
  cases s
  cases u
  cases h
  rfl

/-- One more node stays or goes, by what has been seen and by the nodes before it. -/
theorem firstOccurrences_concat (seen : Std.HashSet NodeId) (ids : List NodeId) (id : NodeId) :
    firstOccurrences seen (ids ++ [id]) = if id ∈ seen ∨ id ∈ ids then firstOccurrences seen ids
      else firstOccurrences seen ids ++ [id] := by
  induction ids generalizing seen with
  | nil => simp [firstOccurrences]
  | cons first ids ih =>
    rw [List.cons_append, firstOccurrences, firstOccurrences, ih, ih]
    by_cases old : first ∈ seen
    · have known : id ∈ seen ∨ id ∈ ids ↔ id ∈ seen ∨ id ∈ first :: ids := by
        grind
      rw [if_pos old, if_pos old, if_congr known rfl rfl]
    · have known : id ∈ seen.insert first ∨ id ∈ ids ↔ id ∈ seen ∨ id ∈ first :: ids := by
        grind
      rw [if_neg old, if_neg old, if_congr known rfl rfl]
      split
      · rfl
      · rfl

/-- **A selection takes the nodes that no equal node comes before.** -/
theorem nodes_ofList_eq (ids : List NodeId) : (ofList ids).nodes = firstPlaces ids := by
  show firstOccurrences ∅ ids = firstPlaces ids
  induction ids using List.reverseRecOn with
  | nil => rfl
  | append_singleton ids last ih =>
    rw [firstOccurrences_concat, firstPlaces_concat, ih]
    simp

theorem nodes_ofList (nodup : ids.Nodup) : (ofList ids).nodes = ids :=
  (nodes_ofList_eq ids).trans (firstPlaces_of_nodup nodup)

/-- Where no node is repeated, as many nodes and one inclusion make two selections the same up to their order. -/
theorem sameNodes_iff : s.sameNodes u = true ↔ ∀ id, id ∈ s.nodes ↔ id ∈ u.nodes := by
  have shape : s.sameNodes u = true ↔ s.nodes.length = u.nodes.length ∧ s.nodes ⊆ u.nodes := by
    simp [sameNodes, size, List.subset_def]
  rw [shape]
  constructor
  · rintro ⟨size, subset⟩
    have perm : s.nodes.Perm u.nodes := (List.Nodup.subperm s.nodup subset).perm_of_length_le (Nat.le_of_eq size.symm)
    exact fun id => perm.mem_iff
  · intro same
    have perm : s.nodes.Perm u.nodes := (List.perm_ext_iff_of_nodup s.nodup u.nodup).mpr same
    exact ⟨perm.length_eq, perm.subset⟩

/-- **A selection of a list is a set with an order.** It has the nodes of the list, each once and in the order of their
first places. Two of them have the same nodes if the lists have, and they are equal if the first places are. -/
theorem ofList_collects (ids others : List NodeId) :
    (ofList ids).nodes = firstPlaces ids ∧ (ofList ids).nodes.Nodup ∧ (ofList ids).nodes.Sublist ids ∧
    (∀ id, id ∈ (ofList ids).nodes ↔ id ∈ ids) ∧
    (∀ a ∈ ids, ∀ b ∈ ids, (ofList ids).nodes.idxOf a < (ofList ids).nodes.idxOf b ↔ ids.idxOf a < ids.idxOf b) ∧
    (∀ id, (ofList ids).contains id = true ↔ id ∈ ids) ∧
    ((ofList ids).sameNodes (ofList others) = true ↔ ∀ id, id ∈ ids ↔ id ∈ others) ∧
    (ofList ids = ofList others ↔ firstPlaces ids = firstPlaces others) := by
  have members (list : List NodeId) (id : NodeId) : id ∈ (ofList list).nodes ↔ id ∈ list := by
    rw [nodes_ofList_eq, mem_firstPlaces]
  refine ⟨nodes_ofList_eq ids, (ofList ids).nodup, ?_, members ids, fun a ha b hb => ?_, fun id => ?_, ?_, ?_⟩
  · rw [nodes_ofList_eq]
    exact firstPlaces_sublist ids
  · rw [nodes_ofList_eq]
    exact idxOf_firstPlaces_lt_iff ha hb
  · rw [contains, List.contains_iff_mem, members]
  · rw [sameNodes_iff]
    simp only [members]
  · rw [← nodes_ofList_eq, ← nodes_ofList_eq]
    exact ⟨congrArg nodes, eq_of_nodes⟩

end Selection

end HtmlQuery
