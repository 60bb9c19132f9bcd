import HtmlQuery.Lookup.Finder
import HtmlQuery.Proofs.Tree.DocumentOrder

/-!
# Indexes and lookups

An index is built in one go through the elements of the document. It answers as the walk through the document does: for
an id with the first element of that id, for a class with all elements of the class in document order.

* `Tree.getElem?_idIndex`, `Tree.WellFormed.entered_classIndex` — what an index holds under a name;
* `Finder.elementById?_ofTree` — the lookup by id does not depend on the configuration;
* `Finder.lookup_ofTree` — what a lookup gives in a context that the document reaches.
-/

namespace HtmlQuery

open HtmlQuery.Tree (root)

variable {t : Tree} {id : NodeId} {name : String} {context : Option NodeId}

/-! ## Conditions and what lookups read -/

namespace SimpleSelector

/-! A condition looks at an element, a lookup at single data of a node. -/

theorem holdsAt_hasId_eq_any (t : Tree) (id : NodeId) (name : String) :
    (hasId name).holdsAt t id = (t.attribute? id "id").any fun value => Text.trim value == name := by
  rw [holdsAt, Tree.attribute?, Option.any_bind]
  rfl

theorem holdsAt_hasClass_eq_any (t : Tree) (id : NodeId) (name : String) :
    (hasClass name).holdsAt t id = (t.attribute? id "class").any fun value => (Text.words value).contains name := by
  rw [holdsAt, Tree.attribute?, Option.any_bind]
  rfl

theorem holdsAt_hasTag_eq_any (t : Tree) (id : NodeId) (name : String) :
    (hasTag name).holdsAt t id = (t.tag? id).any fun tag => Text.sameIgnoringCase tag name := by
  rw [holdsAt, Tree.tag?, Option.any_map]
  rfl

theorem holdsAt_hasAttribute_eq_any (t : Tree) (id : NodeId) (name : String) (value : Option String) :
    (hasAttribute name value).holdsAt t id =
      (t.attribute? id name).any fun actual => value.all fun expected => actual == expected := by
  rw [holdsAt, Tree.attribute?, Option.any_bind]
  rfl

/-- The index of ids reads the trimmed id. -/
theorem holdsAt_hasId (t : Tree) (id : NodeId) (name : String) :
    (hasId name).holdsAt t id = (t.trimmedId? id == some name) := by
  rw [holdsAt_hasId_eq_any, Tree.trimmedId?]
  cases t.attribute? id "id" <;> rfl

/-- The index of classes reads the list of classes. -/
theorem holdsAt_hasClass (t : Tree) (id : NodeId) (name : String) :
    (hasClass name).holdsAt t id = (t.classes id).contains name := by
  rw [holdsAt_hasClass_eq_any, Tree.classes]
  cases t.attribute? id "class" <;> rfl

end SimpleSelector

/-! ## The index of ids -/

/-- One more element in an index of ids: its id is entered unless it is there. -/
def enterId (t : Tree) (index : Std.HashMap String NodeId) (id : NodeId) : Std.HashMap String NodeId :=
  match t.trimmedId? id with
  | some name => index.insertIfNew name id
  | none => index

theorem getElem?_enterId (t : Tree) (index : Std.HashMap String NodeId) (id : NodeId) (name : String) :
    (enterId t index id)[name]? =
      (index[name]?).or (if (SimpleSelector.hasId name).holdsAt t id then some id else none) := by
  rw [SimpleSelector.holdsAt_hasId, enterId]
  cases t.trimmedId? id with
  | none => simp
  | some other =>
    rw [Std.HashMap.getElem?_insertIfNew]
    by_cases h : other = name
    · subst h
      cases hi : index[other]? with
      | none =>
        have : other ∉ index := fun mem => by
          rw [Std.HashMap.getElem?_eq_some_getElem mem] at hi
          cases hi
        simp [this]
      | some id' =>
        have : other ∈ index := Std.HashMap.mem_iff_isSome_getElem?.mpr (by rw [hi]; rfl)
        simp [this]
    · simp [h]

theorem getElem?_foldl_enterId (t : Tree) (name : String) : ∀ (ids : List NodeId) (index : Std.HashMap String NodeId),
    (ids.foldl (enterId t) index)[name]? =
      (index[name]?).or (ids.find? fun id => (SimpleSelector.hasId name).holdsAt t id)
  | [], index => by simp
  | id :: ids, index => by
    rw [List.foldl_cons, getElem?_foldl_enterId t name ids, getElem?_enterId, Option.or_assoc, List.find?_cons]
    congr 1
    cases (SimpleSelector.hasId name).holdsAt t id <;> simp

/-- Under an id stands the first element of the document with that id. -/
theorem Tree.getElem?_idIndex (t : Tree) (name : String) :
    t.idIndex[name]? = (t.elementsBelow root).find? fun id => (SimpleSelector.hasId name).holdsAt t id := by
  have fold : t.idIndex = (t.elementsBelow root).foldl (enterId t) ∅ := rfl
  rw [fold, getElem?_foldl_enterId, Std.HashMap.getElem?_empty, Option.none_or]

/-! ## The index of classes -/

namespace ClassIndex

/-- What stands under a class. -/
def entered (index : ClassIndex) (name : String) : List NodeId := ((index[name]?).getD #[]).toList

theorem entered_enter (index : ClassIndex) (id : NodeId) (name' name : String) :
    (index.enter id name').entered name =
      if name' = name ∧ (index.entered name).getLast? ≠ some id then index.entered name ++ [id]
      else index.entered name := by
  rw [entered, enter, Std.HashMap.getElem?_alter]
  by_cases h : name' = name
  · subst h
    rw [entered, Array.getLast?_toList]
    by_cases hlast : ((index[name']?).getD #[]).back? = some id <;> simp [hlast]
  · simp [h, entered]

/-- Entering an element that is already the last one under a class changes nothing there. -/
theorem entered_foldl_of_last (id : NodeId) (name : String) : ∀ (names : List String) (index : ClassIndex),
    (index.entered name).getLast? = some id →
      (names.foldl (fun index name => index.enter id name) index).entered name = index.entered name
  | [], _, _ => rfl
  | name' :: names, index, h => by
    have same : (index.enter id name').entered name = index.entered name := by
      rw [entered_enter, if_neg fun h' => h'.2 h]
    rw [List.foldl_cons, entered_foldl_of_last id name names _ (by rw [same]; exact h), same]

/-- An element that is new to a class is entered there once if the class is among its classes, however often. -/
theorem entered_foldl (id : NodeId) (name : String) : ∀ (names : List String) (index : ClassIndex),
    id ∉ index.entered name → (names.foldl (fun index name => index.enter id name) index).entered name =
      index.entered name ++ if names.contains name then [id] else []
  | [], _, _ => by simp
  | name' :: names, index, h => by
    have notLast : (index.entered name).getLast? ≠ some id := fun h' => h (List.mem_of_getLast? h')
    have step := entered_enter index id name' name
    rw [List.foldl_cons, List.contains_cons]
    by_cases hname : name' = name
    · rw [if_pos ⟨hname, notLast⟩] at step
      rw [entered_foldl_of_last id name names _ (by rw [step]; simp), step]
      simp [hname]
    · rw [if_neg fun h' => hname h'.1] at step
      rw [entered_foldl id name names _ (by rw [step]; exact h), step, beq_eq_false_iff_ne.mpr (Ne.symm hname),
        Bool.false_or]

end ClassIndex

theorem entered_foldl_classes (t : Tree) (name : String) : ∀ (ids : List NodeId) (index : ClassIndex), ids.Nodup →
    (∀ id ∈ ids, id ∉ index.entered name) →
      ClassIndex.entered (ids.foldl (fun index id => (t.classes id).foldl (·.enter id ·) index) index) name =
        index.entered name ++ ids.filter fun id => (SimpleSelector.hasClass name).holdsAt t id
  | [], _, _, _ => by simp
  | id :: ids, index, nodup, fresh => by
    obtain ⟨other, nodup⟩ := List.nodup_cons.mp nodup
    have step := ClassIndex.entered_foldl id name (t.classes id) index (fresh id List.mem_cons_self)
    rw [← SimpleSelector.holdsAt_hasClass] at step
    have fresh' : ∀ x ∈ ids, x ∉ ((t.classes id).foldl (fun index name => index.enter id name) index).entered name := by
      intro x hx mem
      rw [step] at mem
      rcases List.mem_append.mp mem with mem | mem
      · exact fresh x (List.mem_cons_of_mem _ hx) mem
      · split at mem
        · rw [List.mem_singleton.mp mem] at hx
          exact other hx
        · exact List.not_mem_nil mem
    rw [List.foldl_cons, entered_foldl_classes t name ids _ nodup fresh', step, List.append_assoc, List.filter_cons]
    split <;> simp

namespace Tree.WellFormed

variable (wf : t.WellFormed)
include wf

theorem mem_elementsBelow_iff {a : NodeId} : id ∈ t.elementsBelow a ↔ t.IsAncestor a id ∧ t.isElement id = true := by
  rw [elementsBelow, List.mem_filter, wf.mem_descendants_iff]

theorem nodup_elementsBelow (id : NodeId) : (t.elementsBelow id).Nodup := (wf.nodup_descendants id).filter _

/-- Under a class stand the elements of the document with that class, in document order. -/
theorem entered_classIndex (name : String) :
    t.classIndex.entered name =
      (t.elementsBelow root).filter fun id => (SimpleSelector.hasClass name).holdsAt t id := by
  have empty : ClassIndex.entered ∅ name = [] := by
    rw [ClassIndex.entered, Std.HashMap.getElem?_empty]
    rfl
  rw [classIndex, entered_foldl_classes t name _ _ (wf.nodup_elementsBelow root) fun id _ => by
    rw [empty]; exact List.not_mem_nil, empty, List.nil_append]

/-! ## Contexts -/

/-- What the document lists below a context that it reaches is what the context lists itself. -/
theorem filter_isWithin_elementsBelow (config : Config) (reached : ∀ a ∈ context, t.Reachable a) :
    (t.elementsBelow root).filter ((Finder.ofTree t config).isWithin context) =
      t.elementsBelow (context.getD root) := by
  cases context with
  | none => exact List.filter_eq_self.mpr fun _ _ => rfl
  | some a =>
    show ((t.descendants root).filter t.isElement).filter (t.isBelow · a) = (t.descendants a).filter t.isElement
    rw [List.filter_comm, wf.filter_isBelow_descendants (wf.reachable_iff.mp (reached a rfl))]

end Tree.WellFormed

/-! ## Lookups -/

/-- The id that a condition asks for. -/
def SimpleSelector.idName? : SimpleSelector → Option String
  | .hasId name => some name
  | _ => none

/-- The first element of the document with an id. -/
def Tree.firstWithId? (t : Tree) (name : String) : Option NodeId :=
  (t.elementsBelow root).find? fun id => (SimpleSelector.hasId name).holdsAt t id

namespace Finder

/-- The index and the walk find the same element of an id. -/
theorem elementById?_ofTree (t : Tree) (config : Config) (name : String) :
    (ofTree t config).elementById? name = t.firstWithId? name := by
  rw [elementById?, ofTree]
  by_cases h : config.ids = .index
  · simp only [h, ↓reduceIte]
    exact t.getElem?_idIndex name
  · simp only [h, ↓reduceIte, Tree.firstWithId?, SimpleSelector.holdsAt_hasId_eq_any]

/-- The walk for a tag and the condition on the tag agree. -/
theorem elementsByTag_ofTree (t : Tree) (config : Config) (name : String) (context : Option NodeId) :
    (ofTree t config).elementsByTag name context =
      (t.elementsBelow (context.getD root)).filter fun id => (SimpleSelector.hasTag name).holdsAt t id := by
  simp only [SimpleSelector.holdsAt_hasTag_eq_any]
  rfl

/-- The walk for an attribute and the condition on the attribute agree. -/
theorem elementsByAttribute_ofTree (t : Tree) (config : Config) (name : String) (value : Option String)
    (context : Option NodeId) : (ofTree t config).elementsByAttribute name value context =
      (t.elementsBelow (context.getD root)).filter fun id =>
        (SimpleSelector.hasAttribute name value).holdsAt t id := by
  simp only [SimpleSelector.holdsAt_hasAttribute_eq_any]
  rfl

theorem elementsByClass_of_scan {config : Config} (h : config.classes = .scan) (name : String)
    (context : Option NodeId) : (ofTree t config).elementsByClass name context =
      (t.elementsBelow (context.getD root)).filter fun id => (SimpleSelector.hasClass name).holdsAt t id := by
  simp only [elementsByClass, ofTree, h, reduceCtorEq, ↓reduceIte, SimpleSelector.holdsAt_hasClass_eq_any]
  rfl

theorem elementsByClass_of_index (wf : t.WellFormed) {config : Config} (h : config.classes = .index) (name : String)
    (context : Option NodeId) : (ofTree t config).elementsByClass name context =
      ((t.elementsBelow root).filter ((ofTree t config).isWithin context)).filter fun id =>
        (SimpleSelector.hasClass name).holdsAt t id := by
  rw [List.filter_comm, ← wf.entered_classIndex]
  simp only [elementsByClass, ofTree, h, ↓reduceIte]
  rfl

/-- In a context that the document reaches, the index and the walk find the same elements of a class. -/
theorem elementsByClass_ofTree (wf : t.WellFormed) (config : Config) (name : String)
    (reached : ∀ a ∈ context, t.Reachable a) : (ofTree t config).elementsByClass name context =
      (t.elementsBelow (context.getD root)).filter fun id => (SimpleSelector.hasClass name).holdsAt t id := by
  cases h : config.classes with
  | scan => exact elementsByClass_of_scan h name context
  | index => rw [elementsByClass_of_index wf h, wf.filter_isWithin_elementsBelow config reached]

/-- In a list without repetition, the first node that meets a condition is picked by its name. -/
theorem toList_find?_eq_filter (p : NodeId → Bool) {ids : List NodeId} (nodup : ids.Nodup) :
    (ids.find? p).toList = ids.filter fun id => p id && ids.find? p == some id := by
  cases hfind : ids.find? p with
  | none => simp
  | some a =>
    have only : (fun id => p id && some a == some id) = fun id => id == a := by
      funext id
      by_cases h : id = a
      · simp [h, List.find?_some hfind]
      · rw [Option.some_beq_some, beq_eq_false_iff_ne.mpr (Ne.symm h), beq_eq_false_iff_ne.mpr h, Bool.and_false]
    rw [only, List.filter_beq, nodup.count, if_pos (List.mem_of_find?_eq_some hfind)]
    rfl

/-- A lookup gives the elements below the context that meet the condition, in document order. If the condition is on the
id, then only the first element of the document with that id is among them. -/
theorem lookup_ofTree (wf : t.WellFormed) (config : Config) (s : SimpleSelector)
    (reached : ∀ a ∈ context, t.Reachable a) : (ofTree t config).lookup s context =
      (t.elementsBelow (context.getD root)).filter fun id =>
        s.holdsAt t id && s.idName?.all fun name => t.firstWithId? name == some id := by
  cases s with
  | hasTag name =>
    simp only [SimpleSelector.idName?, Option.all_none, Bool.and_true]
    exact elementsByTag_ofTree t config name context
  | hasAttribute name value =>
    simp only [SimpleSelector.idName?, Option.all_none, Bool.and_true]
    exact elementsByAttribute_ofTree t config name value context
  | hasClass name =>
    simp only [SimpleSelector.idName?, Option.all_none, Bool.and_true]
    exact elementsByClass_ofTree wf config name reached
  | hasId name =>
    rw [lookup, elementById?_ofTree, ← wf.filter_isWithin_elementsBelow config reached, List.filter_comm]
    congr 1
    exact toList_find?_eq_filter _ (wf.nodup_elementsBelow root)

end Finder

end HtmlQuery
