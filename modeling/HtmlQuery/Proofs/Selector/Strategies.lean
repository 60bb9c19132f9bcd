import HtmlQuery.Proofs.Selector.Searches

/-!
# Walks against indexes

The index of classes holds elements of the document only. A walk goes through whatever lies below its context, be it in
the document or not. So the configuration shows if the context is a node that the document does not reach and elements
below it are asked for, and in no other case.

* `Finder.mem_elementsByClass_iff`, `ComplexSelector.mem_search_iff_of_class` — what is found under each configuration;
* `Finder.strategies_agree_iff` — when the configuration does not matter.
-/

namespace HtmlQuery

open HtmlQuery.Tree (root)

variable {t : Tree} {id : NodeId} {name : String} {config config' : Config} {context : Option NodeId}
  {wanted : NodeId → Bool}

/-! ## What an index covers -/

/-- The document reaches the context, or nothing that is wanted lies below the context. -/
def Tree.Covers (t : Tree) (context : Option NodeId) (wanted : NodeId → Bool) : Prop :=
  ∀ a ∈ context, t.Reachable a ∨ ∀ id, t.IsAncestor a id → wanted id = false

/-- Either all contexts are reached, or nothing is wanted. -/
theorem Tree.Covers.cases (h : t.Covers context wanted) :
    (∀ a ∈ context, t.Reachable a) ∨ ∀ id, t.IsAncestor (context.getD root) id → wanted id = false := by
  cases context with
  | none => exact .inl nofun
  | some a =>
    rcases h a rfl with reached | nothing
    · exact .inl fun _ eq => Option.some.inj eq ▸ reached
    · exact .inr nothing

/-- What is wanted is covered if it lies below the document whenever it lies below the context. -/
theorem Tree.WellFormed.covers_of_forall (wf : t.WellFormed)
    (h : ∀ id, wanted id = true → t.IsAncestor (context.getD root) id → t.IsAncestor root id) :
    t.Covers context wanted := by
  rintro a rfl
  by_cases reached : t.Reachable a
  · exact .inl reached
  · right
    intro id below
    rw [← Bool.not_eq_true]
    intro hid
    exact reached ((wf.isAncestor_root_iff below).mp (h id hid below))

/-! ## Lookups -/

namespace Finder

theorem isWithin_iff (wf : t.WellFormed) :
    (ofTree t config).isWithin context id = true ↔ ∀ a ∈ context, t.IsAncestor a id := by
  rw [isWithin, Option.all_eq_true]
  exact forall_congr' fun a => imp_congr_right fun _ => wf.isBelow_iff

/-- Both strategies find elements of the class below the context. The index finds those of the document only. -/
theorem mem_elementsByClass_iff (wf : t.WellFormed) (config : Config) :
    id ∈ (ofTree t config).elementsByClass name context ↔ (SimpleSelector.hasClass name).holdsAt t id = true ∧
      t.IsAncestor (context.getD root) id ∧ (config.classes = .index → t.IsAncestor root id) := by
  cases h : config.classes with
  | scan =>
    rw [elementsByClass_of_scan h, List.mem_filter, wf.mem_elementsBelow_iff]
    constructor
    · rintro ⟨⟨below, -⟩, holds⟩
      exact ⟨holds, below, nofun⟩
    · rintro ⟨holds, below, -⟩
      exact ⟨⟨below, SimpleSelector.isElement_of_holdsAt holds⟩, holds⟩
  | index =>
    rw [elementsByClass_of_index wf h, List.mem_filter, List.mem_filter, wf.mem_elementsBelow_iff, isWithin_iff wf]
    constructor
    · rintro ⟨⟨⟨inside, -⟩, below⟩, holds⟩
      refine ⟨holds, ?_, fun _ => inside⟩
      cases context with
      | none => exact inside
      | some a => exact below a rfl
    · rintro ⟨holds, below, inside⟩
      refine ⟨⟨⟨inside rfl, SimpleSelector.isElement_of_holdsAt holds⟩, ?_⟩, holds⟩
      rintro a rfl
      exact below

/-- The configuration does not matter for a class if the document covers its elements. -/
theorem elementsByClass_congr (wf : t.WellFormed)
    (h : t.Covers context fun id => (SimpleSelector.hasClass name).holdsAt t id) :
    (ofTree t config).elementsByClass name context = (ofTree t config').elementsByClass name context := by
  rcases h.cases with reached | nothing
  · rw [elementsByClass_ofTree wf config name reached, elementsByClass_ofTree wf config' name reached]
  · have empty (config : Config) : (ofTree t config).elementsByClass name context = [] := by
      apply List.eq_nil_iff_forall_not_mem.mpr
      intro id mem
      obtain ⟨holds, below, -⟩ := (mem_elementsByClass_iff wf _).mp mem
      rw [nothing id below] at holds
      cases holds
    rw [empty, empty]

/-- The walk and the index find the same elements of a class exactly if the document covers these elements. -/
theorem forall_elementsByClass_eq_iff (wf : t.WellFormed) :
    (∀ config config', (ofTree t config).elementsByClass name context =
        (ofTree t config').elementsByClass name context) ↔
      t.Covers context fun id => (SimpleSelector.hasClass name).holdsAt t id := by
  constructor
  · intro same
    apply wf.covers_of_forall
    intro id holds below
    have scanned := (mem_elementsByClass_iff wf {}).mpr ⟨holds, below, nofun⟩
    rw [same {} .indexed] at scanned
    exact ((mem_elementsByClass_iff wf _).mp scanned).2.2 rfl
  · intro covers _ _
    exact elementsByClass_congr wf covers

/-- The configuration does not matter for conditions other than classes. -/
theorem lookup_congr {s : SimpleSelector} (h : ∀ name, s ≠ .hasClass name) :
    (ofTree t config).lookup s context = (ofTree t config').lookup s context := by
  cases s with
  | hasId name =>
    rw [lookup, lookup, elementById?_ofTree, elementById?_ofTree]
    rfl
  | hasClass name => exact absurd rfl (h name)
  | hasTag name => rfl
  | hasAttribute name value => rfl

end Finder

/-! ## Searches -/

namespace ComplexSelector

variable {c : ComplexSelector}

/-- A search by a class finds the matching nodes below the context, with the index those of the document only. -/
theorem mem_search_iff_of_class (wf : t.WellFormed) (config : Config) (h : c.subject.anchor = .hasClass name) :
    id ∈ (c.search (.ofTree t config) context).nodes ↔ c.holdsAt t id = true ∧ t.IsAncestor (context.getD root) id ∧
      (config.classes = .index → t.IsAncestor root id) := by
  have whole := c.subject.holdsAt_eq_anchor t id
  rw [h] at whole
  rw [mem_search, h, Finder.lookup, Finder.mem_elementsByClass_iff wf config, holdsAt, whole, Bool.and_eq_true,
    Bool.and_eq_true]
  show _ ∧ c.subject.others.all (fun s => s.holdsAt t id) = true ∧ c.holdsAbove t id = true ↔ _
  tauto

theorem search_congr (h : (Finder.ofTree t config).lookup c.subject.anchor context =
    (Finder.ofTree t config').lookup c.subject.anchor context) :
    c.search (.ofTree t config) context = c.search (.ofTree t config') context := by
  rw [search, h]
  rfl

/-- The configuration does not matter for a search by a class if the document covers what matches. -/
theorem search_congr_of_class (wf : t.WellFormed) (h : c.subject.anchor = .hasClass name)
    (covers : t.Covers context fun id => c.holdsAt t id) :
    c.search (.ofTree t config) context = c.search (.ofTree t config') context := by
  rcases covers.cases with reached | nothing
  · refine search_congr ?_
    rw [Finder.lookup_ofTree wf config _ reached, Finder.lookup_ofTree wf config' _ reached]
  · have empty (config : Config) : (c.search (.ofTree t config) context).nodes = [] := by
      apply List.eq_nil_iff_forall_not_mem.mpr
      intro id mem
      obtain ⟨holds, below, -⟩ := (mem_search_iff_of_class wf _ h).mp mem
      rw [nothing id below] at holds
      cases holds
    exact Selection.eq_of_nodes ((empty config).trans (empty config').symm)

/-- The configuration does not matter for a search exactly if it does not begin with a class, or the document covers
what matches. -/
theorem forall_search_eq_iff (wf : t.WellFormed) :
    (∀ config config', c.search (.ofTree t config) context = c.search (.ofTree t config') context) ↔
      ∀ name, c.subject.anchor = .hasClass name → t.Covers context fun id => c.holdsAt t id := by
  constructor
  · intro same name anchor
    apply wf.covers_of_forall
    intro id holds below
    have scanned := (mem_search_iff_of_class wf {} anchor).mpr ⟨holds, below, nofun⟩
    rw [same {} .indexed] at scanned
    exact ((mem_search_iff_of_class wf _ anchor).mp scanned).2.2 rfl
  · intro covers config config'
    by_cases anchor : ∃ name, c.subject.anchor = .hasClass name
    · obtain ⟨name, anchor⟩ := anchor
      exact search_congr_of_class wf anchor (covers name anchor)
    · exact search_congr (Finder.lookup_congr fun name eq => anchor ⟨name, eq⟩)

end ComplexSelector

/-! ## When the configuration does not matter -/

namespace Finder

/-- **The configuration shows in elements of a class only, and only if the document does not cover them.** It never
matters for the lookup by id. For the lookup by class, and for the searches that begin with it, it does not matter
exactly if the document reaches the context or nothing that matches lies below the context. -/
theorem strategies_agree_iff (grown : t.Grown) (context : Option NodeId) :
    (∀ config config' name, (ofTree t config).elementById? name = (ofTree t config').elementById? name) ∧
    (∀ name, (∀ config config', (ofTree t config).elementsByClass name context =
        (ofTree t config').elementsByClass name context) ↔
      t.Covers context fun id => (SimpleSelector.hasClass name).holdsAt t id) ∧
    ∀ s : Selector, (∀ config config', s.search (ofTree t config) context = s.search (ofTree t config') context) ↔
      ∀ c ∈ s.complex?, ∀ name, c.subject.anchor = .hasClass name → t.Covers context fun id => c.holdsAt t id := by
  have wf := grown.wellFormed
  refine ⟨fun _ _ name => ?_, fun name => forall_elementsByClass_eq_iff wf, fun s => ?_⟩
  · rw [elementById?_ofTree, elementById?_ofTree]
  · obtain ⟨_ | c⟩ := s
    · exact iff_of_true (fun _ _ => rfl) nofun
    · refine ComplexSelector.forall_search_eq_iff wf |>.trans ⟨fun covers c' hc => ?_, fun covers => covers c rfl⟩
      cases hc
      exact covers

/-- Below a node of the document, both strategies find the same. -/
theorem strategies_agree_grove :
    (ofTree .grove .indexed).elementsByClass "x" (some 2) = (ofTree .grove {}).elementsByClass "x" (some 2) ∧
    Selector.search ⟨some ⟨[⟨[.hasTag "ul"], nofun⟩], ⟨[.hasClass "x"], nofun⟩⟩⟩ (ofTree .grove .indexed) (some 2) =
      Selector.search ⟨some ⟨[⟨[.hasTag "ul"], nofun⟩], ⟨[.hasClass "x"], nofun⟩⟩⟩ (ofTree .grove {}) (some 2) := by
  obtain ⟨-, classes, searches⟩ := strategies_agree_iff Tree.grown_grove (some 2)
  have covers (wanted : NodeId → Bool) : Tree.grove.Covers (some 2) wanted := by
    rintro _ ⟨⟩
    exact .inl (.single (by decide))
  exact ⟨(classes "x").mpr (covers _) _ _, (searches _).mpr (fun _ _ _ _ => covers _) _ _⟩

/-- In the small tree the index does not have the item that is out of reach. -/
theorem not_forall_elementsByClass_eq : ¬ ∀ (t : Tree) (context : Option NodeId) (config config' : Config)
    (name : String), t.Grown →
      (ofTree t config).elementsByClass name context = (ofTree t config').elementsByClass name context := by
  intro all
  have wf := Tree.grown_grove.wellFormed
  have below : Tree.grove.IsAncestor 4 5 := .single (by decide : Tree.grove.parent? 5 = some 4)
  have scanned : 5 ∈ (ofTree .grove {}).elementsByClass "x" (some 4) :=
    (mem_elementsByClass_iff wf _).mpr ⟨by decide, below, nofun⟩
  rw [all .grove (some 4) {} .indexed "x" Tree.grown_grove] at scanned
  have reached := ((mem_elementsByClass_iff wf _).mp scanned).2.2 rfl
  exact absurd (wf.isBelow_iff.mpr reached) (by decide)

end Finder

end HtmlQuery
