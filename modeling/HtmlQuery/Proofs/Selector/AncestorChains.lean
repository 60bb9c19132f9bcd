import HtmlQuery.Proofs.Tree.Growth
import HtmlQuery.Selector.Matching
import Mathlib.Data.List.Chain
import Mathlib.Data.List.Forall2

/-!
# Chains of ancestors

A complex selector asks for a chain of ancestors, one for each compound selector. The search for it goes up once and
gives each compound selector the nearest ancestor that it holds at. This finds a chain whenever there is one, since a
chain that begins further up can begin at the nearer ancestor as well.

* `matchesInOrder_iff_sublist` — going along a list once finds every sublist at which the compound selectors hold;
* `WellFormed.sublist_ancestors_iff` — the sublists of the ancestors of a node are the chains of ancestors above it;
* `ComplexSelector.holdsAt_iff_exists_chain` — a node matches if and only if there is a chain.
-/

namespace HtmlQuery

variable {t : Tree} {id : NodeId}

/-! ## Going along a list once -/

/-- Each compound selector holds at the node in the same place. -/
abbrev HoldAt (t : Tree) (compounds : List CompoundSelector) (ids : List NodeId) : Prop :=
  List.Forall₂ (fun c id => c.holdsAt t id = true) compounds ids

/-- If compound selectors hold at nodes of a list, then all but the first hold at nodes behind the first of the list. -/
theorem exists_sublist_tail {c : CompoundSelector} {compounds : List CompoundSelector} {ids as : List NodeId}
    (sub : as.Sublist (id :: ids)) (holds : HoldAt t (c :: compounds) as) :
    ∃ as', as'.Sublist ids ∧ HoldAt t compounds as' := by
  cases holds with
  | @cons _ a _ as' _ holds => exact ⟨as', sub.tail, holds⟩

/-- **The greedy walk is complete.** It succeeds if and only if the compound selectors hold at some nodes of the list,
in the same order. -/
theorem matchesInOrder_iff_sublist (t : Tree) : ∀ (compounds : List CompoundSelector) (ids : List NodeId),
    matchesInOrder t compounds ids = true ↔ ∃ as, as.Sublist ids ∧ HoldAt t compounds as
  | [], ids => by
    rw [matchesInOrder]
    exact iff_of_true rfl ⟨[], List.nil_sublist ids, .nil⟩
  | c :: compounds, [] => by
    rw [matchesInOrder]
    refine iff_of_false Bool.false_ne_true ?_
    rintro ⟨as, sub, holds⟩
    rw [List.sublist_nil.mp sub] at holds
    cases holds
  | c :: compounds, id :: ids => by
    rw [matchesInOrder]
    by_cases hc : c.holdsAt t id = true
    · rw [if_pos hc, matchesInOrder_iff_sublist t compounds ids]
      constructor
      · rintro ⟨as, sub, holds⟩
        exact ⟨id :: as, sub.cons_cons id, .cons hc holds⟩
      · -- wherever the chain begins, its rest lies behind the nearest node
        rintro ⟨as, sub, holds⟩
        exact exists_sublist_tail sub holds
    · rw [if_neg hc, matchesInOrder_iff_sublist t (c :: compounds) ids]
      constructor
      · rintro ⟨as, sub, holds⟩
        exact ⟨as, sub.cons id, holds⟩
      · rintro ⟨as, sub, holds⟩
        cases sub with
        | cons _ sub => exact ⟨as, sub, holds⟩
        | cons_cons _ sub =>
          cases holds with
          | cons h _ => exact absurd h hc

/-! ## Chains above a node -/

namespace Tree

/-- Along a walk upwards each node is an ancestor of all nodes before it. -/
theorem WellFormed.pairwise_cons_ancestors (wf : t.WellFormed) (id : NodeId) :
    (id :: t.ancestors id).Pairwise fun x a => t.IsAncestor a x := by
  induction h : t.depth id generalizing id with
  | zero =>
    rw [List.length_eq_zero_iff.mp h]
    exact List.pairwise_singleton _ _
  | succ n ih =>
    cases hp : t.parent? id with
    | none =>
      rw [depth, ancestors_of_parent?_eq_none hp] at h
      cases h
    | some p =>
      refine List.pairwise_cons.mpr ⟨fun a ha => wf.mem_ancestors_iff.mp ha, ?_⟩
      rw [wf.ancestors_of_parent? hp]
      exact ih p (Nat.succ.inj ((wf.depth_of_parent? hp).symm.trans h))

/-- The sublists of the ancestors of a node are the chains of ancestors that begin at the node. -/
theorem WellFormed.sublist_ancestors_iff (wf : t.WellFormed) : ∀ {id : NodeId} {as : List NodeId},
    as.Sublist (t.ancestors id) ↔ (id :: as).IsChain fun x a => t.IsAncestor a x
  | _, [] => iff_of_true (List.nil_sublist _) (List.isChain_singleton _)
  | id, a :: as => by
    rw [List.isChain_cons_cons]
    constructor
    · intro sub
      have pairwise := (wf.pairwise_cons_ancestors id).sublist (sub.cons_cons id)
      exact List.isChain_cons_cons.mp pairwise.isChain
    · rintro ⟨ha, chain⟩
      have above := (wf.sublist_ancestors_iff.mpr chain).cons_cons a
      exact above.trans (wf.cons_ancestors_suffix ha).sublist

end Tree

/-! ## Matching -/

/-- Conditions hold at elements only. -/
theorem SimpleSelector.isElement_of_holdsAt {s : SimpleSelector} (h : s.holdsAt t id = true) :
    t.isElement id = true := by
  rw [holdsAt] at h
  rw [Tree.isElement]
  cases he : t.element? id with
  | none => rw [he] at h; cases h
  | some e => rfl

namespace CompoundSelector

theorem holdsAt_iff (c : CompoundSelector) : c.holdsAt t id = true ↔ ∀ s ∈ c.terms, s.holdsAt t id = true :=
  List.all_eq_true

/-- Compound selectors are not empty, so they hold at elements only. -/
theorem isElement_of_holdsAt {c : CompoundSelector} (h : c.holdsAt t id = true) : t.isElement id = true :=
  SimpleSelector.isElement_of_holdsAt (c.holdsAt_iff.mp h _ (List.head_mem c.terms_ne_nil))

end CompoundSelector

namespace ComplexSelector

theorem isElement_of_holdsAt {c : ComplexSelector} (h : c.holdsAt t id = true) : t.isElement id = true := by
  rw [holdsAt, Bool.and_eq_true] at h
  exact CompoundSelector.isElement_of_holdsAt h.1

/-- **A node matches if and only if it meets the conditions of the subject and has a chain of ancestors that meets the
conditions on ancestors.** -/
theorem holdsAt_iff_exists_chain (grown : t.Grown) (c : ComplexSelector) (id : NodeId) :
    c.holdsAt t id = true ↔ t.isElement id = true ∧ (∀ s ∈ c.subject.terms, s.holdsAt t id = true) ∧
      ∃ as : List NodeId, List.Forall₂ (fun g a => ∀ s ∈ g.terms, s.holdsAt t a = true) c.ancestors as ∧
        (as ++ [id]).IsChain t.IsAncestor := by
  have wf := grown.wellFormed
  rw [holdsAt, Bool.and_eq_true, holdsAbove, matchesInOrder_iff_sublist]
  constructor
  · rintro ⟨subject, as, sub, holds⟩
    refine ⟨CompoundSelector.isElement_of_holdsAt subject, c.subject.holdsAt_iff.mp subject, as.reverse, ?_, ?_⟩
    · rw [← List.forall₂_reverse_iff, List.reverse_reverse]
      exact holds.imp fun g a => g.holdsAt_iff.mp
    · rw [← List.reverse_cons, List.isChain_reverse]
      exact wf.sublist_ancestors_iff.mp sub
  · rintro ⟨-, subject, as, holds, chain⟩
    refine ⟨c.subject.holdsAt_iff.mpr subject, as.reverse, wf.sublist_ancestors_iff.mpr ?_, ?_⟩
    · rw [← List.isChain_reverse, List.reverse_append] at chain
      exact chain
    · exact List.forall₂_reverse_iff.mpr (holds.imp fun g a => g.holdsAt_iff.mpr)

/-- The two `ul` elements above the item of the small tree are a chain for `ul UL .x`. -/
theorem exists_chain_grove : ∃ as : List NodeId,
    List.Forall₂ (fun (g : CompoundSelector) a => ∀ s ∈ g.terms, s.holdsAt .grove a = true)
      [⟨[.hasTag "ul"], nofun⟩, ⟨[.hasTag "UL"], nofun⟩] as ∧ (as ++ [1]).IsChain Tree.grove.IsAncestor :=
  ((holdsAt_iff_exists_chain Tree.grown_grove
    ⟨[⟨[.hasTag "ul"], nofun⟩, ⟨[.hasTag "UL"], nofun⟩], ⟨[.hasClass "x"], nofun⟩⟩ 1).mp (by decide)).2.2

/-- A third `ul` element is not there. -/
example : holdsAt ⟨List.replicate 3 ⟨[.hasTag "ul"], nofun⟩, ⟨[.hasClass "x"], nofun⟩⟩ .grove 1 = false := by
  decide

end ComplexSelector

end HtmlQuery
