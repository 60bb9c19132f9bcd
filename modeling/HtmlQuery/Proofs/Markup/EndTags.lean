import HtmlQuery.Proofs.Markup.Skeleton

/-!
# What an end tag closes

An end tag closes the innermost open element of its name, with everything inside it, and without such an element it
closes nothing. Two names stand apart. The `html` element and the body are never closed. The end tag of a head closes the
head of the document only: an element of the same name in the body stays open.

* `Builder.after` — the tree under construction behind some tokens;
* `Builder.IsNamed` — the elements that an end tag is about;
* `Builder.after_endTag` — what an end tag does.
-/

namespace HtmlQuery

namespace Builder

open HtmlQuery.Tree (root)

/-- The builder behind some tokens. -/
def after (tokens : List Token) : Builder := tokens.foldl step {}

theorem after_append (tokens tokens' : List Token) : after (tokens ++ tokens') = tokens'.foldl step (after tokens) :=
  List.foldl_append

theorem changes_after (tokens : List Token) : Changes {} (after tokens) := changes_foldl tokens {}

/-- An element of the given name that is neither the `html` element nor the body of the document. -/
def IsNamed (b : Builder) (name : String) (id : NodeId) : Prop :=
  b.html ≠ some id ∧ b.body ≠ some id ∧ b.tree.tag? id = some name

instance (b : Builder) (name : String) (id : NodeId) : Decidable (b.IsNamed name id) :=
  inferInstanceAs (Decidable (_ ∧ _ ∧ _))

variable {b : Builder} {name : String} {id head : NodeId}

/-! ## The text before the tag -/

/-- The end of a text moves the text into the tree. -/
theorem endText_eq (b : Builder) : b.endText = { b with
    tree := if b.pending.isEmpty then b.tree else b.tree.append b.current (.text b.pending)
    pending := "" } := by
  unfold endText
  split
  case isTrue h =>
    have empty : "" = b.pending := (String.isEmpty_iff.mp h).symm
    rw [empty]
  case isFalse => rfl

theorem Sound.isNamed_endText_iff (s : b.Sound) (h : id ∈ b.stack) : b.endText.IsNamed name id ↔ b.IsNamed name id := by
  have same : b.endText.tree.tag? id = b.tree.tag? id := by
    rw [endText_eq]
    dsimp only
    split
    · rfl
    · rw [Tree.tag?_append s.current_lt_size, if_neg (Nat.ne_of_lt (s.lt_size_of_mem h))]
  rw [endText_eq] at same ⊢
  exact and_congr Iff.rfl (and_congr Iff.rfl (by rw [← same]))

/-! ## Names of open elements -/

/-- The head is an element of its name. -/
theorem Arranged.isNamed_head (a : b.Arranged) (s : b.Sound) (h : b.head = some head) : b.IsNamed "head" head := by
  obtain ⟨html, hhtml, parent⟩ := s.head_parent head h
  refine ⟨fun eq => ?_, s.head_ne_body head h, a.skeleton.tag_head head h⟩
  exact Nat.lt_irrefl _ (s.html_lt_head eq h)

/-- Under any name but that of the head, an end tag closes what has this name. -/
theorem Arranged.closes_iff (a : b.Arranged) (hname : name ≠ "head") : b.closes name id = true ↔ b.IsNamed name id := by
  have tagged : ((b.tree.element? id).any fun e => e.tag == name) = true ↔ b.tree.tag? id = some name := by
    rw [Tree.tag?]
    cases b.tree.element? id <;> simp
  simp only [closes, Bool.and_eq_true, bne_iff_ne, tagged, IsNamed]
  constructor
  · rintro ⟨⟨⟨hhtml, -⟩, hbody⟩, tag⟩
    exact ⟨hhtml, hbody, tag⟩
  · rintro ⟨hhtml, hbody, tag⟩
    refine ⟨⟨⟨hhtml, fun hhead => hname ?_⟩, hbody⟩, tag⟩
    exact Option.some.inj (tag.symm.trans (a.skeleton.tag_head id hhead))

/-- In the body the head is closed. -/
theorem Sound.head_not_mem_stack (s : b.Sound) (hbody : b.body.isSome) (hhead : b.head = some head) :
    head ∉ b.stack := fun mem =>
  s.not_isInclusiveAncestor_head hbody hhead (s.isInclusiveAncestor_current mem)

/-- While the head is open, no other open element has its name. -/
theorem Arranged.eq_head_of_isNamed (a : b.Arranged) (s : b.Sound) (hhead : b.head = some head)
    (opened : head ∈ b.stack) (mem : id ∈ b.stack) (named : b.IsNamed "head" id) : id = head := by
  have hmode : b.mode ≠ .inBody := s.mode_ne_inBody_iff.mpr <|
    Option.not_isSome_iff_eq_none.mp fun hbody => s.head_not_mem_stack hbody hhead opened
  obtain ⟨html, -, hhtml, -, inner, eq⟩ := s.suffix_of_head hmode hhead opened
  rw [← eq, List.mem_append] at mem
  rcases mem with inside | mem
  · -- what is open inside the head is an element of the head
    have pairwise := (List.pairwise_append.mp s.pairwise).1
    rw [← eq] at pairwise
    have below := (List.pairwise_append.mp pairwise).2.2 id inside head List.mem_cons_self
    have content := a.skeleton.headContent head hhead id below "head" named.2.2
    exact absurd content (by decide)
  · rcases List.mem_cons.mp mem with rfl | mem
    · rfl
    · rw [List.mem_singleton.mp mem] at named
      exact absurd hhtml named.1

/-! ## What the tag closes -/

/-- The end tag of a head closes the head and nothing else. -/
theorem Arranged.stack_endTag_head (a : b.Arranged) (s : b.Sound) :
    ((∀ id ∈ b.stack, ¬ b.IsNamed "head" id) → (b.endTag "head").stack = b.stack) ∧
    ∀ inner id outer, b.stack = inner ++ id :: outer → b.IsNamed "head" id → (∀ x ∈ inner, ¬ b.IsNamed "head" x) →
      (b.endTag "head").stack = if b.head = some id then outer else b.stack := by
  have closed : (b.endTag "head").stack = popThrough (fun id => b.head == some id) b.stack := rfl
  have kept (h : ∀ id ∈ b.stack, b.head ≠ some id) : popThrough (fun id => b.head == some id) b.stack = b.stack :=
    popThrough_of_forall fun id hid => beq_eq_false_iff_ne.mpr (h id hid)
  rw [closed]
  refine ⟨fun nothing => kept fun id hid hhead => nothing id hid (a.isNamed_head s hhead), ?_⟩
  intro inner id outer hstack named first
  split
  case isTrue hhead =>
    rw [hstack]
    refine popThrough_append inner outer (by rw [hhead]; exact beq_self_eq_true _) fun x hx => ?_
    exact beq_eq_false_iff_ne.mpr fun eq => first x hx (a.isNamed_head s eq)
  case isFalse other =>
    have mem : id ∈ b.stack := by
      rw [hstack]
      exact List.mem_append_right _ List.mem_cons_self
    refine kept fun head opened hhead => other ?_
    rw [a.eq_head_of_isNamed s hhead opened mem named, hhead]

/-- Every other end tag closes the innermost open element of its name. -/
theorem Arranged.stack_endTag_of_ne (a : b.Arranged) (hhtml : name ≠ "html") (hhead : name ≠ "head")
    (hbody : name ≠ "body") :
    ((∀ id ∈ b.stack, ¬ b.IsNamed name id) → (b.endTag name).stack = b.stack) ∧
    ∀ inner id outer, b.stack = inner ++ id :: outer → b.IsNamed name id → (∀ x ∈ inner, ¬ b.IsNamed name x) →
      (b.endTag name).stack = outer := by
  have closed : (b.endTag name).stack = popThrough (b.closes name) b.stack := by
    rw [endTag, if_neg (not_or.mpr ⟨hhtml, hbody⟩), if_neg hhead]
  have skipped {id : NodeId} (h : ¬ b.IsNamed name id) : b.closes name id = false :=
    Bool.eq_false_iff.mpr fun closes => h ((a.closes_iff hhead).mp closes)
  rw [closed]
  refine ⟨fun nothing => popThrough_of_forall fun id hid => skipped (nothing id hid), ?_⟩
  intro inner id outer hstack named first
  rw [hstack]
  exact popThrough_append inner outer ((a.closes_iff hhead).mpr named) fun x hx => skipped (first x hx)

/-- Both kinds of end tags. -/
theorem Arranged.stack_endTag (a : b.Arranged) (s : b.Sound) (hhtml : name ≠ "html") (hbody : name ≠ "body") :
    ((∀ id ∈ b.stack, ¬ b.IsNamed name id) → (b.endTag name).stack = b.stack) ∧
    ∀ inner id outer, b.stack = inner ++ id :: outer → b.IsNamed name id → (∀ x ∈ inner, ¬ b.IsNamed name x) →
      (b.endTag name).stack = if name = "head" ∧ b.head ≠ some id then b.stack else outer := by
  by_cases hhead : name = "head"
  · subst hhead
    obtain ⟨nothing, innermost⟩ := a.stack_endTag_head s
    refine ⟨nothing, fun inner id outer hstack named first => ?_⟩
    rw [innermost inner id outer hstack named first]
    by_cases hid : b.head = some id <;> simp [hid]
  · obtain ⟨nothing, innermost⟩ := a.stack_endTag_of_ne hhtml hhead hbody
    refine ⟨nothing, fun inner id outer hstack named first => ?_⟩
    rw [innermost inner id outer hstack named first, if_neg fun h => hhead h.1]

/-- An end tag changes the open elements only. -/
theorem endTag_eq (b : Builder) (name : String) : b.endTag name = { b with stack := (b.endTag name).stack } := by
  unfold endTag
  split
  · rfl
  · split <;> rfl

/-- **An end tag closes the innermost open element of its name, and nothing else**, but a `head` in the body it leaves
open. Besides, it ends the text before it. -/
theorem after_endTag (hhtml : name ≠ "html") (hbody : name ≠ "body") (before : List Token) :
    after (before ++ [.endTag name]) = { after before with
      tree := if (after before).pending.isEmpty then (after before).tree
        else (after before).tree.append (after before).current (.text (after before).pending)
      pending := ""
      stack := (after (before ++ [.endTag name])).stack } ∧
    ((∀ id ∈ (after before).stack, ¬ (after before).IsNamed name id) →
      (after (before ++ [.endTag name])).stack = (after before).stack) ∧
    ∀ inner id outer, (after before).stack = inner ++ id :: outer → (after before).IsNamed name id →
      (∀ x ∈ inner, ¬ (after before).IsNamed name x) →
      (after (before ++ [.endTag name])).stack =
        if name = "head" ∧ (after before).head ≠ some id then (after before).stack else outer := by
  have s := (changes_after before).sound
  have ended : Changes {} (after before).endText := (changes_after before).trans (changes_endText _)
  have step : after (before ++ [.endTag name]) = (after before).endText.endTag name := by
    rw [after_append]
    rfl
  rw [step]
  generalize after before = b at s ended
  have same {id : NodeId} (h : id ∈ b.stack) : b.endText.IsNamed name id ↔ b.IsNamed name id := s.isNamed_endText_iff h
  obtain ⟨nothing, innermost⟩ := ended.arranged.stack_endTag ended.sound hhtml hbody
  have hstack : b.endText.stack = b.stack := by rw [endText_eq]
  have hhead : b.endText.head = b.head := by rw [endText_eq]
  rw [hstack] at nothing innermost
  rw [hhead] at innermost
  refine ⟨?_, fun none => nothing fun id hid named => none id hid ((same hid).mp named), ?_⟩
  · refine (endTag_eq _ _).trans ?_
    generalize (b.endText.endTag name).stack = stack
    rw [endText_eq]
  · intro inner id outer eq named first
    have mem : ∀ x ∈ inner ++ id :: outer, x ∈ b.stack := fun x hx => eq ▸ hx
    refine innermost inner id outer eq ((same (mem id (by simp))).mpr named) fun x hx named => ?_
    exact first x hx ((same (mem x (List.mem_append_left _ hx))).mp named)

/-- The end tag of an outer element closes the elements inside it, too. -/
theorem after_endTag_outer : "div" ≠ "html" ∧ "div" ≠ "body" ∧
    (after [.startTag "div" false [], .startTag "em" false [], .character 'x', .endTag "div"]).stack = [3, 1] := by
  have hhtml : "div" ≠ "html" := by decide
  have hbody : "div" ≠ "body" := by decide
  obtain ⟨-, -, innermost⟩ :=
    after_endTag hhtml hbody [.startTag "div" false [], .startTag "em" false [], .character 'x']
  exact ⟨hhtml, hbody, innermost [5] 4 [3, 1] (by decide) (by decide) (by decide)⟩

/-- Not every end tag closes the innermost element of its name: a `head` in the body stays open. -/
theorem not_forall_stack_after_endTag : ¬ ∀ (name : String) (before : List Token), name ≠ "html" → name ≠ "body" →
    ∀ inner id outer, (after before).stack = inner ++ id :: outer → (after before).IsNamed name id →
      (∀ x ∈ inner, ¬ (after before).IsNamed name x) → (after (before ++ [.endTag name])).stack = outer := by
  intro all
  have closed := all "head" [.startTag "body" false [], .startTag "head" false []] (by decide) (by decide) [] 4 [3, 1]
    (by decide) (by decide) nofun
  exact absurd closed (by decide)

end Builder

end HtmlQuery
