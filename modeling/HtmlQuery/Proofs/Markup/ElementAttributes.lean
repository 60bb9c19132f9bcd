import HtmlQuery.Proofs.Markup.ClosedNodes
import HtmlQuery.Proofs.Markup.EndTags

/-!
# The attributes of elements

An element has the attributes of its start tag, and of two values for a name the first counts. The elements of the
frame have many tags: each `html` tag gives its attributes to the one `html` element, each `body` tag to the body, and a
`head` tag to the head as long as there is no body. A later `head` tag adds an element like any other.

* `firstValue?`, `tagAttributes` — the first value of a name, and the attributes of all tags of a name;
* `Builder.KeepsAttributes`, `Builder.TokenEffect` — what a token does to the attributes of elements;
* `Builder.attributesOf_step`, `Builder.attributesOf_foldl` — the attributes of the frame behind a token and behind all;
* `Builder.HasOwnTag`, `Builder.hasOwnTag_after` — the tag of every other element;
* `Tree.ofTokens_attributes` — the attributes in a document.
-/

namespace HtmlQuery

/-! ## First values -/

/-- The value of the first attribute of a name. -/
def firstValue? (name : String) (attributes : List Attribute) : Option String :=
  (attributes.find? (·.name == name)).map Attribute.value

/-- The attributes of all start tags of a name, one tag after another. -/
def tagAttributes (name : String) (tokens : List Token) : List Attribute :=
  tokens.flatMap fun
    | .startTag tag _ attributes => if tag = name then attributes else []
    | _ => []

namespace Attributes

/-- A name that has a value keeps it, and any other name gets its first value. -/
theorem get?_merge (name : String) : ∀ (attributes : List Attribute) (a : Attributes),
    (a.merge attributes).get? name = (a.get? name).or (firstValue? name attributes)
  | [], a => by simp [merge, firstValue?]
  | new :: attributes, a => by
    rw [merge, List.foldl_cons, ← merge, get?_merge name attributes, get?_insertIfNew, firstValue?, firstValue?,
      List.find?_cons]
    by_cases same : name = new.name
    · subst same
      cases a.get? new.name <;> simp
    · rw [if_neg same, beq_eq_false_iff_ne.mpr (Ne.symm same)]

theorem merge_merge (a : Attributes) (first second : List Attribute) :
    (a.merge first).merge second = a.merge (first ++ second) :=
  List.foldl_append.symm

end Attributes

namespace Builder

open HtmlQuery.Tree (root)

variable {b b' c : Builder} {id p : NodeId} {kind : NodeKind} {token : Token} {tokens : List Token}

/-! ## The frame -/

/-- The elements of the frame. -/
inductive FramePart where
  | html
  | head
  | body
  deriving DecidableEq, Repr

def FramePart.tag : FramePart → String
  | .html => "html"
  | .head => "head"
  | .body => "body"

/-- The node of an element of the frame, if it is there. -/
def part? (b : Builder) : FramePart → Option NodeId
  | .html => b.html
  | .head => b.head
  | .body => b.body

/-- The attributes of an element of the frame. There are none before the element is there. -/
def attributesOf (b : Builder) (part : FramePart) : Attributes :=
  ((b.part? part).bind b.tree.element?).elim .empty Element.attributes

variable {part other : FramePart}

theorem Sound.lt_size_of_part? (s : b.Sound) (h : b.part? part = some id) : id < b.tree.size := by
  cases part with
  | html => exact s.lt_size_of_frame (.inl h)
  | head => exact s.lt_size_of_frame (.inr (.inl h))
  | body => exact s.lt_size_of_frame (.inr (.inr h))

/-- The elements of the frame are elements. -/
theorem Arranged.exists_element? (a : b.Arranged) (h : b.part? part = some id) :
    ∃ attributes, b.tree.element? id = some ⟨part.tag, attributes⟩ := by
  have tag : b.tree.tag? id = some part.tag := by
    cases part with
    | html => exact a.skeleton.tag_html id h
    | head => exact a.skeleton.tag_head id h
    | body => exact a.skeleton.tag_body id h
  rw [Tree.tag?] at tag
  obtain ⟨⟨_, attributes⟩, element, rfl⟩ := Option.map_eq_some_iff.mp tag
  exact ⟨attributes, element⟩

theorem FramePart.eq_of_tag_eq (h : part.tag = other.tag) : part = other := by
  cases part <;> cases other <;> first | rfl | exact absurd h (by decide)

/-- They are different nodes. -/
theorem Arranged.part_unique (a : b.Arranged) (h : b.part? part = some id) (h' : b.part? other = some id) :
    part = other := by
  obtain ⟨_, element⟩ := a.exists_element? h
  obtain ⟨_, element'⟩ := a.exists_element? h'
  rw [element] at element'
  exact FramePart.eq_of_tag_eq (congrArg Element.tag (Option.some.inj element'))

/-! ## What keeps the attributes -/

/-- No element gets an attribute. New elements are of the frame, and have none. -/
structure KeepsAttributes (b b' : Builder) : Prop where
  attributesOf_eq : ∀ part, b'.attributesOf part = b.attributesOf part
  part?_eq : ∀ part id, b.part? part = some id → b'.part? part = some id
  element? : ∀ id e, b'.tree.element? id = some e →
    b.tree.element? id = some e ∨ ∃ part, b'.part? part = some id

namespace KeepsAttributes

theorem refl (b : Builder) : KeepsAttributes b b := ⟨fun _ => rfl, fun _ _ => id, fun _ _ => .inl⟩

theorem trans (h : KeepsAttributes b b') (h' : KeepsAttributes b' c) : KeepsAttributes b c where
  attributesOf_eq part := (h'.attributesOf_eq part).trans (h.attributesOf_eq part)
  part?_eq part id hid := h'.part?_eq part id (h.part?_eq part id hid)
  element? id e he := by
    rcases h'.element? id e he with he | frame
    · exact (h.element? id e he).imp_right fun ⟨part, hid⟩ => ⟨part, h'.part?_eq part id hid⟩
    · exact .inr frame

/-- Other elements are open, or other text waits. -/
theorem of_eq (htree : b'.tree = b.tree) (parts : ∀ part, b'.part? part = b.part? part) : KeepsAttributes b b' where
  attributesOf_eq part := by rw [attributesOf, attributesOf, parts, htree]
  part?_eq part id hid := (parts part).trans hid
  element? id e he := .inl (htree ▸ he)

/-- A node is added which is no element, or an element of the frame without attributes. -/
theorem append (s : b.Sound) (hp : p < b.tree.size) (htree : b'.tree = b.tree.append p kind)
    (parts : ∀ part, b'.part? part = b.part? part ∨ b.part? part = none ∧ b'.part? part = some b.tree.size)
    (new : ∀ e ∈ kind.element?, e.attributes = .empty ∧ ∃ part, b'.part? part = some b.tree.size) :
    KeepsAttributes b b' where
  attributesOf_eq part := by
    rw [attributesOf, attributesOf, htree]
    rcases parts part with same | ⟨before, now⟩
    · rw [same]
      cases hid : b.part? part with
      | none => rfl
      | some id =>
        rw [Option.bind_some, Option.bind_some, Tree.element?_append hp, if_neg (Nat.ne_of_lt (s.lt_size_of_part? hid))]
    · rw [before, now, Option.bind_some, Tree.element?_append hp, if_pos rfl]
      cases he : kind.element? with
      | none => rfl
      | some e => exact (new e he).1
  part?_eq part id hid := by
    rcases parts part with same | ⟨before, -⟩
    · exact same.trans hid
    · rw [before] at hid
      cases hid
  element? id e he := by
    rw [htree, Tree.element?_append hp] at he
    split at he
    · rename_i eq
      exact .inr (eq ▸ (new e he).2)
    · exact .inl he

theorem endText (s : b.Sound) : KeepsAttributes b b.endText := by
  cases h : b.pending.isEmpty with
  | true =>
    rw [Builder.endText, if_pos h]
    exact refl b
  | false =>
    rw [endText_of_isEmpty_eq_false h]
    exact append s s.current_lt_size rfl (fun part => .inl (by cases part <;> rfl)) (by rintro _ ⟨⟩)

theorem withHtml (s : b.Sound) : KeepsAttributes b b.withHtml.1 := by
  cases h : b.html with
  | some html =>
    rw [withHtml_of_some h]
    exact refl b
  | none =>
    rw [withHtml_of_none h]
    refine append s s.sequential.root_lt_size rfl (fun part => ?_) ?_
    · cases part with
      | html => exact .inr ⟨h, rfl⟩
      | head | body => exact .inl rfl
    · rintro e ⟨⟩
      exact ⟨rfl, .html, rfl⟩

theorem withHead (s : b.Sound) : KeepsAttributes b b.withHead.1 := by
  have s' := s.changes (quiet_withHtml b).changes
  have hhtml := html_withHtml b
  rw [← withHead_withHtml]
  refine (withHtml s).trans ?_
  cases h : b.withHtml.1.head with
  | some head =>
    rw [withHead_of_some hhtml h]
    exact refl _
  | none =>
    rw [withHead_of_none hhtml h]
    refine append s' (s'.html_lt_size hhtml) rfl (fun part => ?_) ?_
    · cases part with
      | head => exact .inr ⟨h, rfl⟩
      | html | body => exact .inl rfl
    · rintro e ⟨⟩
      exact ⟨rfl, .head, rfl⟩

theorem withBody (s : b.Sound) : KeepsAttributes b b.withBody.1 := by
  cases h : b.body with
  | some body =>
    rw [withBody_of_some h]
    exact refl b
  | none =>
    have s' := s.changes (quiet_withHead b).changes
    have hbody := (withHead_keeps b).1.trans h
    rw [← withBody_withHead h, withBody_of_none (html_withHead b) (head_withHead b) hbody]
    refine (withHead s).trans (append s' (s'.html_lt_size (html_withHead b)) rfl (fun part => ?_) ?_)
    · cases part with
      | body => exact .inr ⟨hbody, rfl⟩
      | html | head => exact .inl rfl
    · rintro e ⟨⟩
      exact ⟨rfl, .body, rfl⟩

end KeepsAttributes

/-! ## What a token does -/

/-- What a token does to the attributes of elements. From `b` to `c` the builder does what comes before that. -/
inductive TokenEffect (b : Builder) : Token → Builder → Prop
  /-- The tag of an element of the frame gives its attributes to this element. -/
  | frame {c : Builder} {part : FramePart} {id : NodeId} (selfClosing : Bool) (attributes : List Attribute) :
      Changes b c → KeepsAttributes b c → (part = .head → b.body = none) → c.part? part = some id →
      TokenEffect b (.startTag part.tag selfClosing attributes) (c.merge id attributes)
  /-- Any other start tag adds an element. -/
  | element {c : Builder} {name : String} (selfClosing : Bool) (attributes : List Attribute) :
      Changes b c → KeepsAttributes b c → (∀ part : FramePart, name = part.tag → part = .head ∧ b.body.isSome) →
      TokenEffect b (.startTag name selfClosing attributes) (c.addElement name selfClosing attributes)
  | other {c : Builder} {token : Token} :
      (∀ name selfClosing attributes, token ≠ .startTag name selfClosing attributes) → KeepsAttributes b c →
      TokenEffect b token c

/-- The end of a text may come before. -/
theorem TokenEffect.of_endText (s : b.Sound) (h : TokenEffect b.endText token c) : TokenEffect b token c := by
  have keeps := KeepsAttributes.endText s
  have before := changes_endText b
  have hbody : b.endText.body = b.body := by rw [endText_eq]
  cases h with
  | frame selfClosing attributes changes keeps' early hid =>
    exact .frame selfClosing attributes (before.trans changes) (keeps.trans keeps') (hbody ▸ early) hid
  | element selfClosing attributes changes keeps' late =>
    exact .element selfClosing attributes (before.trans changes) (keeps.trans keeps') (hbody ▸ late)
  | other plain keeps' => exact .other plain (keeps.trans keeps')

theorem Sound.keepsAttributes_character (s : b.Sound) (c : Char) : KeepsAttributes b (b.character c) := by
  unfold character
  split
  · split
    · exact .refl b
    · exact (KeepsAttributes.withBody s).trans (.of_eq rfl fun part => by cases part <;> rfl)
  · exact .of_eq rfl fun part => by cases part <;> rfl

theorem Sound.tokenEffect_startTag (s : b.Sound) (name : String) (selfClosing : Bool) (attributes : List Attribute) :
    TokenEffect b (.startTag name selfClosing attributes) (b.startTag name selfClosing attributes) := by
  by_cases hhtml : name = "html"
  · rw [startTag, if_pos hhtml, hhtml]
    exact @TokenEffect.frame b _ .html _ selfClosing attributes (quiet_withHtml b).changes (.withHtml s)
      (by rintro ⟨⟩) (html_withHtml b)
  by_cases hhead : name = "head" ∧ b.mode ≠ .inBody
  · rw [startTag, if_neg hhtml, if_pos hhead, hhead.1]
    exact @TokenEffect.frame b _ .head _ selfClosing attributes (quiet_withHead b).changes (.withHead s)
      (fun _ => s.mode_ne_inBody_iff.mp hhead.2) (head_withHead b)
  by_cases hbody : name = "body"
  · rw [startTag, if_neg hhtml, if_neg hhead, if_pos hbody, hbody]
    exact @TokenEffect.frame b _ .body _ selfClosing attributes (quiet_withBody b).changes (.withBody s)
      (by rintro ⟨⟩) (body_withBody b)
  obtain ⟨c, quiet, -, eq, place⟩ := exists_addElement hhtml hhead hbody selfClosing attributes
  rw [eq]
  refine .element selfClosing attributes quiet.changes ?_ fun part tag => ?_
  · rcases place with rfl | ⟨stack, rfl⟩
    · exact .withBody s
    · exact (KeepsAttributes.withHead s).trans (.of_eq rfl fun part => by cases part <;> rfl)
  · cases part with
    | html => exact absurd tag hhtml
    | body => exact absurd tag hbody
    | head =>
      refine ⟨rfl, Option.isSome_iff_ne_none.mpr fun none => hhead ⟨tag, s.mode_ne_inBody_iff.mpr none⟩⟩

/-- **Every token has its effect**, whatever was read before. -/
theorem Sound.tokenEffect_step (s : b.Sound) (token : Token) : TokenEffect b token (b.step token) := by
  have ended : b.endText.Sound := s.changes (changes_endText b)
  cases token with
  | character c => exact .other nofun (s.keepsAttributes_character c)
  | endOfFile => exact .other nofun (.refl b)
  | startTag name selfClosing attributes =>
    exact .of_endText s (ended.tokenEffect_startTag name selfClosing attributes)
  | endTag name =>
    refine .of_endText s (.other nofun (.of_eq ?_ fun part => ?_))
    · rw [step, endTag_eq]
    · rw [step, endTag_eq]
      cases part <;> rfl
  | comment data =>
    refine .of_endText s (.other nofun (.append ended ended.current_lt_size rfl (fun part => .inl ?_) nofun))
    cases part <;> rfl

/-! ## The attributes of the frame -/

theorem part?_merge (b : Builder) (id : NodeId) (attributes : List Attribute) (part : FramePart) :
    (b.merge id attributes).part? part = b.part? part := by
  cases part <;> rfl

theorem part?_addElement (b : Builder) (name : String) (selfClosing : Bool) (attributes : List Attribute)
    (part : FramePart) : (b.addElement name selfClosing attributes).part? part = b.part? part := by
  rw [addElement_eq]
  cases part <;> rfl

/-- Attributes go to one element of the frame. -/
theorem Arranged.attributesOf_merge (a : b.Arranged) (h : b.part? other = some id) (attributes : List Attribute)
    (part : FramePart) : (b.merge id attributes).attributesOf part =
      if part = other then (b.attributesOf part).merge attributes else b.attributesOf part := by
  rw [attributesOf, attributesOf, part?_merge]
  split
  case isTrue same =>
    obtain ⟨old, element⟩ := a.exists_element? h
    rw [same, h, Option.bind_some, Option.bind_some, merge, Tree.element?_modifyAttributes, if_pos rfl, element]
    rfl
  case isFalse differ =>
    cases hp : b.part? part with
    | none => rfl
    | some n =>
      have ne : id ≠ n := fun eq => differ (a.part_unique hp (eq ▸ h))
      rw [Option.bind_some, Option.bind_some, merge, Tree.element?_modifyAttributes, if_neg ne]

/-- A new element leaves the frame alone. -/
theorem Sound.attributesOf_addElement (s : b.Sound) (name : String) (selfClosing : Bool) (attributes : List Attribute)
    (part : FramePart) : (b.addElement name selfClosing attributes).attributesOf part = b.attributesOf part := by
  rw [attributesOf, attributesOf, part?_addElement]
  cases hp : b.part? part with
  | none => rfl
  | some n =>
    rw [Option.bind_some, Option.bind_some, addElement_eq, Tree.element?_append s.current_lt_size,
      if_neg (Nat.ne_of_lt (s.lt_size_of_part? hp))]

/-- **The attributes of the frame behind a token.** Each start tag gives its own to the element of its name, but to the
head only if there is no body. -/
theorem attributesOf_step (changes : Changes {} b) (token : Token) (part : FramePart) :
    (b.step token).attributesOf part = (b.attributesOf part).merge
      (if part = .head ∧ b.body.isSome then [] else tagAttributes part.tag [token]) := by
  have effect := changes.sound.tokenEffect_step token
  generalize b.step token = next at effect
  cases effect with
  | @frame c other id selfClosing attributes before keeps early hid =>
    rw [Arranged.attributesOf_merge (Changes.arranged (changes.trans before)) hid, keeps.attributesOf_eq]
    by_cases same : part = other
    · have reached : ¬ (part = .head ∧ b.body.isSome = true) := fun ⟨head, body⟩ => by
        rw [early (same ▸ head)] at body
        cases body
      rw [if_pos same, if_neg reached, same]
      simp [tagAttributes]
    · have missed : ¬ other.tag = part.tag := fun eq => same (FramePart.eq_of_tag_eq eq.symm)
      rw [if_neg same]
      simp [tagAttributes, missed, Attributes.merge]
  | @element c name selfClosing attributes before keeps late =>
    rw [Sound.attributesOf_addElement (Changes.sound (changes.trans before)), keeps.attributesOf_eq]
    by_cases tag : name = part.tag
    · rw [if_pos (late part tag)]
      rfl
    · simp [tagAttributes, tag, Attributes.merge]
  | other plain keeps =>
    rw [keeps.attributesOf_eq]
    cases token with
    | startTag name selfClosing attributes => exact absurd rfl (plain name selfClosing attributes)
    | character | endTag | comment | endOfFile => simp [tagAttributes, Attributes.merge]

/-- The elements of the frame stay what they are. -/
theorem Sound.part?_step (s : b.Sound) (h : b.part? part = some id) (token : Token) :
    (b.step token).part? part = some id := by
  have effect := s.tokenEffect_step token
  generalize b.step token = next at effect
  cases effect with
  | frame selfClosing attributes _ keeps => rw [part?_merge, keeps.part?_eq part id h]
  | element selfClosing attributes _ keeps => rw [part?_addElement, keeps.part?_eq part id h]
  | other _ keeps => exact keeps.part?_eq part id h

/-- The tokens that are read as long as there is no body. The one that asks for the body is the last of them. -/
def withoutBody (b : Builder) : List Token → List Token
  | [] => []
  | token :: tokens => if b.body.isSome then [] else token :: (b.step token).withoutBody tokens

/-- The tokens whose tags reach an element of the frame. -/
def reaching (b : Builder) (part : FramePart) (tokens : List Token) : List Token :=
  if part = .head then b.withoutBody tokens else tokens

theorem withoutBody_of_isSome (h : b.body.isSome) (tokens : List Token) : b.withoutBody tokens = [] := by
  cases tokens with
  | nil => rfl
  | cons token tokens => exact if_pos h

theorem tagAttributes_cons (name : String) (token : Token) (tokens : List Token) :
    tagAttributes name (token :: tokens) = tagAttributes name [token] ++ tagAttributes name tokens := by
  rw [tagAttributes, tagAttributes, tagAttributes, List.flatMap_cons, List.flatMap_singleton]

/-- The first token reaches an element of the frame, or from there on none reaches it any more. -/
theorem Sound.tagAttributes_reaching_cons (s : b.Sound) (part : FramePart) (token : Token) (tokens : List Token) :
    tagAttributes part.tag (b.reaching part (token :: tokens)) =
      (if part = .head ∧ b.body.isSome then [] else tagAttributes part.tag [token]) ++
        tagAttributes part.tag ((b.step token).reaching part tokens) := by
  by_cases head : part = .head
  · rw [reaching, if_pos head, reaching, if_pos head, withoutBody]
    by_cases hbody : b.body.isSome = true
    · obtain ⟨body, some⟩ := Option.isSome_iff_exists.mp hbody
      have stays : (b.step token).body.isSome := by
        exact Option.isSome_iff_exists.mpr ⟨body, s.part?_step (show b.part? .body = _ from some) token⟩
      rw [if_pos hbody, if_pos ⟨head, hbody⟩, withoutBody_of_isSome stays, List.nil_append]
    · rw [if_neg hbody, if_neg fun h => hbody h.2, tagAttributes_cons]
  · rw [reaching, if_neg head, reaching, if_neg head, if_neg fun h => head h.1, tagAttributes_cons]

/-- **The attributes of the frame behind all tokens.** -/
theorem attributesOf_foldl : ∀ (tokens : List Token) {b : Builder}, Changes {} b → ∀ part : FramePart,
    (tokens.foldl step b).attributesOf part =
      (b.attributesOf part).merge (tagAttributes part.tag (b.reaching part tokens))
  | [], b, _, part => by
    have nothing : b.reaching part [] = [] := by
      unfold reaching
      split <;> rfl
    rw [nothing]
    rfl
  | token :: tokens, b, changes, part => by
    rw [List.foldl_cons, attributesOf_foldl tokens (changes.trans (changes_step b token)) part,
      attributesOf_step changes, Attributes.merge_merge, changes.sound.tagAttributes_reaching_cons]

/-- What all tags of an element of the frame have given it. -/
theorem KeepsAttributes.attribute?_of_part? (keeps : KeepsAttributes (after tokens) b) (a : b.Arranged)
    (h : b.part? part = some id) (name : String) : b.tree.attribute? id name =
      firstValue? name (tagAttributes part.tag (({} : Builder).reaching part tokens)) := by
  obtain ⟨attributes, element⟩ := a.exists_element? h
  have all := (keeps.attributesOf_eq part).trans (attributesOf_foldl tokens .refl part)
  have start : ({} : Builder).attributesOf part = .empty := by cases part <;> rfl
  rw [attributesOf, h, Option.bind_some, element, start] at all
  rw [Tree.attribute?, element, Option.bind_some]
  exact (congrArg (Attributes.get? · name) all).trans (Attributes.get?_merge name _ .empty)

/-! ## The tags of other elements -/

/-- The element at `id` was added by a start tag of its name, and has the first values of the attributes of this tag. -/
def HasOwnTag (tokens : List Token) (id : NodeId) (e : Element) : Prop :=
  ∃ before selfClosing attributes behind, tokens = before ++ .startTag e.tag selfClosing attributes :: behind ∧
    (after before).tree.size ≤ id ∧ (after (before ++ [.startTag e.tag selfClosing attributes])).tree.size = id + 1 ∧
    ∀ name, e.attribute? name = firstValue? name attributes

theorem HasOwnTag.append {e : Element} (h : HasOwnTag tokens id e) (more : List Token) :
    HasOwnTag (tokens ++ more) id e := by
  obtain ⟨before, selfClosing, attributes, behind, rfl, added⟩ := h
  exact ⟨before, selfClosing, attributes, behind ++ more, by rw [List.append_assoc, List.cons_append], added⟩

/-- An element outside the frame was there before the token, or the token is its tag. -/
theorem Sound.element?_step (s : b.Sound) {e : Element} (h : (b.step token).tree.element? id = some e)
    (outside : ∀ part, (b.step token).part? part ≠ some id) :
    (b.tree.element? id = some e ∧ ∀ part, b.part? part ≠ some id) ∨
    ∃ selfClosing attributes, token = .startTag e.tag selfClosing attributes ∧ b.tree.size ≤ id ∧
      (b.step token).tree.size = id + 1 ∧ ∀ name, e.attribute? name = firstValue? name attributes := by
  have effect := s.tokenEffect_step token
  generalize b.step token = next at h outside effect
  have old {c : Builder} (keeps : KeepsAttributes b c) (h : c.tree.element? id = some e)
      (outside : ∀ part, c.part? part ≠ some id) :
      b.tree.element? id = some e ∧ ∀ part, b.part? part ≠ some id := by
    rcases keeps.element? id e h with h | ⟨part, hid⟩
    · exact ⟨h, fun part hid => outside part (keeps.part?_eq part id hid)⟩
    · exact absurd hid (outside part)
  cases effect with
  | @frame c part n selfClosing attributes _ keeps _ hn =>
    have ne : n ≠ id := fun eq => outside part (by rw [part?_merge, hn, eq])
    rw [Builder.merge, Tree.element?_modifyAttributes, if_neg ne] at h
    exact .inl (old keeps h fun part => by simpa only [part?_merge] using outside part)
  | @element c name selfClosing attributes before keeps =>
    rw [addElement_eq, Tree.element?_append (s.changes before).current_lt_size] at h
    split at h
    case isTrue new =>
      cases h
      refine .inr ⟨selfClosing, attributes, rfl, new ▸ Changes.size_le before, ?_,
        fun name => Attributes.get?_merge name attributes .empty⟩
      rw [addElement_eq, Tree.size_append, new]
    case isFalse => exact .inl (old keeps h fun part => by simpa only [part?_addElement] using outside part)
  | other _ keeps => exact .inl (old keeps h outside)

/-- **Every element outside the frame has its own tag.** -/
theorem hasOwnTag_after (tokens : List Token) : ∀ id e, (after tokens).tree.element? id = some e →
    (∀ part, (after tokens).part? part ≠ some id) → HasOwnTag tokens id e := by
  induction tokens using List.reverseRecOn with
  | nil =>
    intro id e he
    cases id with
    | zero => cases he
    | succ n =>
      rw [Tree.element?_eq, show (after []).tree.get? (n + 1) = none from Tree.get?_empty_succ n] at he
      cases he
  | append_singleton tokens token ih =>
    intro id e he outside
    have next : after (tokens ++ [token]) = (after tokens).step token := after_append tokens [token]
    rw [next] at he outside
    have s := (changes_after tokens).sound
    rcases s.element?_step he outside with ⟨he, outside⟩ | ⟨selfClosing, attributes, rfl, new⟩
    · exact (ih id e he outside).append [token]
    · exact ⟨tokens, selfClosing, attributes, [], rfl, next ▸ new⟩

end Builder

namespace Tree

open Builder

/-- The tokens before the first end of the text. -/
def beforeEnd (tokens : List Token) : List Token := tokens.takeWhile (· != .endOfFile)

/-- **The attributes in a document.** Of all attributes that the tags of an element of the frame give it, the first of
each name counts; the head is reached as long as there is no body. Any other element has the attributes of its own
tag. -/
theorem ofTokens_attributes (tokens : List Token) : ∃ html head body,
    (ofTokens tokens).elementChildren root = [html] ∧ (ofTokens tokens).elementChildren html = [head, body] ∧
    (∀ name, (ofTokens tokens).attribute? html name =
      firstValue? name (tagAttributes "html" (beforeEnd tokens))) ∧
    (∀ name, (ofTokens tokens).attribute? head name =
      firstValue? name (tagAttributes "head" (withoutBody {} (beforeEnd tokens)))) ∧
    (∀ name, (ofTokens tokens).attribute? body name =
      firstValue? name (tagAttributes "body" (beforeEnd tokens))) ∧
    ∀ id e, (ofTokens tokens).element? id = some e → id ∉ [html, head, body] → HasOwnTag (beforeEnd tokens) id e := by
  have changes := changes_after (beforeEnd tokens)
  have ended : Changes {} (after (beforeEnd tokens)).endText := changes.trans (changes_endText _)
  have keeps := (KeepsAttributes.endText changes.sound).trans (.withBody ended.sound)
  have whole : Changes {} (after (beforeEnd tokens)).endText.withBody.1 := ended.trans (quiet_withBody _).changes
  have hbody := body_withBody (after (beforeEnd tokens)).endText
  have eq : ofTokens tokens = (after (beforeEnd tokens)).endText.withBody.1.tree := rfl
  rw [eq]
  generalize (after (beforeEnd tokens)).endText.withBody.1 = b at keeps whole hbody
  generalize (after (beforeEnd tokens)).endText.withBody.2 = body at hbody
  obtain ⟨html, head, -, hhtml, hhead, -⟩ := whole.sound.suffix_of_body hbody
  have k := whole.arranged.skeleton
  rw [hhtml, hhead, hbody] at k
  have values {part : FramePart} {id : NodeId} (hid : b.part? part = some id) :=
    keeps.attribute?_of_part? whole.arranged hid
  refine ⟨html, head, body, k.elementChildren_root, k.elementChildren_html html rfl,
    values (show b.part? .html = _ from hhtml), values (show b.part? .head = _ from hhead),
    values (show b.part? .body = _ from hbody), fun id e he outside => ?_⟩
  simp only [List.mem_cons, List.not_mem_nil, or_false, not_or] at outside
  have noPart (part : FramePart) : b.part? part ≠ some id := fun hid => by
    cases part with
    | html => exact outside.1 (Option.some.inj (hid.symm.trans hhtml))
    | head => exact outside.2.1 (Option.some.inj (hid.symm.trans hhead))
    | body => exact outside.2.2 (Option.some.inj (hid.symm.trans hbody))
  rcases keeps.element? id e he with he | ⟨part, hid⟩
  · exact hasOwnTag_after _ id e he fun part hid => noPart part (keeps.part?_eq part id hid)
  · exact absurd hid (noPart part)

/-- Two `html` tags for one element, and a `head` tag for an element of the body. -/
def repeatedTags : List Token := [.startTag "html" false [⟨"lang", "en"⟩], .startTag "body" false [],
  .startTag "html" false [⟨"lang", "de"⟩, ⟨"dir", "ltr"⟩], .startTag "head" false [⟨"id", "x"⟩], .endOfFile]

theorem ofTokens_attributes_repeated :
    (ofTokens repeatedTags).attribute? 1 "lang" = some "en" ∧ (ofTokens repeatedTags).attribute? 1 "dir" = some "ltr" ∧
    (ofTokens repeatedTags).attribute? 2 "id" = none ∧
    (ofTokens repeatedTags).element? 4 = some ⟨"head", .ofList [("id", "x")]⟩ ∧ 4 ∉ [1, 2, 3] ∧
    HasOwnTag (beforeEnd repeatedTags) 4 ⟨"head", .ofList [("id", "x")]⟩ := by
  obtain ⟨html, head, body, children, elements, htmlValues, headValues, -, others⟩ := ofTokens_attributes repeatedTags
  rw [show (ofTokens repeatedTags).elementChildren root = [1] by decide] at children
  cases children
  rw [show (ofTokens repeatedTags).elementChildren 1 = [2, 3] by decide] at elements
  cases elements
  have inBody : (ofTokens repeatedTags).element? 4 = some ⟨"head", .ofList [("id", "x")]⟩ := by decide
  exact ⟨(htmlValues "lang").trans (by decide), (htmlValues "dir").trans (by decide),
    (headValues "id").trans (by decide), inBody, by decide, others 4 _ inBody (by decide)⟩

end Tree

end HtmlQuery
