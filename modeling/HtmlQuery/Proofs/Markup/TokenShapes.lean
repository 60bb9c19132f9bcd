import HtmlQuery.Proofs.Markup.Boundaries
import Mathlib.Data.List.Nodup

/-!
# The shape of tokens

Whatever the text, names come in lower case and without the characters that end them, no start tag has two attributes of
one name, and no comment holds the characters that end it. A token need not have this shape while it is read. The name
of a tag is empty at first, an attribute may repeat an earlier name while its own is growing or while it waits to be
removed, and whether a comment goes on is seen in the text behind it.

* `Token.IsShaped` — the shape of the tokens of a text;
* `Lexer.Shaped` — the registers that lead to such tokens, by the state and by the text still to be read;
* `Lexer.Shaped.step`, `Lexer.Shaped.run` — every turn and every run keeps them so, and hands out such tokens;
* `tokenize_shaped` — the tokens of any text.
-/

namespace HtmlQuery

open Text

/-! ## Shapes -/

/-- An attribute has a name as it can be read. -/
def Attribute.IsNamed (a : Attribute) : Prop := ∀ c ∈ a.name.toList, isNameChar c = true ∧ c ≠ '='

/-- The shape of the tokens in front of the end of a text. -/
def Token.IsShaped : Token → Prop
  | .startTag name _ attributes =>
    IsTagName name ∧ (∀ a ∈ attributes, a.IsNamed) ∧ (attributes.map Attribute.name).Nodup
  | .endTag name => IsTagName name
  | .comment data => ¬ "-->".toList <:+: data.toList
  | .character _ => True
  | .endOfFile => False

/-! ## Letters -/

theorem isUpper_iff {c : Char} : c.isUpper = true ↔ 65 ≤ c.toNat ∧ c.toNat ≤ 90 := decide_eq_true_iff

theorem isLower_iff {c : Char} : c.isLower = true ↔ 97 ≤ c.toNat ∧ c.toNat ≤ 122 :=
  Bool.and_eq_true_iff.trans (and_congr decide_eq_true_iff decide_eq_true_iff)

theorem isLower_toLower_of_isUpper {c : Char} (h : c.isUpper = true) : c.toLower.isLower = true := by
  have bounds := isUpper_iff.mp h
  have shifted : c.toLower.toNat = c.toNat + 32 := by
    have sum : c.toLower.val = c.val + 32 := congrArg Char.val (dif_pos (of_decide_eq_true h))
    calc c.toLower.toNat = (c.val + 32).toNat := congrArg UInt32.toNat sum
      _ = (c.toNat + 32) % 2 ^ 32 := UInt32.toNat_add ..
      _ = c.toNat + 32 := by omega
  rw [isLower_iff, shifted]
  omega

theorem isUpper_eq_false_of_isLower {c : Char} (h : c.isLower = true) : c.isUpper = false := by
  have bounds := isLower_iff.mp h
  rw [← Bool.not_eq_true, isUpper_iff]
  omega

theorem isLower_toLower_of_isAlpha {c : Char} (h : c.isAlpha = true) : c.toLower.isLower = true := by
  rcases (Bool.or_eq_true _ _).mp h with upper | lower
  · exact isLower_toLower_of_isUpper upper
  · rwa [toLower_of_isUpper_eq_false (isUpper_eq_false_of_isLower lower)]

/-- Letters in lower case belong into names. -/
theorem isNameChar_of_isLower {c : Char} (h : c.isLower = true) : isNameChar c = true := by
  have upper : c.isUpper = false := isUpper_eq_false_of_isLower h
  have same : c.toLower = c := toLower_of_isUpper_eq_false upper
  obtain ⟨-, blank, slash, close, -⟩ := of_isLower_toLower (same.symm ▸ h)
  simp [isNameChar, blank, slash, close, upper]

/-- A character that does not end a name is put into lower case. -/
theorem isNameChar_toLower {c : Char} (blank : isBlank c = false) (slash : c ≠ '/') (close : c ≠ '>') :
    isNameChar c.toLower = true := by
  cases upper : c.isUpper with
  | true => exact isNameChar_of_isLower (isLower_toLower_of_isUpper upper)
  | false =>
    rw [toLower_of_isUpper_eq_false upper]
    simp [isNameChar, blank, slash, close, upper]

theorem toLower_ne_equals {c : Char} (h : c ≠ '=') : c.toLower ≠ '=' := by
  cases upper : c.isUpper with
  | true =>
    intro eq
    exact absurd (isLower_toLower_of_isUpper upper) (by rw [eq]; decide)
  | false => rwa [toLower_of_isUpper_eq_false upper]

/-! ## Names -/

/-- A name is extended by one character. -/
theorem forall_mem_push {p : Char → Prop} {text : String} {c : Char} (h : ∀ d ∈ text.toList, p d) (hc : p c) :
    ∀ d ∈ (text.push c).toList, p d := by
  intro d hd
  rw [String.toList_push, List.mem_append, List.mem_singleton] at hd
  rcases hd with hd | rfl
  · exact h d hd
  · exact hc

theorem IsTagName.push {name : String} {c : Char} (h : IsTagName name) (hc : isNameChar c = true) :
    IsTagName (name.push c) := by
  refine ⟨?_, forall_mem_push h.chars hc⟩
  obtain ⟨first, hf, lower⟩ := (Option.any_eq_true _ _).mp h.first
  rw [String.toList_push, List.head?_append, hf]
  exact lower

/-- The letter that begins a tag begins its name. -/
theorem isTagName_push_empty {c : Char} (h : c.isAlpha = true) : IsTagName ("".push c.toLower) := by
  have lower := isLower_toLower_of_isAlpha h
  refine ⟨?_, forall_mem_push nofun (isNameChar_of_isLower lower)⟩
  rw [String.toList_push]
  exact lower

/-! ## Tags that are read -/

namespace Token

variable {token : Token} {loose : Bool} {c : Char}

/-- A tag that has begun. Its last attribute may have the name of an earlier one if it is `loose`. -/
def IsTag (loose : Bool) : Token → Prop
  | .startTag name _ attributes => IsTagName name ∧ (∀ a ∈ attributes, a.IsNamed) ∧
    ((if loose then attributes.dropLast else attributes).map Attribute.name).Nodup
  | .endTag name => IsTagName name
  | _ => False

namespace IsTag

theorem isShaped (h : token.IsTag false) : token.IsShaped := by
  cases token with
  | startTag | endTag => exact h
  | comment | character | endOfFile => exact h.elim

theorem pushName (h : token.IsTag loose) (hc : isNameChar c = true) : (token.pushName c).IsTag loose := by
  cases token with
  | startTag => exact ⟨h.1.push hc, h.2⟩
  | endTag => exact IsTagName.push h hc
  | comment | character | endOfFile => exact h.elim

theorem markSelfClosing (h : token.IsTag loose) : token.markSelfClosing.IsTag loose := by
  cases token with
  | startTag | endTag => exact h
  | comment | character | endOfFile => exact h.elim

/-- Another attribute begins without a name. -/
theorem addAttribute (h : token.IsTag false) : token.addAttribute.IsTag true := by
  cases token with
  | startTag name selfClosing attributes =>
    obtain ⟨hname, named, nodup⟩ := h
    refine ⟨hname, List.forall_mem_append.mpr ⟨named, List.forall_mem_singleton.mpr nofun⟩, ?_⟩
    rw [if_pos rfl, List.dropLast_concat]
    exact nodup
  | endTag => exact h
  | comment | character | endOfFile => exact h.elim

/-- The attribute that may repeat a name is removed. -/
theorem dropAttribute (h : token.IsTag true) : token.dropAttribute.IsTag false := by
  cases token with
  | startTag => exact ⟨h.1, fun a ha => h.2.1 a (List.mem_of_mem_dropLast ha), h.2.2⟩
  | endTag => exact h
  | comment | character | endOfFile => exact h.elim

/-- An attribute whose name has been found to be new stays. -/
theorem of_repeatsName_eq_false (h : token.IsTag true) (new : token.repeatsName = false) : token.IsTag false := by
  cases token with
  | startTag name selfClosing attributes =>
    obtain ⟨hname, named, nodup⟩ := h
    refine ⟨hname, named, ?_⟩
    rcases List.eq_nil_or_concat' attributes with rfl | ⟨earlier, a, rfl⟩
    · exact List.nodup_nil
    · simp only [repeatsName, List.getLast?_concat, List.dropLast_concat, List.any_eq_false, beq_iff_eq] at new
      rw [if_pos rfl, List.dropLast_concat] at nodup
      rw [if_neg Bool.false_ne_true, List.map_append, List.map_singleton, ← List.concat_eq_append]
      refine List.Nodup.concat (fun mem => ?_) nodup
      obtain ⟨b, hb, same⟩ := List.mem_map.mp mem
      exact new b hb same
  | endTag => exact h
  | comment | character | endOfFile => exact h.elim

/-- While its name grows, an attribute may repeat any other. -/
theorem pushAttributeName (h : token.IsTag true) (hc : isNameChar c = true) (equals : c ≠ '=') :
    (token.pushAttributeName c).IsTag true := by
  cases token with
  | startTag name selfClosing attributes =>
    rcases List.eq_nil_or_concat' attributes with rfl | ⟨earlier, a, rfl⟩
    · exact h
    · obtain ⟨hname, named, nodup⟩ := h
      rw [if_pos rfl, List.dropLast_concat] at nodup
      rw [Token.pushAttributeName, modifyLast_append]
      obtain ⟨others, last⟩ := List.forall_mem_append.mp named
      have grown : Attribute.IsNamed { a with name := a.name.push c } :=
        forall_mem_push (last a List.mem_cons_self) ⟨hc, equals⟩
      refine ⟨hname, List.forall_mem_append.mpr ⟨others, List.forall_mem_singleton.mpr grown⟩, ?_⟩
      rw [if_pos rfl, List.dropLast_concat]
      exact nodup
  | endTag => exact h
  | comment | character | endOfFile => exact h.elim

/-- Values are free. -/
theorem pushAttributeValue (h : token.IsTag loose) (c : Char) : (token.pushAttributeValue c).IsTag loose := by
  cases token with
  | startTag name selfClosing attributes =>
    rcases List.eq_nil_or_concat' attributes with rfl | ⟨earlier, a, rfl⟩
    · exact h
    · obtain ⟨hname, named, nodup⟩ := h
      rw [Token.pushAttributeValue, modifyLast_append]
      obtain ⟨others, last⟩ := List.forall_mem_append.mp named
      refine ⟨hname, List.forall_mem_append.mpr ⟨others, List.forall_mem_singleton.mpr (last a List.mem_cons_self)⟩, ?_⟩
      cases loose with
      | true | false => simpa using nodup
  | endTag => exact h
  | comment | character | endOfFile => exact h.elim

end IsTag

/-- A tag of which nothing has been read yet. -/
def IsNameless (token : Token) : Prop := token = emptyStartTag ∨ token = emptyEndTag

theorem IsNameless.pushName (h : token.IsNameless) (hc : c.isAlpha = true) (loose : Bool) :
    (token.pushName c.toLower).IsTag loose := by
  have name := isTagName_push_empty hc
  rcases h with rfl | rfl
  · refine ⟨name, nofun, ?_⟩
    cases loose <;> exact List.nodup_nil
  · exact name

/-! ## Comments that are read -/

/-- A comment with the property `p` of its data. -/
def IsComment (p : List Char → Prop) : Token → Prop
  | .comment data => p data.toList
  | _ => False

theorem IsComment.pushComment {p q : List Char → Prop} (h : token.IsComment p) (hc : ∀ data, p data → q (data ++ [c])) :
    (token.pushComment c).IsComment q := by
  cases token with
  | comment data =>
    rw [Token.pushComment, IsComment, String.toList_push]
    exact hc _ h
  | startTag | endTag | character | endOfFile => exact h.elim

theorem IsComment.isShaped {p : List Char → Prop} (h : token.IsComment p)
    (hp : ∀ data, p data → ¬ ['-', '-', '>'] <:+: data) : token.IsShaped := by
  cases token with
  | comment data => exact hp _ h
  | startTag | endTag | character | endOfFile => exact h.elim

end Token

/-- The end of a comment does not begin in its data, neither within it nor on the border to the text behind. -/
def GoesOn (data rest : List Char) : Prop := ∀ t, t <:+ data → t ≠ [] → ¬ ['-', '-', '>'] <+: t ++ rest

theorem goesOn_nil (rest : List Char) : GoesOn [] rest := fun _ ht ne => absurd (List.suffix_nil.mp ht) ne

theorem GoesOn.append {data rest : List Char} {c : Char} (h : GoesOn data (c :: rest))
    (hc : ¬ ['-', '-', '>'] <+: c :: rest) : GoesOn (data ++ [c]) rest := by
  intro t ht ne
  -- what ends the longer data is its last character, or has begun in the data before
  rcases List.suffix_concat_iff.mp ht with rfl | ⟨t, rfl, suffix⟩
  · exact absurd rfl ne
  · rw [List.append_assoc, List.singleton_append]
    by_cases first : t = []
    · rw [first]
      exact hc
    · exact h t suffix first

theorem GoesOn.not_infix {data rest : List Char} (h : GoesOn data rest) : ¬ ['-', '-', '>'] <:+: data := by
  intro inside
  obtain ⟨t, begins, ends⟩ := List.infix_iff_prefix_suffix.mp inside
  exact h t ends (begins.ne_nil (List.cons_ne_nil _ _)) (begins.trans (List.prefix_append _ _))

theorem not_infix_of_not_mem {data : List Char} (h : '>' ∉ data) : ¬ ['-', '-', '>'] <:+: data :=
  fun inside => h (inside.subset (by decide))

/-! ## Registers -/

namespace Lexer

variable {l : Lexer} {p q : Token → Prop} {c : Char} {cs rest : List Char} {out : Array Token}

/-- The token that is being read, if there is one, has the property `p`. -/
def Reads (l : Lexer) (p : Token → Prop) : Prop := ∀ token ∈ l.token, p token

theorem Reads.edit {f : Token → Token} (h : l.Reads p) (hf : ∀ token, p token → q (f token)) : (l.edit f).Reads q := by
  intro token mem
  obtain ⟨before, hb, rfl⟩ := Option.map_eq_some_iff.mp mem
  exact hf before (h before hb)

theorem reads_start {token : Token} (h : p token) (l : Lexer) (s : LexerState) : (l.start token s).Reads p := by
  rintro _ ⟨⟩
  exact h

theorem Reads.closeAttribute (h : l.Reads (Token.IsTag l.discarding)) : l.closeAttribute.Reads (Token.IsTag false) := by
  unfold Lexer.closeAttribute
  split
  case isTrue discarding =>
    rw [discarding] at h
    exact Reads.edit h fun _ tag => Token.IsTag.dropAttribute tag
  case isFalse discarding =>
    rw [Bool.not_eq_true] at discarding
    rwa [discarding] at h

theorem Reads.openAttribute (h : l.Reads (Token.IsTag l.discarding)) : l.openAttribute.Reads (Token.IsTag true) :=
  h.closeAttribute.edit fun _ tag => tag.addAttribute

/-- Where the name of an attribute ends, it is either new or known to repeat another one. -/
theorem Reads.checkName (h : l.Reads (Token.IsTag true)) : l.checkName.Reads (Token.IsTag l.checkName.discarding) := by
  unfold Lexer.checkName
  split
  case isTrue => exact h
  case isFalse new =>
    cases l.discarding with
    | true => exact h
    | false =>
      intro token mem
      refine (h token mem).of_repeatsName_eq_false ?_
      rw [Option.mem_def.mp mem, Option.any_some, Bool.not_eq_true] at new
      exact new

/-- The registers that lead to tokens of that shape, in front of the text `rest`. Where a tag has only begun, the first
letter of its name is still to be read. -/
def Shaped (l : Lexer) (rest : List Char) : Prop :=
  match l.state with
  | .data | .rawText | .tagOpen | .endTagOpen | .doctype => True
  | .comment => l.Reads (Token.IsComment (GoesOn · rest))
  | .bogusComment => l.Reads (Token.IsComment ('>' ∉ ·))
  | .tagName => l.Reads fun token => token.IsTag l.discarding ∨ token.IsNameless ∧ rest.head?.any Char.isAlpha = true
  | .attributeName => l.Reads (Token.IsTag true)
  | .beforeAttributeName | .afterAttributeName | .beforeAttributeValue | .quotedValue _ | .unquotedValue
  | .afterQuotedValue | .selfClosing => l.Reads (Token.IsTag l.discarding)

end Lexer

/-- A turn that hands out such a token, if any, and leaves such registers. -/
def Move.Shaped (m : Move) : Prop := (∀ token ∈ m.output, token.IsShaped) ∧ m.lexer.Shaped m.rest

namespace Lexer

variable {l : Lexer} {s : LexerState} {token : Option Token} {discarding : Bool} {last : Option String} {c : Char}
  {cs rest : List Char} {out : Array Token}

/-! ## Turns -/

theorem Reads.emitTag (h : l.Reads (Token.IsTag l.discarding)) (rest : List Char) : (l.emitTag rest).Shaped := by
  have handed : ∀ token ∈ l.closeAttribute.token, token.IsShaped := fun token mem =>
    (h.closeAttribute token mem).isShaped
  unfold Lexer.emitTag
  dsimp only
  split
  · refine ⟨handed, ?_⟩
    unfold emit
    dsimp only
    split <;> trivial
  · exact ⟨handed, trivial⟩

/-- A comment without its dashes begins. -/
theorem shaped_bogusComment (l : Lexer) (rest : List Char) :
    Move.Shaped ⟨l.start .emptyComment .bogusComment, none, rest⟩ := by
  have empty : Token.emptyComment.IsComment ('>' ∉ ·) := List.not_mem_nil
  exact ⟨nofun, reads_start empty l .bogusComment⟩

theorem shaped_declaration (l : Lexer) (rest : List Char) : (l.declaration rest).Shaped := by
  unfold declaration
  split
  · exact ⟨nofun, reads_start (goesOn_nil _) l .comment⟩
  · split
    · exact ⟨nofun, trivial⟩
    · exact shaped_bogusComment l rest

theorem shaped_character (hl : l.state = .data ∨ l.state = .rawText) (c : Char) (rest : List Char) :
    Move.Shaped ⟨l, some (.character c), rest⟩ := by
  refine ⟨?_, ?_⟩
  · rintro _ ⟨⟩
    trivial
  · unfold Shaped
    rcases hl with hl | hl <;> rw [hl] <;> trivial

namespace Shaped

theorem step_idle (hs : s.isIdle = true) (c : Char) (rest : List Char) :
    (Lexer.step ⟨s, token, discarding, last⟩ c rest).Shaped := by
  cases s <;> cases hs
  case data =>
    unfold Lexer.step
    dsimp only
    split_ifs
    · exact ⟨nofun, trivial⟩
    · exact shaped_character (.inl rfl) c rest
  case tagOpen =>
    unfold Lexer.step
    dsimp only
    split_ifs with mark slash alpha
    · exact shaped_declaration _ _
    · exact ⟨nofun, trivial⟩
    · exact ⟨nofun, reads_start (.inr ⟨.inl rfl, alpha⟩) _ .tagName⟩
    · exact shaped_bogusComment _ _
    · exact shaped_character (.inl rfl) '<' _
  case endTagOpen =>
    unfold Lexer.step
    dsimp only
    split_ifs with alpha
    · exact ⟨nofun, reads_start (.inr ⟨.inr rfl, alpha⟩) _ .tagName⟩
    · exact ⟨nofun, trivial⟩
    · exact shaped_bogusComment _ _
  case doctype =>
    unfold Lexer.step
    dsimp only
    split_ifs
    · exact ⟨nofun, trivial⟩
    · exact ⟨nofun, trivial⟩

/-- A comment has its shape all along. -/
theorem isShaped_of_inComment (hs : s.inComment = true) (h : Shaped ⟨s, token, discarding, last⟩ rest) :
    ∀ comment ∈ token, comment.IsShaped := by
  cases s <;> cases hs
  case comment =>
    have reads : Reads ⟨.comment, token, discarding, last⟩ (Token.IsComment (GoesOn · rest)) := h
    exact fun comment mem => (reads comment mem).isShaped fun _ => GoesOn.not_infix
  case bogusComment =>
    have reads : Reads ⟨.bogusComment, token, discarding, last⟩ (Token.IsComment ('>' ∉ ·)) := h
    exact fun comment mem => (reads comment mem).isShaped fun _ => not_infix_of_not_mem

theorem step_comment (hs : s.inComment = true) (h : Shaped ⟨s, token, discarding, last⟩ (c :: rest)) :
    (Lexer.step ⟨s, token, discarding, last⟩ c rest).Shaped := by
  have shaped := isShaped_of_inComment hs h
  cases s <;> cases hs
  case comment =>
    have reads : Reads ⟨.comment, token, discarding, last⟩ (Token.IsComment (GoesOn · (c :: rest))) := h
    rw [Lexer.step_comment rfl]
    split_ifs with ends
    · exact ⟨shaped, trivial⟩
    · have on : ¬ ['-', '-', '>'] <+: c :: rest := fun begins =>
        ends ((List.cons_prefix_cons.mp begins).imp_left Eq.symm)
      exact ⟨nofun, reads.edit fun _ comment => comment.pushComment fun _ goesOn => goesOn.append on⟩
  case bogusComment =>
    have reads : Reads ⟨.bogusComment, token, discarding, last⟩ (Token.IsComment ('>' ∉ ·)) := h
    unfold Lexer.step
    dsimp only
    split_ifs with close
    · exact ⟨shaped, trivial⟩
    · refine ⟨nofun, reads.edit fun _ comment => comment.pushComment fun data free => ?_⟩
      exact fun mem => (List.mem_append.mp mem).elim free fun last => close (List.mem_singleton.mp last).symm

theorem step_tagName (h : Shaped ⟨.tagName, token, discarding, last⟩ (c :: rest)) :
    (Lexer.step ⟨.tagName, token, discarding, last⟩ c rest).Shaped := by
  have reads : Reads ⟨.tagName, token, discarding, last⟩ fun token =>
    token.IsTag discarding ∨ token.IsNameless ∧ c.isAlpha = true := h
  -- what ends a name is no letter
  have named (ends : isBlank c = true ∨ c = '/' ∨ c = '>') :
      Reads ⟨.tagName, token, discarding, last⟩ (Token.IsTag discarding) := by
    intro token mem
    refine (reads token mem).resolve_right fun nameless => ?_
    obtain ⟨-, blank, slash, close, -⟩ := of_isLower_toLower (isLower_toLower_of_isAlpha nameless.2)
    rcases ends with ends | ends | ends
    · exact Bool.false_ne_true (blank.symm.trans ends)
    · exact slash ends
    · exact close ends
  unfold Lexer.step
  dsimp only
  split_ifs with blank slash close
  · exact ⟨nofun, named (.inl blank)⟩
  · exact ⟨nofun, named (.inr (.inl slash))⟩
  · exact (named (.inr (.inr close))).emitTag rest
  · rw [Bool.not_eq_true] at blank
    refine ⟨nofun, reads.edit fun token either => .inl ?_⟩
    rcases either with tag | ⟨nameless, alpha⟩
    · exact tag.pushName (isNameChar_toLower blank slash close)
    · exact nameless.pushName alpha discarding

theorem step_attributeName (h : Shaped ⟨.attributeName, token, discarding, last⟩ (c :: rest)) :
    (Lexer.step ⟨.attributeName, token, discarding, last⟩ c rest).Shaped := by
  have reads : Reads ⟨.attributeName, token, discarding, last⟩ (Token.IsTag true) := h
  unfold Lexer.step
  dsimp only
  split_ifs with ends equals
  · exact ⟨nofun, reads.checkName⟩
  · exact ⟨nofun, reads.checkName⟩
  · simp only [not_or, Bool.not_eq_true] at ends
    obtain ⟨blank, slash, close⟩ := ends
    exact ⟨nofun, reads.edit fun _ tag => tag.pushAttributeName (isNameChar_toLower blank slash close)
      (toLower_ne_equals equals)⟩

/-- Behind a name the tag has its shape, but for the attribute that is to be removed. -/
theorem step_behindName (hs : s.inTag = true) (ht : s ≠ .tagName) (ha : s ≠ .attributeName)
    (h : Reads ⟨s, token, discarding, last⟩ (Token.IsTag discarding)) :
    (Lexer.step ⟨s, token, discarding, last⟩ c rest).Shaped := by
  cases s <;> cases hs
  case tagName => exact absurd rfl ht
  case attributeName => exact absurd rfl ha
  case beforeAttributeName =>
    unfold Lexer.step
    dsimp only
    split_ifs
    · exact ⟨nofun, h⟩
    · exact ⟨nofun, h⟩
    · exact ⟨nofun, h.openAttribute⟩
  case afterAttributeName =>
    unfold Lexer.step
    dsimp only
    split_ifs
    · exact ⟨nofun, h⟩
    · exact ⟨nofun, h⟩
    · exact ⟨nofun, h⟩
    · exact h.emitTag rest
    · exact ⟨nofun, h.openAttribute⟩
  case beforeAttributeValue =>
    unfold Lexer.step
    dsimp only
    split_ifs
    · exact ⟨nofun, h⟩
    · exact ⟨nofun, h⟩
    · exact ⟨nofun, h⟩
    · exact h.emitTag rest
    · exact ⟨nofun, h⟩
  case quotedValue quote =>
    unfold Lexer.step
    dsimp only
    split_ifs
    · exact ⟨nofun, h⟩
    · exact ⟨nofun, h.edit fun _ tag => tag.pushAttributeValue c⟩
  case unquotedValue =>
    unfold Lexer.step
    dsimp only
    split_ifs
    · exact ⟨nofun, h⟩
    · exact h.emitTag rest
    · exact ⟨nofun, h.edit fun _ tag => tag.pushAttributeValue c⟩
  case afterQuotedValue =>
    unfold Lexer.step
    dsimp only
    split_ifs
    · exact ⟨nofun, h⟩
    · exact ⟨nofun, h⟩
    · exact h.emitTag rest
    · exact ⟨nofun, h⟩
  case selfClosing =>
    unfold Lexer.step
    dsimp only
    split_ifs
    · exact Reads.emitTag (h.edit fun _ tag => tag.markSelfClosing) rest
    · exact ⟨nofun, h⟩

/-- **Every turn keeps the shapes.** -/
theorem step (h : l.Shaped (c :: rest)) : (l.step c rest).Shaped := by
  obtain ⟨s, token, discarding, last⟩ := l
  cases s with
  | data | tagOpen | endTagOpen | doctype => exact step_idle rfl c rest
  | rawText =>
    unfold Lexer.step
    dsimp only
    split_ifs
    · exact ⟨nofun, trivial⟩
    · exact shaped_character (.inr rfl) c rest
  | comment | bogusComment => exact step_comment rfl h
  | tagName => exact step_tagName h
  | attributeName => exact step_attributeName h
  | beforeAttributeName | afterAttributeName | beforeAttributeValue | quotedValue | unquotedValue | afterQuotedValue
  | selfClosing => exact step_behindName rfl nofun nofun h

/-! ## Runs -/

/-- **Every run keeps the shapes.** -/
theorem run (h : l.Shaped cs) (hout : ∀ token ∈ out, token.IsShaped) :
    (run l cs out).1.Shaped [] ∧ ∀ token ∈ (Lexer.run l cs out).2, token.IsShaped := by
  fun_induction Lexer.run l cs out with
  | case1 => exact ⟨h, hout⟩
  | case2 l out c rest move ih =>
    refine ih h.step.2 fun token mem => ?_
    rcases Array.mem_append.mp mem with mem | mem
    · exact hout token mem
    · exact h.step.1 token (Option.mem_toArray.mp mem)

theorem leftover (h : l.Shaped []) : ∀ token ∈ l.leftover, token.IsShaped := by
  obtain ⟨s, token, discarding, last⟩ := l
  cases s with
  | tagOpen =>
    rintro _ ⟨⟩
    trivial
  | comment | bogusComment => exact isShaped_of_inComment rfl h
  | _ => nofun

end Shaped

end Lexer

/-! ## Texts -/

/-- What is read in front of the end of a text has that shape. -/
theorem Lexer.isShaped_of_mem_run (s : String) :
    ∀ token ∈ (Lexer.run {} s.toList #[]).2.toList ++ (Lexer.run {} s.toList #[]).1.leftover.toList,
      token.IsShaped := by
  have begins : Lexer.Shaped {} s.toList := trivial
  have nothing : ∀ token ∈ (#[] : Array Token), token.IsShaped := nofun
  obtain ⟨behind, read⟩ := begins.run nothing
  refine List.forall_mem_append.mpr ⟨fun token mem => read token (Array.mem_toList_iff.mp mem), fun token mem => ?_⟩
  exact behind.leftover token (Option.mem_toList.mp mem)

theorem isShaped_of_mem_tokenize {s : String} {token : Token} (h : token ∈ tokenize s) (inside : token ≠ .endOfFile) :
    token.IsShaped := by
  rcases List.mem_append.mp h with front | last
  · exact Lexer.isShaped_of_mem_run s token front
  · exact absurd (List.mem_singleton.mp last) inside

/-- **The tokens of any text** have that shape, and then comes the end of the text and nothing else. -/
theorem tokenize_shaped (s : String) : ∃ tokens, tokenize s = tokens ++ [.endOfFile] ∧ .endOfFile ∉ tokens ∧
    ∀ token ∈ tokens, token.IsShaped := by
  have shaped := Lexer.isShaped_of_mem_run s
  exact ⟨_, rfl, fun mem => shaped _ mem, shaped⟩

end HtmlQuery
