import HtmlQuery.Markup.Lexer
import Mathlib.Data.List.Basic
import Mathlib.Tactic.SplitIfs

/-!
# The registers of the lexer

The state of the lexer says what its registers hold. Between tokens they are empty, in a tag they hold the tag and in a
comment the comment; an attribute that is being read is the last one of its tag; the attribute that is to be removed
repeats an earlier name; and raw text stands behind the start tag of a raw text element.

* `Lexer.Fits` — the registers that occur, by what is being read and by the text still to be read;
* `Lexer.Fits.step`, `Lexer.Fits.run` — every turn and every run keeps them so.
-/

namespace HtmlQuery

open Text

namespace LexerState

/-- Nothing is being read that will be a token. -/
def isIdle : LexerState → Bool
  | .data | .tagOpen | .endTagOpen | .doctype => true
  | _ => false

def inComment : LexerState → Bool
  | .comment | .bogusComment => true
  | _ => false

def inTag : LexerState → Bool
  | .tagName | .beforeAttributeName | .attributeName | .afterAttributeName | .beforeAttributeValue | .quotedValue _
  | .unquotedValue | .afterQuotedValue | .selfClosing => true
  | _ => false

/-- The name or the value of an attribute is being read, or the text `rest` may still give it a value. A tag without
attributes passes through the state behind a name as well, but only at a character that leads out of it again. -/
def needsAttribute : LexerState → (rest : List Char) → Bool
  | .attributeName, _ | .beforeAttributeValue, _ | .quotedValue _, _ | .unquotedValue, _ => true
  | .afterAttributeName, '/' :: _ | .afterAttributeName, '>' :: _ => false
  | .afterAttributeName, _ => true
  | _, _ => false

theorem needsAttribute_afterAttributeName {c : Char} (h : c ≠ '/') (h' : c ≠ '>') (rest : List Char) :
    needsAttribute .afterAttributeName (c :: rest) = true := by
  unfold needsAttribute
  split <;> simp_all

end LexerState

/-! ## Changes of a tag -/

theorem modifyLast_ne_nil {α : Type} (f : α → α) {xs : List α} (h : xs ≠ []) : modifyLast f xs ≠ [] := by
  obtain ⟨ys, y, rfl⟩ := (List.eq_nil_or_concat' xs).resolve_left h
  rw [modifyLast_append]
  exact List.append_ne_nil_of_right_ne_nil _ (List.cons_ne_nil _ _)

namespace Token

/-- Only the names of attributes can be repetitions. -/
theorem repeatsName_pushAttributeValue (c : Char) (token : Token) :
    (token.pushAttributeValue c).repeatsName = token.repeatsName := by
  cases token with
  | startTag name selfClosing attributes =>
    rcases List.eq_nil_or_concat' attributes with rfl | ⟨earlier, a, rfl⟩
    · rfl
    · rw [pushAttributeValue, modifyLast_append]
      simp only [repeatsName, List.getLast?_concat, List.dropLast_concat]
  | endTag | comment | character | endOfFile => rfl

/-- What a tag is like while it is read. An attribute that is needed is there, and one that is to be removed has its
name already and repeats an earlier one. End tags keep no attributes. -/
def IsTagIn (s : LexerState) (rest : List Char) (discarding : Bool) : Token → Prop
  | .startTag name selfClosing attributes => (s.needsAttribute rest = true → attributes ≠ []) ∧
    (discarding = true → s ≠ .attributeName ∧ (startTag name selfClosing attributes).repeatsName = true)
  | .endTag _ => discarding = false
  | _ => False

namespace IsTagIn

variable {s t : LexerState} {rest rest' : List Char} {token : Token} {discarding : Bool}

/-- An attribute that is there stays there. -/
theorem goto (h : token.IsTagIn s rest discarding)
    (needs : t.needsAttribute rest' = true → s.needsAttribute rest = true) (ht : t ≠ .attributeName) :
    token.IsTagIn t rest' discarding := by
  cases token with
  | startTag => exact ⟨fun ha => h.1 (needs ha), fun hd => ⟨ht, (h.2 hd).2⟩⟩
  | endTag | comment | character | endOfFile => exact h

theorem pushName (h : token.IsTagIn .tagName rest discarding) (c : Char) (rest' : List Char) :
    (token.pushName c).IsTagIn .tagName rest' discarding := by
  cases token with
  | startTag => exact ⟨nofun, h.2⟩
  | endTag | comment | character | endOfFile => exact h

theorem markSelfClosing (h : token.IsTagIn s rest discarding) : token.markSelfClosing.IsTagIn s rest discarding := by
  cases token with
  | startTag | endTag | comment | character | endOfFile => exact h

theorem pushAttributeName (h : token.IsTagIn .attributeName rest discarding) (c : Char) (rest' : List Char) :
    (token.pushAttributeName c).IsTagIn .attributeName rest' discarding := by
  cases token with
  | startTag => exact ⟨fun _ => modifyLast_ne_nil _ (h.1 rfl), fun hd => absurd rfl (h.2 hd).1⟩
  | endTag | comment | character | endOfFile => exact h

theorem pushAttributeValue (h : token.IsTagIn s rest discarding) (c : Char) :
    (token.pushAttributeValue c).IsTagIn s rest discarding := by
  cases token with
  | startTag =>
    refine ⟨fun ha => modifyLast_ne_nil _ (h.1 ha), fun hd => ⟨(h.2 hd).1, ?_⟩⟩
    exact (repeatsName_pushAttributeValue c _).trans (h.2 hd).2
  | endTag | comment | character | endOfFile => exact h

end IsTagIn

end Token

namespace Lexer

/-- The registers that occur in front of the text `rest`. -/
inductive Fits : Lexer → (rest : List Char) → Prop
  | idle {s : LexerState} {last : Option String} {rest : List Char} (hs : s.isIdle = true) :
    Fits ⟨s, none, false, last⟩ rest
  | rawText {name : String} {rest : List Char} (raw : isRawTextName name = true) :
    Fits ⟨.rawText, none, false, some name⟩ rest
  | comment {s : LexerState} {data : String} {last : Option String} {rest : List Char} (hs : s.inComment = true) :
    Fits ⟨s, some (.comment data), false, last⟩ rest
  | tag {s : LexerState} {token : Token} {discarding : Bool} {last : Option String} {rest : List Char}
    (hs : s.inTag = true) (h : token.IsTagIn s rest discarding) : Fits ⟨s, some token, discarding, last⟩ rest

variable {l : Lexer} {s t : LexerState} {token : Token} {discarding : Bool} {last : Option String} {data : String}
  {cs rest : List Char}

namespace Fits

theorem openAttribute (h : token.IsTagIn s cs discarding) (rest : List Char) :
    ((openAttribute ⟨s, some token, discarding, last⟩).goto .attributeName).Fits rest := by
  cases token with
  | startTag name selfClosing attributes =>
    cases discarding with
    | true | false => exact .tag rfl ⟨fun _ => List.append_ne_nil_of_right_ne_nil _ (List.cons_ne_nil _ _), nofun⟩
  | endTag name =>
    cases h
    exact .tag rfl rfl
  | comment | character | endOfFile => exact h.elim

theorem checkName (h : token.IsTagIn .attributeName cs discarding) (ht : t.inTag = true) (hn : t ≠ .attributeName)
    (rest : List Char) : ((checkName ⟨.attributeName, some token, discarding, last⟩).goto t).Fits rest := by
  cases token with
  | startTag name selfClosing attributes =>
    unfold Lexer.checkName
    split
    case isTrue repeats => exact .tag ht ⟨fun _ => h.1 rfl, fun _ => ⟨hn, repeats⟩⟩
    case isFalse => exact .tag ht (h.goto (fun _ => rfl) hn)
  | endTag name => exact .tag ht (h.goto (fun _ => rfl) hn)
  | comment | character | endOfFile => exact h.elim

theorem emitTag (h : token.IsTagIn s cs discarding) (rest : List Char) :
    (emitTag ⟨s, some token, discarding, last⟩ rest).lexer.Fits
      (emitTag ⟨s, some token, discarding, last⟩ rest).rest := by
  rw [emitTag_rest]
  cases token with
  | startTag name selfClosing attributes =>
    have handed : Fits ⟨if isRawTextName name then .rawText else .data, none, false, some name⟩ rest := by
      split
      case isTrue raw => exact .rawText raw
      case isFalse => exact .idle rfl
    cases discarding with
    | true | false => exact handed
  | endTag name =>
    cases h
    exact .idle rfl
  | comment | character | endOfFile => exact h.elim

/-! ## Turns -/

theorem step_idle (hs : s.isIdle = true) (c : Char) (rest : List Char) :
    (step ⟨s, none, false, last⟩ c rest).lexer.Fits (step ⟨s, none, false, last⟩ c rest).rest := by
  cases s <;> cases hs
  case data =>
    unfold Lexer.step
    dsimp only
    split_ifs
    · exact .idle rfl
    · exact .idle rfl
  case tagOpen =>
    unfold Lexer.step
    dsimp only
    split_ifs
    · unfold declaration
      split
      · exact .comment rfl
      · split
        · exact .idle rfl
        · exact .comment rfl
    · exact .idle rfl
    · exact .tag rfl ⟨nofun, nofun⟩
    · exact .comment rfl
    · exact .idle rfl
  case endTagOpen =>
    unfold Lexer.step
    dsimp only
    split_ifs
    · exact .tag rfl rfl
    · exact .idle rfl
    · exact .comment rfl
  case doctype =>
    unfold Lexer.step
    dsimp only
    split_ifs
    · exact .idle rfl
    · exact .idle rfl

theorem step_comment (hs : s.inComment = true) (c : Char) (rest : List Char) :
    (step ⟨s, some (.comment data), false, last⟩ c rest).lexer.Fits
      (step ⟨s, some (.comment data), false, last⟩ c rest).rest := by
  cases s <;> cases hs
  case bogusComment =>
    unfold Lexer.step
    dsimp only
    split_ifs
    · exact .idle rfl
    · exact .comment rfl
  case comment =>
    unfold Lexer.step
    dsimp only
    split
    · exact .idle rfl
    · exact .comment rfl

theorem step_tag (hs : s.inTag = true) (c : Char) (rest : List Char) (h : token.IsTagIn s (c :: rest) discarding) :
    (step ⟨s, some token, discarding, last⟩ c rest).lexer.Fits
      (step ⟨s, some token, discarding, last⟩ c rest).rest := by
  cases s <;> cases hs
  case tagName =>
    unfold Lexer.step
    dsimp only
    split_ifs
    · exact .tag rfl (h.goto nofun nofun)
    · exact .tag rfl (h.goto nofun nofun)
    · exact .emitTag h rest
    · exact .tag rfl (h.pushName _ rest)
  case beforeAttributeName =>
    unfold Lexer.step
    dsimp only
    split_ifs with blank ends
    · exact .tag rfl (h.goto nofun nofun)
    · refine .tag rfl (h.goto (fun needs => ?_) nofun)
      rcases ends with rfl | rfl
      · cases needs
      · cases needs
    · exact .openAttribute h _
  case attributeName =>
    unfold Lexer.step
    dsimp only
    split_ifs
    · exact .checkName h (t := .afterAttributeName) rfl nofun _
    · exact .checkName h (t := .beforeAttributeValue) rfl nofun _
    · exact .tag rfl (h.pushAttributeName _ _)
  case afterAttributeName =>
    unfold Lexer.step
    dsimp only
    split_ifs with blank slash equals close
    · have ne (d : Char) (hd : isBlank d = false) : c ≠ d := fun eq => Bool.false_ne_true (hd.symm.trans (eq ▸ blank))
      have needs := LexerState.needsAttribute_afterAttributeName (ne '/' (by decide)) (ne '>' (by decide)) rest
      exact .tag rfl (h.goto (fun _ => needs) nofun)
    · exact .tag rfl (h.goto nofun nofun)
    · subst equals
      exact .tag rfl (h.goto (fun _ => rfl) nofun)
    · exact .emitTag h rest
    · exact .openAttribute h _
  case beforeAttributeValue =>
    unfold Lexer.step
    dsimp only
    split_ifs
    · exact .tag rfl (h.goto (fun _ => rfl) nofun)
    · exact .tag rfl (h.goto (fun _ => rfl) nofun)
    · exact .tag rfl (h.goto (fun _ => rfl) nofun)
    · exact .emitTag h rest
    · exact .tag rfl (h.goto (fun _ => rfl) nofun)
  case quotedValue quote =>
    have behind : token.IsTagIn (.quotedValue quote) rest discarding := h.goto (fun _ => rfl) nofun
    unfold Lexer.step
    dsimp only
    split_ifs
    · exact .tag rfl (h.goto nofun nofun)
    · exact .tag rfl (behind.pushAttributeValue c)
  case unquotedValue =>
    have behind : token.IsTagIn .unquotedValue rest discarding := h.goto (fun _ => rfl) nofun
    unfold Lexer.step
    dsimp only
    split_ifs
    · exact .tag rfl (h.goto nofun nofun)
    · exact .emitTag h rest
    · exact .tag rfl (behind.pushAttributeValue c)
  case afterQuotedValue =>
    unfold Lexer.step
    dsimp only
    split_ifs
    · exact .tag rfl (h.goto nofun nofun)
    · exact .tag rfl (h.goto nofun nofun)
    · exact .emitTag h rest
    · exact .tag rfl (h.goto nofun nofun)
  case selfClosing =>
    unfold Lexer.step
    dsimp only
    split_ifs
    · exact .emitTag h.markSelfClosing rest
    · exact .tag rfl (h.goto nofun nofun)

/-- **Every turn leaves registers that fit.** -/
theorem step {c : Char} (h : l.Fits (c :: rest)) : (l.step c rest).lexer.Fits (l.step c rest).rest := by
  cases h with
  | idle hs => exact step_idle hs c rest
  | rawText raw =>
    unfold Lexer.step
    dsimp only
    split_ifs
    · exact .idle rfl
    · exact .rawText raw
  | comment hs => exact step_comment hs c rest
  | tag hs h => exact step_tag hs c rest h

/-- Every run leaves registers that fit. -/
theorem run (h : l.Fits cs) (out : Array Token) : (run l cs out).1.Fits [] := by
  fun_induction Lexer.run l cs out with
  | case1 => exact h
  | case2 l out c rest move ih => exact ih h.step

theorem initial (cs : List Char) : Fits {} cs := .idle rfl

end Fits

end Lexer

end HtmlQuery
