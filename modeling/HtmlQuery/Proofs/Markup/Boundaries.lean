import HtmlQuery.Proofs.Markup.Registers
import HtmlQuery.Proofs.Markup.TokenMarkup

/-!
# Texts in two parts

Where the lexer is between tokens at the end of a text, it reads the text behind it as if that stood alone. The lexer
looks ahead in three states, and wherever the text behind could change what it sees, it is in the middle of a comment, a
tag or raw text when the first text ends. The registers are empty between tokens but for the name of the last start
tag, which is of use in raw text only and is written again before there is any.

* `Lexer.step_append` — a turn does not depend on text behind a boundary;
* `Lexer.run_append` — neither does a run up to the boundary;
* `Lexer.Alike` — registers that only differ in a name of no use;
* `Lexer.tokens` — the tokens from given registers on;
* `tokenize_append` — the tokens of a text in two parts.
-/

namespace HtmlQuery

open Text

/-! ## Words -/

/-- A word is there if it stands at the front in any case of its letters. -/
theorem dropWord?_eq_some_iff : ∀ {word cs rest : List Char}, dropWord? word cs = some rest ↔
    ∃ front, foldCase front = foldCase word ∧ cs = front ++ rest
  | [], cs, rest => by
    rw [dropWord?, Option.some_inj]
    refine ⟨fun eq => ⟨[], rfl, eq⟩, ?_⟩
    rintro ⟨front, nothing, rfl⟩
    rw [List.map_eq_nil_iff.mp nothing, List.nil_append]
  | w :: word, [], rest => by
    refine iff_of_false (Option.some_ne_none rest).symm ?_
    rintro ⟨front, same, eq⟩
    rw [(List.append_eq_nil_iff.mp eq.symm).1] at same
    cases same
  | w :: word, c :: cs, rest => by
    rw [dropWord?]
    split
    case isTrue same =>
      rw [dropWord?_eq_some_iff]
      constructor
      · rintro ⟨front, eq, rfl⟩
        exact ⟨c :: front, congrArg₂ List.cons same.symm eq, rfl⟩
      · rintro ⟨_ | ⟨d, front⟩, eq, text⟩
        · cases eq
        · obtain ⟨rfl, rfl⟩ := List.cons.inj text
          exact ⟨front, (List.cons.inj eq).2, rfl⟩
    case isFalse other =>
      refine iff_of_false (Option.some_ne_none rest).symm ?_
      rintro ⟨_ | ⟨d, front⟩, eq, text⟩
      · cases eq
      · obtain ⟨rfl, -⟩ := List.cons.inj text
        exact other (List.cons.inj eq).1.symm

/-- A word that is there is there whatever follows. -/
theorem dropWord?_append {word cs rest : List Char} (h : dropWord? word cs = some rest) (more : List Char) :
    dropWord? word (cs ++ more) = some (rest ++ more) := by
  obtain ⟨front, same, rfl⟩ := dropWord?_eq_some_iff.mp h
  exact dropWord?_eq_some_iff.mpr ⟨front, same, List.append_assoc _ _ _⟩

/-- A word that is not there cannot be there either if more follows, unless the text is only its beginning. -/
theorem dropWord?_append_of_none : ∀ {word cs : List Char}, dropWord? word cs = none → ∀ more : List Char,
    dropWord? word (cs ++ more) = none ∨ ∀ c ∈ cs, c.toLower ∈ foldCase word
  | [], _, h, _ => by cases h
  | _ :: _, [], _, _ => .inr nofun
  | w :: word, c :: cs, h, more => by
    rw [List.cons_append, dropWord?]
    rw [dropWord?] at h
    split_ifs at h ⊢ with same
    · rcases dropWord?_append_of_none h more with never | beginning
      · exact .inl never
      · refine .inr (List.forall_mem_cons.mpr ⟨?_, fun d hd => List.mem_cons_of_mem _ (beginning d hd)⟩)
        rw [← same]
        exact List.mem_cons_self
    · exact .inl rfl

/-- A text that is a word up to the case of its letters is made of these letters. -/
theorem mem_foldCase_of_dropWord?_eq_nil {word cs : List Char} (h : dropWord? word cs = some []) :
    ∀ c ∈ cs, c.toLower ∈ foldCase word := by
  obtain ⟨front, same, rfl⟩ := dropWord?_eq_some_iff.mp h
  rw [List.append_nil, ← same]
  exact fun c hc => List.mem_map_of_mem hc

/-- A letter is not a character with a meaning of its own. -/
theorem of_isLower_toLower {c : Char} (h : c.toLower.isLower = true) :
    c.isAlpha = true ∧ isBlank c = false ∧ c ≠ '/' ∧ c ≠ '>' ∧ c ≠ '<' := by
  have alpha : (c.isUpper || c.isLower) = true := by
    cases upper : c.isUpper with
    | true => rfl
    | false =>
      rw [toLower_of_isUpper_eq_false upper] at h
      exact h
  have ne (d : Char) (hd : d.isAlpha = false) : c ≠ d := fun eq => Bool.false_ne_true (hd.symm.trans (eq ▸ alpha))
  refine ⟨alpha, ?_, ne '/' (by decide), ne '>' (by decide), ne '<' (by decide)⟩
  simp only [isBlank, Bool.or_eq_false_iff, beq_eq_false_iff_ne]
  exact ⟨⟨⟨⟨ne _ (by decide), ne _ (by decide)⟩, ne _ (by decide)⟩, ne _ (by decide)⟩, ne _ (by decide)⟩

/-- The names of raw text elements are rows of letters in lower case. -/
theorem isLower_of_isRawTextName {name : String} (h : isRawTextName name = true) :
    ∀ c ∈ name.toList, c.isLower = true ∧ c.toLower = c := by
  have letters : (["script", "style", "textarea", "title", "xmp"].all fun name =>
      name.toList.all fun c => c.isLower && c.toLower == c) = true := by decide
  intro c hc
  have letter := List.all_eq_true.mp (List.all_eq_true.mp letters name (List.contains_iff_mem.mp h)) c hc
  exact ((Bool.and_eq_true _ _).mp letter).imp_right eq_of_beq

theorem isLower_of_mem_foldCase {name : String} (h : isRawTextName name = true) {c : Char}
    (hc : c ∈ foldCase name.toList) : c.isLower = true := by
  obtain ⟨d, hd, rfl⟩ := List.mem_map.mp hc
  obtain ⟨lower, same⟩ := isLower_of_isRawTextName h d hd
  rw [same, lower]

/-- The same turn with more text behind. -/
def Move.append (m : Move) (more : List Char) : Move := { m with rest := m.rest ++ more }

namespace Lexer

variable {l l' : Lexer} {s : LexerState} {c : Char} {cs rest : List Char} {out : Array Token}

/-! ## Runs that stay in a state -/

theorem run_cons (l : Lexer) (c : Char) (rest : List Char) (out : Array Token) :
    run l (c :: rest) out = run (l.step c rest).lexer (l.step c rest).rest (out ++ (l.step c rest).output.toArray) := by
  rw [run]

/-- The text is read to its end in the state `s` if `s` takes all of its characters and stays. -/
theorem state_run (h : ∀ c ∈ cs, ∀ (l : Lexer) (rest : List Char), l.state = s →
      (l.step c rest).lexer.state = s ∧ (l.step c rest).rest = rest) (hl : l.state = s) :
    (run l cs out).1.state = s := by
  induction cs generalizing l out with
  | nil =>
    rw [run]
    exact hl
  | cons c cs ih =>
    obtain ⟨same, taken⟩ := h c List.mem_cons_self l cs hl
    rw [run_cons, taken]
    exact ih (fun d hd => h d (List.mem_cons_of_mem _ hd)) same

theorem state_run_bogusComment (h : '>' ∉ cs) (hl : l.state = .bogusComment) :
    (run l cs out).1.state = .bogusComment := by
  refine state_run (fun c hc l rest hl => ?_) hl
  have inside : c ≠ '>' := fun eq => h (eq ▸ hc)
  simp [step, hl, inside, edit]

theorem state_run_rawText (h : '<' ∉ cs) (hl : l.state = .rawText) : (run l cs out).1.state = .rawText := by
  refine state_run (fun c hc l rest hl => ?_) hl
  have inside : ¬ (c = '<' ∧ l.endTagFollows rest = true) := fun both => h (both.1 ▸ hc)
  simp [step, hl, inside]

theorem state_run_tagName (h : ∀ c ∈ cs, c.toLower.isLower = true) (hl : l.state = .tagName) :
    (run l cs out).1.state = .tagName := by
  refine state_run (fun c hc l rest hl => ?_) hl
  obtain ⟨-, blank, slash, close, -⟩ := of_isLower_toLower (h c hc)
  simp [step, hl, blank, slash, close, edit]

/-! ## Looking ahead -/

theorem emitTag_append (l : Lexer) (rest more : List Char) : l.emitTag (rest ++ more) = (l.emitTag rest).append more := by
  simp only [emitTag]
  split <;> rfl

/-- Most states look at one character only. -/
theorem step_append_of_ne (hr : l.state ≠ .rawText) (ho : l.state ≠ .tagOpen) (hc : l.state ≠ .comment)
    (c : Char) (rest more : List Char) : l.step c (rest ++ more) = (l.step c rest).append more := by
  unfold step
  cases hs : l.state <;> dsimp only
  case rawText => exact absurd hs hr
  case tagOpen => exact absurd hs ho
  case comment => exact absurd hs hc
  all_goals split_ifs <;> first | rfl | exact emitTag_append _ _ _

/-- A comment ends at two dashes and a bracket. -/
theorem step_comment (hl : l.state = .comment) (c : Char) (rest : List Char) : l.step c rest =
    if c = '-' ∧ ['-', '>'] <+: rest then l.emit .data (rest.drop 2)
    else ⟨l.edit (Token.pushComment c), none, rest⟩ := by
  simp only [step, hl]
  split
  case h_1 rest => exact (if_pos ⟨rfl, ⟨rest, rfl⟩⟩).symm
  case h_2 other =>
    refine (if_neg ?_).symm
    rintro ⟨rfl, ⟨behind, rfl⟩⟩
    exact other behind rfl rfl

theorem state_run_comment : ∀ {cs : List Char} {l : Lexer} {out : Array Token}, cs.length < 3 → l.state = .comment →
    (run l cs out).1.state = .comment
  | [], l, out, _, hl => by
    rw [run]
    exact hl
  | c :: rest, l, out, short, hl => by
    have inside : ¬ (c = '-' ∧ ['-', '>'] <+: rest) := fun ends => by
      have long := ends.2.length_le
      simp only [List.length_cons, List.length_nil] at short long
      omega
    rw [run_cons, step_comment hl, if_neg inside]
    exact state_run_comment (Nat.lt_of_succ_lt short) hl

/-- Whether a comment ends is seen before its end. -/
theorem step_comment_append (hl : l.state = .comment) (ends : (run l (c :: rest) out).1.state ≠ .comment)
    (more : List Char) : l.step c (rest ++ more) = (l.step c rest).append more := by
  have long : 2 ≤ rest.length := by
    by_contra short
    exact ends (state_run_comment (by rw [List.length_cons]; omega) hl)
  have seen : ['-', '>'] <+: rest ++ more ↔ ['-', '>'] <+: rest :=
    ⟨fun h => List.prefix_of_prefix_length_le h (List.prefix_append rest more) long,
      fun h => h.trans (List.prefix_append rest more)⟩
  simp only [step_comment hl, seen, List.drop_append_of_le_length long]
  split_ifs <;> rfl

/-- Whether two dashes or the word for a document type follow is seen before any `>` behind them. -/
theorem declaration_append
    (close : l.declaration rest = ⟨l.start .emptyComment .bogusComment, none, rest⟩ → '>' ∈ rest) (more : List Char) :
    l.declaration (rest ++ more) = (l.declaration rest).append more := by
  by_cases dashes : ∃ behind, rest = '-' :: '-' :: behind
  · obtain ⟨behind, rfl⟩ := dashes
    rfl
  have other {cs : List Char} (h : ¬ ∃ behind, cs = '-' :: '-' :: behind) : l.declaration cs =
      (dropWord? "doctype".toList cs).elim ⟨l.start .emptyComment .bogusComment, none, cs⟩
        (⟨l.goto .doctype, none, ·⟩) := by
    unfold declaration
    split
    case h_1 cs => exact absurd ⟨cs, rfl⟩ h
    case h_2 => cases dropWord? "doctype".toList cs <;> rfl
  have dashes' : ¬ ∃ behind, rest ++ more = '-' :: '-' :: behind := by
    rintro ⟨behind, eq⟩
    rcases rest with _ | ⟨c, _ | ⟨d, rest⟩⟩
    · exact absurd (close rfl) List.not_mem_nil
    · obtain ⟨rfl, -⟩ := List.cons.inj eq
      exact absurd (close rfl) (by decide)
    · simp only [List.cons_append, List.cons.injEq] at eq
      obtain ⟨rfl, rfl, -⟩ := eq
      exact dashes ⟨rest, rfl⟩
  rw [other dashes] at close ⊢
  rw [other dashes']
  cases word : dropWord? "doctype".toList rest with
  | some behind => rw [dropWord?_append word]; rfl
  | none =>
    rw [word] at close
    rcases dropWord?_append_of_none word more with never | beginning
    · rw [never]; rfl
    · exact absurd (beginning '>' (close rfl)) (by decide)

theorem step_tagOpen_append (hl : l.state = .tagOpen) (ends : (run l (c :: rest) out).1.state ≠ .bogusComment)
    (more : List Char) : l.step c (rest ++ more) = (l.step c rest).append more := by
  by_cases mark : c = '!'
  · have declared (rest : List Char) : l.step c rest = l.declaration rest := by
      simp only [step, hl, if_pos mark]
    rw [declared, declared]
    refine declaration_append (fun bogus => ?_) more
    by_contra inside
    rw [run_cons, declared, bogus] at ends
    exact ends (state_run_bogusComment inside rfl)
  · simp only [step, hl, if_neg mark]
    split_ifs <;> rfl

variable {name : String}

/-- An end tag that breaks off in its name leaves the lexer in a tag. -/
theorem state_run_endTag (raw : isRawTextName name = true) (h : dropWord? name.toList cs = some []) :
    (run ⟨.tagOpen, none, false, some name⟩ ('/' :: cs) out).1.state ≠ .data := by
  have letters : ∀ c ∈ cs, c.toLower.isLower = true :=
    fun c hc => isLower_of_mem_foldCase raw (mem_foldCase_of_dropWord?_eq_nil h c hc)
  have slash : step ⟨.tagOpen, none, false, some name⟩ '/' cs = ⟨⟨.endTagOpen, none, false, some name⟩, none, cs⟩ := rfl
  rw [run_none slash]
  cases cs with
  | nil =>
    rw [run]
    intro ends
    cases ends
  | cons c cs =>
    have first : step ⟨.endTagOpen, none, false, some name⟩ c cs =
        ⟨⟨.tagName, some .emptyEndTag, false, some name⟩, none, c :: cs⟩ := by
      simp [step, (of_isLower_toLower (letters c List.mem_cons_self)).1, start]
    rw [run_none first, state_run_tagName letters rfl]
    intro ends
    cases ends

/-- Whether the end tag of raw text follows is seen before the text behind a boundary. -/
theorem endTagFollows_append (raw : isRawTextName name = true)
    (ends : (run ⟨.rawText, none, false, some name⟩ ('<' :: rest) out).1.state = .data) (more : List Char) :
    endTagFollows ⟨.rawText, none, false, some name⟩ (rest ++ more) =
      endTagFollows ⟨.rawText, none, false, some name⟩ rest := by
  -- raw text goes on as long as no other `<` comes
  have closes (h : endTagFollows ⟨.rawText, none, false, some name⟩ rest = false) : '<' ∈ rest := by
    by_contra inside
    have stays : step ⟨.rawText, none, false, some name⟩ '<' rest =
        ⟨⟨.rawText, none, false, some name⟩, some (.character '<'), rest⟩ := by
      simp [step, h]
    rw [run_some stays, state_run_rawText inside rfl] at ends
    cases ends
  cases rest with
  | nil => exact absurd (closes rfl) List.not_mem_nil
  | cons c cs =>
    by_cases slash : c = '/'
    · subst slash
      cases word : dropWord? name.toList cs with
      | none =>
        rcases dropWord?_append_of_none word more with never | beginning
        · simp only [List.cons_append, endTagFollows, never, word]
        · rcases List.mem_cons.mp (closes (by simp only [endTagFollows, word])) with eq | mem
          · exact absurd eq (by decide)
          · exact absurd (isLower_of_mem_foldCase raw (beginning '<' mem)) (by decide)
      | some behind =>
        cases behind with
        | nil =>
          have opens : step ⟨.rawText, none, false, some name⟩ '<' ('/' :: cs) =
              ⟨⟨.tagOpen, none, false, some name⟩, none, '/' :: cs⟩ := by
            simp [step, endTagFollows, word, goto]
          rw [run_none opens] at ends
          exact absurd ends (state_run_endTag raw word)
        | cons d behind => simp only [List.cons_append, endTagFollows, dropWord?_append word more, word]
    · simp [endTagFollows, slash]

/-- Whether raw text ends is seen before its end. -/
theorem step_rawText_append (raw : isRawTextName name = true)
    (ends : (run ⟨.rawText, none, false, some name⟩ (c :: rest) out).1.state = .data) (more : List Char) :
    step ⟨.rawText, none, false, some name⟩ c (rest ++ more) =
      (step ⟨.rawText, none, false, some name⟩ c rest).append more := by
  by_cases opens : c = '<'
  · subst opens
    simp only [step, endTagFollows_append raw ends]
    split_ifs <;> rfl
  · simp only [step, opens, false_and, if_false]
    rfl

/-! ## Text behind a boundary -/

/-- **A turn does not depend on text behind a boundary.** -/
theorem step_append (fits : l.Fits (c :: rest)) (ends : (run l (c :: rest) out).1.state = .data) (more : List Char) :
    l.step c (rest ++ more) = (l.step c rest).append more := by
  have ne {s : LexerState} (hs : s ≠ .data) : (run l (c :: rest) out).1.state ≠ s := fun eq => hs (eq.symm.trans ends)
  cases fits with
  | rawText raw => exact step_rawText_append raw ends more
  | @idle s last _ hs =>
    by_cases ho : s = .tagOpen
    · exact step_tagOpen_append ho (ne nofun) more
    · exact step_append_of_ne (by rintro rfl; cases hs) ho (by rintro rfl; cases hs) c rest more
  | @comment s data last _ hs =>
    by_cases hc : s = .comment
    · exact step_comment_append hc (ne nofun) more
    · exact step_append_of_ne (by rintro rfl; cases hs) (by rintro rfl; cases hs) hc c rest more
  | @tag s token discarding last _ hs h =>
    exact step_append_of_ne (by rintro rfl; cases hs) (by rintro rfl; cases hs) (by rintro rfl; cases hs) c rest more

/-- **A run up to a boundary does not depend on the text behind it.** -/
theorem run_append (fits : l.Fits cs) (ends : (run l cs out).1.state = .data) (more : List Char) :
    run l (cs ++ more) out = run (run l cs out).1 more (run l cs out).2 := by
  fun_induction run l cs out with
  | case1 => rfl
  | case2 l out c rest move ih =>
    have same := step_append fits (by rw [run_cons]; exact ends) more
    rw [List.cons_append, run_cons, same]
    exact ih fits.step ends

/-! ## What a token leaves behind -/

/-- What a run does, it does behind any tokens. -/
theorem run_append_out (earlier : Array Token) (l : Lexer) (cs : List Char) (out : Array Token) :
    run l cs (earlier ++ out) = ((run l cs out).1, earlier ++ (run l cs out).2) := by
  fun_induction run l cs out with
  | case1 l out => rw [run]
  | case2 l out c rest move ih =>
    rw [run_cons, Array.append_assoc]
    exact ih

/-- The same registers but for the name of the last start tag, which is of use in raw text only. -/
structure Alike (l l' : Lexer) : Prop where
  state : l'.state = l.state
  token : l'.token = l.token
  discarding : l'.discarding = l.discarding
  lastStart : l.state = .rawText → l'.lastStart = l.lastStart

namespace Alike

theorem goto (h : Alike l l') (hs : s ≠ .rawText) : Alike (l.goto s) (l'.goto s) :=
  ⟨rfl, h.token, h.discarding, fun raw => absurd raw hs⟩

theorem start (h : Alike l l') (token : Token) (hs : s ≠ .rawText) : Alike (l.start token s) (l'.start token s) :=
  ⟨rfl, rfl, h.discarding, fun raw => absurd raw hs⟩

theorem edit (h : Alike l l') (f : Token → Token) : Alike (l.edit f) (l'.edit f) :=
  ⟨h.state, congrArg (Option.map f) h.token, h.discarding, h.lastStart⟩

theorem closeAttribute (h : Alike l l') : Alike l.closeAttribute l'.closeAttribute := by
  unfold Lexer.closeAttribute
  rw [h.discarding]
  split_ifs
  · exact ⟨h.state, congrArg (Option.map Token.dropAttribute) h.token, rfl, h.lastStart⟩
  · exact h

theorem openAttribute (h : Alike l l') : Alike l.openAttribute l'.openAttribute := h.closeAttribute.edit _

theorem checkName (h : Alike l l') : Alike l.checkName l'.checkName := by
  unfold Lexer.checkName
  rw [h.token]
  split_ifs
  · exact ⟨h.state, rfl, rfl, h.lastStart⟩
  · exact h

end Alike

end Lexer

/-- Two turns that hand out the same and leave registers alike. -/
structure Move.Alike (m m' : Move) : Prop where
  lexer : m.lexer.Alike m'.lexer
  output : m'.output = m.output
  rest : m'.rest = m.rest

namespace Lexer.Alike

variable {l l' : Lexer}

theorem emit (h : Alike l l') {s : LexerState} (hs : s = .rawText → l'.lastStart = l.lastStart) (rest : List Char) :
    (l.emit s rest).Alike (l'.emit s rest) :=
  ⟨⟨rfl, rfl, h.discarding, hs⟩, h.token, rfl⟩

/-- Where raw text begins, the name before it has just been written. -/
theorem emitTag (h : Alike l l') (rest : List Char) : (l.emitTag rest).Alike (l'.emitTag rest) := by
  have closed := h.closeAttribute
  unfold Lexer.emitTag
  dsimp only
  generalize l.closeAttribute = m at closed ⊢
  generalize l'.closeAttribute = m' at closed ⊢
  obtain ⟨s, token, discarding, last⟩ := m
  obtain ⟨s', token', discarding', last'⟩ := m'
  obtain ⟨rfl, rfl, rfl, -⟩ := closed
  dsimp only
  split
  · exact ⟨⟨rfl, rfl, rfl, fun _ => rfl⟩, rfl, rfl⟩
  · exact ⟨⟨rfl, rfl, rfl, nofun⟩, rfl, rfl⟩

theorem declaration (h : Alike l l') (rest : List Char) : (l.declaration rest).Alike (l'.declaration rest) := by
  unfold Lexer.declaration
  split
  · exact ⟨h.start _ (by nofun), rfl, rfl⟩
  · split
    · exact ⟨h.goto (by nofun), rfl, rfl⟩
    · exact ⟨h.start _ (by nofun), rfl, rfl⟩

theorem endTagFollows (h : Alike l l') (raw : l.state = .rawText) (rest : List Char) :
    l'.endTagFollows rest = l.endTagFollows rest := by
  unfold Lexer.endTagFollows
  rw [h.lastStart raw]

theorem step (h : Alike l l') (c : Char) (rest : List Char) : (l.step c rest).Alike (l'.step c rest) := by
  have moved {l l' : Lexer} (h : Alike l l') (output : Option Token) (rest : List Char) :
      Move.Alike ⟨l, output, rest⟩ ⟨l', output, rest⟩ := ⟨h, rfl, rfl⟩
  unfold Lexer.step
  rw [h.state]
  cases hs : l.state <;> dsimp only
  case rawText =>
    rw [h.endTagFollows hs]
    split_ifs
    · exact moved (h.goto (by nofun)) _ _
    · exact moved h _ _
  case tagOpen =>
    split_ifs
    · exact h.declaration rest
    · exact moved (h.goto (by nofun)) _ _
    · exact moved (h.start _ (by nofun)) _ _
    · exact moved (h.start _ (by nofun)) _ _
    · exact moved (h.goto (by nofun)) _ _
  case endTagOpen =>
    split_ifs
    · exact moved (h.start _ (by nofun)) _ _
    · exact moved (h.goto (by nofun)) _ _
    · exact moved (h.start _ (by nofun)) _ _
  case comment =>
    split
    · exact h.emit (by nofun) _
    · exact moved (h.edit _) _ _
  case bogusComment =>
    split_ifs
    · exact h.emit (by nofun) _
    · exact moved (h.edit _) _ _
  case selfClosing =>
    split_ifs
    · exact (h.edit _).emitTag rest
    · exact moved (h.goto (by nofun)) _ _
  case attributeName =>
    split_ifs
    · exact moved (h.checkName.goto (by nofun)) _ _
    · exact moved (h.checkName.goto (by nofun)) _ _
    · exact moved (h.edit _) _ _
  -- what is left stays, edits, opens an attribute, goes on to another state or ends a tag
  all_goals
    split_ifs <;>
      first
      | exact moved h _ _
      | exact moved (h.edit _) _ _
      | exact moved (h.goto (by nofun)) _ _
      | exact moved (h.openAttribute.goto (by nofun)) _ _
      | exact h.emitTag rest

/-- Runs from such registers hand out the same tokens. -/
theorem run {l l' : Lexer} (h : Alike l l') (cs : List Char) (out : Array Token) :
    (Lexer.run l cs out).1.Alike (Lexer.run l' cs out).1 ∧ (Lexer.run l' cs out).2 = (Lexer.run l cs out).2 := by
  match cs with
  | [] =>
    rw [Lexer.run, Lexer.run]
    exact ⟨h, rfl⟩
  | c :: rest =>
    have alike := h.step c rest
    rw [run_cons l, run_cons l', alike.output, alike.rest]
    exact run alike.lexer _ _
termination_by work l.state cs
decreasing_by exact work_step_lt l c rest

theorem leftover (h : Alike l l') : l'.leftover = l.leftover := by
  unfold Lexer.leftover
  rw [h.state, h.token]

end Lexer.Alike

/-- Between tokens, the registers are as they are at the beginning of a text. -/
theorem Lexer.Fits.alike {l : Lexer} {cs : List Char} (fits : l.Fits cs) (h : l.state = .data) : Alike {} l := by
  cases fits with
  | idle => exact ⟨h, rfl, rfl, nofun⟩
  | rawText => cases h
  | comment hs | tag hs =>
    cases h
    cases hs

/-! ## The tokens from somewhere on -/

namespace Lexer

variable {l l' : Lexer} {cs rest : List Char} {out : Array Token}

/-- The tokens that are read in the text `cs`, with those of its end. -/
def tokens (l : Lexer) (cs : List Char) : List Token :=
  (run l cs #[]).2.toList ++ (run l cs #[]).1.leftover.toList ++ [.endOfFile]

theorem tokens_nil (l : Lexer) : tokens l [] = l.leftover.toList ++ [.endOfFile] := by
  rw [tokens, run]
  rfl

/-- Where a run leads from one place to another, its tokens stand between. -/
theorem tokens_of_run (h : run l cs #[] = run l' rest out) : tokens l cs = out.toList ++ tokens l' rest := by
  have behind := run_append_out out l' rest #[]
  rw [Array.append_empty] at behind
  rw [tokens, tokens, h, behind, Array.toList_append, List.append_assoc, List.append_assoc, List.append_assoc]

/-- The tokens of a turn come first. -/
theorem tokens_cons (l : Lexer) (c : Char) (rest : List Char) :
    tokens l (c :: rest) = (l.step c rest).output.toList ++ tokens (l.step c rest).lexer (l.step c rest).rest := by
  have first := tokens_of_run (run_cons l c rest #[])
  rwa [Array.empty_append, Option.toList_toArray] at first

theorem Alike.tokens (h : Alike l l') (cs : List Char) : tokens l' cs = tokens l cs := by
  obtain ⟨behind, same⟩ := h.run cs #[]
  rw [Lexer.tokens, Lexer.tokens, same, behind.leftover]

end Lexer

/-- All tokens of a text are those from the beginning on. -/
theorem tokenize_eq_tokens (s : String) : tokenize s = Lexer.tokens {} s.toList := rfl

/-! ## Texts -/

/-- **A text in two parts** has the tokens of its parts, if the lexer is between tokens at the end of the first. -/
theorem tokenize_append {a b : String} (h : (Lexer.run {} a.toList #[]).1.state = .data) :
    tokenize (a ++ b) = (tokenize a).dropLast ++ tokenize b := by
  have fits : (Lexer.run {} a.toList #[]).1.Fits [] := (Lexer.Fits.initial a.toList).run #[]
  have both := Lexer.run_append (.initial a.toList) h b.toList
  simp only [tokenize, String.toList_append, both]
  generalize Lexer.run {} a.toList #[] = first at h fits
  obtain ⟨l, tokens⟩ := first
  have alike : Lexer.Alike {} l := fits.alike h
  obtain ⟨behind, same⟩ := alike.run b.toList tokens
  have apart := Lexer.run_append_out tokens {} b.toList #[]
  rw [Array.append_empty] at apart
  rw [apart] at behind same
  have none_left : l.leftover = none := alike.leftover
  dsimp only at behind same ⊢
  rw [same, behind.leftover, none_left]
  simp

/-- The first text ends behind a start tag, the second would end a comment. -/
theorem tokenize_append_title :
    (Lexer.run {} "<title>1 < 2</title><p>".toList #[]).1.state = .data ∧
    tokenize ("<title>1 < 2</title><p>" ++ "--></p>") =
      (tokenize "<title>1 < 2</title><p>").dropLast ++ tokenize "--></p>" :=
  have between : (Lexer.run {} "<title>1 < 2</title><p>".toList #[]).1.state = .data := by decide +kernel
  ⟨between, tokenize_append between⟩

end HtmlQuery
