import HtmlQuery.Proofs.Markup.Boundaries

/-!
# The written forms of start tags

The attributes of a start tag stand between blanks, each as a bare name, or with a value that is bare or between
quotation marks. Names are read in lower case, and of the attributes with one name the first counts. The lexer finds a
repetition where the name ends and removes it where the next attribute or the end of the tag begins; the value between
is read into an attribute that has to go.

* `Attribute.HasForm`, `AttributesForm` — the written forms of an attribute and of the attributes of a tag;
* `firstOfEachName` — what is left of a list of attributes;
* `Lexer.Holds` — the registers with the attributes that have been read;
* `Lexer.run_form`, `Lexer.run_attributesForm` — one attribute is read, and then all of them;
* `tokenize_startTag` — the token of a start tag.
-/

namespace HtmlQuery

open Text

/-! ## Written forms -/

/-- A text of blanks, perhaps without any. -/
def AllBlank (cs : List Char) : Prop := ∀ c ∈ cs, isBlank c = true

instance (cs : List Char) : Decidable (AllBlank cs) := decidable_of_iff (cs.all isBlank = true) List.all_eq_true

/-- The texts that are read as the name of an attribute. -/
structure IsAttributeWord (word : List Char) : Prop where
  ne_nil : word ≠ []
  chars : ∀ c ∈ word, isBlank c = false ∧ c ≠ '/' ∧ c ≠ '>' ∧ c ≠ '='

instance (word : List Char) : Decidable (IsAttributeWord word) :=
  decidable_of_iff (word ≠ [] ∧ (word.all fun c => !isBlank c && c != '/' && c != '>' && c != '=') = true)
    ⟨fun h => ⟨h.1, by simpa [and_assoc] using h.2⟩, fun h => ⟨h.ne_nil, by simpa [and_assoc] using h.chars⟩⟩

/-- The values that need no quotation marks. -/
structure IsBareValue (value : List Char) : Prop where
  ne_nil : value ≠ []
  first : ∀ c ∈ value.head?, c ≠ '"' ∧ c ≠ '\''
  chars : ∀ c ∈ value, isBlank c = false ∧ c ≠ '>'

instance (value : List Char) : Decidable (IsBareValue value) :=
  decidable_of_iff (value ≠ [] ∧ (value.head?.all fun c => c != '"' && c != '\'') = true ∧
      (value.all fun c => !isBlank c && c != '>') = true)
    ⟨fun h => ⟨h.1, by simpa [Option.all_eq_true] using h.2.1, by simpa using h.2.2⟩,
      fun h => ⟨h.ne_nil, by simpa [Option.all_eq_true] using h.first, by simpa using h.chars⟩⟩

/-- The written forms of the value of an attribute. -/
inductive AttributeValueForm : String → List Char → Prop
  | quoted {value : String} (quote : Quote) (h : quote.char ∉ value.toList) :
    AttributeValueForm value (quote.char :: (value.toList ++ [quote.char]))
  | bare {value : String} (h : IsBareValue value.toList) : AttributeValueForm value value.toList

/-- The written forms of an attribute. The case of its name is lost. -/
inductive Attribute.HasForm : Attribute → List Char → Prop
  | name {word : List Char} (h : IsAttributeWord word) : HasForm ⟨String.ofList (foldCase word), ""⟩ word
  | value {word before behind form : List Char} {value : String} (h : IsAttributeWord word) (hb : AllBlank before)
    (hb' : AllBlank behind) (hv : AttributeValueForm value form) :
    HasForm ⟨String.ofList (foldCase word), value⟩ (word ++ (before ++ '=' :: (behind ++ form)))

/-- The written forms of the attributes of a tag: each stands behind blanks. -/
inductive AttributesForm : List Attribute → List Char → Prop
  | nil : AttributesForm [] []
  | cons {a : Attribute} {attributes : List Attribute} {blanks form more : List Char} (hb : AllBlank blanks)
    (hne : blanks ≠ []) (h : a.HasForm form) (hs : AttributesForm attributes more) :
    AttributesForm (a :: attributes) (blanks ++ (form ++ more))

/-- The attribute in front of this text ends here. -/
def AttributeEnds (rest : List Char) : Prop := ∃ c cs, rest = c :: cs ∧ (isBlank c = true ∨ c = '>')

theorem AllBlank.attributeEnds {blanks rest : List Char} (h : AllBlank blanks)
    (ends : blanks = [] → AttributeEnds rest) : AttributeEnds (blanks ++ rest) := by
  cases blanks with
  | nil => exact ends rfl
  | cons c cs => exact ⟨c, cs ++ rest, rfl, .inl (h c List.mem_cons_self)⟩

theorem AttributesForm.attributeEnds {attributes : List Attribute} {form rest : List Char}
    (h : AttributesForm attributes form) (ends : AttributeEnds rest) : AttributeEnds (form ++ rest) := by
  cases h with
  | nil => exact ends
  | cons hb hne =>
    rw [List.append_assoc]
    exact hb.attributeEnds fun nothing => absurd nothing hne

/-! ## The first of each name -/

/-- The attributes without those that repeat an earlier name. -/
def firstOfEachName : List Attribute → List Attribute
  | [] => []
  | a :: attributes => a :: (firstOfEachName attributes).filter (·.name ≠ a.name)

theorem mem_names_firstOfEachName (name : String) : ∀ attributes : List Attribute,
    name ∈ (firstOfEachName attributes).map Attribute.name ↔ name ∈ attributes.map Attribute.name
  | [] => Iff.rfl
  | a :: attributes => by
    rw [firstOfEachName, List.map_cons, List.map_cons, List.mem_cons, List.mem_cons,
      ← mem_names_firstOfEachName name attributes]
    by_cases same : name = a.name
    · simp [same]
    · simp only [same, false_or, List.mem_map, List.mem_filter, decide_eq_true_eq]
      grind

/-- One more attribute stays or goes, by the names before it. -/
theorem firstOfEachName_concat (a : Attribute) : ∀ attributes : List Attribute,
    firstOfEachName (attributes ++ [a]) = if a.name ∈ attributes.map Attribute.name then firstOfEachName attributes
      else firstOfEachName attributes ++ [a]
  | [] => rfl
  | b :: attributes => by
    rw [List.cons_append, firstOfEachName, firstOfEachName_concat a attributes, firstOfEachName, List.map_cons]
    by_cases earlier : a.name ∈ attributes.map Attribute.name
    · rw [if_pos earlier, if_pos (List.mem_cons_of_mem _ earlier)]
    · rw [if_neg earlier, List.filter_append]
      by_cases same : a.name = b.name
      · rw [if_pos (List.mem_cons.mpr (.inl same)), List.filter_cons_of_neg (by simp [same]), List.filter_nil,
          List.append_nil]
      · rw [if_neg (List.not_mem_cons_of_ne_of_not_mem same earlier), List.filter_cons_of_pos (by simp [same]),
          List.filter_nil, List.cons_append]

/-- Without repetitions all of them stay. -/
theorem firstOfEachName_of_nodup : ∀ {attributes : List Attribute}, (attributes.map Attribute.name).Nodup →
    firstOfEachName attributes = attributes
  | [], _ => rfl
  | a :: attributes, h => by
    obtain ⟨new, others⟩ := List.nodup_cons.mp h
    have different : ∀ b ∈ attributes, decide (b.name ≠ a.name) = true :=
      fun b hb => decide_eq_true fun same => new (same ▸ List.mem_map_of_mem hb)
    rw [firstOfEachName, firstOfEachName_of_nodup others, List.filter_eq_self.mpr different]

/-- An attribute is a repetition if its name is among those before it. -/
theorem any_firstOfEachName (a : Attribute) (attributes : List Attribute) :
    ((firstOfEachName attributes).any fun b => b.name == a.name) = decide (a.name ∈ attributes.map Attribute.name) := by
  rw [Bool.eq_iff_iff, List.any_eq_true, decide_eq_true_eq, ← mem_names_firstOfEachName, List.mem_map]
  simp only [beq_iff_eq]

/-! ## States -/

namespace LexerState

/-- Blanks make no difference here. -/
def skipsBlanks : LexerState → Bool
  | .beforeAttributeName | .afterAttributeName | .beforeAttributeValue => true
  | _ => false

/-- An attribute can begin here. -/
def isBetweenAttributes : LexerState → Bool
  | .beforeAttributeName | .afterAttributeName => true
  | _ => false

/-- The name of a tag or an attribute ends here, unless there is more of it. -/
def endsAttribute : LexerState → Bool
  | .tagName | .beforeAttributeName | .afterAttributeName | .unquotedValue | .afterQuotedValue => true
  | _ => false

theorem skipsBlanks_of_isBetweenAttributes {s : LexerState} (h : s.isBetweenAttributes = true) :
    s.skipsBlanks = true := by
  cases s <;> first | rfl | cases h

theorem endsAttribute_of_isBetweenAttributes {s : LexerState} (h : s.isBetweenAttributes = true) :
    s.endsAttribute = true := by
  cases s <;> first | rfl | cases h

end LexerState

namespace Lexer

variable {l : Lexer} {s : LexerState} {c : Char} {rest : List Char} {last : Option String} {name : String}
  {a : Attribute} {read attributes : List Attribute} {blanks form : List Char}

/-! ## Registers -/

/-- The registers hold a start tag with the attributes `read`, the last of which may still have to go. -/
def Holds (l : Lexer) (name : String) (read : List Attribute) : Prop :=
  l.closeAttribute.token = some (.startTag name false (firstOfEachName read))

/-- The registers behind the name of the attribute `a`, which has to go if its name is among those before it. -/
def named (s : LexerState) (last : Option String) (name : String) (read : List Attribute) (a : Attribute) : Lexer :=
  ⟨s, some (.startTag name false (firstOfEachName read ++ [a])), decide (a.name ∈ read.map Attribute.name), last⟩

theorem closeAttribute_eq (l : Lexer) :
    l.closeAttribute = ⟨l.state, l.closeAttribute.token, false, l.lastStart⟩ := by
  obtain ⟨s, token, discarding, last⟩ := l
  cases discarding <;> rfl

theorem token_closeAttribute_goto (l : Lexer) (s : LexerState) :
    (l.goto s).closeAttribute.token = l.closeAttribute.token := by
  obtain ⟨s, token, discarding, last⟩ := l
  cases discarding <;> rfl

namespace Holds

theorem goto (h : l.Holds name read) (s : LexerState) : (l.goto s).Holds name read :=
  (token_closeAttribute_goto l s).trans h

theorem closeAttribute (h : l.Holds name read) :
    l.closeAttribute = ⟨l.state, some (.startTag name false (firstOfEachName read)), false, l.lastStart⟩ := by
  rw [closeAttribute_eq, h]

/-- Where another attribute begins, the last one goes if it has to. -/
theorem openAttribute (h : l.Holds name read) : l.openAttribute.goto .attributeName =
    ⟨.attributeName, some (.startTag name false (firstOfEachName read ++ [⟨"", ""⟩])), false, l.lastStart⟩ := by
  rw [Lexer.openAttribute, h.closeAttribute]
  rfl

/-- So it does where the tag ends. -/
theorem emitTag (h : l.Holds name read) (rest : List Char) : l.emitTag rest =
    ⟨⟨if isRawTextName name then .rawText else .data, none, false, some name⟩,
      some (.startTag name false (firstOfEachName read)), rest⟩ := by
  rw [Lexer.emitTag, h.closeAttribute]
  rfl

end Holds

/-- Whether an attribute has to go is found where its name ends. -/
theorem checkName_eq_named (s : LexerState) (last : Option String) (name : String) (read : List Attribute)
    (a : Attribute) : checkName ⟨s, some (.startTag name false (firstOfEachName read ++ [a])), false, last⟩ =
      named s last name read a := by
  have repeats : (Token.startTag name false (firstOfEachName read ++ [a])).repeatsName =
      decide (a.name ∈ read.map Attribute.name) := by
    rw [← any_firstOfEachName]
    simp only [Token.repeatsName, List.getLast?_concat, List.dropLast_concat]
  rw [checkName, Option.any_some, repeats, named]
  split
  case isTrue mem => rw [mem]
  case isFalse new => rw [Bool.not_eq_true] at new; rw [new]

theorem holds_named (s : LexerState) (last : Option String) (name : String) (read : List Attribute) (a : Attribute) :
    (named s last name read a).Holds name (read ++ [a]) := by
  rw [Holds, firstOfEachName_concat, named, closeAttribute]
  by_cases repeats : a.name ∈ read.map Attribute.name
  · simp [repeats, Token.dropAttribute]
  · simp [repeats]

/-! ## Blanks -/

theorem run_blanks (hs : l.state.skipsBlanks = true) (rest : List Char) (out : Array Token) :
    ∀ {blanks : List Char}, AllBlank blanks → run l (blanks ++ rest) out = run l rest out
  | [], _ => rfl
  | b :: blanks, h => by
    have blank : isBlank b = true := h b List.mem_cons_self
    have skip (behind : List Char) : l.step b behind = ⟨l, none, behind⟩ := by
      cases hl : l.state <;> simp [step, hl, blank] <;> simp [hl, LexerState.skipsBlanks] at hs
    rw [List.cons_append, run_none (skip _), run_blanks hs rest out fun c hc => h c (List.mem_cons_of_mem _ hc)]

/-- Blanks lead from an attribute to the next one. -/
theorem run_blanks_of_endsAttribute (h : l.Holds name read) (hs : l.state.endsAttribute = true)
    (hb : AllBlank blanks) (hne : blanks ≠ []) (rest : List Char) (out : Array Token) :
    ∃ l' : Lexer, l'.Holds name read ∧ l'.state.isBetweenAttributes = true ∧
      run l (blanks ++ rest) out = run l' rest out := by
  cases blanks with
  | nil => exact absurd rfl hne
  | cons b blanks =>
    have blank : isBlank b = true := hb b List.mem_cons_self
    have first : ∃ l' : Lexer, l'.Holds name read ∧ l'.state.isBetweenAttributes = true ∧
        l.step b (blanks ++ rest) = ⟨l', none, blanks ++ rest⟩ := by
      cases hl : l.state <;> simp only [hl] at hs <;> cases hs <;> simp only [step, hl, if_pos blank]
      case tagName | unquotedValue | afterQuotedValue => exact ⟨_, h.goto .beforeAttributeName, rfl, rfl⟩
      case beforeAttributeName | afterAttributeName => exact ⟨l, h, by rw [hl]; rfl, rfl⟩
    obtain ⟨l', holds, between, turn⟩ := first
    refine ⟨l', holds, between, ?_⟩
    rw [List.cons_append, run_none turn, run_blanks (LexerState.skipsBlanks_of_isBetweenAttributes between) rest out
      fun c hc => hb c (List.mem_cons_of_mem _ hc)]

/-! ## Attributes -/

/-- A value is read, also that of an attribute that has to go. -/
theorem run_attributeValueForm {value : String} (h : AttributeValueForm value form) (key : String)
    (last : Option String) (name : String) (read : List Attribute) (rest : List Char) (out : Array Token) :
    ∃ s : LexerState, s.endsAttribute = true ∧
      run (named .beforeAttributeValue last name read ⟨key, ""⟩) (form ++ rest) out =
        run (named s last name read ⟨key, value⟩) rest out := by
  cases h with
  | quoted quote h =>
    refine ⟨.afterQuotedValue, rfl, ?_⟩
    have opens (behind : List Char) : step (named .beforeAttributeValue last name read ⟨key, ""⟩) quote.char behind =
        ⟨named (.quotedValue quote) last name read ⟨key, ""⟩, none, behind⟩ := by
      cases quote <;> simp [step, named, Quote.char, isBlank, goto]
    have closes (behind : List Char) : step (named (.quotedValue quote) last name read ⟨key, value⟩) quote.char behind =
        ⟨named .afterQuotedValue last name read ⟨key, value⟩, none, behind⟩ := by
      simp [step, named, goto]
    rw [List.cons_append, List.append_assoc, List.singleton_append, run_none (opens _), named,
      run_attributeValue quote h]
    exact run_none (closes _) out
  | bare h =>
    refine ⟨.unquotedValue, rfl, ?_⟩
    have opens (behind : List Char) :
        run (named .beforeAttributeValue last name read ⟨key, ""⟩) (value.toList ++ behind) out =
          run (named .unquotedValue last name read ⟨key, ""⟩) (value.toList ++ behind) out := by
      obtain ⟨c, cs, eq⟩ := List.exists_cons_of_ne_nil h.ne_nil
      obtain ⟨double, single⟩ := h.first c (by rw [eq]; rfl)
      obtain ⟨blank, close⟩ := h.chars c (by rw [eq]; exact List.mem_cons_self)
      rw [eq]
      exact run_none (by simp [step, named, blank, double, single, close, goto]) out
    rw [opens]
    refine run_string (fun text => .startTag name false (firstOfEachName read ++ [⟨key, text⟩]))
      (fun c hc text rest => ?_) rest out
    obtain ⟨blank, close⟩ := h.chars c hc
    simp [step, blank, close, edit, Token.pushAttributeValue, modifyLast_append]

/-- Behind the name of an attribute, a sign of equality leads to its value. -/
theorem run_equals {before : List Char} (hb : AllBlank before) (last : Option String) (name : String)
    (read : List Attribute) (a : Attribute) (rest : List Char) (out : Array Token) :
    run ⟨.attributeName, some (.startTag name false (firstOfEachName read ++ [a])), false, last⟩
        (before ++ '=' :: rest) out = run (named .beforeAttributeValue last name read a) rest out := by
  have checked (s : LexerState) : (checkName ⟨.attributeName, some (.startTag name false (firstOfEachName read ++ [a])),
      false, last⟩).goto s = named s last name read a := by
    rw [checkName_eq_named]
    rfl
  cases before with
  | nil => exact run_none (by simp [step, isBlank, checked]) out
  | cons b before =>
    have blank : isBlank b = true := hb b List.mem_cons_self
    have ends (behind : List Char) : step ⟨.attributeName, some (.startTag name false (firstOfEachName read ++ [a])),
        false, last⟩ b behind = ⟨named .afterAttributeName last name read a, none, b :: behind⟩ := by
      simp [step, blank, checked]
    have equals : step (named .afterAttributeName last name read a) '=' rest =
        ⟨named .beforeAttributeValue last name read a, none, rest⟩ := by
      simp [step, named, isBlank, goto]
    rw [List.cons_append, run_none (ends _), ← List.cons_append, run_blanks rfl _ _ hb, run_none equals]

/-- **An attribute is read,** in every written form and whether its name is new or not. -/
theorem run_form (ha : a.HasForm form) (h : l.Holds name read) (hs : l.state.isBetweenAttributes = true)
    (ends : AttributeEnds rest) (out : Array Token) :
    ∃ l' : Lexer, l'.Holds name (read ++ [a]) ∧ l'.state.endsAttribute = true ∧
      run l (form ++ rest) out = run l' rest out := by
  have opened {word : List Char} (hw : IsAttributeWord word) (behind : List Char) : run l (word ++ behind) out =
      run ⟨.attributeName, some (.startTag name false (firstOfEachName read ++ [⟨String.ofList (foldCase word), ""⟩])),
        false, l.lastStart⟩ behind out := by
    obtain ⟨c, cs, rfl⟩ := List.exists_cons_of_ne_nil hw.ne_nil
    obtain ⟨blank, slash, close, equals⟩ := hw.chars c List.mem_cons_self
    have first : l.step c (cs ++ behind) = ⟨l.openAttribute.goto .attributeName, none, c :: (cs ++ behind)⟩ := by
      cases hl : l.state <;> simp only [hl] at hs <;> cases hs <;> simp [step, hl, blank, slash, close, equals]
    rw [List.cons_append, run_none first, h.openAttribute, ← List.cons_append, run_attributeName hw.chars]
  cases ha with
  | @name word hw =>
    obtain ⟨c, cs, rfl, stop⟩ := ends
    have whole : isBlank c = true ∨ c = '/' ∨ c = '>' := stop.imp_right .inr
    refine ⟨named .afterAttributeName l.lastStart name read _, holds_named _ _ _ _ _, rfl, ?_⟩
    rw [opened hw]
    refine run_none ?_ out
    simp only [step, if_pos whole, checkName_eq_named]
    rfl
  | @value word before behind form value hw hb hb' hv =>
    obtain ⟨s, ends, valued⟩ := run_attributeValueForm hv (String.ofList (foldCase word)) l.lastStart name read rest out
    refine ⟨named s l.lastStart name read _, holds_named _ _ _ _ _, ends, ?_⟩
    rw [List.append_assoc, opened hw, List.append_assoc, List.cons_append, run_equals hb, List.append_assoc,
      run_blanks rfl _ _ hb', valued]

/-- **All attributes of a tag are read.** -/
theorem run_attributesForm : ∀ {attributes : List Attribute} {form : List Char}, AttributesForm attributes form →
    ∀ {l : Lexer} {read : List Attribute}, l.Holds name read → l.state.endsAttribute = true →
    ∀ {rest : List Char}, AttributeEnds rest → ∀ out : Array Token,
    ∃ l' : Lexer, l'.Holds name (read ++ attributes) ∧ l'.state.endsAttribute = true ∧
      run l (form ++ rest) out = run l' rest out
  | _, _, .nil, l, read, h, hs, rest, _, out => ⟨l, by rwa [List.append_nil], hs, rfl⟩
  | a :: attributes, _, .cons hb hne ha more, l, read, h, hs, rest, ends, out => by
    obtain ⟨l₁, holds₁, between, first⟩ := run_blanks_of_endsAttribute h hs hb hne _ out
    obtain ⟨l₂, holds₂, ends₂, second⟩ := run_form ha holds₁ between (more.attributeEnds ends) out
    obtain ⟨l₃, holds₃, ends₃, third⟩ := run_attributesForm more holds₂ ends₂ ends out
    refine ⟨l₃, by rwa [List.append_cons], ends₃, ?_⟩
    rw [List.append_assoc, List.append_assoc, first, second, third]

/-! ## Tags -/

/-- The tag ends. -/
theorem run_close (h : l.Holds name read) (hs : l.state.endsAttribute = true) (rest : List Char) (out : Array Token) :
    run l ('>' :: rest) out =
      run ⟨if isRawTextName name then .rawText else .data, none, false, some name⟩ rest
        (out.push (.startTag name false (firstOfEachName read))) := by
  have emitted {l : Lexer} (h : l.Holds name read) (turn : l.step '>' rest = l.emitTag rest) :=
    run_some (turn.trans (h.emitTag rest)) out
  cases hl : l.state <;> simp only [hl] at hs <;> cases hs
  case beforeAttributeName =>
    have on : l.step '>' rest = ⟨l.goto .afterAttributeName, none, '>' :: rest⟩ := by simp [step, hl, isBlank]
    rw [run_none on]
    exact emitted (h.goto _) (by simp [step, goto, isBlank])
  all_goals exact emitted h (by simp [step, hl, isBlank])

/-- **A start tag is read,** with anything behind it. -/
theorem run_startTagForm {word : List Char} (hw : IsTagWord word) (ha : AttributesForm attributes form)
    (hb : AllBlank blanks) (last : Option String) (rest : List Char) (out : Array Token) :
    run ⟨.data, none, false, last⟩ ('<' :: (word ++ (form ++ (blanks ++ '>' :: rest)))) out =
      run ⟨if isRawTextName (String.ofList (foldCase word)) then .rawText else .data, none, false,
          some (String.ofList (foldCase word))⟩ rest
        (out.push (.startTag (String.ofList (foldCase word)) false (firstOfEachName attributes))) := by
  rw [run_startTagName hw]
  generalize String.ofList (foldCase word) = name
  have behind : AttributeEnds (blanks ++ '>' :: rest) := hb.attributeEnds fun _ => ⟨'>', rest, rfl, .inr rfl⟩
  have named : Holds ⟨.tagName, some (.startTag name false []), false, last⟩ name [] := rfl
  obtain ⟨l, holds, ends, read⟩ := run_attributesForm ha named rfl behind out
  rw [read]
  by_cases nothing : blanks = []
  · rw [nothing]
    exact run_close holds ends rest out
  · obtain ⟨l', holds', between, skipped⟩ := run_blanks_of_endsAttribute holds ends hb nothing ('>' :: rest) out
    rw [skipped]
    exact run_close holds' (LexerState.endsAttribute_of_isBetweenAttributes between) rest out

end Lexer

/-! ## Texts -/

/-- **The token of a start tag.** However its attributes are written, each name counts once, with its first value. -/
theorem tokenize_startTag {word form blanks : List Char} {attributes : List Attribute} (hw : IsTagWord word)
    (ha : AttributesForm attributes form) (hb : AllBlank blanks) :
    tokenize (String.ofList ('<' :: (word ++ (form ++ (blanks ++ ['>']))))) =
      [.startTag (String.ofList (foldCase word)) false (firstOfEachName attributes), .endOfFile] := by
  rw [tokenize_eq_tokens, String.toList_ofList, Lexer.tokens_of_run (Lexer.run_startTagForm hw ha hb none [] #[]),
    Lexer.tokens_nil]
  split <;> rfl

/-- A name that comes again in another case and another form. -/
theorem tokenize_startTag_repeated :
    IsTagWord ['A'] ∧ AttributesForm [⟨"href", "\"x\""⟩, ⟨"id", "/"⟩, ⟨"href", "0"⟩, ⟨"checked", ""⟩]
      "\thRef = '\"x\"' ID=/\n HREF=\"0\" Checked".toList ∧ AllBlank [' '] ∧
    tokenize "<A\thRef = '\"x\"' ID=/\n HREF=\"0\" Checked >" =
      [.startTag "a" false [⟨"href", "\"x\""⟩, ⟨"id", "/"⟩, ⟨"checked", ""⟩], .endOfFile] := by
  have tag : IsTagWord ['A'] := by decide
  have href : IsAttributeWord "hRef".toList := by decide
  have id : IsAttributeWord "ID".toList := by decide
  have again : IsAttributeWord "HREF".toList := by decide
  have checked : IsAttributeWord "Checked".toList := by decide
  have slash : IsBareValue "/".toList := by decide
  have nothing : AllBlank [] := by decide
  have blank : AllBlank [' '] := by decide
  have quoted : AttributeValueForm "\"x\"" _ := .quoted .single (by decide)
  have zero : AttributeValueForm "0" _ := .quoted .double (by decide)
  have attributes : AttributesForm [⟨"href", "\"x\""⟩, ⟨"id", "/"⟩, ⟨"href", "0"⟩, ⟨"checked", ""⟩]
      "\thRef = '\"x\"' ID=/\n HREF=\"0\" Checked".toList :=
    .cons (by decide : AllBlank ['\t']) nofun (.value href blank blank quoted) <|
    .cons blank nofun (.value id nothing nothing (.bare slash)) <|
    .cons (by decide : AllBlank ['\n', ' ']) nofun (.value again nothing nothing zero) <|
    .cons blank nofun (.name checked) .nil
  exact ⟨tag, attributes, blank, (tokenize_startTag tag attributes blank).trans (by decide)⟩

end HtmlQuery
