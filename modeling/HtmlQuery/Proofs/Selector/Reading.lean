import HtmlQuery.Proofs.Selector.Grammar
import Mathlib.Data.List.TakeWhile

/-!
# Reading selectors by their grammar

The reader takes the longest term each time and never goes back. Each part of it is described by an equivalence between
what it returns and what the grammar derives, from names up to whole selectors.

* `readTerm?_eq_some_iff` — the term at the front of a text;
* `isLongest_iff` — it is the longest one if and only if it is not a name with a tag directly behind it;
* `readTerms_append`, `readTerms_sound` — rows of terms;
* `readCompounds_eq_ok_iff` — rows of compound selectors;
* `ComplexSelector.parse_iff_derivation` — selectors.
-/

namespace HtmlQuery

open Text

variable {cs rest form : List Char} {name value : String} {x : SimpleSelector}

/-! ## Names -/

theorem NameEnds.takeWhile_eq_nil (h : NameEnds rest) : rest.takeWhile isNameCharacter = [] := by
  cases rest with
  | nil => rfl
  | cons c rest => rw [List.takeWhile_cons, h c rfl]; rfl

theorem NameEnds.dropWhile_eq_self (h : NameEnds rest) : rest.dropWhile isNameCharacter = rest := by
  cases rest with
  | nil => rfl
  | cons c rest => rw [List.dropWhile_cons, h c rfl]; rfl

theorem nameEnds_dropWhile (cs : List Char) : NameEnds (cs.dropWhile isNameCharacter) := by
  intro c hc
  have := List.head?_dropWhile_not isNameCharacter cs
  rw [hc] at this
  exact this

/-- A name is read as far as it goes. -/
theorem readName?_eq_some_iff :
    readName? cs = some (name, rest) ↔ IsName name ∧ NameEnds rest ∧ cs = name.toList ++ rest := by
  constructor
  · intro h
    unfold readName? at h
    split at h
    · cases h
    · rename_i taken
      cases h
      have text := List.takeWhile_append_dropWhile (p := isNameCharacter) (l := cs)
      refine ⟨⟨?_, ?_⟩, nameEnds_dropWhile cs, ?_⟩
      · simpa using taken
      · intro c hc
        rw [String.toList_ofList] at hc
        exact isNameCharacter_iff.mp (List.mem_takeWhile_imp hc)
      · rw [String.toList_ofList, text]
  · rintro ⟨h, ends, rfl⟩
    have taken : (name.toList ++ rest).takeWhile isNameCharacter = name.toList := by
      rw [List.takeWhile_append_of_pos h.chars, ends.takeWhile_eq_nil, List.append_nil]
    have left : (name.toList ++ rest).dropWhile isNameCharacter = rest := by
      rw [List.dropWhile_append_of_pos h.chars, ends.dropWhile_eq_self]
    obtain ⟨c, cs, eq, -⟩ := h.cons
    unfold readName?
    rw [taken, left, eq]
    show some (String.ofList (c :: cs), rest) = some (name, rest)
    rw [← eq, String.ofList_toList]

/-- A character that is not one of names ends a name. -/
theorem nameEnds_cons {c : Char} (h : isNameCharacter c = false) (rest : List Char) : NameEnds (c :: rest) := by
  rintro _ ⟨⟩
  exact h

/-- A name is read up to a character that is not one of names. -/
theorem readName?_append {c : Char} (h : IsName name) (hc : isNameCharacter c = false) (rest : List Char) :
    readName? (name.toList ++ c :: rest) = some (name, c :: rest) :=
  readName?_eq_some_iff.mpr ⟨h, nameEnds_cons hc rest, rfl⟩

/-! ## Terms -/

theorem readValue?_of_isNameCharacter {c : Char} (h : isNameCharacter c = true) (cs : List Char) :
    readValue? (c :: cs) = readName? (c :: cs) := by
  unfold readValue?
  split
  · rename_i eq
    cases eq
    exact absurd h (by decide)
  · rename_i eq
    cases eq
    exact absurd h (by decide)
  · rfl

/-- A value is read in front of the bracket that closes its term. -/
theorem readValue?_eq_some_iff :
    readValue? cs = some (value, ']' :: rest) ↔ ∃ form, ValueForm value form ∧ cs = form ++ ']' :: rest := by
  constructor
  · intro h
    unfold readValue? at h
    split at h
    case h_1 =>
      split at h
      case h_1 read =>
        cases h
        obtain ⟨hv, -, rfl⟩ := readName?_eq_some_iff.mp read
        exact ⟨_, .double hv, by simp⟩
      case h_2 => cases h
    case h_2 =>
      split at h
      case h_1 read =>
        cases h
        obtain ⟨hv, -, rfl⟩ := readName?_eq_some_iff.mp read
        exact ⟨_, .single hv, by simp⟩
      case h_2 => cases h
    case h_3 =>
      obtain ⟨hv, -, eq⟩ := readName?_eq_some_iff.mp h
      exact ⟨_, .bare hv, eq⟩
  · rintro ⟨form, hv, rfl⟩
    cases hv with
    | bare hv =>
      obtain ⟨c, cs, eq, hc⟩ := hv.cons
      have read := readName?_append hv (c := ']') (by decide) rest
      rw [eq] at read ⊢
      exact (readValue?_of_isNameCharacter hc _).trans read
    | double hv =>
      have read := readName?_append hv (c := '"') (by decide) (']' :: rest)
      simp only [List.cons_append, List.append_assoc, List.nil_append, readValue?, read]
    | single hv =>
      have read := readName?_append hv (c := '\'') (by decide) (']' :: rest)
      simp only [List.cons_append, List.append_assoc, List.nil_append, readValue?, read]

/-- A term on an attribute is read up to its closing bracket. -/
theorem readAttribute?_eq_some_iff : readAttribute? cs = some (x, rest) ↔
    ∃ form, x.HasForm form ∧ x.endsInName = false ∧ '[' :: cs = form ++ rest := by
  constructor
  · intro h
    unfold readAttribute? at h
    split at h
    case h_1 read =>
      cases h
      obtain ⟨hn, -, rfl⟩ := readName?_eq_some_iff.mp read
      exact ⟨_, .hasAttribute hn, rfl, by simp⟩
    case h_2 read =>
      obtain ⟨hn, -, rfl⟩ := readName?_eq_some_iff.mp read
      split at h
      case h_1 value =>
        cases h
        obtain ⟨form, hv, rfl⟩ := readValue?_eq_some_iff.mp value
        exact ⟨_, .hasValue hn hv, rfl, by simp⟩
      case h_2 => cases h
    case h_3 => cases h
  · rintro ⟨form, h, hx, eq⟩
    cases h with
    | hasId | hasClass | hasTag => cases hx
    | hasAttribute hn =>
      have read := readName?_append hn (c := ']') (by decide) rest
      rw [List.cons_append, List.append_assoc] at eq
      obtain rfl := (List.cons.inj eq).2
      simp only [List.cons_append, List.nil_append, readAttribute?, read]
    | @hasValue _ value form hn hv =>
      have read := readName?_append hn (c := '=') (by decide) (form ++ ']' :: rest)
      have behind : readValue? (form ++ ']' :: rest) = some (value, ']' :: rest) :=
        readValue?_eq_some_iff.mpr ⟨form, hv, rfl⟩
      rw [List.cons_append, List.append_assoc] at eq
      obtain rfl := (List.cons.inj eq).2
      simp only [List.append_assoc, List.cons_append, List.nil_append, readAttribute?, read, behind]

theorem readTerm?_of_isNameCharacter {c : Char} (h : isNameCharacter c = true) (cs : List Char) :
    readTerm? (c :: cs) = (readName? (c :: cs)).map fun (name, rest) => (.hasTag name, rest) := by
  unfold readTerm?
  split
  case h_4 => rfl
  case h_1 | h_2 | h_3 =>
    rename_i eq
    cases eq
    exact absurd h (by decide)

/-- **The reader takes the longest term**, and it takes one wherever one begins. -/
theorem readTerm?_eq_some_iff : readTerm? cs = some (x, rest) ↔
    ∃ form, x.HasForm form ∧ (x.endsInName = true → NameEnds rest) ∧ cs = form ++ rest := by
  have name {cs : List Char} {make : String → SimpleSelector} :
      (readName? cs).map (fun (name, rest) => (make name, rest)) = some (x, rest) ↔
      ∃ name, x = make name ∧ IsName name ∧ NameEnds rest ∧ cs = name.toList ++ rest := by
    rw [Option.map_eq_some_iff]
    constructor
    · rintro ⟨⟨name, rest⟩, read, eq⟩
      cases eq
      exact ⟨name, rfl, readName?_eq_some_iff.mp read⟩
    · rintro ⟨name, rfl, h⟩
      exact ⟨(name, rest), readName?_eq_some_iff.mpr h, rfl⟩
  constructor
  · intro h
    unfold readTerm? at h
    split at h
    case h_1 =>
      obtain ⟨name, rfl, hn, ends, rfl⟩ := name.mp h
      exact ⟨_, .hasId hn, fun _ => ends, rfl⟩
    case h_2 =>
      obtain ⟨name, rfl, hn, ends, rfl⟩ := name.mp h
      exact ⟨_, .hasClass hn, fun _ => ends, rfl⟩
    case h_3 =>
      obtain ⟨form, hx, bracket, eq⟩ := readAttribute?_eq_some_iff.mp h
      exact ⟨form, hx, fun hn => absurd (bracket.symm.trans hn) nofun, eq⟩
    case h_4 =>
      obtain ⟨name, rfl, hn, ends, rfl⟩ := name.mp h
      exact ⟨_, .hasTag hn, fun _ => ends, rfl⟩
  · rintro ⟨form, h, ends, rfl⟩
    cases h with
    | @hasId n hn => exact name.mpr ⟨n, rfl, hn, ends rfl, rfl⟩
    | @hasClass n hn => exact name.mpr ⟨n, rfl, hn, ends rfl, rfl⟩
    | @hasTag n hn =>
      obtain ⟨c, cs, eq, hc⟩ := hn.cons
      rw [eq, List.cons_append, readTerm?_of_isNameCharacter hc]
      exact name.mpr ⟨n, rfl, hn, ends rfl, by rw [eq]; rfl⟩
    | hasAttribute hn => exact readAttribute?_eq_some_iff.mpr ⟨_, .hasAttribute hn, rfl, rfl⟩
    | hasValue hn hv => exact readAttribute?_eq_some_iff.mpr ⟨_, .hasValue hn hv, rfl, rfl⟩

/-- The term that is read is no shorter than any term that begins there. -/
theorem exists_readTerm?_append (h : x.HasForm form) (rest : List Char) :
    ∃ y behind, readTerm? (form ++ rest) = some (y, behind) ∧ behind.length ≤ rest.length := by
  by_cases ends : x.endsInName = true → NameEnds rest
  · exact ⟨x, rest, readTerm?_eq_some_iff.mpr ⟨form, h, ends, rfl⟩, Nat.le_refl _⟩
  · -- the name goes on in the text behind the term
    obtain ⟨hx, goesOn⟩ := Classical.not_imp.mp ends
    have split := List.takeWhile_append_dropWhile (p := isNameCharacter) (l := rest)
    have more : IsName (String.ofList (rest.takeWhile isNameCharacter)) := by
      refine ⟨fun empty => goesOn ?_, fun c hc => ?_⟩
      · rw [String.ofList_eq_empty_iff.mp empty, List.nil_append] at split
        exact split ▸ nameEnds_dropWhile rest
      · rw [String.toList_ofList] at hc
        exact isNameCharacter_iff.mp (List.mem_takeWhile_imp hc)
    have longer := h.extend hx more
    rw [String.toList_ofList] at longer
    refine ⟨_, rest.dropWhile isNameCharacter, readTerm?_eq_some_iff.mpr ⟨_, longer, fun _ => nameEnds_dropWhile rest, ?_⟩,
      (List.dropWhile_sublist _).length_le⟩
    rw [List.append_assoc, split]

/-- The form of a term is the longest one at the front of the text if and only if its name does not go on behind it. -/
theorem isLongest_iff (hx : x.HasForm form) (rest : List Char) :
    IsLongest form rest ↔ (x.endsInName = true → NameEnds rest) := by
  constructor
  · intro longest hn c hc
    obtain ⟨rest, rfl⟩ := List.head?_eq_some_iff.mp hc
    cases eq : isNameCharacter c with
    | false => rfl
    | true =>
      have more : IsName (String.ofList [c]) := by
        refine ⟨by simp, fun d hd => ?_⟩
        rw [String.toList_ofList, List.mem_singleton] at hd
        exact isNameCharacter_iff.mp (hd ▸ eq)
      have longer := longest _ _ (hx.extend hn more) ⟨rest, by simp⟩
      rw [String.toList_ofList, List.length_append, List.length_singleton] at longer
      omega
  · rintro ends y other hy ⟨behind, eq⟩
    have read : readTerm? (form ++ rest) = some (x, rest) := readTerm?_eq_some_iff.mpr ⟨form, hx, ends, rfl⟩
    obtain ⟨z, left, read', le⟩ := exists_readTerm?_append hy behind
    rw [eq] at read'
    cases read.symm.trans read'
    have length := congrArg List.length eq
    rw [List.length_append, List.length_append] at length
    omega

/-! ## Rows of terms -/

theorem readTerms_of_none (h : readTerm? cs = none) : readTerms cs = ([], cs) := by
  rw [readTerms]
  split
  case h_1 => rfl
  case h_2 read => cases h.symm.trans read

theorem readTerms_of_some (h : readTerm? cs = some (x, rest)) :
    readTerms cs = (x :: (readTerms rest).1, (readTerms rest).2) := by
  rw [readTerms]
  split
  case h_1 read => cases h.symm.trans read
  case h_2 read =>
    cases h.symm.trans read
    rfl

variable {terms : List SimpleSelector}

/-- Whatever is read is a row of terms with the longest names. -/
theorem readTerms_sound (cs : List Char) : readTerms cs = ([], cs) ∨
    ∃ form, TermsForm (readTerms cs).1 form ∧ IsMunched (readTerms cs).1 ∧ cs = form ++ (readTerms cs).2 := by
  induction h : cs.length using Nat.strong_induction_on generalizing cs with
  | _ n ih =>
    cases read : readTerm? cs with
    | none => exact .inl (readTerms_of_none read)
    | some found =>
      obtain ⟨x, rest⟩ := found
      obtain ⟨form, hx, ends, eq⟩ := readTerm?_eq_some_iff.mp read
      have shorter := length_of_readTerm? read
      rw [readTerms_of_some read]
      right
      rcases ih rest.length (h ▸ shorter) rest rfl with nothing | ⟨form', row, munched, eq'⟩
      · rw [nothing]
        exact ⟨form, .single hx, List.isChain_singleton _, eq⟩
      · refine ⟨form ++ form', .cons hx row, ?_, by rw [List.append_assoc, ← eq', eq]⟩
        obtain ⟨y, terms, cons⟩ := List.exists_cons_of_ne_nil row.ne_nil.1
        rw [cons] at row munched ⊢
        refine List.isChain_cons_cons.mpr ⟨fun hn => ?_, munched⟩
        have stops := ends hn
        rw [eq'] at stops
        exact (row.nameEnds_iff _).mp stops

/-- Text behind a row of terms that does not go on with it. -/
def Interrupts (rest : List Char) : Prop := ∀ c ∈ rest.head?, isWhiteSpace c = true

theorem Interrupts.readTerm?_eq_none (h : Interrupts rest) : readTerm? rest = none := by
  cases read : readTerm? rest with
  | none => rfl
  | some found =>
    obtain ⟨form, hx, -, rfl⟩ := readTerm?_eq_some_iff.mp read
    obtain ⟨c, cs, rfl⟩ := List.exists_cons_of_ne_nil hx.ne_nil
    have solid := hx.isWhiteSpace_eq_false c List.mem_cons_self
    exact absurd (solid.symm.trans (h c rfl)) Bool.false_ne_true

/-- Where no term begins, a name ends. -/
theorem nameEnds_of_readTerm?_eq_none (h : readTerm? rest = none) : NameEnds rest := by
  intro c hc
  obtain ⟨rest, rfl⟩ := List.head?_eq_some_iff.mp hc
  cases hn : isNameCharacter c with
  | false => rfl
  | true =>
    rw [readTerm?_of_isNameCharacter hn, Option.map_eq_none_iff, readName?, List.takeWhile_cons_of_pos hn] at h
    cases h

/-- A row of terms with the longest names is read up to a place where no term begins. -/
theorem readTerms_append (h : TermsForm terms form) (munched : IsMunched terms) (stops : readTerm? rest = none) :
    readTerms (form ++ rest) = (terms, rest) := by
  induction h with
  | @single x form h =>
    have read : readTerm? (form ++ rest) = some (x, rest) :=
      readTerm?_eq_some_iff.mpr ⟨form, h, fun _ => nameEnds_of_readTerm?_eq_none stops, rfl⟩
    rw [readTerms_of_some read, readTerms_of_none stops]
  | @cons x terms form form' h row ih =>
    have read : readTerm? (form ++ (form' ++ rest)) = some (x, form' ++ rest) := by
      refine readTerm?_eq_some_iff.mpr ⟨form, h, fun hn => ?_, rfl⟩
      obtain ⟨y, terms, rfl⟩ := List.exists_cons_of_ne_nil row.ne_nil.1
      exact (row.nameEnds_iff rest).mpr ((List.isChain_cons_cons.mp munched).1 hn)
    rw [List.append_assoc, readTerms_of_some read, ih munched.tail]

/-! ## Rows of compound selectors -/

variable {compounds : List CompoundSelector}

namespace CompoundsForm

/-- A row of compound selectors begins with a character that is no white space. -/
theorem head?_append (h : CompoundsForm compounds form) (rest : List Char) :
    ∀ c ∈ (form ++ rest).head?, isWhiteSpace c = false := by
  obtain ⟨c, cs, rfl, solid⟩ := h.head
  rintro _ ⟨⟩
  exact solid

/-- A row of compound selectors ends with a character that is no white space. -/
theorem getLast?_form (h : CompoundsForm compounds form) : ∀ c ∈ form.getLast?, isWhiteSpace c = false := by
  obtain ⟨cs, c, rfl, solid⟩ := h.last
  rw [List.getLast?_concat]
  rintro _ ⟨⟩
  exact solid

/-- White space around a row of compound selectors is all that goes. -/
theorem trim_append {front behind : List Char} (h : CompoundsForm compounds form)
    (blank : ∀ b ∈ front, isWhiteSpace b = true) (blank' : ∀ b ∈ behind, isWhiteSpace b = true) :
    trim (String.ofList (front ++ (form ++ behind))) = String.ofList form := by
  rw [trim, String.toList_ofList, trimStart_append blank (h.head?_append behind), trimEnd_append blank' h.getLast?_form]

end CompoundsForm

theorem CompoundSelector.terms_of_ofTerms? {terms : List SimpleSelector} {compound : CompoundSelector}
    (h : ofTerms? terms = some compound) : compound.terms = terms := by
  unfold ofTerms? at h
  split at h
  · cases h
    rfl
  · cases h

theorem CompoundSelector.ofTerms?_terms (compound : CompoundSelector) : ofTerms? compound.terms = some compound :=
  dif_pos compound.terms_ne_nil

/-- What is read behind the terms of a compound selector. -/
theorem readCompounds_of_readTerms {compound : CompoundSelector} (h : readTerms cs = (compound.terms, rest)) :
    readCompounds cs =
      match rest with
      | [] => .ok [compound]
      | c :: after =>
        if isWhiteSpace c then
          match readCompounds (trimStart after) with
          | .ok compounds => .ok (compound :: compounds)
          | .error unread => .error unread
        else .error (c :: after) := by
  rw [readCompounds]
  split
  case h_1 read =>
    cases h.symm.trans read
    simp only [compound.ofTerms?_terms]
    cases rest with
    | nil | cons => rfl

/-- A compound selector that is read is a row of terms with the longest names. -/
theorem termsForm_of_readTerms {compound : CompoundSelector} (h : readTerms cs = (compound.terms, rest)) :
    ∃ form, TermsForm compound.terms form ∧ IsMunched compound.terms ∧ cs = form ++ rest := by
  have sound := readTerms_sound cs
  rw [h] at sound
  exact sound.resolve_left fun nothing => compound.terms_ne_nil (Prod.mk.inj nothing).1

/-- Whatever is read are compound selectors with the longest names. -/
theorem compoundsForm_of_readCompounds (h : readCompounds cs = .ok compounds) :
    CompoundsForm compounds cs ∧ ∀ c ∈ compounds, IsMunched c.terms := by
  fun_induction readCompounds cs generalizing compounds with
  | case1 | case4 | case5 => cases h
  | case2 cs terms compound made _ read =>
    cases h
    rw [← compound.terms_of_ofTerms? made] at read
    obtain ⟨form, row, munched, rfl⟩ := termsForm_of_readTerms read
    rw [List.append_nil]
    exact ⟨.single row, List.forall_mem_singleton.mpr munched⟩
  | case3 cs terms compound made c after _ blank compounds' others read ih =>
    cases h
    rw [← compound.terms_of_ofTerms? made] at read
    obtain ⟨form, row, munched, rfl⟩ := termsForm_of_readTerms read
    obtain ⟨behind, all⟩ := ih others
    have text : c :: after = (c :: after.takeWhile isWhiteSpace) ++ trimStart after := by
      rw [List.cons_append, trimStart, List.takeWhile_append_dropWhile]
    rw [text]
    refine ⟨.cons row (List.cons_ne_nil _ _) ?_ behind, List.forall_mem_cons.mpr ⟨munched, all⟩⟩
    exact List.forall_mem_cons.mpr ⟨blank, fun b hb => List.mem_takeWhile_imp hb⟩

/-- Compound selectors with the longest names are read. -/
theorem readCompounds_of_compoundsForm (h : CompoundsForm compounds cs)
    (munched : ∀ c ∈ compounds, IsMunched c.terms) : readCompounds cs = .ok compounds := by
  induction h with
  | @single compound form h =>
    have read : readTerms (form ++ []) = (compound.terms, []) :=
      readTerms_append h (munched _ List.mem_cons_self) rfl
    rw [List.append_nil] at read
    exact readCompounds_of_readTerms read
  | @cons compound compounds form blanks rest h hb blank behind ih =>
    obtain ⟨mine, others⟩ := List.forall_mem_cons.mp munched
    obtain ⟨b, blanks, rfl⟩ := List.exists_cons_of_ne_nil hb
    obtain ⟨hb, blank⟩ := List.forall_mem_cons.mp blank
    have read : readTerms (form ++ (b :: blanks ++ rest)) = (compound.terms, b :: (blanks ++ rest)) := by
      refine readTerms_append h mine (Interrupts.readTerm?_eq_none ?_)
      rintro _ ⟨⟩
      exact hb
    rw [readCompounds_of_readTerms read]
    dsimp only
    have solid := behind.head?_append []
    rw [List.append_nil] at solid
    rw [if_pos hb, trimStart_append blank solid, ih others]

/-- **Compound selectors are read if and only if they are the derivation with the longest names.** -/
theorem readCompounds_eq_ok_iff :
    readCompounds cs = .ok compounds ↔ CompoundsForm compounds cs ∧ ∀ c ∈ compounds, IsMunched c.terms :=
  ⟨compoundsForm_of_readCompounds, fun ⟨h, munched⟩ => readCompounds_of_compoundsForm h munched⟩

/-! ## Selectors -/

/-- White space around a text is all there is if nothing is left without it. -/
theorem trimEnd_trimStart_eq_nil_iff : trimEnd (trimStart cs) = [] ↔ ∀ c ∈ cs, isWhiteSpace c = true := by
  rw [trimEnd, List.reverse_eq_nil_iff, List.dropWhile_eq_nil_iff, trimStart]
  constructor
  · intro h c hc
    rw [← List.takeWhile_append_dropWhile (p := isWhiteSpace) (l := cs)] at hc
    rcases List.mem_append.mp hc with front | behind
    · exact List.mem_takeWhile_imp front
    · exact h c (List.mem_reverse.mpr behind)
  · intro h c hc
    exact h c ((List.dropWhile_sublist _).subset (List.mem_reverse.mp hc))

namespace ComplexSelector

variable {p : ComplexSelector} {s : String}

/-- The compound selectors of a selector, and the selector of compound selectors. -/
theorem ofCompounds?_eq_some_iff : ofCompounds? compounds = some p ↔ compounds = p.compounds := by
  constructor
  · intro h
    obtain ⟨subject, last, rfl⟩ := Option.map_eq_some_iff.mp h
    exact (List.dropLast_append_getLast? subject last).symm
  · rintro rfl
    simp [ofCompounds?, ComplexSelector.compounds]

theorem parse_eq (s : String) : parse s =
    if (trim s).toList = [] then .ok none
    else
      match readCompounds (trim s).toList with
      | .ok compounds => .ok (ofCompounds? compounds)
      | .error unread => .error ⟨s, byteLength s.toList - byteLength (trimStart s.toList) +
          (byteLength (trim s).toList - byteLength unread)⟩ := by
  rw [trim, String.toList_ofList]
  rfl

/-- What is read is the derivation with the longest names. -/
theorem parse_eq_ok_some_iff : parse s = .ok (some p) ↔ p.HasForm (trim s).toList ∧ p.IsMunched := by
  rw [parse_eq]
  constructor
  · intro h
    split at h
    · cases h
    · split at h
      case h_1 compounds read =>
        cases ofCompounds?_eq_some_iff.mp (Except.ok.inj h)
        exact readCompounds_eq_ok_iff.mp read
      case h_2 => cases h
  · intro h
    obtain ⟨c, cs, cons, -⟩ := h.1.head
    have read := readCompounds_eq_ok_iff.mpr h
    rw [if_neg (by rw [cons]; exact List.cons_ne_nil c cs), read]
    exact congrArg Except.ok (ofCompounds?_eq_some_iff.mpr rfl)

/-- Only white space is read as the selector without parts. -/
theorem parse_eq_ok_none_iff : parse s = .ok none ↔ ∀ c ∈ s.toList, isWhiteSpace c = true := by
  have empty : (trim s).toList = [] ↔ ∀ c ∈ s.toList, isWhiteSpace c = true := by
    rw [trim, String.toList_ofList]
    exact trimEnd_trimStart_eq_nil_iff
  rw [parse_eq]
  constructor
  · intro h
    split at h
    case isTrue nil => exact empty.mp nil
    case isFalse =>
      split at h
      case h_1 compounds read =>
        have noLast : compounds.getLast? = none := Option.map_eq_none_iff.mp (Except.ok.inj h)
        exact absurd (List.getLast?_eq_none_iff.mp noLast) (readCompounds_eq_ok_iff.mp read).1.ne_nil
      case h_2 => cases h
  · intro h
    exact if_pos (empty.mpr h)

/-- A text is read if it has a derivation at all. -/
theorem exists_parse_eq_ok_some_iff :
    (∃ p, parse s = .ok (some p)) ↔ ∃ p : ComplexSelector, p.HasForm (trim s).toList := by
  constructor
  · rintro ⟨p, h⟩
    exact ⟨p, (parse_eq_ok_some_iff.mp h).1⟩
  · rintro ⟨p, h⟩
    obtain ⟨compounds, form, munched⟩ := h.exists_munched
    refine ⟨⟨compounds.dropLast, compounds.getLast form.ne_nil⟩, parse_eq_ok_some_iff.mpr ?_⟩
    have parts : compounds.dropLast ++ [compounds.getLast form.ne_nil] = compounds :=
      List.dropLast_append_getLast form.ne_nil
    exact ⟨by rw [HasForm, ComplexSelector.compounds, parts]; exact form,
      by rw [IsMunched, ComplexSelector.compounds, parts]; exact munched⟩

/-- An error names the text that was to be read. -/
theorem source_of_parse_eq_error {e : UnreadableSelector} (h : parse s = .error e) : e.source = s := by
  rw [parse_eq] at h
  split at h
  · cases h
  · split at h
    · cases h
    · cases h
      rfl

/-- **The texts that are read are those of the grammar, and what is read is the derivation with the longest names.** -/
theorem parse_iff_derivation (s : String) :
    (parse s = .ok none ↔ ∀ c ∈ s.toList, isWhiteSpace c = true) ∧
    (∀ p, parse s = .ok (some p) ↔ p.HasForm (trim s).toList ∧ p.IsMunched) ∧
    ((∃ p, parse s = .ok (some p)) ↔ ∃ p : ComplexSelector, p.HasForm (trim s).toList) ∧
    (∀ p q : ComplexSelector, p.HasForm (trim s).toList ∧ p.IsMunched → q.HasForm (trim s).toList ∧ q.IsMunched →
      p = q) ∧
    (∀ (x y : SimpleSelector) (form form' rest : List Char), x.HasForm form → y.HasForm form' →
      (IsLongest form (form' ++ rest) ↔ (x.endsInName = true → y.isTag = false))) ∧
    ((∃ offset, parse s = .error ⟨s, offset⟩) ↔
      (∃ c ∈ s.toList, isWhiteSpace c = false) ∧ ¬ ∃ p : ComplexSelector, p.HasForm (trim s).toList) := by
  refine ⟨parse_eq_ok_none_iff, fun p => parse_eq_ok_some_iff, exists_parse_eq_ok_some_iff, ?unique, ?longest, ?error⟩
  case unique =>
    intro p q hp hq
    have same := (parse_eq_ok_some_iff.mpr hp).symm.trans (parse_eq_ok_some_iff.mpr hq)
    exact Option.some.inj (Except.ok.inj same)
  case longest =>
    intro x y form form' rest hx hy
    rw [isLongest_iff hx, hy.nameEnds_iff]
  case error =>
    have solid : (∃ c ∈ s.toList, isWhiteSpace c = false) ↔ parse s ≠ .ok none := by
      rw [Ne, parse_eq_ok_none_iff]
      simp
    rw [← exists_parse_eq_ok_some_iff, solid]
    constructor
    · rintro ⟨offset, h⟩
      exact ⟨fun blank => absurd (h.symm.trans blank) nofun, fun ⟨p, read⟩ => absurd (h.symm.trans read) nofun⟩
    · rintro ⟨notBlank, notRead⟩
      match h : parse s with
      | .ok none => exact absurd h notBlank
      | .ok (some p) => exact absurd ⟨p, h⟩ notRead
      | .error ⟨source, offset⟩ =>
        cases source_of_parse_eq_error h
        exact ⟨offset, rfl⟩

/-- A tag behind an attribute is a term of its own. -/
def listItem : ComplexSelector :=
  ⟨[⟨[.hasTag "ul"], nofun⟩], ⟨[.hasAttribute "a" (some "b"), .hasTag "li", .hasId "c"], nofun⟩⟩

theorem parse_listItem : parse " ul \u00a0[a='b']li#c\n" = .ok (some listItem) ∧ ¬ IsLongest ['u'] ['l'] := by
  obtain ⟨-, read, -, -, longest, -⟩ := parse_iff_derivation " ul \u00a0[a='b']li#c\n"
  constructor
  · have list : TermsForm [.hasTag "ul"] _ := .single (.hasTag (by decide))
    have item : TermsForm [.hasAttribute "a" (some "b"), .hasTag "li", .hasId "c"] _ :=
      .cons (.hasValue (by decide) (.single (by decide)))
        (.cons (.hasTag (by decide)) (.single (.hasId (by decide))))
    refine (read listItem).mpr ⟨?_, by decide⟩
    exact @CompoundsForm.cons ⟨[.hasTag "ul"], nofun⟩ _ _ [' ', '\u00a0'] _ list nofun
      (List.all_eq_true.mp (by decide)) (.single item)
  · have tag (name : String) (h : IsName name) : (SimpleSelector.hasTag name).HasForm name.toList := .hasTag h
    have apart := longest _ _ _ _ [] (tag "u" (by decide)) (tag "l" (by decide))
    exact fun h => absurd (apart.mp h) (by decide)

end ComplexSelector

end HtmlQuery
