import HtmlQuery.Selector.Reader
import Mathlib.Data.List.Chain

/-!
# The grammar of selectors

The texts that are selectors, told by rules and without a reader. A text can have several derivations, since a name of
two characters is also two names: `ab` is one tag, and it is a tag behind a tag. The derivation that counts is the one
in which every name is as long as possible.

* `SimpleSelector.HasForm`, `TermsForm`, `ComplexSelector.HasForm` — the written forms of terms, of rows of terms, and
  of compound selectors with white space between them;
* `IsMunched` — no tag stands directly behind a term that ends with a name;
* `IsLongest` — no longer form of a term begins at the same place;
* `CompoundsForm.exists_munched` — a text with a derivation has one with the longest names.
-/

namespace HtmlQuery

open Text

/-! ## Names -/

/-- A name is a row of ASCII letters, digits, underscores and hyphens, at least one. -/
def IsName (name : String) : Prop :=
  name ≠ "" ∧ ∀ c ∈ name.toList, 'A' ≤ c ∧ c ≤ 'Z' ∨ 'a' ≤ c ∧ c ≤ 'z' ∨ '0' ≤ c ∧ c ≤ '9' ∨ c = '_' ∨ c = '-'

theorem isNameCharacter_iff {c : Char} : isNameCharacter c = true ↔
    'A' ≤ c ∧ c ≤ 'Z' ∨ 'a' ≤ c ∧ c ≤ 'z' ∨ '0' ≤ c ∧ c ≤ '9' ∨ c = '_' ∨ c = '-' := by
  have range {a b : Char} : (decide (c.val ≥ a.val) && decide (c.val ≤ b.val)) = true ↔ a ≤ c ∧ c ≤ b := by
    rw [Bool.and_eq_true, decide_eq_true_iff, decide_eq_true_iff]
    exact Iff.rfl
  have upper : c.isUpper = true ↔ 'A' ≤ c ∧ c ≤ 'Z' := decide_eq_true_iff
  have lower : c.isLower = true ↔ 'a' ≤ c ∧ c ≤ 'z' := range
  have digit : c.isDigit = true ↔ '0' ≤ c ∧ c ≤ '9' := range
  have alphanumeric : c.isAlphanum = (c.isUpper || c.isLower || c.isDigit) := rfl
  simp only [isNameCharacter, alphanumeric, Bool.or_eq_true, beq_iff_eq, upper, lower, digit, or_assoc]

instance (name : String) : Decidable (IsName name) :=
  decidable_of_iff (name ≠ "" ∧ name.toList.all isNameCharacter = true)
    (and_congr_right fun _ => by simp only [List.all_eq_true, isNameCharacter_iff])

/-- The code points of the characters of names. -/
theorem toNat_of_isNameCharacter {c : Char} (h : isNameCharacter c = true) : 65 ≤ c.toNat ∧ c.toNat ≤ 90 ∨
    97 ≤ c.toNat ∧ c.toNat ≤ 122 ∨ 48 ≤ c.toNat ∧ c.toNat ≤ 57 ∨ c.toNat = 95 ∨ c.toNat = 45 := by
  rcases isNameCharacter_iff.mp h with upper | lower | digit | rfl | rfl
  · exact .inl upper
  · exact .inr (.inl lower)
  · exact .inr (.inr (.inl digit))
  · exact .inr (.inr (.inr (.inl rfl)))
  · exact .inr (.inr (.inr (.inr rfl)))

theorem isWhiteSpace_of_isNameCharacter {c : Char} (h : isNameCharacter c = true) : isWhiteSpace c = false := by
  have bounds := toNat_of_isNameCharacter h
  simp only [isWhiteSpace, whiteSpaceRanges, List.any_cons, List.any_nil, Bool.or_eq_false_iff, Bool.and_eq_false_iff,
    decide_eq_false_iff_not, and_true]
  omega

/-- The characters of terms: those of names, and the signs around names. -/
def isTermCharacter (c : Char) : Bool := isNameCharacter c || ['#', '.', '[', ']', '=', '"', '\''].contains c

theorem isTermCharacter_of_isNameCharacter {c : Char} (h : isNameCharacter c = true) : isTermCharacter c = true :=
  (Bool.or_eq_true _ _).mpr (.inl h)

theorem isWhiteSpace_of_isTermCharacter {c : Char} (h : isTermCharacter c = true) : isWhiteSpace c = false := by
  have signs : ∀ c ∈ ['#', '.', '[', ']', '=', '"', '\''], (!isWhiteSpace c) = true := List.all_eq_true.mp rfl
  rcases (Bool.or_eq_true _ _).mp h with name | sign
  · exact isWhiteSpace_of_isNameCharacter name
  · exact (Bool.not_eq_true' _).mp (signs c (List.contains_iff_mem.mp sign))

/-- A name in front of this text ends here. -/
def NameEnds (rest : List Char) : Prop := ∀ c ∈ rest.head?, isNameCharacter c = false

namespace IsName

variable {name other : String}

theorem chars (h : IsName name) : ∀ c ∈ name.toList, isNameCharacter c = true :=
  fun c hc => isNameCharacter_iff.mpr (h.2 c hc)

theorem isTermCharacter (h : IsName name) : ∀ c ∈ name.toList, isTermCharacter c = true :=
  fun c hc => isTermCharacter_of_isNameCharacter (h.chars c hc)

/-- A name has a first character. -/
theorem cons (h : IsName name) : ∃ c cs, name.toList = c :: cs ∧ isNameCharacter c = true := by
  cases eq : name.toList with
  | nil => exact absurd (String.toList_eq_nil_iff.mp eq) h.1
  | cons c cs => exact ⟨c, cs, rfl, h.chars c (eq ▸ List.mem_cons_self)⟩

theorem append (h : IsName name) (h' : IsName other) : IsName (name ++ other) := by
  refine ⟨fun eq => h.1 ?_, fun c hc => ?_⟩
  · exact (String.append_eq_empty_iff.mp eq).1
  · rw [String.toList_append] at hc
    exact (List.mem_append.mp hc).elim (h.2 c) (h'.2 c)

end IsName

/-! ## Terms -/

/-- The written forms of a value: bare, or in one of the two kinds of quotation marks. -/
inductive ValueForm : String → List Char → Prop
  | bare {value : String} (h : IsName value) : ValueForm value value.toList
  | double {value : String} (h : IsName value) : ValueForm value ('"' :: (value.toList ++ ['"']))
  | single {value : String} (h : IsName value) : ValueForm value ('\'' :: (value.toList ++ ['\'']))

namespace SimpleSelector

/-- The written forms of a term. -/
inductive HasForm : SimpleSelector → List Char → Prop
  | hasId {name : String} (h : IsName name) : HasForm (.hasId name) ('#' :: name.toList)
  | hasClass {name : String} (h : IsName name) : HasForm (.hasClass name) ('.' :: name.toList)
  | hasTag {name : String} (h : IsName name) : HasForm (.hasTag name) name.toList
  | hasAttribute {name : String} (h : IsName name) :
    HasForm (.hasAttribute name none) ('[' :: (name.toList ++ [']']))
  | hasValue {name value : String} {form : List Char} (h : IsName name) (hv : ValueForm value form) :
    HasForm (.hasAttribute name (some value)) ('[' :: (name.toList ++ '=' :: (form ++ [']'])))

/-- All terms but those on attributes end with a name. -/
def endsInName : SimpleSelector → Bool
  | .hasAttribute _ _ => false
  | _ => true

def isTag : SimpleSelector → Bool
  | .hasTag _ => true
  | _ => false

/-- The term with a longer name, if it ends with a name. -/
def extend (more : String) : SimpleSelector → SimpleSelector
  | .hasId name => .hasId (name ++ more)
  | .hasClass name => .hasClass (name ++ more)
  | .hasTag name => .hasTag (name ++ more)
  | .hasAttribute name value => .hasAttribute name value

end SimpleSelector

variable {x y : SimpleSelector} {form form' rest : List Char} {value more : String}

theorem ValueForm.isTermCharacter (h : ValueForm value form) : ∀ c ∈ form, isTermCharacter c = true := by
  cases h with
  | bare h => exact h.isTermCharacter
  | double h | single h =>
    simp only [List.forall_mem_cons, List.forall_mem_append]
    exact ⟨by decide, h.isTermCharacter, by decide, nofun⟩

namespace SimpleSelector.HasForm

theorem ne_nil (h : x.HasForm form) : form ≠ [] := by
  cases h with
  | hasTag h =>
    obtain ⟨c, cs, eq, -⟩ := h.cons
    exact eq ▸ List.cons_ne_nil _ _
  | hasId | hasClass | hasAttribute | hasValue => exact List.cons_ne_nil _ _

/-- A term is written with the characters of terms. -/
theorem isTermCharacter (h : x.HasForm form) : ∀ c ∈ form, isTermCharacter c = true := by
  cases h with
  | hasId h | hasClass h => exact List.forall_mem_cons.mpr ⟨by decide, h.isTermCharacter⟩
  | hasTag h => exact h.isTermCharacter
  | hasAttribute h =>
    simp only [List.forall_mem_cons, List.forall_mem_append]
    exact ⟨by decide, h.isTermCharacter, by decide, nofun⟩
  | hasValue h hv =>
    simp only [List.forall_mem_cons, List.forall_mem_append]
    exact ⟨by decide, h.isTermCharacter, by decide, hv.isTermCharacter, by decide, nofun⟩

/-- White space is no part of a term. -/
theorem isWhiteSpace_eq_false (h : x.HasForm form) : ∀ c ∈ form, isWhiteSpace c = false :=
  fun c hc => isWhiteSpace_of_isTermCharacter (h.isTermCharacter c hc)

/-- Only a tag begins with a name. -/
theorem nameEnds_iff (h : x.HasForm form) (rest : List Char) : NameEnds (form ++ rest) ↔ x.isTag = false := by
  cases h with
  | hasTag h =>
    obtain ⟨c, cs, eq, hc⟩ := h.cons
    refine iff_of_false (fun ends => ?_) nofun
    have stops := ends c (by rw [eq]; rfl)
    exact Bool.false_ne_true (stops.symm.trans hc)
  | hasId | hasClass | hasAttribute | hasValue =>
    refine iff_of_true ?_ rfl
    rintro _ ⟨⟩
    decide

/-- A name can be longer. -/
theorem extend (h : x.HasForm form) (hx : x.endsInName = true) (hm : IsName more) :
    (x.extend more).HasForm (form ++ more.toList) := by
  cases h with
  | hasId h => rw [List.cons_append, ← String.toList_append]; exact .hasId (h.append hm)
  | hasClass h => rw [List.cons_append, ← String.toList_append]; exact .hasClass (h.append hm)
  | hasTag h => rw [← String.toList_append]; exact .hasTag (h.append hm)
  | hasAttribute | hasValue => cases hx

end SimpleSelector.HasForm

/-! ## Rows of terms -/

/-- Terms one directly behind the other, at least one. -/
inductive TermsForm : List SimpleSelector → List Char → Prop
  | single {x : SimpleSelector} {form : List Char} (h : x.HasForm form) : TermsForm [x] form
  | cons {x : SimpleSelector} {terms : List SimpleSelector} {form rest : List Char} (h : x.HasForm form)
    (ht : TermsForm terms rest) : TermsForm (x :: terms) (form ++ rest)

/-- No tag stands directly behind a term that ends with a name, for the two names could be one. -/
def IsMunched (terms : List SimpleSelector) : Prop :=
  terms.IsChain fun x y => x.endsInName = true → y.isTag = false

instance (terms : List SimpleSelector) : Decidable (IsMunched terms) := inferInstanceAs (Decidable (List.IsChain _ _))

/-- No form of a term at the front of `form ++ rest` is longer than `form`. -/
def IsLongest (form rest : List Char) : Prop :=
  ∀ (x : SimpleSelector) (other : List Char), x.HasForm other → other <+: form ++ rest → other.length ≤ form.length

namespace TermsForm

variable {terms : List SimpleSelector}

theorem ne_nil (h : TermsForm terms form) : terms ≠ [] ∧ form ≠ [] := by
  cases h with
  | single h => exact ⟨List.cons_ne_nil _ _, h.ne_nil⟩
  | cons h => exact ⟨List.cons_ne_nil _ _, List.append_ne_nil_of_left_ne_nil h.ne_nil _⟩

/-- A row of terms begins with a name only if it begins with a tag. -/
theorem nameEnds_iff (h : TermsForm (x :: terms) form) (rest : List Char) :
    NameEnds (form ++ rest) ↔ x.isTag = false := by
  cases h with
  | single h => exact h.nameEnds_iff rest
  | cons h =>
    rw [List.append_assoc]
    exact h.nameEnds_iff _

theorem isTermCharacter (h : TermsForm terms form) : ∀ c ∈ form, isTermCharacter c = true := by
  induction h with
  | single h => exact h.isTermCharacter
  | cons h _ ih => exact List.forall_mem_append.mpr ⟨h.isTermCharacter, ih⟩

/-- White space is no part of a row of terms. -/
theorem isWhiteSpace_eq_false (h : TermsForm terms form) : ∀ c ∈ form, isWhiteSpace c = false :=
  fun c hc => isWhiteSpace_of_isTermCharacter (h.isTermCharacter c hc)

/-- A name and the tag directly behind it are also one name. -/
theorem extend {name : String} (h : x.HasForm form) (hx : x.endsInName = true)
    (row : TermsForm (.hasTag name :: terms) rest) : TermsForm (x.extend name :: terms) (form ++ rest) := by
  cases row with
  | single tag =>
    cases tag with
    | hasTag hn => exact .single (h.extend hx hn)
  | cons tag row =>
    cases tag with
    | hasTag hn =>
      rw [← List.append_assoc]
      exact .cons (h.extend hx hn) row

end TermsForm

theorem IsMunched.of_hasTag {name : String} {terms : List SimpleSelector} (h : IsMunched (.hasTag name :: terms))
    (x : SimpleSelector) : IsMunched (x :: terms) := by
  cases terms with
  | nil => exact List.isChain_singleton _
  | cons y terms =>
    obtain ⟨apart, munched⟩ := List.isChain_cons_cons.mp h
    exact List.isChain_cons_cons.mpr ⟨fun _ => apart rfl, munched⟩

/-- Where there is a row of terms, there is one in which no name could be longer. -/
theorem TermsForm.exists_munched {terms : List SimpleSelector} (h : TermsForm terms form) :
    ∃ terms, TermsForm terms form ∧ IsMunched terms := by
  induction h with
  | single h => exact ⟨_, .single h, List.isChain_singleton _⟩
  | @cons x _ form rest h _ ih =>
    obtain ⟨terms, row, munched⟩ := ih
    obtain ⟨y, terms, rfl⟩ := List.exists_cons_of_ne_nil row.ne_nil.1
    by_cases apart : x.endsInName = true → y.isTag = false
    · exact ⟨x :: y :: terms, .cons h row, List.isChain_cons_cons.mpr ⟨apart, munched⟩⟩
    · obtain ⟨hx, hy⟩ := Classical.not_imp.mp apart
      cases y with
      | hasTag name => exact ⟨x.extend name :: terms, .extend h hx row, munched.of_hasTag _⟩
      | hasId | hasClass | hasAttribute => exact absurd rfl hy

/-! ## Rows of compound selectors -/

/-- Compound selectors with white space between them, at least one. -/
inductive CompoundsForm : List CompoundSelector → List Char → Prop
  | single {c : CompoundSelector} {form : List Char} (h : TermsForm c.terms form) : CompoundsForm [c] form
  | cons {c : CompoundSelector} {compounds : List CompoundSelector} {form blanks rest : List Char}
    (h : TermsForm c.terms form) (hb : blanks ≠ []) (blank : ∀ b ∈ blanks, isWhiteSpace b = true)
    (hc : CompoundsForm compounds rest) : CompoundsForm (c :: compounds) (form ++ (blanks ++ rest))

namespace ComplexSelector

/-- The written forms of a selector. -/
def HasForm (p : ComplexSelector) (form : List Char) : Prop := CompoundsForm p.compounds form

/-- In every compound selector all names are as long as possible. -/
def IsMunched (p : ComplexSelector) : Prop := ∀ c ∈ p.compounds, HtmlQuery.IsMunched c.terms

instance (p : ComplexSelector) : Decidable p.IsMunched :=
  inferInstanceAs (Decidable (∀ c ∈ p.compounds, HtmlQuery.IsMunched c.terms))

end ComplexSelector

namespace CompoundsForm

variable {compounds : List CompoundSelector}

theorem ne_nil (h : CompoundsForm compounds form) : compounds ≠ [] := by
  cases h with
  | single | cons => exact List.cons_ne_nil _ _

/-- The first character is a part of a term. -/
theorem head (h : CompoundsForm compounds form) : ∃ c cs, form = c :: cs ∧ isWhiteSpace c = false := by
  have row {terms : List SimpleSelector} {form : List Char} (h : TermsForm terms form) (rest : List Char) :
      ∃ c cs, form ++ rest = c :: cs ∧ isWhiteSpace c = false := by
    obtain ⟨c, cs, rfl⟩ := List.exists_cons_of_ne_nil h.ne_nil.2
    exact ⟨c, cs ++ rest, rfl, h.isWhiteSpace_eq_false c List.mem_cons_self⟩
  cases h with
  | single h => simpa using row h []
  | cons h => exact row h _

/-- The last character is a part of a term. -/
theorem last (h : CompoundsForm compounds form) : ∃ cs c, form = cs ++ [c] ∧ isWhiteSpace c = false := by
  induction h with
  | @single _ form h =>
    refine ⟨form.dropLast, form.getLast h.ne_nil.2, (List.dropLast_append_getLast h.ne_nil.2).symm, ?_⟩
    exact h.isWhiteSpace_eq_false _ (List.getLast_mem h.ne_nil.2)
  | @cons _ _ form blanks _ _ _ _ _ ih =>
    obtain ⟨cs, c, rfl, solid⟩ := ih
    exact ⟨form ++ (blanks ++ cs), c, by simp only [List.append_assoc], solid⟩

/-- Besides the characters of terms there is only white space. -/
theorem isTermCharacter_or_isWhiteSpace (h : CompoundsForm compounds form) :
    ∀ c ∈ form, isTermCharacter c = true ∨ isWhiteSpace c = true := by
  induction h with
  | single h => exact fun c hc => .inl (h.isTermCharacter c hc)
  | cons h _ blank _ ih =>
    simp only [List.forall_mem_append]
    exact ⟨fun c hc => .inl (h.isTermCharacter c hc), fun b hb => .inr (blank b hb), ih⟩

/-- Where there is a derivation, there is one in which no name could be longer. -/
theorem exists_munched (h : CompoundsForm compounds form) :
    ∃ compounds, CompoundsForm compounds form ∧ ∀ c ∈ compounds, IsMunched c.terms := by
  induction h with
  | single h =>
    obtain ⟨terms, row, munched⟩ := h.exists_munched
    exact ⟨[⟨terms, row.ne_nil.1⟩], .single row, by simpa using munched⟩
  | cons h hb blank _ ih =>
    obtain ⟨terms, row, munched⟩ := h.exists_munched
    obtain ⟨compounds, others, all⟩ := ih
    exact ⟨⟨terms, row.ne_nil.1⟩ :: compounds, .cons row hb blank others, List.forall_mem_cons.mpr ⟨munched, all⟩⟩

end CompoundsForm

end HtmlQuery
