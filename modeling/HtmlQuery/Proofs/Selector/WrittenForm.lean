import HtmlQuery.Proofs.Selector.Reading

/-!
# Reading what was written

Every selector has a written form, also one that was put together from names that no text could give it. The written
form is read as the selector again exactly if its names are names and none of them could be longer, and such are all
selectors that are read.

* `SimpleSelector.HasNames`, `ComplexSelector.IsCanonical` — the selectors that have a derivation;
* `ComplexSelector.hasForm_text` — the written form of a canonical selector is one of its forms;
* `ComplexSelector.parse_text_iff` — what is written is read, for canonical selectors and for no others.
-/

namespace HtmlQuery

open Text

variable {form : List Char}

/-! ## Terms -/

namespace SimpleSelector

variable {x : SimpleSelector}

/-- The names of the term are names, and so is its value. -/
def HasNames : SimpleSelector → Prop
  | .hasId name | .hasClass name | .hasTag name => IsName name
  | .hasAttribute name value => IsName name ∧ ∀ v ∈ value, IsName v

instance : DecidablePred HasNames
  | .hasId name | .hasClass name | .hasTag name => inferInstanceAs (Decidable (IsName name))
  | .hasAttribute name value => inferInstanceAs (Decidable (IsName name ∧ ∀ v ∈ value, IsName v))

theorem HasForm.hasNames (h : x.HasForm form) : x.HasNames := by
  cases h with
  | hasId h | hasClass h | hasTag h => exact h
  | hasAttribute h => exact ⟨h, nofun⟩
  | hasValue h hv =>
    refine ⟨h, ?_⟩
    rintro _ ⟨⟩
    cases hv with
    | bare hv | double hv | single hv => exact hv

theorem hasForm_text (h : x.HasNames) : x.HasForm x.text.toList := by
  cases x with
  | hasId name =>
    rw [text, String.toList_append]
    exact .hasId h
  | hasClass name =>
    rw [text, String.toList_append]
    exact .hasClass h
  | hasTag name => exact .hasTag h
  | hasAttribute name value =>
    obtain ⟨hn, hv⟩ := h
    cases value with
    | none =>
      rw [text, String.toList_append, String.toList_append]
      exact .hasAttribute hn
    | some value =>
      have quoted := HasForm.hasValue hn (.double (hv value rfl))
      have eq : (hasAttribute name (some value)).text.toList =
          '[' :: (name.toList ++ '=' :: ('"' :: (value.toList ++ ['"']) ++ [']'])) := by
        simp [text]
      exact eq ▸ quoted

end SimpleSelector

/-! ## Rows of terms -/

namespace TermsForm

variable {terms : List SimpleSelector}

theorem hasNames (h : TermsForm terms form) : ∀ x ∈ terms, x.HasNames := by
  induction h with
  | single h => exact List.forall_mem_singleton.mpr h.hasNames
  | cons h _ ih => exact List.forall_mem_cons.mpr ⟨h.hasNames, ih⟩

theorem join : ∀ {terms : List SimpleSelector}, terms ≠ [] → (∀ x ∈ terms, x.HasNames) →
    TermsForm terms (String.join (terms.map SimpleSelector.text)).toList
  | [x], _, h => by
    rw [List.map_singleton, String.join_cons, String.join_nil, String.append_empty]
    exact .single (x.hasForm_text (h x List.mem_cons_self))
  | x :: y :: terms, _, h => by
    obtain ⟨hx, others⟩ := List.forall_mem_cons.mp h
    rw [List.map_cons, String.join_cons, String.toList_append]
    exact .cons (x.hasForm_text hx) (join (List.cons_ne_nil _ _) others)

end TermsForm

/-! ## Rows of compound selectors -/

namespace CompoundsForm

variable {compounds : List CompoundSelector}

theorem hasNames (h : CompoundsForm compounds form) : ∀ c ∈ compounds, ∀ x ∈ c.terms, x.HasNames := by
  induction h with
  | single h => exact List.forall_mem_singleton.mpr h.hasNames
  | cons h _ _ _ ih => exact List.forall_mem_cons.mpr ⟨h.hasNames, ih⟩

theorem intercalate : ∀ {compounds : List CompoundSelector}, compounds ≠ [] →
    (∀ c ∈ compounds, ∀ x ∈ c.terms, x.HasNames) →
    CompoundsForm compounds (" ".intercalate (compounds.map CompoundSelector.text)).toList
  | [c], _, h => by
    rw [List.map_singleton, String.intercalate_singleton]
    exact .single (.join c.terms_ne_nil (h c List.mem_cons_self))
  | c :: d :: compounds, _, h => by
    obtain ⟨hc, others⟩ := List.forall_mem_cons.mp h
    rw [List.map_cons, List.map_cons, String.intercalate_cons_cons, String.toList_append, String.toList_append,
      List.append_assoc]
    have blank : ∀ b ∈ " ".toList, isWhiteSpace b = true := List.all_eq_true.mp (by decide)
    exact .cons (.join c.terms_ne_nil hc) (List.cons_ne_nil _ _) blank (intercalate (List.cons_ne_nil _ _) others)

/-- There is no white space around a selector. -/
theorem trim_eq_self {s : String} (h : CompoundsForm compounds s.toList) : trim s = s := by
  have same : trim (String.ofList ([] ++ (s.toList ++ []))) = String.ofList s.toList := h.trim_append nofun nofun
  rwa [List.nil_append, List.append_nil, String.ofList_toList] at same

end CompoundsForm

/-! ## Selectors -/

namespace ComplexSelector

/-- All names are names, and in no compound selector a tag stands directly behind a term that ends with a name. -/
def IsCanonical (p : ComplexSelector) : Prop := (∀ c ∈ p.compounds, ∀ x ∈ c.terms, x.HasNames) ∧ p.IsMunched

instance (p : ComplexSelector) : Decidable p.IsCanonical := inferInstanceAs (Decidable (_ ∧ _))

variable {p : ComplexSelector} {s : String}

theorem HasForm.isCanonical (h : p.HasForm form) (munched : p.IsMunched) : p.IsCanonical := ⟨h.hasNames, munched⟩

/-- The written form of a canonical selector is one of its forms, and nothing is left out when it is read. -/
theorem hasForm_text (h : p.IsCanonical) : p.HasForm (trim p.text).toList := by
  have ne : p.compounds ≠ [] := List.append_ne_nil_of_right_ne_nil _ (List.cons_ne_nil _ _)
  have form : CompoundsForm p.compounds p.text.toList := .intercalate ne h.1
  rw [form.trim_eq_self]
  exact form

theorem parse_text (h : p.IsCanonical) : parse p.text = .ok (some p) :=
  parse_eq_ok_some_iff.mpr ⟨hasForm_text h, h.2⟩

theorem isCanonical_of_parse (h : parse s = .ok (some p)) : p.IsCanonical := by
  obtain ⟨form, munched⟩ := parse_eq_ok_some_iff.mp h
  exact HasForm.isCanonical form munched

/-- **Exactly the canonical selectors are read as they are written.** All selectors that are read are canonical, so
that they are read again from their written form, and different ones have different written forms. -/
theorem parse_text_iff :
    (∀ p : ComplexSelector, parse p.text = .ok (some p) ↔ p.IsCanonical) ∧
    (∀ (s : String) (p : ComplexSelector), parse s = .ok (some p) → p.IsCanonical ∧ parse p.text = .ok (some p)) ∧
    ∀ (s t : String) (p q : ComplexSelector), parse s = .ok (some p) → parse t = .ok (some q) →
      (p.text = q.text ↔ p = q) := by
  refine ⟨fun p => ⟨isCanonical_of_parse, parse_text⟩, fun s p h => ?again, fun s t p q hp hq => ?different⟩
  case again =>
    have canonical := isCanonical_of_parse h
    exact ⟨canonical, parse_text canonical⟩
  case different =>
    refine ⟨fun text => ?_, congrArg ComplexSelector.text⟩
    have same := (parse_text (isCanonical_of_parse hp)).symm.trans (text ▸ parse_text (isCanonical_of_parse hq))
    exact Option.some.inj (Except.ok.inj same)

/-- The value is written in double quotes, and it is read as before. A tag directly behind a tag is not. -/
theorem parse_text_listItem :
    parse "ul [a=\"b\"]li#c" = .ok (some listItem) ∧
    parse "ab" ≠ .ok (some ⟨[], ⟨[.hasTag "a", .hasTag "b"], nofun⟩⟩) := by
  obtain ⟨same, again, -⟩ := parse_text_iff
  have read : parse listItem.text = .ok (some listItem) := (same listItem).mpr (by decide)
  exact ⟨(again _ _ read).2, fun h => absurd (again _ _ h).1 (by decide)⟩

end ComplexSelector

end HtmlQuery
