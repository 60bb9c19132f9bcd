import HtmlQuery.Proofs.Selector.Reading

/-!
# Selectors of one term

Most selectors are a single term, and those are read in one step, without rows of terms and rows of compound selectors.
The short way reads exactly what the long way reads as one term, so it makes no difference that it is tried first.

* `ComplexSelector.IsSingle` — the selectors that consist of one term;
* `ComplexSelector.parseTerm?_eq_some_iff` — the short way by the grammar;
* `Selector.parse_eq_map` — both ways together are the long way;
* `Selector.parse_agrees` — the two ways agree on every text.
-/

namespace HtmlQuery

open Text

variable {s : String} {p : ComplexSelector} {x : SimpleSelector} {form : List Char}

namespace ComplexSelector

/-- The selector consists of one compound selector, and this of the one term `x`. -/
def IsSingle (p : ComplexSelector) (x : SimpleSelector) : Prop := p.compounds.map CompoundSelector.terms = [[x]]

theorem isSingle_iff : p.IsSingle x ↔ p = ⟨[], ⟨[x], List.cons_ne_nil x []⟩⟩ := by
  constructor
  · intro h
    obtain ⟨ancestors, terms, ne⟩ := p
    cases ancestors with
    | nil =>
      obtain rfl : terms = [x] := (List.cons.inj h).1
      rfl
    | cons c ancestors =>
      have length := congrArg List.length h
      simp [compounds] at length
  · rintro rfl
    rfl

/-- A single term has the forms of the term. -/
theorem IsSingle.hasForm_iff (h : p.IsSingle x) : p.HasForm form ↔ x.HasForm form := by
  rw [isSingle_iff.mp h]
  constructor
  · intro derivation
    cases derivation with
    | single row =>
      cases row with
      | single hx => exact hx
      | cons _ row => exact absurd rfl row.ne_nil.1
    | cons _ _ _ others => exact absurd rfl others.ne_nil
  · exact fun hx => .single (.single hx)

theorem IsSingle.isMunched (h : p.IsSingle x) : p.IsMunched := by
  rw [isSingle_iff.mp h]
  exact List.forall_mem_singleton.mpr (List.isChain_singleton x)

/-- The short way reads the texts that are one term between white space. -/
theorem parseTerm?_eq_some_iff : parseTerm? s = some p ↔ ∃ x, p.IsSingle x ∧ x.HasForm (trim s).toList := by
  have read {x : SimpleSelector} : readTerm? (trim s).toList = some (x, []) ↔ x.HasForm (trim s).toList := by
    rw [readTerm?_eq_some_iff]
    constructor
    · rintro ⟨form, hx, -, eq⟩
      rwa [eq, List.append_nil]
    · exact fun hx => ⟨_, hx, fun _ => nofun, (List.append_nil _).symm⟩
  rw [trim, String.toList_ofList] at read ⊢
  unfold parseTerm?
  constructor
  · intro h
    split at h
    case h_1 x found =>
      cases h
      exact ⟨x, rfl, read.mp found⟩
    case h_2 => cases h
  · rintro ⟨x, single, hx⟩
    rw [read.mpr hx, isSingle_iff.mp single]

/-- The short way reads what the long way reads as a single term. -/
theorem parseTerm?_eq_some_iff_parse : parseTerm? s = some p ↔ parse s = .ok (some p) ∧ ∃ x, p.IsSingle x := by
  rw [parseTerm?_eq_some_iff, parse_eq_ok_some_iff]
  constructor
  · rintro ⟨x, single, hx⟩
    exact ⟨⟨single.hasForm_iff.mpr hx, single.isMunched⟩, x, single⟩
  · rintro ⟨⟨derivation, -⟩, x, single⟩
    exact ⟨x, single, single.hasForm_iff.mp derivation⟩

end ComplexSelector

namespace Selector

/-- A selector is what the long way reads. -/
theorem parse_eq_map (s : String) : parse s = (ComplexSelector.parse s).map Selector.mk := by
  unfold parse
  split
  case h_1 p short => rw [(ComplexSelector.parseTerm?_eq_some_iff_parse.mp short).1, Except.map]
  case h_2 => rfl

theorem parse_eq_error_iff {s : String} {e : UnreadableSelector} :
    parse s = .error e ↔ ComplexSelector.parse s = .error e := by
  rw [parse_eq_map]
  cases ComplexSelector.parse s <;> simp [Except.map]

/-- **The two ways to read a selector agree.** The short way gives a selector if and only if the long way gives the same
one and it is a single term. So the short way before the long one changes neither what is read nor the error. -/
theorem parse_agrees (s : String) :
    (∀ p, ComplexSelector.parseTerm? s = some p ↔
      ComplexSelector.parse s = .ok (some p) ∧ ∃ x, p.compounds.map CompoundSelector.terms = [[x]]) ∧
    (∀ complex?, parse s = .ok ⟨complex?⟩ ↔ ComplexSelector.parse s = .ok complex?) ∧
    ∀ e, parse s = .error e ↔ ComplexSelector.parse s = .error e := by
  refine ⟨fun p => ComplexSelector.parseTerm?_eq_some_iff_parse, fun complex? => ?_, fun e => ?_⟩
  · rw [parse_eq_map]
    cases ComplexSelector.parse s <;> simp [Except.map]
  · rw [parse_eq_map]
    cases ComplexSelector.parse s <;> simp [Except.map]

end Selector

end HtmlQuery
