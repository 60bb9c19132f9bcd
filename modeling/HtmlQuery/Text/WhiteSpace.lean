/-!
# White space

The characters with the Unicode property `White_Space`, and texts without them at their ends.

* `trimStart_append`, `trimEnd_append` — white space goes up to the first character that is none;
* `exists_append_trim` — a text is what is left of it between white space.
-/

namespace HtmlQuery.Text

/-- The first and last code points of the runs of white space. -/
def whiteSpaceRanges : List (Nat × Nat) :=
  [(0x09, 0x0D), (0x20, 0x20), (0x85, 0x85), (0xA0, 0xA0), (0x1680, 0x1680), (0x2000, 0x200A), (0x2028, 0x2029),
   (0x202F, 0x202F), (0x205F, 0x205F), (0x3000, 0x3000)]

/-- The Unicode property `White_Space`. -/
def isWhiteSpace (c : Char) : Bool :=
  whiteSpaceRanges.any fun range => range.1 ≤ c.toNat && c.toNat ≤ range.2

/-- The text without the white space at its front. -/
def trimStart (cs : List Char) : List Char :=
  cs.dropWhile isWhiteSpace

/-- The text without the white space at its end. -/
def trimEnd (cs : List Char) : List Char :=
  (cs.reverse.dropWhile isWhiteSpace).reverse

/-- The text without the white space at both ends. -/
def trim (s : String) : String :=
  String.ofList (trimEnd (trimStart s.toList))

/-! ## The two ends of a text -/

variable {cs blanks : List Char}

/-- The white space at the front is all that goes. -/
theorem trimStart_append (blank : ∀ b ∈ blanks, isWhiteSpace b = true)
    (solid : ∀ c ∈ cs.head?, isWhiteSpace c = false) : trimStart (blanks ++ cs) = cs := by
  rw [trimStart, List.dropWhile_append_of_pos blank]
  cases cs with
  | nil => rfl
  | cons c cs => exact List.dropWhile_cons_of_neg (by simp [solid c rfl])

theorem trimEnd_eq (cs : List Char) : trimEnd cs = (trimStart cs.reverse).reverse := rfl

/-- The white space at the end is all that goes. -/
theorem trimEnd_append (blank : ∀ b ∈ blanks, isWhiteSpace b = true)
    (solid : ∀ c ∈ cs.getLast?, isWhiteSpace c = false) : trimEnd (cs ++ blanks) = cs := by
  have front : trimStart (blanks.reverse ++ cs.reverse) = cs.reverse := by
    refine trimStart_append (fun b hb => blank b (List.mem_reverse.mp hb)) fun c hc => solid c ?_
    rwa [List.head?_reverse] at hc
  rw [trimEnd_eq, List.reverse_append, front, List.reverse_reverse]

theorem exists_append_trimStart (cs : List Char) :
    ∃ blanks, (∀ b ∈ blanks, isWhiteSpace b = true) ∧ cs = blanks ++ trimStart cs :=
  ⟨cs.takeWhile isWhiteSpace, List.all_eq_true.mp List.all_takeWhile, List.takeWhile_append_dropWhile.symm⟩

theorem exists_trimEnd_append (cs : List Char) :
    ∃ blanks, (∀ b ∈ blanks, isWhiteSpace b = true) ∧ cs = trimEnd cs ++ blanks := by
  obtain ⟨blanks, blank, eq⟩ := exists_append_trimStart cs.reverse
  refine ⟨blanks.reverse, fun b hb => blank b (List.mem_reverse.mp hb), ?_⟩
  rw [trimEnd_eq, ← List.reverse_append, ← eq, List.reverse_reverse]

theorem head?_trimStart (cs : List Char) : ∀ c ∈ (trimStart cs).head?, isWhiteSpace c = false := by
  intro c hc
  have first := List.head?_dropWhile_not isWhiteSpace cs
  rw [trimStart] at hc
  rw [hc] at first
  exact first

theorem getLast?_trimEnd (cs : List Char) : ∀ c ∈ (trimEnd cs).getLast?, isWhiteSpace c = false := by
  rw [trimEnd_eq, List.getLast?_reverse]
  exact head?_trimStart cs.reverse

/-- A text that begins with a character that is no white space also ends with one, up to white space. -/
theorem exists_cons_trimEnd {c : Char} (solid : isWhiteSpace c = false) (cs : List Char) : ∃ text blanks,
    (∀ b ∈ blanks, isWhiteSpace b = true) ∧ c :: cs = c :: text ++ blanks ∧
    ∀ d ∈ (c :: text).getLast?, isWhiteSpace d = false := by
  obtain ⟨blanks, blank, eq⟩ := exists_trimEnd_append (c :: cs)
  have last := getLast?_trimEnd (c :: cs)
  cases h : trimEnd (c :: cs) with
  | nil =>
    rw [h, List.nil_append] at eq
    have blank := blank c (eq ▸ List.mem_cons_self)
    exact absurd (solid.symm.trans blank) Bool.false_ne_true
  | cons d text =>
    rw [h] at eq last
    obtain rfl := (List.cons.inj eq).1
    exact ⟨text, blanks, blank, eq, last⟩

/-- Between the white space at its two ends, a text begins and ends with a character that is none. -/
theorem exists_append_trim (cs : List Char) : ∃ front behind,
    (∀ b ∈ front, isWhiteSpace b = true) ∧ (∀ b ∈ behind, isWhiteSpace b = true) ∧
    cs = front ++ trimStart cs ∧ trimStart cs = trimEnd (trimStart cs) ++ behind ∧
    (∀ c ∈ (trimEnd (trimStart cs)).head?, isWhiteSpace c = false) ∧
    ∀ c ∈ (trimEnd (trimStart cs)).getLast?, isWhiteSpace c = false := by
  obtain ⟨front, blank, eq⟩ := exists_append_trimStart cs
  obtain ⟨behind, blank', eq'⟩ := exists_trimEnd_append (trimStart cs)
  refine ⟨front, behind, blank, blank', eq, eq', fun c hc => head?_trimStart cs c ?_, getLast?_trimEnd _⟩
  rw [eq', List.head?_append, hc]
  rfl

end HtmlQuery.Text
