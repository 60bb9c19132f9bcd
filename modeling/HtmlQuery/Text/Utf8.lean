/-!
# Byte positions

Positions in a text are counted in the bytes of its UTF-8 form.

* `byteLength_toList` — the length of a text is the number of its bytes;
* `dropBytes?_append` — behind the bytes of a front comes the text behind it.
-/

namespace HtmlQuery.Text

/-- The number of bytes of a text. -/
def byteLength : List Char → Nat
  | [] => 0
  | c :: cs => c.utf8Size + byteLength cs

/-- The text from byte `n` on, unless byte `n` is inside a character or behind the end. -/
def dropBytes? : (n : Nat) → (cs : List Char) → Option (List Char)
  | 0, cs => some cs
  | _ + 1, [] => none
  | n + 1, c :: cs => if c.utf8Size ≤ n + 1 then dropBytes? (n + 1 - c.utf8Size) cs else none

theorem byteLength_append : ∀ cs ds : List Char, byteLength (cs ++ ds) = byteLength cs + byteLength ds
  | [], ds => (Nat.zero_add _).symm
  | c :: cs, ds => by rw [List.cons_append, byteLength, byteLength, byteLength_append cs ds, Nat.add_assoc]

theorem byteLength_toList (s : String) : byteLength s.toList = s.utf8ByteSize := by
  have ofList (cs : List Char) : byteLength cs = (String.ofList cs).utf8ByteSize := by
    induction cs with
    | nil => simp [byteLength]
    | cons c cs ih => rw [byteLength, ih, String.ofList_cons, String.utf8ByteSize_append, String.utf8ByteSize_singleton]
  rw [ofList, String.ofList_toList]

theorem dropBytes?_append (ds : List Char) : ∀ cs : List Char, dropBytes? (byteLength cs) (cs ++ ds) = some ds
  | [] => by cases ds <;> rfl
  | c :: cs => by
    have pos := c.utf8Size_pos
    obtain ⟨n, hn⟩ : ∃ n, byteLength (c :: cs) = n + 1 := Nat.exists_eq_succ_of_ne_zero (by rw [byteLength]; omega)
    have fits : c.utf8Size ≤ n + 1 := by rw [← hn, byteLength]; omega
    have rest : n + 1 - c.utf8Size = byteLength cs := by rw [← hn, byteLength]; omega
    rw [hn, List.cons_append, dropBytes?, if_pos fits, rest, dropBytes?_append ds cs]

end HtmlQuery.Text
