/-!
# The attributes of an element

An element has at most one value for each attribute name. The names have no order of their own, so they are kept in
alphabetical order, by code point. Two lists of attributes are then equal as soon as they give every name the same
value.

* `Attributes.get?_insert`, `Attributes.get?_insertIfNew` — writing changes the value of one name only; the second way
  of writing leaves a name that has a value as it is;
* `Attributes.ext_get?` — the values decide.
-/

namespace HtmlQuery

/-- The values of some names, in the order of the names. -/
structure Attributes where
  entries : List (String × String)
  sorted : entries.Pairwise fun a b => a.1 < b.1
  deriving DecidableEq

namespace Attributes

/-- No attributes. -/
def empty : Attributes := ⟨[], .nil⟩

instance : Inhabited Attributes := ⟨empty⟩

/-- The names and values in the order of the names. -/
def toList (a : Attributes) : List (String × String) := a.entries

/-- The value of a name. -/
def get? (a : Attributes) (name : String) : Option String := a.entries.lookup name

/-- Writes a value into a sorted list, over any value of the same name. -/
def put (name value : String) : List (String × String) → List (String × String)
  | [] => [(name, value)]
  | (n, v) :: rest =>
    if name < n then (name, value) :: (n, v) :: rest
    else if name = n then (name, value) :: rest
    else (n, v) :: put name value rest

theorem fst_of_mem_put {name value : String} : ∀ {entries : List (String × String)} {e : String × String},
    e ∈ put name value entries → e.1 = name ∨ e ∈ entries
  | [], e, h => by simp_all [put]
  | (n, v) :: rest, e, h => by
    unfold put at h
    split at h
    · grind
    · split at h
      · grind
      · rcases List.mem_cons.mp h with h | h
        · exact .inr (h ▸ List.mem_cons_self)
        · exact (fst_of_mem_put h).imp id (List.mem_cons_of_mem _)

theorem pairwise_put (name value : String) : ∀ {entries : List (String × String)},
    entries.Pairwise (fun a b => a.1 < b.1) → (put name value entries).Pairwise fun a b => a.1 < b.1
  | [], _ => by simp [put]
  | (n, v) :: rest, h => by
    have ⟨below, ordered⟩ := List.pairwise_cons.mp h
    unfold put
    split
    · rename_i lt
      refine List.pairwise_cons.mpr ⟨fun e he => ?_, h⟩
      rcases List.mem_cons.mp he with rfl | he
      · exact lt
      · exact String.lt_trans lt (below e he)
    · split
      · rename_i eq
        exact List.pairwise_cons.mpr ⟨fun e he => eq ▸ below e he, ordered⟩
      · refine List.pairwise_cons.mpr ⟨fun e he => ?_, pairwise_put name value ordered⟩
        rcases fst_of_mem_put he with h' | h'
        · show n < e.1
          grind
        · exact below e h'

theorem lookup_put (name value m : String) : ∀ {entries : List (String × String)},
    entries.Pairwise (fun a b => a.1 < b.1) →
      (put name value entries).lookup m = if m = name then some value else entries.lookup m
  | [], _ => by grind [put]
  | (n, v) :: rest, h => by
    have ih := lookup_put name value m (List.pairwise_cons.mp h).2
    grind [put]

/-- Gives a name a value, in place of the value it has. -/
def insert (a : Attributes) (name value : String) : Attributes :=
  ⟨put name value a.entries, pairwise_put name value a.sorted⟩

/-- Gives a name a value unless it has one. -/
def insertIfNew (a : Attributes) (name value : String) : Attributes :=
  if (a.get? name).isSome then a else a.insert name value

/-- The attributes written by a list of pairs, of which the last one for a name counts. -/
def ofList (pairs : List (String × String)) : Attributes :=
  pairs.foldl (fun a p => a.insert p.1 p.2) empty

@[simp] theorem get?_empty (name : String) : empty.get? name = none := rfl

theorem get?_insert (a : Attributes) (name value m : String) :
    (a.insert name value).get? m = if m = name then some value else a.get? m :=
  lookup_put name value m a.sorted

theorem get?_insertIfNew (a : Attributes) (name value m : String) :
    (a.insertIfNew name value).get? m = if m = name then some ((a.get? name).getD value) else a.get? m := by
  unfold insertIfNew
  cases h : a.get? name <;> grind [get?_insert]

theorem lookup_of_mem {e : String × String} : ∀ {entries : List (String × String)},
    entries.Pairwise (fun a b => a.1 < b.1) → e ∈ entries → entries.lookup e.1 = some e.2
  | [], _, h => absurd h List.not_mem_nil
  | (n, v) :: rest, h, he => by
    have ⟨below, ordered⟩ := List.pairwise_cons.mp h
    rcases List.mem_cons.mp he with rfl | he
    · simp
    · have : e.1 ≠ n := fun h' => String.lt_irrefl n (by simpa [h'] using below e he)
      rw [List.lookup_cons, beq_eq_false_iff_ne.mpr this]
      exact lookup_of_mem ordered he

theorem mem_of_lookup {name value : String} : ∀ {entries : List (String × String)},
    entries.lookup name = some value → (name, value) ∈ entries
  | [], h => absurd h (by simp)
  | (n, v) :: rest, h => by
    rw [List.lookup_cons] at h
    split at h
    · rename_i eq
      simp_all
    · exact List.mem_cons_of_mem _ (mem_of_lookup h)

theorem mem_toList {a : Attributes} {name value : String} : (name, value) ∈ a.toList ↔ a.get? name = some value :=
  ⟨fun h => lookup_of_mem a.sorted h, mem_of_lookup⟩

/-- Sorted lists with the same members are equal. -/
theorem eq_of_pairwise {s t : List (String × String)} (hs : s.Pairwise fun a b => a.1 < b.1)
    (ht : t.Pairwise fun a b => a.1 < b.1) (h : ∀ e, e ∈ s ↔ e ∈ t) : s = t := by
  have nodup {l : List (String × String)} (hl : l.Pairwise fun a b => a.1 < b.1) : l.Nodup :=
    hl.imp fun {a b} (lt : a.1 < b.1) (eq : a = b) => String.lt_irrefl b.1 (eq ▸ lt)
  exact ((List.perm_ext_iff_of_nodup (nodup hs) (nodup ht)).mpr h).eq_of_pairwise
    (fun a b _ _ ab ba => absurd ba (String.lt_asymm ab)) hs ht

/-- Attributes are equal when they give every name the same value. -/
theorem ext_get? {a b : Attributes} (h : ∀ name, a.get? name = b.get? name) : a = b := by
  have he : a.entries = b.entries := eq_of_pairwise a.sorted b.sorted fun (name, value) => by
    show (name, value) ∈ a.toList ↔ (name, value) ∈ b.toList
    rw [mem_toList, mem_toList, h]
  cases a
  cases b
  simp_all

end Attributes

end HtmlQuery
