import HtmlQuery.Tree.Basic
import Std.Data.HashSet

/-!
# Selections

The nodes that a search has found, each once, in the order in which they were found.

* `Selection.ofList` — of a node that is found more than once the first time counts;
* `Selection.sameNodes` — compares two selections without their order, `=` compares them with it.
-/

namespace HtmlQuery

/-- Nodes without repetition, in the order in which they were found. -/
structure Selection where
  nodes : List NodeId
  nodup : nodes.Nodup
  deriving DecidableEq, Repr

namespace Selection

/-- The selection without nodes. -/
def empty : Selection := ⟨[], .nil⟩

instance : Inhabited Selection := ⟨empty⟩

/-- The nodes of a list that are not in `seen`, each where it first occurs. -/
def firstOccurrences (seen : Std.HashSet NodeId) : List NodeId → List NodeId
  | [] => []
  | id :: ids => if id ∈ seen then firstOccurrences seen ids else id :: firstOccurrences (seen.insert id) ids

/-- What remains of a list is what has not been seen. -/
theorem mem_firstOccurrences (id : NodeId) (seen : Std.HashSet NodeId) (ids : List NodeId) :
    id ∈ firstOccurrences seen ids ↔ id ∈ ids ∧ id ∉ seen := by
  induction ids generalizing seen with
  | nil => simp [firstOccurrences]
  | cons x ids ih =>
    unfold firstOccurrences
    split
    · rw [ih]
      grind
    · rw [List.mem_cons, ih]
      grind

theorem nodup_firstOccurrences (seen : Std.HashSet NodeId) (ids : List NodeId) :
    (firstOccurrences seen ids).Nodup := by
  induction ids generalizing seen with
  | nil => exact .nil
  | cons x ids ih =>
    unfold firstOccurrences
    split
    · exact ih seen
    · refine List.nodup_cons.mpr ⟨fun h => ?_, ih _⟩
      exact ((mem_firstOccurrences x _ ids).mp h).2 Std.HashSet.mem_insert_self

/-- The nodes of a list. -/
def ofList (ids : List NodeId) : Selection := ⟨firstOccurrences ∅ ids, nodup_firstOccurrences ∅ ids⟩

def size (s : Selection) : Nat := s.nodes.length

def isEmpty (s : Selection) : Bool := s.nodes.isEmpty

def contains (s : Selection) (id : NodeId) : Bool := s.nodes.contains id

/-- Whether two selections have the same nodes, in any order. As neither repeats a node, it is enough that they have as
many, and that one has all nodes of the other. -/
def sameNodes (s u : Selection) : Bool :=
  s.size == u.size && s.nodes.all (Std.HashSet.ofList u.nodes).contains

end Selection

end HtmlQuery
