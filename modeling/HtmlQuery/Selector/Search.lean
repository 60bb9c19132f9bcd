import HtmlQuery.Lookup.Finder
import HtmlQuery.Selector.Selection

/-!
# Searching

A search looks up one condition on the subject, the anchor, and keeps the elements that meet the other conditions and
whose ancestors match. With a context it stays strictly below it; the ancestors that match may be anywhere.

* `ComplexSelector.search`, `Selector.search` — the elements that match.
-/

namespace HtmlQuery

/-- The elements below the context that match. -/
def ComplexSelector.search (c : ComplexSelector) (f : Finder) (context : Option NodeId) : Selection :=
  .ofList ((f.lookup c.subject.anchor context).filter fun id =>
    c.subject.others.all (fun s => s.holdsAt f.tree id) && c.holdsAbove f.tree id)

namespace Selector

/-- The elements below the context that match. -/
def search (s : Selector) (f : Finder) (context : Option NodeId) : Selection :=
  match s.complex? with
  | some c => c.search f context
  | none => .empty

/-- The conditions that a search looks up: one, or none for the empty selector. -/
def lookups (s : Selector) : List SimpleSelector := s.complex?.toList.map fun c => c.subject.anchor

end Selector

end HtmlQuery
