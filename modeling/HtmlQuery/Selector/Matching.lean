import HtmlQuery.Selector.Basic
import HtmlQuery.Text.Ascii
import HtmlQuery.Text.WhiteSpace
import HtmlQuery.Tree.Traversal

/-!
# Which nodes match

Only elements match. An id counts without the white space around it, names of tags without the case of their ASCII
letters, and a class if it is one of the words of the class attribute. Attribute values have to be equal.

* `ComplexSelector.holdsAt` — whether a node matches, its ancestors included.
-/

namespace HtmlQuery

open Text

namespace SimpleSelector

/-- Whether an element meets the condition. -/
def accepts (e : Element) : SimpleSelector → Bool
  | .hasId name => (e.attribute? "id").any fun id => trim id == name
  | .hasClass name => (e.attribute? "class").any fun classes => (words classes).contains name
  | .hasTag name => sameIgnoringCase e.tag name
  | .hasAttribute name value => (e.attribute? name).any fun actual => value.all fun expected => actual == expected

/-- Whether a node is an element that meets the condition. -/
def holdsAt (s : SimpleSelector) (t : Tree) (id : NodeId) : Bool := (t.element? id).any s.accepts

end SimpleSelector

namespace CompoundSelector

/-- Whether a node is an element that meets all conditions. -/
def holdsAt (c : CompoundSelector) (t : Tree) (id : NodeId) : Bool := c.terms.all fun s => s.holdsAt t id

end CompoundSelector

/-- Whether compound selectors, the innermost first, hold at some of the nodes in the same order. Each takes the first
node at which it holds, which leaves the most nodes to those behind it. -/
def matchesInOrder (t : Tree) : List CompoundSelector → List NodeId → Bool
  | [], _ => true
  | _ :: _, [] => false
  | c :: compounds, id :: ids =>
    if c.holdsAt t id then matchesInOrder t compounds ids else matchesInOrder t (c :: compounds) ids

namespace ComplexSelector

/-- Whether the ancestors of a node meet the conditions on ancestors. -/
def holdsAbove (c : ComplexSelector) (t : Tree) (id : NodeId) : Bool :=
  matchesInOrder t c.ancestors.reverse (t.ancestors id)

/-- Whether a node matches. -/
def holdsAt (c : ComplexSelector) (t : Tree) (id : NodeId) : Bool :=
  c.subject.holdsAt t id && c.holdsAbove t id

end ComplexSelector

/-- Whether a node matches. Nothing matches the empty selector. -/
def Selector.holdsAt (s : Selector) (t : Tree) (id : NodeId) : Bool := s.complex?.any fun c => c.holdsAt t id

end HtmlQuery
