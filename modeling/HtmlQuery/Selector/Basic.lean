/-!
# Selectors

A selector describes elements. A simple selector is one condition on an element, a compound selector is several at once,
and a complex selector is a compound selector for the element, its subject, behind compound selectors for ancestors of
the element, each further out than the next. Compound selectors are never empty.

* `CompoundSelector.anchor` — the condition by which a search finds its candidates;
* `Selector` — a complex selector, or the empty selector that no element matches;
* `text` of each kind — the written form.
-/

namespace HtmlQuery

/-- A condition on an element. -/
inductive SimpleSelector where
  | hasId (name : String)
  | hasClass (name : String)
  | hasTag (name : String)
  /-- Without a value, the attribute only has to be there. -/
  | hasAttribute (name : String) (value : Option String)
  deriving DecidableEq, Repr

namespace SimpleSelector

/-- The name that the condition asks for. -/
def name : SimpleSelector → String
  | .hasId name | .hasClass name | .hasTag name | .hasAttribute name _ => name

def isId : SimpleSelector → Bool
  | .hasId _ => true
  | _ => false

/-- The written form. Values stand in double quotes. -/
def text : SimpleSelector → String
  | .hasId name => "#" ++ name
  | .hasClass name => "." ++ name
  | .hasTag name => name
  | .hasAttribute name none => "[" ++ name ++ "]"
  | .hasAttribute name (some value) => "[" ++ name ++ "=\"" ++ value ++ "\"]"

end SimpleSelector

/-- Conditions on one element, at least one, in the order in which they were written. -/
structure CompoundSelector where
  terms : List SimpleSelector
  terms_ne_nil : terms ≠ []
  deriving DecidableEq, Repr

namespace CompoundSelector

/-- The compound selector of some conditions. Without conditions there is none. -/
def ofTerms? (terms : List SimpleSelector) : Option CompoundSelector :=
  if h : terms ≠ [] then some ⟨terms, h⟩ else none

/-- The place of the first condition on the id. -/
def idPosition? (c : CompoundSelector) : Option Nat := c.terms.findIdx? SimpleSelector.isId

/-- The condition that a search looks up: the first one on the id, or else the first one. -/
def anchor (c : CompoundSelector) : SimpleSelector :=
  (c.terms.find? SimpleSelector.isId).getD (c.terms.head c.terms_ne_nil)

/-- The conditions that a search checks after it has looked up the anchor. -/
def others (c : CompoundSelector) : List SimpleSelector := c.terms.erase c.anchor

/-- The written form. -/
def text (c : CompoundSelector) : String := String.join (c.terms.map SimpleSelector.text)

end CompoundSelector

/-- A description of an element by conditions on itself and on some of its ancestors. -/
structure ComplexSelector where
  /-- The conditions on ancestors, the outermost first. -/
  ancestors : List CompoundSelector
  /-- The conditions on the element itself. -/
  subject : CompoundSelector
  deriving DecidableEq, Repr

namespace ComplexSelector

/-- The complex selector of compound selectors from the outermost ancestor to the subject. -/
def ofCompounds? (compounds : List CompoundSelector) : Option ComplexSelector :=
  compounds.getLast?.map fun subject => ⟨compounds.dropLast, subject⟩

/-- The compound selectors from the outermost ancestor to the subject. -/
def compounds (c : ComplexSelector) : List CompoundSelector := c.ancestors ++ [c.subject]

/-- Whether there are no conditions on ancestors. -/
def isCompound (c : ComplexSelector) : Bool := c.ancestors.isEmpty

/-- The written form, with single spaces between the compound selectors. -/
def text (c : ComplexSelector) : String := String.intercalate " " (c.compounds.map CompoundSelector.text)

end ComplexSelector

/-- A selector that is ready for use. The empty selector has no parts and matches nothing. -/
structure Selector where
  complex? : Option ComplexSelector
  deriving DecidableEq, Repr

namespace Selector

/-- The written form, which is empty for the empty selector. -/
def text (s : Selector) : String := (s.complex?.map ComplexSelector.text).getD ""

end Selector

end HtmlQuery
