import HtmlQuery.Tree.Traversal

/-!
# Outlines

A node and what is below it as text, a line for each node, indented by level.

* `Element.startTag` — the start tag of an element, with the attributes in the order of their names;
* `Tree.outline` — the lines of a node and of everything below it.
-/

namespace HtmlQuery

/-- An attribute inside a start tag. An empty value is not written. -/
def attributeText (name value : String) : String :=
  if value.isEmpty then " " ++ name else " " ++ name ++ "=\"" ++ value ++ "\""

/-- The start tag of an element. -/
def Element.startTag (e : Element) : String :=
  "<" ++ e.tag ++ String.join (e.attributes.toList.map fun p => attributeText p.1 p.2) ++ ">"

/-- The text with each line feed written as a backslash and an `n`. -/
def escapeLineFeeds (s : String) : String :=
  String.ofList (s.toList.flatMap fun c => if c = '\n' then ['\\', 'n'] else [c])

/-- A node in an outline, without its indentation. -/
def NodeKind.label : NodeKind → String
  | .document => "Document"
  | .element e => e.startTag
  | .text data => "\"" ++ escapeLineFeeds data ++ "\""
  | .comment data => "<!-- " ++ data ++ " -->"

/-- Two spaces for each level. -/
def indent (level : Nat) : String :=
  String.ofList (List.replicate (2 * level) ' ')

namespace Tree

/-- The line of a node at a level. A name without a node has none. -/
def outlineLine (t : Tree) (id : NodeId) (level : Nat) : String :=
  match t.get? id with
  | some node => indent level ++ node.kind.label ++ "\n"
  | none => ""

/-- The outline of a node. -/
def outline (t : Tree) (id : NodeId) : String :=
  String.join ((t.subtree id).map fun entry => t.outlineLine entry.1 entry.2)

end Tree

end HtmlQuery
