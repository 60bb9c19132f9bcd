import HtmlQuery.Lookup.Config
import HtmlQuery.Selector.Matching
import Std.Data.HashMap

/-!
# Looking up elements

A finder looks up elements by one condition. Elements come in document order. A lookup with a context stays strictly
below it; the lookup by id always sees the whole document and takes the first element.

* `Finder.elementById?`, `Finder.elementsByClass` — through the tree or through an index, as the configuration says;
* `Finder.elementsByTag`, `Finder.elementsByAttribute` — always through the tree.
-/

namespace HtmlQuery

open Text

/-! ## Indexes -/

/-- The elements of each class, in document order. -/
abbrev ClassIndex := Std.HashMap String (Array NodeId)

/-- Enters an element under one class, unless it is already the last one there. -/
def ClassIndex.enter (index : ClassIndex) (id : NodeId) (name : String) : ClassIndex :=
  index.alter name fun ids? =>
    let ids := ids?.getD #[]
    some (if ids.back? == some id then ids else ids.push id)

namespace Tree

/-- The id of an element, without the white space around it. -/
def trimmedId? (t : Tree) (id : NodeId) : Option String := (t.attribute? id "id").map trim

/-- The classes of an element, as they are written. -/
def classes (t : Tree) (id : NodeId) : List String := ((t.attribute? id "class").map words).getD []

/-- The first element of each id. -/
def idIndex (t : Tree) : Std.HashMap String NodeId :=
  (t.elementsBelow root).foldl (fun index id =>
    match t.trimmedId? id with
    | some name => index.insertIfNew name id
    | none => index) ∅

/-- The elements of each class. -/
def classIndex (t : Tree) : ClassIndex :=
  (t.elementsBelow root).foldl (fun index id => (t.classes id).foldl (fun index name => index.enter id name) index) ∅

end Tree

/-! ## Lookups -/

/-- A tree with the indexes that its configuration asks for. -/
structure Finder where
  tree : Tree
  config : Config
  ids? : Option (Std.HashMap String NodeId)
  classes? : Option ClassIndex

namespace Finder

/-- The finder of a tree. -/
def ofTree (tree : Tree) (config : Config) : Finder where
  tree
  config
  ids? := if config.ids = .index then some tree.idIndex else none
  classes? := if config.classes = .index then some tree.classIndex else none

/-- The elements below the context, or of the whole document, that pass a test. -/
def elementsWhere (f : Finder) (context : Option NodeId) (test : NodeId → Bool) : List NodeId :=
  (f.tree.elementsBelow (context.getD Tree.root)).filter test

/-- Whether a node is below the context. -/
def isWithin (f : Finder) (context : Option NodeId) (id : NodeId) : Bool :=
  context.all fun ancestor => f.tree.isBelow id ancestor

/-- The first element of the document with an id. -/
def elementById? (f : Finder) (name : String) : Option NodeId :=
  match f.ids? with
  | some index => index[name]?
  | none => (f.tree.elementsBelow Tree.root).find? fun id =>
      (f.tree.attribute? id "id").any fun value => trim value == name

/-- The elements with a tag. -/
def elementsByTag (f : Finder) (name : String) (context : Option NodeId) : List NodeId :=
  f.elementsWhere context fun id => (f.tree.tag? id).any fun tag => sameIgnoringCase tag name

/-- The elements of a class. -/
def elementsByClass (f : Finder) (name : String) (context : Option NodeId) : List NodeId :=
  match f.classes? with
  | some index => ((index[name]?).getD #[]).toList.filter (f.isWithin context)
  | none => f.elementsWhere context fun id =>
      (f.tree.attribute? id "class").any fun value => (words value).contains name

/-- The elements with an attribute, and with its value if one is given. -/
def elementsByAttribute (f : Finder) (name : String) (value : Option String) (context : Option NodeId) : List NodeId :=
  f.elementsWhere context fun id =>
    (f.tree.attribute? id name).any fun actual => value.all fun expected => actual == expected

/-- The elements below the context that meet a condition; of those with an id, only the first of the document. -/
def lookup (f : Finder) (s : SimpleSelector) (context : Option NodeId) : List NodeId :=
  match s with
  | .hasId name => (f.elementById? name).toList.filter (f.isWithin context)
  | .hasTag name => f.elementsByTag name context
  | .hasClass name => f.elementsByClass name context
  | .hasAttribute name value => f.elementsByAttribute name value context

end Finder

end HtmlQuery
