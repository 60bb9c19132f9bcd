import HtmlQuery.Tree.Attributes

/-!
# Trees of nodes

The nodes of a tree stand in one array, and a node is named by its place in it. A new node is at first on its own; it
gets its place in the tree when it is attached to another node. Both ends of the link are kept: the children of a node
in their order, and the parent of a node. The parent is the node to which it was attached last.

* `Tree.get?_add`, `Tree.get?_attach`, `Tree.get?_modify` — what each change does to each node.
-/

namespace HtmlQuery

/-- A node, named by its place in the tree that holds it. -/
abbrev NodeId := Nat

/-- What an element consists of, apart from its place in a tree. -/
structure Element where
  tag : String
  attributes : Attributes
  deriving DecidableEq

namespace Element

/-- An element without attributes. -/
def ofTag (tag : String) : Element := ⟨tag, .empty⟩

/-- The value of an attribute. -/
def attribute? (e : Element) (name : String) : Option String := e.attributes.get? name

end Element

/-- The kinds of nodes. -/
inductive NodeKind where
  | document
  | element (e : Element)
  | text (data : String)
  | comment (data : String)
  deriving DecidableEq

/-- A node with its links. -/
structure Node where
  kind : NodeKind
  parent : Option NodeId := none
  children : Array NodeId := #[]
  deriving DecidableEq

instance : Inhabited Node := ⟨{ kind := .document }⟩

/-- All nodes, each at the place that is its name. -/
structure Tree where
  nodes : Array Node
  deriving DecidableEq

namespace Tree

/-- The name of the document, which is the first node of every tree. -/
def root : NodeId := 0

/-- The tree of a document without content. -/
def empty : Tree := ⟨#[{ kind := .document }]⟩

instance : Inhabited Tree := ⟨empty⟩

/-! ## Reading -/

/-- The number of nodes, which is also the name of the node that is added next. -/
def size (t : Tree) : Nat := t.nodes.size

def get? (t : Tree) (id : NodeId) : Option Node := t.nodes[id]?

def parent? (t : Tree) (id : NodeId) : Option NodeId := (t.get? id).bind Node.parent

def children (t : Tree) (id : NodeId) : List NodeId :=
  match t.get? id with
  | some node => node.children.toList
  | none => []

/-- The element at a node that is one. -/
def element? (t : Tree) (id : NodeId) : Option Element :=
  match t.get? id with
  | some ⟨.element e, _, _⟩ => some e
  | _ => none

/-- The data of a text node. -/
def text? (t : Tree) (id : NodeId) : Option String :=
  match t.get? id with
  | some ⟨.text data, _, _⟩ => some data
  | _ => none

def isElement (t : Tree) (id : NodeId) : Bool := (t.element? id).isSome

/-- The tag of an element. -/
def tag? (t : Tree) (id : NodeId) : Option String := (t.element? id).map Element.tag

/-- The value of an attribute of an element. -/
def attribute? (t : Tree) (id : NodeId) (name : String) : Option String :=
  (t.element? id).bind fun e => e.attribute? name

/-! ## Changing -/

/-- Adds a node without a parent. Its name is the former size of the tree. -/
def add (t : Tree) (kind : NodeKind) : Tree := ⟨t.nodes.push { kind }⟩

/-- Changes one node, if there is one of that name. -/
def modify (t : Tree) (id : NodeId) (f : Node → Node) : Tree := ⟨t.nodes.modify id f⟩

/-- Makes a node the last child of another. It stays a child of the nodes it was attached to before. -/
def attach (t : Tree) (parent child : NodeId) : Tree :=
  (t.modify parent fun node => { node with children := node.children.push child }).modify child
    fun node => { node with parent := some parent }

/-- As `attach`, between nodes of the tree only. -/
def attach? (t : Tree) (parent child : NodeId) : Option Tree :=
  if parent < t.size ∧ child < t.size then some (t.attach parent child) else none

/-- Adds a node as the last child of another. -/
def append (t : Tree) (parent : NodeId) (kind : NodeKind) : Tree :=
  let id := t.size
  (t.add kind).attach parent id

/-- As `append`, below a node of the tree only. -/
def append? (t : Tree) (parent : NodeId) (kind : NodeKind) : Option Tree :=
  let id := t.size
  (t.add kind).attach? parent id

/-- Changes the attributes of an element. -/
def modifyAttributes (t : Tree) (id : NodeId) (f : Attributes → Attributes) : Tree :=
  t.modify id fun node =>
    match node.kind with
    | .element e => { node with kind := .element { e with attributes := f e.attributes } }
    | _ => node

/-! ## What a change does to each node -/

@[simp] theorem size_add (t : Tree) (kind : NodeKind) : (t.add kind).size = t.size + 1 := by
  simp [size, add]

@[simp] theorem size_modify (t : Tree) (id : NodeId) (f : Node → Node) : (t.modify id f).size = t.size := by
  simp [size, modify]

@[simp] theorem size_attach (t : Tree) (parent child : NodeId) : (t.attach parent child).size = t.size := by
  simp [attach]

theorem get?_add (t : Tree) (kind : NodeKind) (id : NodeId) :
    (t.add kind).get? id = if id = t.size then some { kind } else t.get? id :=
  Array.getElem?_push

theorem get?_modify (t : Tree) (id : NodeId) (f : Node → Node) (n : NodeId) :
    (t.modify id f).get? n = if id = n then (t.get? n).map f else t.get? n := by
  simp [get?, modify, Array.getElem?_modify]

theorem get?_attach (t : Tree) (parent child n : NodeId) :
    (t.attach parent child).get? n = (t.get? n).map fun node =>
      { node with
        parent := if n = child then some parent else node.parent
        children := if n = parent then node.children.push child else node.children } := by
  simp only [attach, get?_modify, eq_comm (a := n)]
  by_cases hp : parent = n <;> by_cases hc : child = n <;> cases t.get? n <;> simp [hp, hc]

/-- A tree has a node of each name below its size. -/
theorem get?_eq_none_iff {t : Tree} {id : NodeId} : t.get? id = none ↔ t.size ≤ id := by
  simp [get?, size]

end Tree

end HtmlQuery
