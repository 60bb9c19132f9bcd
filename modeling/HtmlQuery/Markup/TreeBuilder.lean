import HtmlQuery.Markup.Token
import HtmlQuery.Markup.Vocabulary
import HtmlQuery.Text.Ascii
import HtmlQuery.Tree.Basic

/-!
# From tokens to a tree

A document always has an `html` element with a `head` and a `body`, whether they are written or not. The builder keeps
the elements that are still open and adds these three when content asks for them. Each of them exists once: a second tag
only adds attributes.

* `Builder.step` — what a token does; characters are collected until another token ends the text;
* `Tree.ofTokens` — the tree of all tokens up to the end of the text.
-/

namespace HtmlQuery

open Text

/-- How much of the frame of the document is there. -/
inductive BuilderMode where
  | beforeHtml
  | inHead
  | inBody
  deriving DecidableEq, Repr

/-- A tree under construction. -/
structure Builder where
  tree : Tree := .empty
  mode : BuilderMode := .beforeHtml
  /-- The open elements, the innermost first. -/
  stack : List NodeId := []
  html : Option NodeId := none
  head : Option NodeId := none
  body : Option NodeId := none
  /-- The characters of the text node that comes next. -/
  pending : String := ""
  deriving DecidableEq

/-- The list behind the first element with `p`, or the whole list if there is none. -/
def popThrough {α : Type} (p : α → Bool) (l : List α) : List α :=
  match l.dropWhile fun x => !p x with
  | [] => l
  | _ :: rest => rest

/-- The list from the first element with `p` on, or the whole list if there is none. -/
def popTo {α : Type} (p : α → Bool) (l : List α) : List α :=
  match l.dropWhile fun x => !p x with
  | [] => l
  | x :: rest => x :: rest

/-- Attributes with those of a tag added. Names that have a value keep it. -/
def Attributes.merge (a : Attributes) (attributes : List Attribute) : Attributes :=
  attributes.foldl (fun a new => a.insertIfNew new.name new.value) a

namespace Builder

/-- The node that takes new content: the innermost open element, else the document. -/
def current (b : Builder) : NodeId := b.stack.headD Tree.root

/-- Adds a node to a given one. -/
def appendTo (b : Builder) (parent : NodeId) (kind : NodeKind) : Builder :=
  { b with tree := b.tree.append parent kind }

/-- Adds a node to the current one. -/
def append (b : Builder) (kind : NodeKind) : Builder := b.appendTo b.current kind

/-- Adds the collected text, if there is any. -/
def endText (b : Builder) : Builder :=
  if b.pending.isEmpty then b else { b.append (.text b.pending) with pending := "" }

/-! ## The frame of the document -/

/-- The builder with the `html` element, and that element. -/
def withHtml (b : Builder) : Builder × NodeId :=
  match b.html with
  | some html => (b, html)
  | none =>
    let html := b.tree.size
    ({ b with
        tree := b.tree.append Tree.root (.element (.ofTag "html"))
        stack := html :: b.stack
        html := some html
        mode := .inHead }, html)

/-- The builder with the `head` element, and that element. -/
def withHead (b : Builder) : Builder × NodeId :=
  let (b, html) := b.withHtml
  match b.head with
  | some head => (b, head)
  | none =>
    let head := b.tree.size
    ({ b with
        tree := b.tree.append html (.element (.ofTag "head"))
        stack := head :: b.stack
        head := some head }, head)

/-- The builder with the `body` element, and that element. The first time, it closes the head. -/
def withBody (b : Builder) : Builder × NodeId :=
  match b.body with
  | some body => (b, body)
  | none =>
    let (b, html) := b.withHtml
    let (b, _) := b.withHead
    let body := b.tree.size
    ({ b with
        tree := b.tree.append html (.element (.ofTag "body"))
        stack := body :: popTo (· == html) b.stack
        body := some body
        mode := .inBody }, body)

/-- Adds the attributes of a repeated tag to its element. -/
def merge (b : Builder) (id : NodeId) (attributes : List Attribute) : Builder :=
  { b with tree := b.tree.modifyAttributes id (·.merge attributes) }

/-! ## Tokens -/

/-- Whether content here would stand outside the head and the body, or directly in the head. -/
def betweenElements (b : Builder) : Bool :=
  b.stack.isEmpty || b.html == some b.current || b.head == some b.current

/-- Between elements a blank is nothing, and any other character begins the body. -/
def character (b : Builder) (c : Char) : Builder :=
  if b.betweenElements then
    if isBlank c then b
    else
      let b := b.withBody.1
      { b with pending := b.pending.push c }
  else { b with pending := b.pending.push c }

/-- Opens the element that is added next. -/
def openNext (b : Builder) : Builder := { b with stack := b.tree.size :: b.stack }

/-- Adds an element to the current node. The element is open if it can have content. -/
def addElement (b : Builder) (name : String) (selfClosing : Bool) (attributes : List Attribute) : Builder :=
  let parent := b.current
  let b := if selfClosing || isVoidName name then b else b.openNext
  b.appendTo parent (.element ⟨name, Attributes.empty.merge attributes⟩)

/-- A start tag adds an element to the head or to the body, or attributes to the frame. -/
def startTag (b : Builder) (name : String) (selfClosing : Bool) (attributes : List Attribute) : Builder :=
  if name = "html" then
    let (b, html) := b.withHtml
    b.merge html attributes
  else if name = "head" ∧ b.mode ≠ .inBody then
    let (b, head) := b.withHead
    b.merge head attributes
  else if name = "body" then
    let (b, body) := b.withBody
    b.merge body attributes
  else if b.mode ≠ .inBody ∧ isHeadName name then
    let (b, head) := b.withHead
    let b := if b.stack.contains head then b else { b with stack := head :: b.stack }
    b.addElement name selfClosing attributes
  else
    b.withBody.1.addElement name selfClosing attributes

/-- Whether an end tag of the given name closes an open element. The frame is closed by its own rules. -/
def closes (b : Builder) (name : String) (id : NodeId) : Bool :=
  b.html != some id && b.head != some id && b.body != some id && (b.tree.element? id).any fun e => e.tag == name

/-- An end tag closes the innermost open element of its name and all elements inside it. The `html` and `body` elements
stay open to the end, and the head can be opened again. -/
def endTag (b : Builder) (name : String) : Builder :=
  if name = "html" ∨ name = "body" then b
  else if name = "head" then { b with stack := popThrough (fun id => b.head == some id) b.stack }
  else { b with stack := popThrough (b.closes name) b.stack }

/-- What a token does to the tree under construction. -/
def step (b : Builder) : Token → Builder
  | .character c => b.character c
  | .startTag name selfClosing attributes => b.endText.startTag name selfClosing attributes
  | .endTag name => b.endText.endTag name
  | .comment data => b.endText.append (.comment data)
  | .endOfFile => b

/-- The tree when all tokens have been read. -/
def finish (b : Builder) : Tree := b.endText.withBody.1.tree

end Builder

/-- The tree of the tokens up to the first end of the text. -/
def Tree.ofTokens (tokens : List Token) : Tree :=
  ((tokens.takeWhile (· != .endOfFile)).foldl Builder.step {}).finish

end HtmlQuery
