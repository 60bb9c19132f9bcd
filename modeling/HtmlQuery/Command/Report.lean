import HtmlQuery.Json.Writer
import HtmlQuery.Lookup.ConfigFile
import HtmlQuery.Selector.Reader
import HtmlQuery.Selector.Search
import HtmlQuery.Tree.Outline

/-!
# What the command writes

Matches are listed on a terminal, a line for each, or written as JSON. Failures name their cause.

* `matchText`, `matchJson` — the two forms of an answer;
* `Failure.message` — what is written about each failure. A selector that cannot be read is shown with a mark below it,
  as many spaces in as there are bytes before the part that could not be read.
-/

namespace HtmlQuery.Command

/-! ## Terminal -/

/-- A text between the codes that switch a property of the terminal on and off. -/
def styled (on off : Nat) (s : String) : String :=
  "\x1b[" ++ toString on ++ "m" ++ s ++ "\x1b[" ++ toString off ++ "m"

def bold (s : String) : String := styled 1 0 s
def dimmed (s : String) : String := styled 2 0 s
def red (s : String) : String := styled 31 39 s
def green (s : String) : String := styled 32 39 s
def cyan (s : String) : String := styled 36 39 s

/-- A number with spaces before it, at least five characters together. -/
def padded (n : Nat) : String :=
  let digits := toString n
  String.ofList (List.replicate (5 - digits.length) ' ') ++ digits

/-! ## Answers -/

/-- The nodes that are elements, with those elements. -/
def elementsAt (t : Tree) (ids : List NodeId) : List (NodeId × Element) :=
  ids.filterMap fun id => (t.element? id).map (id, ·)

/-- The line of a match. -/
def matchLine (id : NodeId) (e : Element) : String := dimmed (padded id) ++ " " ++ cyan e.startTag ++ "\n"

/-- The number of matches in words. -/
def countText (n : Nat) : String := toString n ++ (if n = 1 then " match" else " matches")

/-- The matches on a terminal, and their number. -/
def matchText (t : Tree) (found : Selection) : String :=
  String.join ((elementsAt t found.nodes).map fun (id, e) => matchLine id e) ++ green (countText found.size) ++ "\n"

/-- A match as a JSON value. -/
def matchValue (id : NodeId) (e : Element) : Json String :=
  .object [("node", .number (toString id)), ("tag", .string e.tag),
    ("attributes", .object (e.attributes.toList.map fun (name, value) => (name, .string value)))]

/-- The matches as a JSON value. -/
def matchReport (s : Selector) (t : Tree) (found : Selection) : Json String :=
  .object [("selector", .string s.text),
    ("matches", .array ((elementsAt t found.nodes).map fun (id, e) => matchValue id e))]

/-- The matches as JSON. -/
def matchJson (s : Selector) (t : Tree) (found : Selection) : String := (matchReport s t found).pretty ++ "\n"

/-- The outline of a document under a heading. -/
def treeText (t : Tree) : String := bold "=== DOM Tree ===" ++ "\n" ++ t.outline Tree.root ++ "\n"

/-! ## Failures -/

/-- Why there is no answer. -/
inductive Failure where
  | config (path : String) (cause : ConfigError)
  | selector (e : UnreadableSelector)
  | document (path : String) (cause : FileError)
  | noDocument
  | noScope (within : Selector)
  deriving DecidableEq, Repr

/-- The line below a selector that marks where it cannot be read. -/
def markOf (e : UnreadableSelector) : String :=
  red (String.ofList (List.replicate e.offset ' ') ++ "^")

/-- A failure in words, without the line feed behind it. What a reader of JSON says about a malformed configuration is left
out; it would follow a colon behind the last words. -/
def Failure.message : Failure → String
  | .config path (.unreadable cause) =>
    "loading config from " ++ path ++ "\n\nCaused by:\n    0: failed to read config file: " ++ cause.message
      ++ "\n    1: " ++ cause.message
  | .config path .malformed => "loading config from " ++ path ++ "\n\nCaused by:\n    failed to parse config"
  | .selector e => e.message ++ "\n  " ++ e.source ++ "\n  " ++ markOf e
  | .document path cause => "reading " ++ path ++ "\n\nCaused by:\n    " ++ cause.message
  | .noDocument => "an HTML file or --html is required"
  | .noScope within => "no element matches --within selector \"" ++ within.text ++ "\""

end HtmlQuery.Command
