import HtmlQuery.Command.Arguments
import HtmlQuery.Command.Report
import HtmlQuery.Markup.Document

/-!
# Running the command

The command reads its configuration, its selectors and its document in this order, and the first failure ends it. The
tree is written before the scope is looked up, so it stays written when there is no scope.

* `Request.run` — what a request writes, given the files;
* `run` — the same for arguments.
-/

namespace HtmlQuery.Command

/-- The exit code and what is written to the two streams. -/
structure Outcome where
  code : Nat
  output : String
  errors : String
  deriving DecidableEq, Repr

/-- The texts of the files, by name. -/
abbrev Files := String → Except FileError String

namespace Request

/-- The files that a request needs. -/
def paths (r : Request) : List String := r.config.toList ++ r.file.toList

def readConfig (r : Request) (files : Files) : Except Failure Config :=
  match r.config with
  | none => .ok {}
  | some path => (Config.ofFile (files path)).mapError (.config path)

def readSelector (r : Request) : Except Failure Selector := (Selector.parse r.selector).mapError .selector

def readWithin (r : Request) : Except Failure (Option Selector) :=
  match r.within with
  | none => .ok none
  | some source => ((Selector.parse source).map some).mapError .selector

def readDocument (r : Request) (files : Files) : Except Failure Tree :=
  match r.html, r.file with
  | some html, _ => .ok (Tree.parse html)
  | none, some path => ((files path).map Tree.parse).mapError (.document path)
  | none, none => .error .noDocument

/-- The matches below the first element that matches the scope, or in the whole document if there is no scope. -/
def search (f : Finder) (s : Selector) : (within : Option Selector) → Except Failure Selection
  | none => .ok (s.search f none)
  | some within =>
    match (within.search f none).nodes.head? with
    | some scope => .ok (s.search f (some scope))
    | none => .error (.noScope within)

/-- The text of an answer in the form that is asked for. -/
def answer (r : Request) (s : Selector) (t : Tree) (found : Selection) : String :=
  if r.json then matchJson s t found else matchText t found

/-- What a request writes, and the failure that ends it. -/
def execute (r : Request) (files : Files) : String × Option Failure :=
  let prepared : Except Failure (Config × Selector × Option Selector × Tree) := do
    return (← r.readConfig files, ← r.readSelector, ← r.readWithin, ← r.readDocument files)
  match prepared with
  | .error failure => ("", some failure)
  | .ok (config, s, within, t) =>
    let heading := if r.tree then treeText t else ""
    match search (Finder.ofTree t config) s within with
    | .ok found => (heading ++ r.answer s t found, none)
    | .error failure => (heading, some failure)

/-- The outcome of a request. -/
def run (r : Request) (files : Files) : Outcome :=
  match r.execute files with
  | (output, none) => ⟨0, output, ""⟩
  | (output, some failure) => ⟨1, output, "Error: " ++ failure.message ++ "\n"⟩

end Request

/-- A short guide to the arguments. It has neither the line that says what the command is for nor the examples that a full
guide ends with. -/
def usage : String :=
  "Usage: wombat [OPTIONS] <SELECTOR> [FILE]\n\n"
    ++ "Options:\n"
    ++ "      --html <HTML>        Parse HTML string directly instead of a file\n"
    ++ "      --within <SELECTOR>  Only search below the first element matching this selector\n"
    ++ "      --json               Print matches as JSON\n"
    ++ "      --tree               Print the parsed DOM tree before the matches\n"
    ++ "  -c, --config <FILE>      Adapter configuration file (JSON)\n"
    ++ "  -v, --verbose...         Increase log verbosity (-v, -vv)\n"
    ++ "  -h, --help               Print help\n"
    ++ "  -V, --version            Print version\n"

/-- The outcome of a call that asks for nothing to be searched. -/
def Stop.outcome : Stop → Outcome
  | .help => ⟨0, usage, ""⟩
  | .version => ⟨0, "wombat 0.1.0\n", ""⟩
  | .misuse => ⟨2, "", usage⟩

/-- The outcome of a call with the given arguments. -/
def run (arguments : List String) (files : Files) : Outcome :=
  match readArguments arguments with
  | .ok request => request.run files
  | .error stop => stop.outcome

end HtmlQuery.Command
