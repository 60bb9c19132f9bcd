import HtmlQuery.Json.Reader
import HtmlQuery.Lookup.Config
import HtmlQuery.Text.File

/-!
# Configurations in files

A configuration is written in JSON: an object with the members `id_lookup` and `class_lookup`, or a list of the two
strategies in this order. What is missing is the default. Other members are ignored, but neither of the two may be given
twice. A strategy is its name, or an object with its name as the only member and null as the value.

* `Config.parse` — the configuration that a text writes;
* `Config.ofFile` — the configuration in a file.
-/

namespace HtmlQuery

/-- Why there is no configuration. -/
inductive ConfigError where
  | unreadable (cause : FileError)
  | malformed
  deriving DecidableEq, Repr

/-- The strategy of a name. -/
def Strategy.ofName? : String → Option Strategy
  | "scan" => some .scan
  | "index" => some .index
  | _ => none

/-- The strategy that a value writes. -/
def Strategy.ofJson? : Json (Option String) → Option Strategy
  | .string (some name) => ofName? name
  | .object [(some name, .null)] => ofName? name
  | _ => none

namespace Config

/-- The strategy that an object gives under a name. -/
def member? (members : List (Option String × Json (Option String))) (name : String) : Option Strategy :=
  match members.filter fun member => member.1 == some name with
  | [] => some .scan
  | [(_, value)] => Strategy.ofJson? value
  | _ => none

/-- The configuration that a value writes. The names of all members have to be texts. -/
def ofJson? : Json (Option String) → Option Config
  | .array [] => some {}
  | .array [ids] => do return { ids := ← Strategy.ofJson? ids }
  | .array [ids, classes] => do return ⟨← Strategy.ofJson? ids, ← Strategy.ofJson? classes⟩
  | .object members =>
    if members.all fun member => member.1.isSome then do
      return ⟨← member? members "id_lookup", ← member? members "class_lookup"⟩
    else none
  | _ => none

/-- The configuration that a text writes. -/
def parse (s : String) : Except ConfigError Config :=
  match (Json.parse? s).bind ofJson? with
  | some config => .ok config
  | none => .error .malformed

/-- The configuration in a file. -/
def ofFile (text : Except FileError String) : Except ConfigError Config :=
  match text with
  | .ok text => parse text
  | .error cause => .error (.unreadable cause)

end Config

end HtmlQuery
