/-!
# Arguments of the command

`SELECTOR [FILE]`, with the options `--html HTML`, `--within SELECTOR`, `-c`/`--config FILE`, `--json`, `--tree`,
`-v`/`--verbose`, `-h`/`--help` and `-V`/`--version` anywhere between them. Arguments are read from left to right, and
the first misuse or call for help ends the reading.

* A value is attached with `=`, to a short option also without it, or it is the next argument. The next argument is no
  value if it begins with a hyphen, unless it is a single hyphen.
* Short options can share a hyphen.
* Behind `--` there are no options.
* An option is given once, only `-v` any number of times: no log is kept, so it changes nothing.
* Names of files are not empty.

`readArguments` reads them.
-/

namespace HtmlQuery.Command

/-- What the command is asked for. -/
structure Request where
  selector : String
  file : Option String := none
  html : Option String := none
  within : Option String := none
  config : Option String := none
  json : Bool := false
  tree : Bool := false
  deriving DecidableEq, Repr

/-- Why the arguments are not a request. -/
inductive Stop where
  | help
  | version
  | misuse
  deriving DecidableEq, Repr

/-- The options with a value. -/
inductive Setting where
  | html
  | within
  | config
  deriving DecidableEq, Repr

/-- The options without a value. -/
inductive Switch where
  | json
  | tree
  | verbose
  | help
  | version
  deriving DecidableEq, Repr

/-- An option, or a value for one. -/
inductive OptionName where
  | setting (s : Setting)
  | switch (s : Switch)
  deriving DecidableEq, Repr

/-- The options behind two hyphens. -/
def longOption? : String → Option OptionName
  | "html" => some (.setting .html)
  | "within" => some (.setting .within)
  | "config" => some (.setting .config)
  | "json" => some (.switch .json)
  | "tree" => some (.switch .tree)
  | "verbose" => some (.switch .verbose)
  | "help" => some (.switch .help)
  | "version" => some (.switch .version)
  | _ => none

/-- The options behind one hyphen. -/
def shortOption? : Char → Option OptionName
  | 'c' => some (.setting .config)
  | 'v' => some (.switch .verbose)
  | 'h' => some (.switch .help)
  | 'V' => some (.switch .version)
  | _ => none

/-! ## Drafts -/

/-- The arguments that have been read. -/
structure Draft where
  selector : Option String := none
  file : Option String := none
  html : Option String := none
  within : Option String := none
  config : Option String := none
  json : Bool := false
  tree : Bool := false

namespace Draft

/-- Takes an argument that is no option: the selector, then the file. -/
def addPositional (d : Draft) (value : String) : Except Stop Draft :=
  match d.selector, d.file with
  | none, _ => .ok { d with selector := some value }
  | some _, none => if value = "" then .error .misuse else .ok { d with file := some value }
  | some _, some _ => .error .misuse

/-- Takes the value of an option. -/
def addSetting (d : Draft) (setting : Setting) (value : String) : Except Stop Draft :=
  match setting, d.html, d.within, d.config with
  | .html, none, _, _ => .ok { d with html := some value }
  | .within, _, none, _ => .ok { d with within := some value }
  | .config, _, _, none => if value = "" then .error .misuse else .ok { d with config := some value }
  | _, _, _, _ => .error .misuse

/-- Takes an option without a value. -/
def addSwitch (d : Draft) : Switch → Except Stop Draft
  | .json => if d.json then .error .misuse else .ok { d with json := true }
  | .tree => if d.tree then .error .misuse else .ok { d with tree := true }
  | .verbose => .ok d
  | .help => .error .help
  | .version => .error .version

/-- The request that the arguments make. A selector is needed, and there cannot be both a file and a text. -/
def finish (d : Draft) : Except Stop Request :=
  match d.selector, d.file, d.html with
  | none, _, _ => .error .misuse
  | some _, some _, some _ => .error .misuse
  | some selector, file, html =>
    .ok { selector, file, html, within := d.within, config := d.config, json := d.json, tree := d.tree }

end Draft

/-! ## Reading -/

/-- Reads an argument behind its two hyphens. An option without its value is handed on. -/
def readLong (d : Draft) (cs : List Char) : Except Stop (Draft × Option Setting) :=
  let value := cs.dropWhile (· != '=')
  match longOption? (String.ofList (cs.takeWhile (· != '='))), value with
  | some (.setting s), [] => .ok (d, some s)
  | some (.setting s), _ :: value => (d.addSetting s (String.ofList value)).map (·, none)
  | some (.switch s), [] => (d.addSwitch s).map (·, none)
  | _, _ => .error .misuse

/-- Reads an argument behind its hyphen, one option after the other. An option without its value is handed on. -/
def readShort (d : Draft) : List Char → Except Stop (Draft × Option Setting)
  | [] => .ok (d, none)
  | c :: cs =>
    match shortOption? c, cs with
    | some (.setting s), [] => .ok (d, some s)
    | some (.setting s), '=' :: value => (d.addSetting s (String.ofList value)).map (·, none)
    | some (.setting s), value => (d.addSetting s (String.ofList value)).map (·, none)
    | some (.switch s), _ =>
      match d.addSwitch s with
      | .ok d => readShort d cs
      | .error stop => .error stop
    | none, _ => .error .misuse

/-- Reads one argument. -/
def readArgument (d : Draft) (argument : String) : Except Stop (Draft × Option Setting) :=
  match argument.toList with
  | '-' :: '-' :: cs => readLong d cs
  | '-' :: c :: cs => readShort d (c :: cs)
  | _ => (d.addPositional argument).map (·, none)

/-- Whether an argument can be the value of the option before it. -/
def isValue (argument : String) : Bool := argument == "-" || argument.toList.head? != some '-'

/-- Reads arguments that are no options. -/
def readPositionals (d : Draft) : List String → Except Stop Draft
  | [] => .ok d
  | argument :: rest =>
    match d.addPositional argument with
    | .ok d => readPositionals d rest
    | .error stop => .error stop

/-- Reads arguments. The option `pending` waits for its value. -/
def readFrom (d : Draft) (pending : Option Setting) : List String → Except Stop Draft
  | [] => if pending.isSome then .error .misuse else .ok d
  | argument :: rest =>
    match pending with
    | some s =>
      if isValue argument then
        match d.addSetting s argument with
        | .ok d => readFrom d none rest
        | .error stop => .error stop
      else .error .misuse
    | none =>
      if argument = "--" then readPositionals d rest
      else
        match readArgument d argument with
        | .ok (d, pending) => readFrom d pending rest
        | .error stop => .error stop

/-- Reads all arguments of the command. -/
def readArguments (arguments : List String) : Except Stop Request :=
  match readFrom {} none arguments with
  | .ok d => d.finish
  | .error stop => .error stop

end HtmlQuery.Command
