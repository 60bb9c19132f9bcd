import HtmlQuery.Command.Run

/-!
# The command

Reads the files that the arguments name, runs the command and hands its outcome to the system.
-/

namespace HtmlQuery

/-- The number of a failure, which some calls of the system give with its sign changed. -/
def failureNumber (code : UInt32) : UInt32 := if code < 0x80000000 then code else 0 - code

/-- The cause of a failure of the system. -/
def FileError.ofFailure (failure : IO.Error) : FileError :=
  match failure with
  | .noFileOrDirectory .. => .notFound
  | .inappropriateType _ code _ => if failureNumber code == 20 then .notDirectory else .isDirectory
  | .invalidArgument _ code _ => if failureNumber code == 36 then .nameTooLong else .other (toString failure)
  | _ => .other (toString failure)

/-- The text of a file. -/
def readFile (path : String) : IO (Except FileError String) := do
  try
    return textOfBytes (← IO.FS.readBinFile path)
  catch failure => return .error (.ofFailure failure)

/-- The files that a call needs. -/
def readFiles (arguments : List String) : IO (List (String × Except FileError String)) :=
  match Command.readArguments arguments with
  | .ok request => request.paths.mapM fun path => return (path, ← readFile path)
  | .error _ => return []

end HtmlQuery

def main (arguments : List String) : IO UInt32 := do
  let contents ← HtmlQuery.readFiles arguments
  let outcome := HtmlQuery.Command.run arguments fun path => (contents.lookup path).getD (.error .notFound)
  (← IO.getStdout).putStr outcome.output
  (← IO.getStderr).putStr outcome.errors
  return outcome.code.toUInt32
