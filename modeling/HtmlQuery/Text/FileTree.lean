import HtmlQuery.Text.File

/-!
# Trees of files

Files that lie in directories, and the way from a path to the text of a file. A place in the tree is the list of the
names that lead to it from the root. The names in a path are followed one after the other, so the first one that leads
nowhere decides why there is no text.

* `FileTree.step` — where one name leads;
* `FileTree.read` — the text of the file at a path.
-/

namespace HtmlQuery

/-- Files by their places, and the place of the directory in which paths begin that do not begin at the root. -/
structure FileTree where
  files : List (List String × String)
  start : List String
  deriving Repr

namespace FileTree

/-- The length of the longest name, in bytes. -/
def longestName : Nat := 255

/-- The length of the longest path, in bytes. -/
def longestPath : Nat := 4095

/-- The text of the file at a place. -/
def text? (t : FileTree) (place : List String) : Option String := t.files.lookup place

/-- A place is taken by the directory in which paths begin, by a file, and by every directory above one of them. -/
def isTaken (t : FileTree) (place : List String) : Bool :=
  place.isPrefixOf t.start || t.files.any fun file => place.isPrefixOf file.1

/-- The place to which a name leads. Nothing leads on from a file. The empty name and a dot stay in the directory, and
two dots go to the one above, which for the root is the root. -/
def step (t : FileTree) (place : List String) (name : String) : Except FileError (List String) :=
  if (t.text? place).isSome then .error .notDirectory
  else if name == "" || name == "." then .ok place
  else if name == ".." then .ok place.dropLast
  else if longestName < name.utf8ByteSize then .error .nameTooLong
  else if t.isTaken (place ++ [name]) then .ok (place ++ [name])
  else .error .notFound

/-- The place to which names lead, one after the other. -/
def walk (t : FileTree) (place : List String) (names : List String) : Except FileError (List String) :=
  names.foldlM t.step place

/-- The text of the file at a path. A path begins at the root if its first character is a slash. -/
def read (t : FileTree) (path : String) : Except FileError String :=
  if path.isEmpty then .error .notFound
  else if longestPath < path.utf8ByteSize then .error .nameTooLong
  else
    match t.walk (if path.startsWith "/" then [] else t.start) (path.splitOn "/") with
    | .error cause => .error cause
    | .ok place =>
      match t.text? place with
      | some text => .ok text
      | none => .error .isDirectory

end FileTree

end HtmlQuery
