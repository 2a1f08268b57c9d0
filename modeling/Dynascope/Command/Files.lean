import Dynascope.Text.Basic

/-!
# Files

* `FileContent`: what is found under a path.
* `FileFault`: why a path leads nowhere, and the text about it.
* `FileTree`: files with their paths, and the current directory.
* `FileTree.find`: what a path leads to.
-/

namespace Dynascope

/-- Why a path leads nowhere. -/
inductive FileFault where
  | missing
  /-- A file stands where the path needs a directory. -/
  | notDirectory
  | nameTooLong
  /-- The path holds the byte zero. -/
  | invalidName
  deriving Repr, DecidableEq

/-- What is found under a path. -/
inductive FileContent where
  | text (bytes : Text)
  | directory
  | unavailable (fault : FileFault)
  deriving Repr, DecidableEq

/-- The text about a path that leads nowhere. -/
def FileFault.message (path : Text) (fault : FileFault) : Text :=
  let cause : Text :=
    match fault with
    | missing => "no such file or directory"
    | notDirectory => "not a directory"
    | nameTooLong => "file name too long"
    | invalidName => "invalid argument"
  ("open " : Text) ++ path ++ (": " : Text) ++ cause

/-- The text about a directory in the place of a file. -/
def directoryMessage (path : Text) : Text :=
  ("read " : Text) ++ path ++ (": is a directory" : Text)

/-- Files and their places. A place is the list of the names on the way to it from the root. -/
structure FileTree where
  files : List (List Text × Text)
  /-- The current directory, from which paths start that do not start with a slash. -/
  current : List Text
  deriving Repr, DecidableEq

namespace FileTree

/-- The largest number of bytes in a name. -/
def nameLimit : Nat := 255

/-- The largest number of bytes in a path. -/
def pathLimit : Nat := 4095

/-- Whether a place is a directory: it is on the way to a file or to the current directory. -/
def isDirectory (tree : FileTree) (place : List Text) : Bool :=
  place.isPrefixOf tree.current || tree.files.any fun file => place.isPrefixOf file.1

/-- What the names of a path lead to from a directory. Empty names and `.` stay where they are, and
`..` leads one directory up. -/
def walk (tree : FileTree) : (place : List Text) → List Text → FileContent
  | _, [] => .directory
  | place, name :: rest =>
    if name = [] || name = Text.ofString "." then walk tree place rest
    else if name = Text.ofString ".." then walk tree place.dropLast rest
    else if nameLimit < name.length then .unavailable .nameTooLong
    else
      match tree.files.lookup (place ++ [name]) with
      | some bytes => if rest.isEmpty then .text bytes else .unavailable .notDirectory
      | none =>
        if tree.isDirectory (place ++ [name]) then walk tree (place ++ [name]) rest
        else .unavailable .missing

/-- What a path leads to. -/
def find (tree : FileTree) (path : Text) : FileContent :=
  if path.contains 0 then .unavailable .invalidName
  else if path.isEmpty then .unavailable .missing
  else if pathLimit < path.length then .unavailable .nameTooLong
  else walk tree (if path.head? = some 0x2f then [] else tree.current) (path.split 0x2f)

end FileTree

end Dynascope
