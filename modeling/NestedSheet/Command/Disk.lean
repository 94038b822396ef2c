import NestedSheet.Path

/-!
# Files and directories

The part of a file system that a run of the command can see: files with their
contents, and directories.  A place is the list of the names that lead to it from
the root.  A directory exists if it is listed or if a listed place is below it.

A path leads to a place step by step, and every step but the last has to reach a
directory; a step up needs the directory that it leaves, too.  Names and paths have
a greatest length, and the character U+0000 stands in none of them.
-/

namespace NestedSheet.Command

/-- The names that lead to a file or a directory from the root. -/
abbrev Place := List Text

/-- Files with their contents, and directories. -/
structure Disk where
  files : List (Place × Text) := []
  directories : List Place := []
deriving Repr, Inhabited

/-- Why a file cannot be read or written. -/
inductive FileError where
  | notFound
  | isDirectory
  | notDirectory
  | nameTooLong
  | nulCharacter
deriving DecidableEq, Repr, Inhabited

namespace Disk

/-- The content of a file. -/
def content? (disk : Disk) (place : Place) : Option Text :=
  disk.files.lookup place

/-- Is the place a directory? -/
def isDirectory (disk : Disk) (place : Place) : Bool :=
  place.isEmpty || disk.directories.any place.isPrefixOf
    || disk.files.any fun file => place.isPrefixOf file.1 && place != file.1

/-- The size of a text in bytes. -/
def byteSize (t : Text) : Nat :=
  t.foldl (fun size c => size + c.utf8Size) 0

/-- The greatest size of a name in bytes. -/
def maxNameSize : Nat := 255

/-- The greatest size of a path in bytes. -/
def maxPathSize : Nat := 4095

/-- The place that steps lead to. -/
def walk (disk : Disk) : Place → List Text → Except FileError Place
  | place, [] => .ok place
  | place, step :: steps =>
    if disk.isDirectory place then
      if step = [] ∨ step = Path.here then walk disk place steps
      else if step = Path.up then walk disk place.dropLast steps
      else if maxNameSize < byteSize step then .error .nameTooLong
      else walk disk (place ++ [step]) steps
    else if (disk.content? place).isSome then .error .notDirectory
    else .error .notFound

/-- The place of a path that starts from a directory. -/
def find (disk : Disk) (directory path : Text) : Except FileError Place :=
  if path.isEmpty then .error .notFound
  else if path.contains (Char.ofNat 0) then .error .nulCharacter
  else if maxPathSize < byteSize path then .error .nameTooLong
  else disk.walk (if Path.isAbsolute path then [] else Path.parts directory) (Text.cut '/' path)

/-- Does the path lead to a file or a directory? -/
def pathExists (disk : Disk) (directory path : Text) : Bool :=
  match disk.find directory path with
  | .ok place => disk.isDirectory place || (disk.content? place).isSome
  | .error _ => false

/-- The content of the file that a path leads to. -/
def read (disk : Disk) (directory path : Text) : Except FileError Text := do
  let place ← disk.find directory path
  if disk.isDirectory place then throw .isDirectory
  match disk.content? place with
  | some t => pure t
  | none => throw .notFound

/-- The place of the file that a path leads to, for writing it.  A path with a
slash at its end can only lead to a directory. -/
def findForWriting (disk : Disk) (directory path : Text) : Except FileError Place := do
  let bare := Text.dropEndWhile (· == '/') path
  let place ← if bare.isEmpty then disk.find directory path else disk.find directory bare
  if disk.isDirectory place then throw .isDirectory
  if path.endsWith '/' then
    if (disk.content? place).isSome then throw .notDirectory else throw .isDirectory
  pure place

private def writeFile (place : Place) (t : Text) : List (Place × Text) → List (Place × Text)
  | [] => [(place, t)]
  | file :: files =>
    if file.1 = place then (place, t) :: files else file :: writeFile place t files

/-- Gives a file a content. -/
def write (disk : Disk) (place : Place) (t : Text) : Disk :=
  { disk with files := writeFile place t disk.files }

/-- The files that are new, or have another content than on an earlier disk. -/
def changedSince (disk earlier : Disk) : List (Place × Text) :=
  disk.files.filter fun file => earlier.content? file.1 != some file.2

end Disk

end NestedSheet.Command
