import PhpDoc.Keyed
import PhpDoc.Project.Path

/-!
# File trees

A file tree holds files and directories by location, the names on the way from the top.  A directory
exists when it is listed or when something lies below it.  Paths are followed from the working
directory, or from the top when they start there; the directory above the top is the top itself.
Paths and names that are too long lead nowhere.

Three things that a disk can hold are left out.  Every directory can be read and entered, so the
only directories that a walk skips are those whose path is too long.  There are no symbolic links:
a path names what lies at its location.  And every name is a text.  A file may be read-only, and it
may hold bytes that are no text.
-/

namespace PhpDoc

/-- The names on the way from the top of a tree. -/
abbrev Location := List Text

/-- Whether the first location does not come after the second one, name by name. -/
def Location.le : Location → Location → Bool
  | [], _ => true
  | _ :: _, [] => false
  | a :: s, b :: t => if a = b then Location.le s t else Text.le a b

/-- What a file holds. -/
inductive Contents where
  | text (text : Text)
  /-- Bytes that are not the encoding of a text. -/
  | bytes (bytes : List UInt8)
deriving DecidableEq

/-- A file. -/
structure File where
  contents : Contents
  writable : Bool
deriving DecidableEq

/-- What a location holds. -/
inductive Entry where
  | file (file : File)
  | directory
deriving DecidableEq

/-- Files and directories by location, and where relative paths start. -/
structure FileTree where
  entries : Keyed Location Entry
  workingDirectory : Location
deriving DecidableEq

namespace FileTree

/-- A tree that holds nothing but its working directory. -/
def empty (workingDirectory : Location) : FileTree :=
  ⟨Keyed.empty.set workingDirectory .directory, workingDirectory⟩

/-- Whether a location lies properly below another one. -/
def isBelow (directory location : Location) : Bool :=
  directory.isPrefixOf location && directory.length < location.length

/-- Whether a location holds a directory. -/
def isDirectoryAt (tree : FileTree) (location : Location) : Bool :=
  location.isEmpty || (tree.entries.entries.any fun (other, _) => isBelow location other) ||
    tree.entries.get? location == some .directory

/-- What a location holds. -/
def entryAt? (tree : FileTree) (location : Location) : Option Entry :=
  if tree.isDirectoryAt location then some .directory else tree.entries.get? location

/-- The location after the given steps.  Each step starts in a directory. -/
def follow? (tree : FileTree) (location : Location) : List Component → Option Location
  | [] => some location
  | step :: steps =>
    if tree.isDirectoryAt location then
      match step with
      | .top => tree.follow? [] steps
      | .here => tree.follow? location steps
      | .up => tree.follow? location.dropLast steps
      | .name name =>
        if name.byteSize ≤ Path.maxNameBytes then tree.follow? (location ++ [name]) steps else none
    else none

/-- The location that a path leads to, whether or not anything is there. -/
def locate? (tree : FileTree) (p : Path) : Option Location :=
  if p.isUsable then tree.follow? tree.workingDirectory p.components else none

/-- What a path leads to. -/
def find? (tree : FileTree) (p : Path) : Option Entry :=
  match (tree.locate? p).bind tree.entryAt? with
  | some (.file file) => if p.wantsDirectory then none else some (.file file)
  | other => other

/-- The location of the directory that a path leads to. -/
def directory? (tree : FileTree) (p : Path) : Option Location :=
  (tree.locate? p).filter tree.isDirectoryAt

/-- The text of the file that a path leads to. -/
def readText? (tree : FileTree) (p : Path) : Option Text :=
  match tree.find? p with
  | some (.file ⟨.text text, _⟩) => some text
  | _ => none

/-- Whether a text can be written to a path that leads to the given location: a writable file or
nothing is there. -/
def isWritableAt (tree : FileTree) (p : Path) (location : Location) : Bool :=
  !p.wantsDirectory &&
    match tree.entryAt? location with
    | some (.file file) => file.writable
    | some .directory => false
    | none => true

/-- The tree with the text in the file that a path leads to. -/
def writeText? (tree : FileTree) (p : Path) (text : Text) : Option FileTree :=
  ((tree.locate? p).filter (tree.isWritableAt p)).map fun location =>
    { tree with entries := tree.entries.set location (.file ⟨.text text, true⟩) }

/-- The tree with an entry at a location; the directories on the way come with it. -/
def place (tree : FileTree) (location : Location) (entry : Entry) : FileTree :=
  { tree with entries := tree.entries.set location entry }

/-- The locations, from a directory on, of the files below it. -/
def filesBelow (tree : FileTree) (directory : Location) : List Location :=
  tree.entries.entries.filterMap fun (location, entry) =>
    match entry with
    | .file _ => if isBelow directory location then some (location.drop directory.length) else none
    | .directory => none

/-- The files that hold something else than they held before, with what they hold. -/
def changesSince (tree before : FileTree) : List (Location × Contents) :=
  tree.entries.entries.filterMap fun (location, entry) =>
    match entry with
    | .file file =>
      match before.entries.get? location with
      | some (.file old) =>
        if old.contents = file.contents then none else some (location, file.contents)
      | _ => some (location, file.contents)
    | .directory => none

end FileTree

end PhpDoc
