import PhpDoc.Project.FileTree
import PhpDoc.Settings

/-!
# Class files

A project keeps its models under one directory and its other classes under another.  Every file with
the extension `php` below one of them is a class file; one that lies below both is a model.  Models
come first, and each kind is in the order of its paths.  A directory whose path is too long to be
opened counts as empty.
-/

namespace PhpDoc

/-- Where a class takes its properties from. -/
inductive ClassKind where
  /-- From the columns of a database table. -/
  | model
  /-- From what the class declares. -/
  | plain
deriving DecidableEq

/-- A class file of a project. -/
structure ClassFile where
  path : Path
  kind : ClassKind
deriving DecidableEq

namespace ClassFile

/-- Whether a path is that of a class file, and of the class asked for if one is. -/
def isWanted (className : Option Text) (p : Path) : Bool :=
  p.extension? == some "php".toList && className.all fun name => p.stem? == some name

/-- The path to a location from a directory on. -/
def pathBelow (base : Path) (location : Location) : Path :=
  location.foldl (fun p name => p.join ⟨name⟩) base

/-- Whether the directory that holds a file below `base` can be opened by its path. -/
def isReachable (base : Path) (location : Location) : Bool :=
  (pathBelow base location.dropLast).isUsable

/-- The paths of the class files below a directory, none when there is no such directory. -/
def pathsBelow (tree : FileTree) (base : Path) (className : Option Text) : List Path :=
  match tree.directory? base with
  | none => []
  | some directory =>
    let reachable := (tree.filesBelow directory).filter (isReachable base)
    ((reachable.mergeSort Location.le).map (pathBelow base)).filter (isWanted className)

/-- Adds a file, unless its path is already there. -/
def add (kind : ClassKind) (files : List ClassFile) (p : Path) : List ClassFile :=
  if files.any fun file => file.path.same p then files else files ++ [⟨p, kind⟩]

/-- The class files of a project. -/
def discover (tree : FileTree) (root : Path) (settings : Settings) (className : Option Text) :
    List ClassFile :=
  let models := (pathsBelow tree (root.join settings.modelsRoot) className).foldl (add .model) []
  (pathsBelow tree (root.join settings.classesRoot) className).foldl (add .plain) models

end ClassFile

end PhpDoc
