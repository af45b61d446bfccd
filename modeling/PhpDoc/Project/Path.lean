import PhpDoc.Text.Basic

/-!
# Paths

A path is kept as it is written.  Two paths are the same when their components are: repeated
slashes, a slash at the end, and single dots other than a leading one do not matter.
-/

namespace PhpDoc

/-- A path as it is written. -/
structure Path where
  text : Text
deriving DecidableEq

/-- A step of a path. -/
inductive Component where
  /-- The top of the file system. -/
  | top
  /-- The directory one is in; only a leading one is a step. -/
  | here
  /-- The directory above. -/
  | up
  | name (name : Text)
deriving DecidableEq

namespace Path

/-- The parts of a path between slashes. -/
def segments (p : Path) : List Text :=
  p.text.pieces '/'

/-- Whether a segment after the first one makes no step. -/
def isIdle (segment : Text) : Bool :=
  segment.isEmpty || segment == ['.']

/-- The step of a segment. -/
def step? (segment : Text) : Option Component :=
  if isIdle segment then none
  else if segment = ['.', '.'] then some .up
  else some (.name segment)

/-- The step of the first segment: a leading slash goes to the top, a leading dot stays. -/
def leadingStep? (p : Path) (segment : Text) : Option Component :=
  if p.text.head? = some '/' then some .top
  else if segment = ['.'] then some .here
  else step? segment

/-- The steps of a path. -/
def components (p : Path) : List Component :=
  match p.segments with
  | [] => []
  | first :: rest => (p.leadingStep? first).toList ++ rest.filterMap step?

/-- Whether both paths take the same steps. -/
def same (p q : Path) : Bool :=
  p.components == q.components

/-- The path that starts at the top does not change; any other one is taken from `base`. -/
def join (base p : Path) : Path :=
  if p.text.head? = some '/' then p
  else if base.text.isEmpty || base.text.endsWith ['/'] then ⟨base.text ++ p.text⟩
  else ⟨base.text ++ '/' :: p.text⟩

/-- The name of the file or directory that the path leads to. -/
def fileName? (p : Path) : Option Text :=
  match p.components.getLast? with
  | some (.name name) => some name
  | _ => none

/-- The stem and the extension of a file name.  What follows the last dot is the extension, unless
nothing precedes that dot. -/
def splitExtension (name : Text) : Text × Option Text :=
  match Text.cutLast? ['.'] name with
  | some (stem, extension) => if stem.isEmpty then (name, none) else (stem, some extension)
  | none => (name, none)

/-- The file name without its extension. -/
def stem? (p : Path) : Option Text :=
  p.fileName?.map fun name => (splitExtension name).1

/-- The extension of the file name. -/
def extension? (p : Path) : Option Text :=
  p.fileName?.bind fun name => (splitExtension name).2

/-- The segments after the given number of steps. -/
def dropSteps : Nat → List Text → List Text
  | _, [] => []
  | 0, segments => segments
  | n + 1, segment :: segments =>
    if isIdle segment then dropSteps (n + 1) segments else dropSteps n segments

/-- The path from `base` on, as it is written, when it starts with the steps of `base`. -/
def relativeTo? (p base : Path) : Option Path :=
  let steps := base.components
  if steps.isPrefixOf p.components then
    match steps with
    | [] => some p
    | _ :: more =>
      let rest := (dropSteps more.length p.segments.tail).dropWhile isIdle
      some ⟨List.intercalate ['/'] (rest.reverse.dropWhile isIdle).reverse⟩
  else none

/-- The most bytes that a path may take. -/
def maxBytes : Nat := 4095

/-- The most bytes that a name may take. -/
def maxNameBytes : Nat := 255

/-- Whether a file system takes the path at all: it is not empty, not too long, and free of the null
character. -/
def isUsable (p : Path) : Bool :=
  !p.text.isEmpty && p.text.byteSize ≤ maxBytes && !p.text.contains (Char.ofNat 0)

/-- Whether only a directory can be meant: the path ends in a slash or in a single dot. -/
def wantsDirectory (p : Path) : Bool :=
  p.segments.getLast?.any isIdle

end Path

end PhpDoc
