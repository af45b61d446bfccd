import PhpDoc.Arguments

/-!
# The program

Reads the working directory into a file tree, carries out the command line, writes the files that
changed, and prints what the command says.
-/

open PhpDoc

/-- What a file holds: a text if its bytes are one. -/
def loadContents (bytes : ByteArray) : Contents :=
  match String.fromUTF8? bytes with
  | some text => .text text.toList
  | none => .bytes bytes.toList

/-- Whether a file can be opened for writing. -/
def canWrite (entry : IO.FS.DirEntry) : IO Bool := do
  try
    let _ ← IO.FS.Handle.mk entry.path .append
    return true
  catch _ => return false

/-- Adds what lies at a place of the file system to a file tree. -/
partial def loadTree (entry : IO.FS.DirEntry) (location : Location) (tree : FileTree) :
    IO FileTree := do
  if ← entry.path.isDir then
    let mut tree := tree.place location .directory
    for child in ← entry.path.readDir do
      tree ← loadTree child (location ++ [child.fileName.toList]) tree
    return tree
  else
    let contents := loadContents (← IO.FS.readBinFile entry.path)
    return tree.place location (.file ⟨contents, ← canWrite entry⟩)

/-- Writes the files that a command changed. -/
def storeChanges (changes : List (Location × Contents)) : IO Unit := do
  for (location, contents) in changes do
    let name := "/".intercalate (location.map String.ofList)
    match contents with
    | .text text => IO.FS.writeFile name (String.ofList text)
    | .bytes bytes => IO.FS.writeBinFile name ⟨bytes.toArray⟩

def main (arguments : List String) : IO UInt32 := do
  match Invocation.ofArguments? (arguments.map String.toList) with
  | none =>
    IO.eprintln "Usage: (init | sync | check) [--config FILE] [--verbose] [--force]"
    IO.eprintln "       [--class NAME] [--root DIRECTORY] [--dry-run]"
    return 2
  | some invocation =>
    let before ← loadTree { root := ".", fileName := "." } [] (.empty [])
    let (transcript, after) := invocation.execute before
    storeChanges (after.changesSince before)
    IO.print (String.ofList transcript.out)
    IO.eprint (String.ofList transcript.err)
    return transcript.exit.toUInt32
