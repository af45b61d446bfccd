import PhpDoc.Sync.Merge
import PhpDoc.Sync.Report

/-!
# Runs

A run merges the blocks of every class file of a project, one file after the other.  What it may
change is the state: the file tree and the schema cache.  A file that fails is reported and left
alone.
-/

namespace PhpDoc

/-- Where a project is and how it is set up. -/
structure Project where
  root : Path
  settings : Settings
deriving DecidableEq

/-- What a run may change. -/
structure RunState (σ : Type := Snapshot) where
  tree : FileTree
  cache : SchemaCache σ
deriving DecidableEq

namespace Project

variable {σ : Type} [SchemaSource σ]

/-- The cache of a project before its first run. -/
def freshCache (p : Project) : SchemaCache :=
  .fresh p.root p.settings.connections

/-- The class files of the project. -/
def discover (p : Project) (tree : FileTree) (className : Option Text) : List ClassFile :=
  ClassFile.discover tree p.root p.settings className

/-- What a fault makes of a file. -/
def outcomeOf : Fault → Outcome
  | .noSpliceMatch => .noMatch
  | .ambiguousSplice _ => .ambiguous
  | _ => .malformed

/-- The report on a file whose text did not change. -/
def untouched (file : ClassFile) (outcome : Outcome) (text : Text) (unavailable : Bool) :
    FileReport :=
  ⟨file, outcome, text, text, unavailable⟩

/-- The report on a file once its text is merged, and the file tree afterwards. -/
def storeMerged (tree : FileTree) (file : ClassFile) (write : Bool) (source : Text)
    (merged : MergedSource) : FileReport × FileTree :=
  let unavailable := merged.metadataUnavailable
  if merged.text = source then (untouched file .unchanged source unavailable, tree)
  else if write then
    match tree.writeText? file.path merged.text with
    | none => (untouched file .notWritable source unavailable, tree)
    | some tree => (⟨file, .patched, source, merged.text, unavailable⟩, tree)
  else (⟨file, .patched, source, merged.text, unavailable⟩, tree)

/-- Merges the blocks of one file, and writes it if asked to. -/
def processFile (p : Project) (write : Bool) (s : RunState σ) (file : ClassFile) :
    FileReport × RunState σ :=
  match s.tree.readText? file.path with
  | none => (untouched file .malformed [] false, s)
  | some source =>
    match mergeSource p.settings s.cache s.tree file.path file.kind source with
    | (.error fault, cache) =>
      (untouched file (outcomeOf fault) source false, { s with cache := cache })
    | (.ok merged, cache) =>
      let (report, tree) := storeMerged s.tree file write source merged
      (report, ⟨tree, cache⟩)

/-- Merges the blocks of the given files. -/
def processFiles (p : Project) (write : Bool) :
    RunState σ → List ClassFile → List FileReport × RunState σ
  | s, [] => ([], s)
  | s, file :: files =>
    let (report, s) := p.processFile write s file
    let (reports, s) := p.processFiles write s files
    (report :: reports, s)

/-- Merges the blocks of all class files, or of those of one class. -/
def run (p : Project) (className : Option Text) (write : Bool) (s : RunState σ) :
    List FileReport × RunState σ :=
  p.processFiles write s (p.discover s.tree className)

end Project

end PhpDoc
