import PhpDoc.Diff.Unified
import PhpDoc.Sync.Run

/-!
# Commands

The program has three commands.  `init` writes the default settings, `sync` merges the blocks of a
project or shows what it would change, and `check` fails when something would change.  A command
takes a file tree to a file tree, and says what it did.
-/

namespace PhpDoc

/-- What a command prints, and its exit code. -/
structure Transcript where
  out : Text
  err : Text
  exit : Nat
deriving DecidableEq

namespace Transcript

/-- Nothing printed, and success. -/
def silent : Transcript := ⟨[], [], 0⟩

/-- Prints a text. -/
def print (t : Transcript) (text : Text) : Transcript :=
  { t with out := t.out ++ text }

/-- Prints a line. -/
def printLine (t : Transcript) (line : Text) : Transcript :=
  t.print (line ++ ['\n'])

/-- Prints a line on the error channel. -/
def warnLine (t : Transcript) (line : Text) : Transcript :=
  { t with err := t.err ++ line ++ ['\n'] }

/-- Ends with exit code one. -/
def fail (t : Transcript) : Transcript :=
  { t with exit := 1 }

/-- The end of a command that a failure stopped. -/
def stopped (message : Text) : Transcript :=
  (silent.warnLine ("Error: ".toList ++ message)).fail

end Transcript

/-- What a run over a project is for. -/
inductive RunMode where
  /-- To write the changes. -/
  | write
  /-- To show the changes. -/
  | dryRun
  /-- To fail when there are changes. -/
  | check
deriving DecidableEq

/-- What the program is asked to do. -/
inductive Command where
  /-- To write the default settings, over an existing file if forced. -/
  | init (force : Bool)
  /-- To merge the blocks of a project, or of the files of one class. -/
  | run (mode : RunMode) (root : Path) (className : Option Text)
deriving DecidableEq

/-- A command with the options that all commands share. -/
structure Invocation where
  command : Command
  /-- The file of the settings. -/
  settingsFile : Path
  verbose : Bool
deriving DecidableEq

/-- The file of the settings unless another one is named. -/
def defaultSettingsFile : Path := ⟨".docsync.config.json".toList⟩

/-- How a file is shown: as it is written from the root of the project on. -/
def shownPath (root p : Path) : Text :=
  ((p.relativeTo? root).getD p).text

/-- Prints what became of a file. -/
def reportFile (mode : RunMode) (root : Path) (verbose : Bool) (t : Transcript) (r : FileReport) :
    Transcript :=
  let path := shownPath root r.file.path
  let t := match r.outcome with
    | .patched =>
      match mode with
      | .dryRun =>
        t.print (Diff.unified ("a/".toList ++ path) ("b/".toList ++ path) r.before r.after)
      | .check => t.printLine ("✗ ".toList ++ path)
      | .write => t.printLine ("✓ ".toList ++ path)
    | .unchanged => if verbose then t.printLine ("  = ".toList ++ path) else t
    | outcome => t.warnLine ("⚠ ".toList ++ path ++ " (".toList ++ outcome.label ++ [')'])
  if r.metadataUnavailable && verbose then
    t.warnLine "  → column facts unavailable, kept existing properties".toList
  else t

/-- A line of the summary: a label and a count in the next column. -/
def summaryLine (label : Text) (count : Nat) : Text :=
  label ++ List.replicate (25 - label.length) ' ' ++ Text.ofNat count

/-- Prints the counts of a run. -/
def reportSummary (mode : RunMode) (t : Transcript) (s : Summary) : Transcript :=
  let patched := if mode = .write then "Patched:".toList else "Would patch:".toList
  let counts := [summaryLine "Files processed:".toList s.total, summaryLine patched s.patched,
    summaryLine "Unchanged:".toList s.unchanged]
  let skipped :=
    if s.skipped = 0 then []
    else [summaryLine "Skipped:".toList s.skipped, summaryLine "  no match:".toList s.noMatch,
      summaryLine "  ambiguous:".toList s.ambiguous, summaryLine "  malformed:".toList s.malformed,
      summaryLine "  not writable:".toList s.notWritable]
  let missing :=
    if s.metadataUnavailable = 0 then []
    else [summaryLine "Metadata unavailable:".toList s.metadataUnavailable]
  (["".toList, "Sync Summary".toList, "============".toList] ++ counts ++ skipped ++
    missing).foldl Transcript.printLine t

/-- Ends a run that patched the given number of files. -/
def concludeRun (mode : RunMode) (t : Transcript) (patched : Nat) : Transcript :=
  match mode with
  | .check =>
    if patched = 0 then t.printLine "\n✓ All annotations up to date".toList
    else
      (t.warnLine ("\n✗ ".toList ++ Text.ofNat patched ++
        " file(s) have out-of-date annotations".toList)).fail
  | .dryRun =>
    if patched = 0 then t else t.warnLine "\nRun without --dry-run to write changes".toList
  | .write => t

/-- What is said when no class file is found. -/
def nothingFound : Option Text → Text
  | some name => "! No class file named ".toList ++ name
  | none => "! No class files found".toList

/-- Runs over the class files of a project that has some. -/
def runFiles (mode : RunMode) (p : Project) (files : List ClassFile) (verbose : Bool)
    (tree : FileTree) : Transcript × FileTree :=
  let (reports, state) := p.processFiles (decide (mode = .write)) ⟨tree, p.freshCache⟩ files
  let summary := Summary.ofReports reports
  let t :=
    if verbose then
      Transcript.silent.warnLine
        ("Found ".toList ++ Text.ofNat files.length ++ " files to process".toList)
    else .silent
  let t := reportSummary mode (reports.foldl (reportFile mode p.root verbose) t) summary
  (concludeRun mode t summary.patched, state.tree)

/-- The end of a run whose root is no directory. -/
def missingRoot (mode : RunMode) (root : Path) : Transcript :=
  let message := "Project root ".toList ++ root.text ++ " is not a directory".toList
  if mode = .check then (Transcript.silent.warnLine ("✗ ".toList ++ message)).fail
  else .stopped message

/-- Runs over a project. -/
def runProject (mode : RunMode) (p : Project) (className : Option Text) (verbose : Bool)
    (tree : FileTree) : Transcript × FileTree :=
  if (tree.directory? p.root).isNone then (missingRoot mode p.root, tree)
  else
    match p.discover tree className with
    | [] => (Transcript.silent.printLine (nothingFound className), tree)
    | files => runFiles mode p files verbose tree

/-- The settings in a file, or the default ones when there is no such file. -/
def loadSettings (tree : FileTree) (file : Path) : Except Fault Settings :=
  if (tree.find? file).isNone then .ok .default
  else
    match tree.readText? file with
    | none => .error .fileAccess
    | some text => Settings.parse text

/-- Writes the default settings to a file. -/
def initSettings (force : Bool) (file : Path) (tree : FileTree) : Transcript × FileTree :=
  if (tree.find? file).isSome && !force then
    ((Transcript.silent.warnLine
      "✗ Config file already exists. Use --force to overwrite.".toList).fail, tree)
  else
    match tree.writeText? file Settings.default.render with
    | none => (.stopped Fault.fileAccess.message, tree)
    | some tree =>
      let created := Transcript.silent.printLine ("✓ Created ".toList ++ file.text)
      (Settings.default.connections.entries.foldl
        (fun t (name, path) => t.printLine ("  → connection ".toList ++ name ++ " reads ".toList ++
          path.text)) created, tree)

/-- Carries out an invocation. -/
def Invocation.execute (i : Invocation) (tree : FileTree) : Transcript × FileTree :=
  match i.command with
  | .init force => initSettings force i.settingsFile tree
  | .run mode root className =>
    match loadSettings tree i.settingsFile with
    | .error fault => (.stopped fault.message, tree)
    | .ok settings => runProject mode ⟨root, settings⟩ className i.verbose tree

end PhpDoc
