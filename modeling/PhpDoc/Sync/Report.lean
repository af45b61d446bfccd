import PhpDoc.Project.ClassFile

/-!
# Reports

What became of each file of a run, and how often.
-/

namespace PhpDoc

/-- What became of a file. -/
inductive Outcome where
  /-- Its text changed, or would have. -/
  | patched
  | unchanged
  /-- A text to replace was not found. -/
  | noMatch
  /-- A text to replace was found more than once. -/
  | ambiguous
  /-- It could not be read as a class file. -/
  | malformed
  /-- It could not be written. -/
  | notWritable
deriving DecidableEq

/-- The outcome in words. -/
def Outcome.label : Outcome → Text
  | patched => "patched".toList
  | unchanged => "unchanged".toList
  | noMatch => "no match".toList
  | ambiguous => "ambiguous".toList
  | malformed => "malformed".toList
  | notWritable => "not writable".toList

/-- What became of one file. -/
structure FileReport where
  file : ClassFile
  outcome : Outcome
  /-- The text that was read. -/
  before : Text
  /-- The text after merging, the same unless the file was patched. -/
  after : Text
  /-- Whether the properties could not be found. -/
  metadataUnavailable : Bool
deriving DecidableEq

/-- Whether merging changed the text. -/
def FileReport.changed (r : FileReport) : Bool :=
  r.before != r.after

/-- How many files had each outcome. -/
structure Summary where
  patched : Nat
  unchanged : Nat
  noMatch : Nat
  ambiguous : Nat
  malformed : Nat
  notWritable : Nat
  metadataUnavailable : Nat
deriving DecidableEq

namespace Summary

/-- Before any file. -/
def zero : Summary := ⟨0, 0, 0, 0, 0, 0, 0⟩

/-- Counts one more outcome. -/
def count (s : Summary) : Outcome → Summary
  | .patched => { s with patched := s.patched + 1 }
  | .unchanged => { s with unchanged := s.unchanged + 1 }
  | .noMatch => { s with noMatch := s.noMatch + 1 }
  | .ambiguous => { s with ambiguous := s.ambiguous + 1 }
  | .malformed => { s with malformed := s.malformed + 1 }
  | .notWritable => { s with notWritable := s.notWritable + 1 }

/-- Counts one more file. -/
def record (s : Summary) (r : FileReport) : Summary :=
  let s := s.count r.outcome
  if r.metadataUnavailable then { s with metadataUnavailable := s.metadataUnavailable + 1 } else s

/-- The counts of a list of files. -/
def ofReports (reports : List FileReport) : Summary :=
  reports.foldl record zero

/-- All files. -/
def total (s : Summary) : Nat :=
  s.patched + s.unchanged + s.noMatch + s.ambiguous + s.malformed + s.notWritable

/-- The files that were left as they are because something was wrong. -/
def skipped (s : Summary) : Nat :=
  s.noMatch + s.ambiguous + s.malformed + s.notWritable

end Summary

end PhpDoc
