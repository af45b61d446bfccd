import PhpDoc.Diff.Compaction

/-!
# Unified diffs

A unified diff shows the changes between two texts in hunks, each with up to three lines of context,
under a header that names both texts.
-/

namespace PhpDoc.Diff

/-- A run of lines that stays, or one that is replaced by another. -/
structure Span where
  kept : Bool
  oldStart : Nat
  oldLength : Nat
  newStart : Nat
  newLength : Nat

namespace Span

/-- The span of one edit. -/
def ofEdit (e : Edit) : Span :=
  ⟨e.kind == .keep, e.oldStart, e.oldLength, e.newStart, e.newLength⟩

/-- One span for two neighbours that both stay or both change. -/
def join (s t : Span) : Span :=
  { kept := s.kept
    oldStart := if s.oldLength = 0 ∧ t.oldLength ≠ 0 then t.oldStart else s.oldStart
    oldLength := s.oldLength + t.oldLength
    newStart := if s.newLength = 0 ∧ t.newLength ≠ 0 then t.newStart else s.newStart
    newLength := s.newLength + t.newLength }

/-- The span without its first lines. -/
def dropStart (s : Span) (count : Nat) : Span :=
  { s with
    oldStart := s.oldStart + count, oldLength := s.oldLength - count
    newStart := s.newStart + count, newLength := s.newLength - count }

/-- The first lines of the span. -/
def takeStart (s : Span) (count : Nat) : Span :=
  { s with oldLength := min count s.oldLength, newLength := min count s.newLength }

end Span

/-- The spans of an edit script, those that stay and those that change in turn. -/
def spans : List Edit → List Span
  | [] => []
  | e :: edits =>
    match spans edits with
    | [] => [.ofEdit e]
    | s :: rest =>
      if s.kept = (e.kind == .keep) then (Span.ofEdit e).join s :: rest else .ofEdit e :: s :: rest

/-- The lines of context around a change. -/
def contextLines : Nat := 3

/-- The spans with no more context than needed before the first change. -/
def trimFirst : List Span → List Span
  | [] => []
  | s :: rest => if s.kept then s.dropStart (s.oldLength - contextLines) :: rest else s :: rest

/-- The spans with no more context than needed after the last change. -/
def trimLast : List Span → List Span
  | [] => []
  | [s] => if s.kept then [s.takeStart contextLines] else [s]
  | s :: rest => s :: trimLast rest

/-- Divides the spans into hunks where much stays.  There is always at least one hunk. -/
def divide : List Span → List (List Span)
  | [] => [[]]
  | s :: rest =>
    match divide rest with
    | [] => [[s]]
    | hunk :: later =>
      if s.kept ∧ 2 * contextLines < s.oldLength then
        [s.takeStart contextLines] :: (s.dropStart (s.oldLength - contextLines) :: hunk) :: later
      else (s :: hunk) :: later

/-- The hunks of an edit script. -/
def hunks (edits : List Edit) : List (List Span) :=
  (divide (trimLast (trimFirst (spans edits)))).filter fun hunk => hunk.any fun s => !s.kept

/-- A range of lines: its first line, counted from one, and its length unless that is one.  An empty
range is named by the line before it. -/
def writeRange (start stop : Nat) : Text :=
  let length := stop - start
  if length = 1 then Text.ofNat (start + 1)
  else if length = 0 then Text.ofNat start ++ ",0".toList
  else Text.ofNat (start + 1) ++ ',' :: Text.ofNat length

/-- The header of a hunk. -/
def hunkHeader (first last : Span) : Text :=
  "@@ -".toList ++ writeRange first.oldStart (last.oldStart + last.oldLength) ++ " +".toList ++
    writeRange first.newStart (last.newStart + last.newLength) ++ " @@\n".toList

/-- A line under its mark.  A line without an ending gets a note. -/
def writeLine (mark : Char) (line : Text) : Text :=
  if line.endsWith ['\n'] || line.endsWith ['\r'] then mark :: line
  else mark :: line ++ "\n\\ No newline at end of file\n".toList

/-- The lines of a span under their marks. -/
def writeSpan (old new : Array Text) (s : Span) : Text :=
  let before := (old.extract s.oldStart (s.oldStart + s.oldLength)).toList
  let after := (new.extract s.newStart (s.newStart + s.newLength)).toList
  if s.kept then before.flatMap (writeLine ' ')
  else before.flatMap (writeLine '-') ++ after.flatMap (writeLine '+')

/-- A hunk with its header. -/
def writeHunk (old new : Array Text) (hunk : List Span) : Text :=
  match hunk.head?, hunk.getLast? with
  | some first, some last => hunkHeader first last ++ hunk.flatMap (writeSpan old new)
  | _, _ => []

/-- The unified diff of two texts under their names, empty when they are the same. -/
def unified (oldName newName : Text) (old new : Text) : Text :=
  let oldLines := (splitLines old).toArray
  let newLines := (splitLines new).toArray
  let found := hunks (compact oldLines newLines (editScript oldLines newLines))
  if found.isEmpty then []
  else
    "--- ".toList ++ oldName ++ "\n+++ ".toList ++ newName ++ '\n' ::
      found.flatMap (writeHunk oldLines newLines)

end PhpDoc.Diff
