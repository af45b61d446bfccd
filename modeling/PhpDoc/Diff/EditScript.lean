import PhpDoc.Text.Basic

/-!
# Edit scripts

An edit script turns the lines of one text into those of another by keeping, removing and adding
runs of lines.  It is found by divide and conquer: common lines at both ends are kept, and what lies
between is divided where a search from its start and a search from its end meet.
-/

namespace PhpDoc.Diff

/-- The lines of a text with their endings.  A line ends after a line feed, after a carriage return,
or after a carriage return with a line feed. -/
def splitLines : Text → List Text
  | [] => []
  | c :: text =>
    if c = '\n' ∨ (c = '\r' ∧ text.head? ≠ some '\n') then [c] :: splitLines text
    else Text.consHead c (splitLines text)

/-- What happens to a run of lines. -/
inductive EditKind where
  | keep
  | remove
  | add
deriving DecidableEq

/-- A run of lines of the old text and one of the new text. -/
structure Edit where
  kind : EditKind
  oldStart : Nat
  oldLength : Nat
  newStart : Nat
  newLength : Nat
deriving DecidableEq

/-- A stretch of the old text and one of the new text, each from its first line up to the line after
its last one. -/
structure Window where
  oldStart : Nat
  oldStop : Nat
  newStart : Nat
  newStop : Nat

namespace Window

/-- How many lines of the old text there are. -/
def oldLength (w : Window) : Nat :=
  w.oldStop - w.oldStart

/-- How many lines of the new text there are. -/
def newLength (w : Window) : Nat :=
  w.newStop - w.newStart

end Window

section

variable (old new : Array Text)

/-- How many lines the texts share from the given places on, of at most `limit`. -/
def sharedAhead : (limit oldPlace newPlace : Nat) → Nat
  | 0, _, _ => 0
  | limit + 1, oldPlace, newPlace =>
    if old.getD oldPlace [] = new.getD newPlace [] then
      sharedAhead limit (oldPlace + 1) (newPlace + 1) + 1
    else 0

/-- How many lines the texts share right before the given places, of at most `limit`. -/
def sharedBehind : (limit oldPlace newPlace : Nat) → Nat
  | 0, _, _ => 0
  | limit + 1, oldPlace, newPlace =>
    if old.getD (oldPlace - 1) [] = new.getD (newPlace - 1) [] then
      sharedBehind limit (oldPlace - 1) (newPlace - 1) + 1
    else 0

end

/-- How far a search with at most `size` edits has come on each diagonal, counted in lines of the
old text. -/
abbrev Frontier := Array Nat

namespace Frontier

/-- No lines on any diagonal. -/
def start (size : Nat) : Frontier :=
  Array.replicate (2 * size + 3) 0

/-- The place of a diagonal. -/
def place (size : Nat) (diagonal : Int) : Nat :=
  (diagonal + (size + 1)).toNat

/-- How far the search has come on a diagonal. -/
def lines (size : Nat) (f : Frontier) (diagonal : Int) : Nat :=
  f.getD (place size diagonal) 0

/-- The frontier with a diagonal extended. -/
def extend (size : Nat) (f : Frontier) (diagonal : Int) (lines : Nat) : Frontier :=
  f.setIfInBounds (place size diagonal) lines

/-- Where a search with `cost` edits enters a diagonal: from the neighbour that has come further. -/
def entry (size : Nat) (f : Frontier) (cost diagonal : Int) : Nat :=
  let below := lines size f (diagonal - 1)
  let above := lines size f (diagonal + 1)
  if diagonal = -cost ∨ (diagonal ≠ cost ∧ below < above) then above else below + 1

end Frontier

/-- The diagonals that `cost` edits can reach, from the highest one down. -/
def diagonals (cost : Nat) : List Int :=
  (List.range (cost + 1)).map fun (i : Nat) => (cost : Int) - 2 * (i : Int)

section

variable (old new : Array Text) (w : Window) (size : Nat)

/-- Extends the search from the start on one diagonal.  It ends with the place where the searches
meet, if they do. -/
def stepFromStart (cost : Nat) (fromEnd fromStart : Frontier) (diagonal : Int) :
    Except (Nat × Nat) Frontier :=
  let delta : Int := w.oldLength - w.newLength
  let x := fromStart.entry size cost diagonal
  let y := ((x : Int) - diagonal).toNat
  let reached :=
    x + sharedAhead old new (min (w.oldLength - x) (w.newLength - y)) (w.oldStart + x)
      (w.newStart + y)
  if delta % 2 = 1 ∧ (diagonal - delta).natAbs + 1 ≤ cost ∧
      w.oldLength ≤ reached + fromEnd.lines size (delta - diagonal) then
    .error (w.oldStart + x, w.newStart + y)
  else .ok (fromStart.extend size diagonal reached)

/-- Extends the search from the end on one diagonal.  It ends with the place where the searches
meet, if they do. -/
def stepFromEnd (cost : Nat) (fromStart fromEnd : Frontier) (diagonal : Int) :
    Except (Nat × Nat) Frontier :=
  let delta : Int := w.oldLength - w.newLength
  let x := fromEnd.entry size cost diagonal
  let y := ((x : Int) - diagonal).toNat
  let shared :=
    sharedBehind old new (min (w.oldLength - x) (w.newLength - y)) (w.oldStop - x) (w.newStop - y)
  if delta % 2 = 0 ∧ (diagonal - delta).natAbs ≤ cost ∧
      w.oldLength ≤ x + shared + fromStart.lines size (delta - diagonal) then
    .error (w.oldStop - (x + shared), w.newStop - (y + shared))
  else .ok (fromEnd.extend size diagonal (x + shared))

/-- Extends both searches by one edit. -/
def stepBoth (frontiers : Frontier × Frontier) (cost : Nat) :
    Except (Nat × Nat) (Frontier × Frontier) :=
  match frontiers with
  | (fromStart, fromEnd) => do
    let fromStart ← (diagonals cost).foldlM (stepFromStart old new w size cost fromEnd) fromStart
    let fromEnd ← (diagonals cost).foldlM (stepFromEnd old new w size cost fromStart) fromEnd
    return (fromStart, fromEnd)

/-- The place where a search from the start and one from the end meet. -/
def meetingPoint? : Option (Nat × Nat) :=
  let size := (w.oldLength + w.newLength + 1) / 2 + 1
  match (List.range size).foldlM (stepBoth old new w size) (.start size, .start size) with
  | .error place => some place
  | .ok _ => none

end

/-- The edit of a kind, without edits of no lines. -/
def edit (kind : EditKind) (oldStart oldLength newStart newLength : Nat) : List Edit :=
  if oldLength = 0 ∧ newLength = 0 then []
  else [⟨kind, oldStart, oldLength, newStart, newLength⟩]

/-- The edits of a window that shares no lines. -/
def replaceAll (w : Window) : List Edit :=
  edit .remove w.oldStart w.oldLength w.newStart 0 ++ edit .add w.oldStart 0 w.newStart w.newLength

/-- The edits that turn the old lines of a window into the new ones.  The fuel bounds the depth of
division. -/
def script (old new : Array Text) : (fuel : Nat) → Window → List Edit
  | 0, w => replaceAll w
  | fuel + 1, w =>
    let front := sharedAhead old new (min w.oldLength w.newLength) w.oldStart w.newStart
    let back :=
      sharedBehind old new (min w.oldLength w.newLength - front) w.oldStop w.newStop
    let middle : Window :=
      ⟨w.oldStart + front, w.oldStop - back, w.newStart + front, w.newStop - back⟩
    let edits :=
      if middle.oldLength = 0 ∨ middle.newLength = 0 then replaceAll middle
      else
        match meetingPoint? old new middle with
        | some (oldPlace, newPlace) =>
          script old new fuel { middle with oldStop := oldPlace, newStop := newPlace } ++
            script old new fuel { middle with oldStart := oldPlace, newStart := newPlace }
        | none => replaceAll middle
    edit .keep w.oldStart front w.newStart front ++ edits ++
      edit .keep middle.oldStop back middle.newStop back

/-- The edits that turn the old lines into the new ones. -/
def editScript (old new : Array Text) : List Edit :=
  script old new (old.size + new.size + 1) ⟨0, old.size, 0, new.size⟩

end PhpDoc.Diff
