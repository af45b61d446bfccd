import PhpDoc.Diff.EditScript

/-!
# Compaction

Equal lines often let an added run stand at several places.  Compaction moves each run as far up and
then as far down as it can go, and joins it with runs of its kind that it meets on the way.
-/

namespace PhpDoc.Diff

namespace Edit

/-- Whether the edit concerns no line. -/
def isEmpty (e : Edit) : Bool :=
  e.oldLength == 0 && e.newLength == 0

/-- The edit with more of its kind at its end. -/
def growEnd (e : Edit) (count : Nat) : Edit :=
  match e.kind with
  | .keep => { e with oldLength := e.oldLength + count, newLength := e.newLength + count }
  | .remove => { e with oldLength := e.oldLength + count }
  | .add => { e with newLength := e.newLength + count }

/-- A run of kept lines with more lines at its start. -/
def growStart (e : Edit) (count : Nat) : Edit :=
  { e with
    oldStart := e.oldStart - count, oldLength := e.oldLength + count
    newStart := e.newStart - count, newLength := e.newLength + count }

/-- A run of kept lines with fewer lines at its end. -/
def shrinkEnd (e : Edit) (count : Nat) : Edit :=
  { e with oldLength := e.oldLength - count, newLength := e.newLength - count }

/-- A run of kept lines with fewer lines at its start. -/
def shrinkStart (e : Edit) (count : Nat) : Edit :=
  { e with
    oldStart := e.oldStart + count, oldLength := e.oldLength - count
    newStart := e.newStart + count, newLength := e.newLength - count }

/-- The edit the given number of lines further up. -/
def moveUp (e : Edit) (count : Nat) : Edit :=
  { e with oldStart := e.oldStart - count, newStart := e.newStart - count }

/-- The edit the given number of lines further down. -/
def moveDown (e : Edit) (count : Nat) : Edit :=
  { e with oldStart := e.oldStart + count, newStart := e.newStart + count }

end Edit

/-- An edit between the edits before it, the last one first, and the edits after it. -/
structure Cursor where
  before : List Edit
  this : Edit
  after : List Edit

/-- Puts an edit in front of a list, unless it is empty. -/
def consUnlessEmpty (e : Edit) (edits : List Edit) : List Edit :=
  if e.isEmpty then edits else e :: edits

section

variable (old new : Array Text)

/-- Moves the edit up as far as it can go. -/
def shiftUp : (fuel : Nat) → Cursor → Cursor
  | 0, c => c
  | fuel + 1, c =>
    match c.before with
    | [] => c
    | previous :: before =>
      if previous.kind = .keep then
        let count :=
          sharedBehind old new (min previous.oldLength c.this.newLength)
            (previous.oldStart + previous.oldLength) (c.this.newStart + c.this.newLength)
        if count = 0 then
          if previous.isEmpty then shiftUp fuel { c with before := before } else c
        else
          let after :=
            match c.after with
            | [] => [⟨.keep, previous.oldStart + previous.oldLength - count, count,
                c.this.newStart + c.this.newLength - count, count⟩]
            | next :: after =>
              if next.kind = .keep then next.growStart count :: after
              else ⟨.keep, previous.oldStart + previous.oldLength - count, count,
                c.this.newStart + c.this.newLength - count, count⟩ :: next :: after
          shiftUp fuel
            { before := consUnlessEmpty (previous.shrinkEnd count) before
              this := c.this.moveUp count
              after := after }
      else if previous.kind = c.this.kind then
        shiftUp fuel
          { c with
            before := before
            this := previous.growEnd (c.this.oldLength + c.this.newLength) }
      else shiftUp fuel { c with before := before, after := previous :: c.after }

/-- Moves the edit down as far as it can go. -/
def shiftDown : (fuel : Nat) → Cursor → Cursor
  | 0, c => c
  | fuel + 1, c =>
    match c.after with
    | [] => c
    | next :: after =>
      if next.kind = .keep then
        let count :=
          sharedAhead old new (min next.oldLength c.this.newLength) next.oldStart c.this.newStart
        if count = 0 then
          if next.isEmpty then shiftDown fuel { c with after := after } else c
        else
          let before :=
            match c.before with
            | [] => [⟨.keep, next.oldStart, count, c.this.newStart, count⟩]
            | previous :: before =>
              if previous.kind = .keep then previous.growEnd count :: before
              else ⟨.keep, next.oldStart, count, c.this.newStart, count⟩ :: previous :: before
          shiftDown fuel
            { before := before
              this := c.this.moveDown count
              after := consUnlessEmpty (next.shrinkStart count) after }
      else if next.kind = c.this.kind then
        shiftDown fuel
          { c with this := c.this.growEnd (next.oldLength + next.newLength), after := after }
      else shiftDown fuel { c with before := next :: c.before, after := after }

/-- Moves every edit of a kind, the last edits dealt with first in `before`. -/
def compactKind (kind : EditKind) (reach : Nat) :
    (fuel : Nat) → (before after : List Edit) → List Edit
  | 0, before, after => before.reverse ++ after
  | _ + 1, before, [] => before.reverse
  | fuel + 1, before, e :: after =>
    if e.kind = kind then
      let c := shiftDown old new reach (shiftUp old new reach ⟨before, e, after⟩)
      compactKind kind reach fuel (c.this :: c.before) c.after
    else compactKind kind reach fuel (e :: before) after

/-- The compact form of an edit script: first the removals move, then the additions. -/
def compact (edits : List Edit) : List Edit :=
  let reach := 2 * (old.size + new.size + edits.length) + 2
  compactKind old new .add reach reach [] (compactKind old new .remove reach reach [] edits)

end

end PhpDoc.Diff
