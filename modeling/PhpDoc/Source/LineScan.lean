import PhpDoc.Text.Basic

/-!
# Scanning at line starts

Declarations are recognised at the starts of lines.  A scan tries a reader at each line start from
left to right and goes on after what the reader has consumed, so the places found do not overlap.
-/

namespace PhpDoc

/-- What was read at a place of a source, and the source around it. -/
structure Found (α : Type) where
  /-- How many characters precede the place. -/
  start : Nat
  /-- The text before the place, its last character first. -/
  behind : Text
  /-- The text from the place on. -/
  ahead : Text
  /-- The text after what was read. -/
  rest : Text
  value : α

namespace Found

variable {α : Type}

/-- How many characters were read. -/
def length (f : Found α) : Nat :=
  f.ahead.length - f.rest.length

/-- The text that was read. -/
def text (f : Found α) : Text :=
  f.ahead.take f.length

end Found

/-- Whether a line starts after the given text, of which the last character comes first. -/
def startsLine (behind : Text) : Bool :=
  behind.head?.all (· == '\n')

section

variable {α : Type} (read : Text → Option (α × Text))

/-- Scans from a place that `behind`, a text of `offset` characters with its last one first,
precedes.  `skip` says how many characters belong to the last thing read. -/
def scanFrom : (offset : Nat) → (behind : Text) → (skip : Nat) → Text → List (Found α)
  | _, _, _, [] => []
  | offset, behind, skip + 1, c :: text => scanFrom (offset + 1) (c :: behind) skip text
  | offset, behind, 0, c :: text =>
    match if startsLine behind then read (c :: text) else none with
    | some (value, rest) =>
      let found : Found α := ⟨offset, behind, c :: text, rest, value⟩
      found :: scanFrom (offset + 1) (c :: behind) (found.length - 1) text
    | none => scanFrom (offset + 1) (c :: behind) 0 text

/-- Everything that `read` finds at line starts of the source. -/
def scan (source : Text) : List (Found α) :=
  scanFrom read 0 [] 0 source

/-- The first thing that `read` finds at a line start of the source. -/
def scanFirst? (source : Text) : Option (Found α) :=
  (scan read source).head?

end

end PhpDoc
