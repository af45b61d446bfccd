import PhpDoc.Text.Blank
import PhpDoc.Text.Identifier

/-!
# Alignment

Tag lines of one group line up at their variable token: `$name`, `&$name`, `...$name`, `&...$name`
or a braced `{Name}`, the first that a blank precedes.  Widths count characters.
-/

namespace PhpDoc

/-- Whether the text starts with `$` and a character of an identifier, after at most one `&` and at
most one `...`. -/
def startsVariable (text : Text) : Bool :=
  let text := (Text.after? ['&'] text).getD text
  let text := (Text.after? "...".toList text).getD text
  match text with
  | '$' :: c :: _ => isIdentifierChar c
  | _ => false

/-- Whether the text starts with a pair of braces around characters that are neither blank nor a
closing brace. -/
def startsBraced : Text → Bool
  | '{' :: rest => (rest.dropWhile fun c => c != '}' && !isBlank c).head? == some '}'
  | _ => false

/-- Whether the text starts with a variable token. -/
def startsToken (text : Text) : Bool :=
  startsVariable text || startsBraced text

/-- The text before the blanks in front of the first variable token, and the text from the token on.
`passed` says that the text starts inside a run of blanks that no token follows. -/
def splitTokenFrom? : (passed : Bool) → Text → Option (Text × Text)
  | _, [] => none
  | passed, c :: text =>
    if isBlank c && !passed && startsToken (Text.trimStart text) then
      some ([], Text.trimStart text)
    else (splitTokenFrom? (isBlank c) text).map fun (front, token) => (c :: front, token)

/-- The text before the blanks in front of the first variable token, and the text from the token
on. -/
def splitToken? (text : Text) : Option (Text × Text) :=
  splitTokenFrom? false text

/-- The longest text in front of a token among the lines, zero when no line has a token. -/
def tokenColumn (lines : List Text) : Nat :=
  (lines.filterMap splitToken?).foldr (fun (front, _) width => max front.length width) 0

/-- The line with its token one space after column `width`, or after what precedes the token when
that is longer. -/
def alignLine (width : Nat) (line : Text) : Text :=
  match splitToken? line with
  | some (front, token) => front ++ List.replicate (width - front.length + 1) ' ' ++ token
  | none => line

/-- The most characters that a text can have: the greatest number of 63 bits. -/
def maxTextLength : Nat := 0x7fffffffffffffff

/-- A width that lines can be aligned to.  The blanks that fill it, and the one behind them, are no
more than a text can have; no line can be written for a greater width. -/
structure Width where
  columns : Nat
  columns_lt : columns < maxTextLength
deriving DecidableEq

/-- The lines with their tokens in one column: the given one, or the least that fits them all. -/
def align (lines : List Text) (width : Option Width) : List Text :=
  lines.map (alignLine ((width.map Width.columns).getD (tokenColumn lines)))

end PhpDoc
