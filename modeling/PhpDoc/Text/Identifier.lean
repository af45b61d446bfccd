import PhpDoc.Text.Basic

/-!
# Identifiers

Names of classes, methods and variables are read over ASCII letters, digits and the underscore, and
do not start with a digit.
-/

namespace PhpDoc

/-- Characters that may start an identifier. -/
def isIdentifierStart (c : Char) : Bool :=
  c.isAlpha || c == '_'

/-- Characters that may continue an identifier. -/
def isIdentifierChar (c : Char) : Bool :=
  c.isAlphanum || c == '_'

/-- Characters of a namespace path: those of identifiers and the backslash. -/
def isPathChar (c : Char) : Bool :=
  isIdentifierChar c || c == '\\'

namespace Text

/-- The longest identifier at the start of the text, and what follows it. -/
def identifier? : Text → Option (Text × Text)
  | [] => none
  | c :: text =>
    if isIdentifierStart c then
      some (c :: text.takeWhile isIdentifierChar, text.dropWhile isIdentifierChar)
    else none

/-- The longest non-empty run of characters that satisfy `p`, and what follows it. -/
def run? (p : Char → Bool) : Text → Option (Text × Text)
  | [] => none
  | c :: text => if p c then some (c :: text.takeWhile p, text.dropWhile p) else none

/-- Whether the whole text is an identifier. -/
def isIdentifier : Text → Bool
  | [] => false
  | c :: text => isIdentifierStart c && text.all isIdentifierChar

end Text

end PhpDoc
