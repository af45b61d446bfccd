import PhpDoc.Block.TagGroups

/-!
# What stands above a declaration

Directly above a declaration there may be attribute lines `#[…]`; above those, across blanks only,
there may be a doc comment.  Both are read upwards: the text above is given with its last character
first.
-/

namespace PhpDoc

/-- Whether a line holds attributes from its first to its last character that is not blank. -/
def isAttributeLine (line : Text) : Bool :=
  "#[".toList.isPrefixOf line.trim && line.trim.endsWith [']']

/-- Moves the attribute lines that end the text above in front of `attributes`, at most one for each
character of `fuel`.  The text above has its last character, which ends a line, first. -/
def takeAttributes : (fuel : Text) → (behind attributes : Text) → Text × Text
  | [], behind, attributes => (behind, attributes)
  | _ :: _, [], attributes => ([], attributes)
  | _ :: fuel, c :: behind, attributes =>
    let line := (c :: behind.takeWhile (· != '\n')).reverse
    if isAttributeLine line then
      takeAttributes fuel (behind.dropWhile (· != '\n')) (line ++ attributes)
    else (c :: behind, attributes)

/-- Divides the text above a line, its last character first: what precedes its attribute lines, last
character first, and the attribute lines. -/
def splitAttributes (behind : Text) : Text × Text :=
  takeAttributes behind behind []

/-- The closing delimiter of a comment. -/
def commentEnd : Text := "*/".toList

/-- A doc comment above a declaration. -/
structure PrecedingDoc where
  /-- The comment with its delimiters. -/
  comment : Text
  /-- The blanks after it. -/
  gap : Text
deriving DecidableEq

/-- How many characters the comment and the blanks after it take. -/
def PrecedingDoc.length (d : PrecedingDoc) : Nat :=
  d.comment.length + d.gap.length

/-- The doc comment that ends a text up to blanks, given the text with its last character first.
The comment opens at the last opening delimiter, and closes nowhere but at its end. -/
def precedingDoc? (behind : Text) : Option PrecedingDoc := do
  let kept : Text := behind.dropWhile isBlank
  let body ← Text.after? commentEnd.reverse kept
  let (inner, _) ← Text.cut? openingLine.reverse kept
  let comment := inner ++ openingLine.reverse
  if comment.length < 5 || Text.occursIn commentEnd.reverse (body.take (comment.length - 2)) then
    none
  else some ⟨comment.reverse, (behind.takeWhile isBlank).reverse⟩

end PhpDoc
