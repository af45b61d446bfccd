import PhpDoc.Text.Blank

/-!
# Brackets and quotes

A parameter list is read with its brackets and quoted strings in view.  Inside a quoted string a
backslash protects the next character; outside, brackets of all three kinds count alike.
-/

namespace PhpDoc

/-- Where a reader stands with respect to quoted strings. -/
inductive Reading where
  /-- Outside quoted strings. -/
  | plain
  /-- Inside a string that `mark` closes. -/
  | quoted (mark : Char)
  /-- Inside such a string, after a backslash. -/
  | escaped (mark : Char)
deriving DecidableEq

namespace Reading

/-- Where the reader stands after one more character. -/
def next : Reading → Char → Reading
  | plain, c => if c = '\'' ∨ c = '"' then quoted c else plain
  | quoted mark, c => if c = '\\' then escaped mark else if c = mark then plain else quoted mark
  | escaped mark, _ => quoted mark

/-- Opening brackets. -/
def isOpening (c : Char) : Bool :=
  c == '(' || c == '[' || c == '{'

/-- Closing brackets. -/
def isClosing (c : Char) : Bool :=
  c == ')' || c == ']' || c == '}'

/-- How many brackets are open after one more character. -/
def depthAfter : Reading → Nat → Char → Nat
  | plain, depth, c => if isOpening c then depth + 1 else if isClosing c then depth - 1 else depth
  | quoted _, depth, _ => depth
  | escaped _, depth, _ => depth

/-- The text up to the closing bracket that no bracket of the text opens, and the text after it. -/
def enclosed? (r : Reading) (depth : Nat) : Text → Option (Text × Text)
  | [] => none
  | c :: text =>
    if r = plain ∧ depth = 0 ∧ isClosing c then some ([], text)
    else
      (enclosed? (r.next c) (r.depthAfter depth c) text).map fun (inner, rest) => (c :: inner, rest)

/-- The pieces between the commas that stand outside quotes and brackets. -/
def commaPieces (r : Reading) (depth : Nat) : Text → List Text
  | [] => [[]]
  | c :: text =>
    if r = plain ∧ depth = 0 ∧ c = ',' then [] :: commaPieces plain 0 text
    else Text.consHead c (commaPieces (r.next c) (r.depthAfter depth c) text)

end Reading

/-- What a bracket encloses and what follows the bracket that closes it, given the text after the
opening one. -/
def enclosed? (text : Text) : Option (Text × Text) :=
  Reading.enclosed? .plain 0 text

/-- The pieces of a list between its outermost commas. -/
def commaPieces (list : Text) : List Text :=
  Reading.commaPieces .plain 0 list

/-- The items of a parameter list; blank pieces, such as the one after a last comma, are none. -/
def listItems (list : Text) : List Text :=
  (commaPieces list).filter fun piece => !piece.trim.isEmpty

end PhpDoc
