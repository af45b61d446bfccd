import PhpDoc.Json.Value

/-!
# Writing JSON

Values are written over several lines, two spaces deeper at each level, with a blank after each
colon.  Empty arrays and objects stay on one line.  Inside strings only the quote, the backslash and
control characters are escaped.
-/

namespace PhpDoc.Json

/-- A hexadecimal digit in lower case. -/
def hexDigit (n : Nat) : Char :=
  if n < 10 then Char.ofNat ('0'.toNat + n) else Char.ofNat ('a'.toNat + (n - 10))

/-- A code unit as an escape. -/
def writeUnit (unit : Nat) : Text :=
  ['\\', 'u', hexDigit (unit / 4096 % 16), hexDigit (unit / 256 % 16), hexDigit (unit / 16 % 16),
    hexDigit (unit % 16)]

/-- A character inside a string. -/
def writeChar (c : Char) : Text :=
  if c = '"' then ['\\', '"']
  else if c = '\\' then ['\\', '\\']
  else if c = '\n' then ['\\', 'n']
  else if c = '\r' then ['\\', 'r']
  else if c = '\t' then ['\\', 't']
  else if c.toNat = 8 then ['\\', 'b']
  else if c.toNat = 12 then ['\\', 'f']
  else if c.toNat < 0x20 then writeUnit c.toNat
  else [c]

/-- A part of a string literal. -/
def writePart : LiteralPart → Text
  | .char c => writeChar c
  | .surrogate unit => writeUnit unit

/-- A string literal with its quotes. -/
def writeLiteral (literal : Literal) : Text :=
  '"' :: literal.flatMap writePart ++ ['"']

/-- A line break and the indentation of a level. -/
def lineBreak (level : Nat) : Text :=
  '\n' :: List.replicate (2 * level) ' '

mutual

/-- Writes a value whose first line stands at the given level. -/
def writeAt (level : Nat) : Value → Text
  | .null => "null".toList
  | .bool b => if b then "true".toList else "false".toList
  | .number written => written
  | .string literal => writeLiteral literal
  | .array [] => "[]".toList
  | .array (item :: items) =>
    '[' :: lineBreak (level + 1) ++ writeAt (level + 1) item ++ writeItems (level + 1) items ++
      lineBreak level ++ [']']
  | .object [] => ['{', '}']
  | .object ((key, value) :: members) =>
    '{' :: lineBreak (level + 1) ++ writeLiteral key ++ ": ".toList ++ writeAt (level + 1) value ++
      writeMembers (level + 1) members ++ lineBreak level ++ ['}']

/-- Writes the items after the first one. -/
def writeItems (level : Nat) : List Value → Text
  | [] => []
  | item :: items => ',' :: lineBreak level ++ writeAt level item ++ writeItems level items

/-- Writes the members after the first one. -/
def writeMembers (level : Nat) : List (Literal × Value) → Text
  | [] => []
  | (key, value) :: members =>
    ',' :: lineBreak level ++ writeLiteral key ++ ": ".toList ++ writeAt level value ++
      writeMembers level members

end

/-- The text of a value. -/
def write (value : Value) : Text :=
  writeAt 0 value

end PhpDoc.Json
