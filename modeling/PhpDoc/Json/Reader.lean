import PhpDoc.Json.Value

/-!
# Reading JSON

The grammar is strict: no comments, no comma after the last item, no leading zeros, no control
characters inside strings, and nothing but space around the value.
-/

namespace PhpDoc.Json

/-- The space characters of JSON. -/
def isSpace (c : Char) : Bool :=
  c == ' ' || c == '\n' || c == '\t' || c == '\r'

/-- The text without leading space. -/
def skipSpace (text : Text) : Text :=
  text.dropWhile isSpace

/-- The value of a hexadecimal digit. -/
def hexDigit? (c : Char) : Option Nat :=
  if '0' ≤ c ∧ c ≤ '9' then some (c.toNat - '0'.toNat)
  else if 'a' ≤ c ∧ c ≤ 'f' then some (c.toNat - 'a'.toNat + 10)
  else if 'A' ≤ c ∧ c ≤ 'F' then some (c.toNat - 'A'.toNat + 10)
  else none

/-- The code unit that four hexadecimal digits give. -/
def hexUnit? (a b c d : Char) : Option Nat := do
  return (((← hexDigit? a) * 16 + (← hexDigit? b)) * 16 + (← hexDigit? c)) * 16 + (← hexDigit? d)

/-- The character that a letter stands for after a backslash. -/
def escape? : Char → Option Char
  | '"' => some '"'
  | '\\' => some '\\'
  | '/' => some '/'
  | 'b' => some (Char.ofNat 8)
  | 'f' => some (Char.ofNat 12)
  | 'n' => some '\n'
  | 'r' => some '\r'
  | 't' => some '\t'
  | _ => none

/-- The part of a literal that an escaped code unit is. -/
def unitPart (unit : Nat) : LiteralPart :=
  if 0xD800 ≤ unit ∧ unit < 0xE000 then .surrogate unit else .char (Char.ofNat unit)

/-- Reads a string literal after its opening quote. -/
def readLiteral : Text → Option (Literal × Text)
  | [] => none
  | '"' :: text => some ([], text)
  | '\\' :: 'u' :: a :: b :: c :: d :: text => do
    let unit ← hexUnit? a b c d
    let (parts, text) ← readLiteral text
    return (unitPart unit :: parts, text)
  | '\\' :: letter :: text => do
    let c ← escape? letter
    let (parts, text) ← readLiteral text
    return (.char c :: parts, text)
  | c :: text =>
    if c = '\\' ∨ c.toNat < 0x20 then none
    else (readLiteral text).map fun (parts, text) => (.char c :: parts, text)

/-- A non-empty run of digits, and what follows. -/
def readDigits (text : Text) : Option (Text × Text) :=
  let digits := text.takeWhile Char.isDigit
  if digits.isEmpty then none else some (digits, text.dropWhile Char.isDigit)

/-- The whole part of a number: a zero alone, or digits that do not start with one. -/
def readWhole : Text → Option (Text × Text)
  | '0' :: text => if text.head?.any Char.isDigit then none else some (['0'], text)
  | text => readDigits text

/-- The fraction of a number, possibly empty. -/
def readFraction : Text → Option (Text × Text)
  | '.' :: text => (readDigits text).map fun (digits, text) => ('.' :: digits, text)
  | text => some ([], text)

/-- The sign of an exponent, possibly empty. -/
def readSign : Text → Text × Text
  | '+' :: text => (['+'], text)
  | '-' :: text => (['-'], text)
  | text => ([], text)

/-- The exponent of a number, possibly empty. -/
def readExponent : Text → Option (Text × Text)
  | [] => some ([], [])
  | c :: text =>
    if c = 'e' ∨ c = 'E' then
      let (sign, text) := readSign text
      (readDigits text).map fun (digits, text) => (c :: sign ++ digits, text)
    else some ([], c :: text)

/-- Reads a number. -/
def readNumber (text : Text) : Option (Text × Text) := do
  let (minus, text) := match text with
    | '-' :: text => (['-'], text)
    | text => ([], text)
  let (whole, text) ← readWhole text
  let (fraction, text) ← readFraction text
  let (exponent, text) ← readExponent text
  return (minus ++ whole ++ fraction ++ exponent, text)

/-- Reads a value that is written as a word or a number. -/
def readScalar (text : Text) : Option (Value × Text) :=
  ((Text.after? "null".toList text).map (Value.null, ·)).or <|
    ((Text.after? "true".toList text).map (Value.bool true, ·)).or <|
      ((Text.after? "false".toList text).map (Value.bool false, ·)).or <|
        (readNumber text).map fun (written, text) => (.number written, text)

mutual

/-- Reads a value, with `fuel` for the values inside it. -/
def readValue : (fuel : Nat) → Text → Option (Value × Text)
  | 0, _ => none
  | fuel + 1, text =>
    match skipSpace text with
    | '"' :: text => (readLiteral text).map fun (literal, text) => (.string literal, text)
    | '[' :: text =>
      match skipSpace text with
      | ']' :: text => some (.array [], text)
      | text => (readItems fuel text).map fun (items, text) => (.array items, text)
    | '{' :: text =>
      match skipSpace text with
      | '}' :: text => some (.object [], text)
      | text => (readMembers fuel text).map fun (members, text) => (.object members, text)
    | text => readScalar text

/-- Reads at least one item and the end of the array. -/
def readItems : (fuel : Nat) → Text → Option (List Value × Text)
  | 0, _ => none
  | fuel + 1, text =>
    match readValue fuel text with
    | none => none
    | some (item, text) =>
      match skipSpace text with
      | ']' :: text => some ([item], text)
      | ',' :: text => (readItems fuel text).map fun (items, text) => (item :: items, text)
      | _ => none

/-- Reads at least one member and the end of the object. -/
def readMembers : (fuel : Nat) → Text → Option (List (Literal × Value) × Text)
  | 0, _ => none
  | fuel + 1, text =>
    match readMember fuel text with
    | none => none
    | some (member, text) =>
      match skipSpace text with
      | '}' :: text => some ([member], text)
      | ',' :: text => (readMembers fuel text).map fun (members, text) => (member :: members, text)
      | _ => none

/-- Reads a key, a colon and a value. -/
def readMember : (fuel : Nat) → Text → Option ((Literal × Value) × Text)
  | 0, _ => none
  | fuel + 1, text =>
    match skipSpace text with
    | '"' :: text =>
      match readLiteral text with
      | none => none
      | some (key, text) =>
        match skipSpace text with
        | ':' :: text => (readValue fuel text).map fun (value, text) => ((key, value), text)
        | _ => none
    | _ => none

end

/-- The value that a whole text writes.  Every nested reader consumes a character within three
steps, so the fuel never runs out. -/
def read? (text : Text) : Option Value := do
  let (value, rest) ← readValue (3 * text.length + 3) text
  if (skipSpace rest).isEmpty then some value else none

end PhpDoc.Json
