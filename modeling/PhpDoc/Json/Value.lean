import PhpDoc.Keyed
import PhpDoc.Text.Basic

/-!
# JSON values

A string literal of JSON may escape half of a surrogate pair.  Such a literal is part of the grammar
and denotes no text, so literals are kept apart from the texts they denote.
-/

namespace PhpDoc.Json

/-- A part of a string literal. -/
inductive LiteralPart where
  | char (c : Char)
  /-- An escaped UTF-16 code unit of a surrogate pair. -/
  | surrogate (unit : Nat)
deriving DecidableEq

/-- The parts of a string literal. -/
abbrev Literal := List LiteralPart

namespace Literal

/-- The literal that denotes a text. -/
def ofText (text : Text) : Literal :=
  text.map .char

/-- Whether a code unit is the first of a surrogate pair. -/
def isHighSurrogate (unit : Nat) : Bool :=
  0xD800 ≤ unit && unit < 0xDC00

/-- Whether a code unit is the second of a surrogate pair. -/
def isLowSurrogate (unit : Nat) : Bool :=
  0xDC00 ≤ unit && unit < 0xE000

/-- The character that a surrogate pair stands for. -/
def pairChar (high low : Nat) : Char :=
  Char.ofNat (0x10000 + (high - 0xD800) * 0x400 + (low - 0xDC00))

/-- The text that a literal denotes; none when half of a surrogate pair stands alone. -/
def text? : Literal → Option Text
  | [] => some []
  | .char c :: parts => (text? parts).map (c :: ·)
  | .surrogate high :: .surrogate low :: parts =>
    if isHighSurrogate high && isLowSurrogate low then
      (text? parts).map (pairChar high low :: ·)
    else none
  | .surrogate _ :: _ => none

end Literal

/-- A JSON value.  A number is kept as it is written. -/
inductive Value where
  | null
  | bool (b : Bool)
  | number (written : Text)
  | string (literal : Literal)
  | array (items : List Value)
  | object (members : List (Literal × Value))

namespace Value

/-- The text that a string denotes. -/
def text? : Value → Option Text
  | string literal => literal.text?
  | _ => none

/-- The items of an array, each decoded. -/
def items? {α : Type} (decode : Value → Option α) : Value → Option (List α)
  | array items => items.mapM decode
  | _ => none

/-- The members of an object with their keys decoded. -/
def decodeKeys? (members : List (Literal × Value)) : Option (List (Text × Value)) :=
  members.mapM fun (key, value) => (Literal.text? key).map fun key => (key, value)

/-- The members of an object, each decoded.  Of two members under one key the later one counts. -/
def dictionary? {α : Type} (decode : Value → Option α) : Value → Option (Keyed Text α)
  | object members => do
    let members ← decodeKeys? members
    let pairs ← members.mapM fun (key, value) => (decode value).map fun a => (key, a)
    return Keyed.ofList pairs
  | _ => none

/-- The fields of a record.  It is written as an object, in which no field may occur twice and other
members do not matter, or as an array of its first fields in their order. -/
def fields? (names : List Text) : Value → Option (List (Text × Value))
  | object members => do
    let members ← decodeKeys? members
    if names.all fun name => (members.map Prod.fst).count name ≤ 1 then some members else none
  | array items => if items.length ≤ names.length then some (names.zip items) else none
  | _ => none

/-- A field that must be present. -/
def required? {α : Type} (decode : Value → Option α) (name : Text) (fields : List (Text × Value)) :
    Option α :=
  (fields.lookup name).bind decode

/-- A field that has a default. -/
def optional? {α : Type} (decode : Value → Option α) (name : Text) (default : α)
    (fields : List (Text × Value)) : Option α :=
  match fields.lookup name with
  | none => some default
  | some value => decode value

end Value

end PhpDoc.Json
