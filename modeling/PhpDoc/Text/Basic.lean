/-!
# Texts

A text is a list of characters.  This module holds the operations on texts that know nothing about
doc comments: dropping a known head, cutting at an occurrence, and splitting into lines.

A line ends at a line feed; one carriage return directly before the line feed belongs to the line
ending.  A carriage return that ends the whole text belongs to its last line.
-/

namespace PhpDoc

/-- A text, character by character. -/
abbrev Text := List Char

namespace Text

/-- What follows `head` in a text that starts with it. -/
def after? : Text → Text → Option Text
  | [], text => some text
  | _ :: _, [] => none
  | h :: head, c :: text => if h = c then after? head text else none

/-- The text before the first occurrence of `needle` and the text after that occurrence. -/
def cut? (needle : Text) : Text → Option (Text × Text)
  | [] => if needle = [] then some ([], []) else none
  | c :: text =>
    match after? needle (c :: text) with
    | some rest => some ([], rest)
    | none => (cut? needle text).map fun (before, rest) => (c :: before, rest)

/-- The text before the last occurrence of `needle` and the text after that occurrence. -/
def cutLast? (needle : Text) : Text → Option (Text × Text)
  | [] => if needle = [] then some ([], []) else none
  | c :: text =>
    match cutLast? needle text with
    | some (before, rest) => some (c :: before, rest)
    | none => (after? needle (c :: text)).map fun rest => ([], rest)

/-- Whether `needle` occurs in the text. -/
def occursIn (needle text : Text) : Bool :=
  (cut? needle text).isSome

/-- Whether the text ends with `tail`. -/
def endsWith (text tail : Text) : Bool :=
  tail.reverse.isPrefixOf text.reverse

/-- What precedes `tail` in a text that ends with it. -/
def before? (tail text : Text) : Option Text :=
  (after? tail.reverse text.reverse).map List.reverse

/-- The text without the characters at its end that satisfy `p`. -/
def dropEndWhile (p : Char → Bool) (text : Text) : Text :=
  (text.reverse.dropWhile p).reverse

/-- The text without any number of copies of `tail`, a text of two characters, at its end. -/
def dropEndPairs (tail : Char × Char) (text : Text) : Text :=
  (go text.reverse).reverse
where
  /-- Drops the copies from the front of the reversed text. -/
  go : Text → Text
    | b :: a :: rest => if (a, b) = tail then go rest else b :: a :: rest
    | short => short

/-- Adds a character in front of the first piece. -/
def consHead (c : Char) : List Text → List Text
  | [] => [[c]]
  | piece :: pieces => (c :: piece) :: pieces

/-- The pieces between the occurrences of `separator`; there is always at least one. -/
def pieces (separator : Char) : Text → List Text
  | [] => [[]]
  | c :: text =>
    if c = separator then [] :: pieces separator text
    else consHead c (pieces separator text)

/-- The lines of a text, without their endings. -/
def lines : Text → List Text
  | [] => []
  | c :: text =>
    if c = '\n' then [] :: lines text
    else if c = '\r' ∧ text.head? = some '\n' then lines text
    else consHead c (lines text)

/-- The lines written one after the other with line feeds between them. -/
def joinLines (lines : List Text) : Text :=
  List.intercalate ['\n'] lines

/-- The text with every line feed written as `newline`. -/
def withNewlines (text newline : Text) : Text :=
  text.flatMap fun c => if c = '\n' then newline else [c]

/-- Whether the first text is not after the second one in the order of code points. -/
def le : Text → Text → Bool
  | [], _ => true
  | _ :: _, [] => false
  | a :: s, b :: t => if a = b then le s t else decide (a.toNat < b.toNat)

/-- How many bytes the text takes in UTF-8. -/
def byteSize (text : Text) : Nat :=
  text.foldl (fun size c => size + c.utf8Size) 0

/-- The decimal digits of a number. -/
def ofNat (n : Nat) : Text :=
  Nat.toDigits 10 n

end Text

end PhpDoc
