import PhpDoc.Text.LetterCase

/-!
# Table names

A model without a table of its own is stored under the plural of its name in snake case.
-/

namespace PhpDoc

/-- A character of a name in snake case, where an underscore goes in front of a capital. -/
def snakeChar (c : Char) : Text :=
  match lowercase? c with
  | some lower => '_' :: lower
  | none => [c]

/-- A name in snake case.  No underscore goes in front of the first character. -/
def snakeCase : Text → Text
  | [] => []
  | c :: rest => (lowercase? c).getD [c] ++ rest.flatMap snakeChar

/-- The vowels that keep a final `y`. -/
def isVowel (c : Char) : Bool :=
  c == 'a' || c == 'e' || c == 'i' || c == 'o' || c == 'u'

/-- The stem of a word that ends in `y` after something other than a vowel. -/
def yStem? (word : Text) : Option Text :=
  (Text.before? ['y'] word).filter fun stem => !stem.getLast?.any isVowel

/-- The plural of a word. -/
def pluralize (word : Text) : Text :=
  match yStem? word with
  | some stem => stem ++ "ies".toList
  | none =>
    if word.endsWith ['s'] || word.endsWith ['x'] || word.endsWith "ch".toList ||
        word.endsWith "sh".toList then
      word ++ "es".toList
    else word ++ ['s']

/-- The table of a class that names none. -/
def tableName (className : Text) : Text :=
  pluralize (snakeCase className)

end PhpDoc
