import PhpDoc.Text.Basic

/-!
# Blank characters

A character is blank when it has the Unicode property `White_Space`.  Trimming and the division of a
text into words go by that property, so a no-break space or an ideographic space separates words and
a zero-width space does not.
-/

namespace PhpDoc

/-- The characters with the property `White_Space`, 25 in all. -/
def isBlank (c : Char) : Bool :=
  let n := c.toNat
  (9 ≤ n && n ≤ 13) || n == 0x20 || n == 0x85 || n == 0xA0 || n == 0x1680 ||
    (0x2000 ≤ n && n ≤ 0x200A) || n == 0x2028 || n == 0x2029 || n == 0x202F || n == 0x205F ||
    n == 0x3000

namespace Text

/-- The text without its leading blanks. -/
def trimStart (text : Text) : Text :=
  text.dropWhile isBlank

/-- The text without its trailing blanks. -/
def trimEnd (text : Text) : Text :=
  text.dropEndWhile isBlank

/-- The text without the blanks at both ends. -/
def trim (text : Text) : Text :=
  text.trimStart.trimEnd

/-- What follows a run of at least one blank at the start of the text. -/
def afterBlanks? : Text → Option Text
  | [] => none
  | c :: text => if isBlank c then some (Text.trimStart text) else none

/-- The maximal runs of characters that are not blank. -/
def words : Text → List Text
  | [] => []
  | c :: text =>
    if isBlank c then words text
    else if text.head?.all isBlank then [c] :: words text
    else consHead c (words text)

end Text

end PhpDoc
