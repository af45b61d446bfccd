import PhpDoc.Keyed
import PhpDoc.Text.Blank

/-!
# Tag groups

A doc block is read line by line.  A line `* @tag …` belongs to the group of its keyword; free text
belongs to the comment group; delimiters, lone stars and lines without a star belong to no group.
Groups keep the order in which they first appeared, and lines their order within a group.
-/

namespace PhpDoc

/-- The opening delimiter of a doc block. -/
def openingLine : Text := "/**".toList

/-- The closing delimiter of a doc block, on a line of its own. -/
def closingLine : Text := " */".toList

/-- The line that separates two groups. -/
def separatorLine : Text := " *".toList

/-- The key of the group of lines without a keyword. -/
def commentKey : Text := "comment".toList

/-- The line that carries `tag` with `body`. -/
def tagLine (tag body : Text) : Text :=
  " * ".toList ++ tag ++ ' ' :: body

/-- Lines under keywords, in order of first appearance. -/
structure TagGroups where
  /-- The lines under each key. -/
  groups : Keyed Text (List Text)
deriving DecidableEq

namespace TagGroups

/-- No groups at all. -/
def empty : TagGroups := ⟨∅⟩

/-- Adds a line at the end of the group of `key`. -/
def push (g : TagGroups) (key line : Text) : TagGroups :=
  ⟨g.groups.alter key fun lines => lines.getD [] ++ [line]⟩

/-- Replaces the lines of `key`; the group keeps its place. -/
def set (g : TagGroups) (key : Text) (lines : List Text) : TagGroups :=
  ⟨g.groups.set key lines⟩

/-- The lines of `key`, none when there is no such group. -/
def lines (g : TagGroups) (key : Text) : List Text :=
  (g.groups.get? key).getD []

/-- Whether the group of `key` has a line. -/
def has (g : TagGroups) (key : Text) : Bool :=
  !(g.lines key).isEmpty

/-- The keys in order of first appearance. -/
def keys (g : TagGroups) : List Text :=
  g.groups.keys

/-- Whether no group has a line. -/
def isEmpty (g : TagGroups) : Bool :=
  g.groups.entries.all fun (_, lines) => lines.isEmpty

end TagGroups

/-- Characters of a tag keyword after its first letter. -/
def isKeywordChar (c : Char) : Bool :=
  c.isLower || c == '-'

/-- The keyword of a block line: a star, blanks, `@` and a lower case word that a blank or the end
of the line follows. -/
def keyword? (line : Text) : Option Text := do
  let starred ← Text.after? ['*'] line.trimStart
  let tag ← starred.afterBlanks?
  match tag with
  | '@' :: c :: rest =>
    if c.isLower && (rest.dropWhile isKeywordChar).head?.all isBlank then
      some ('@' :: c :: rest.takeWhile isKeywordChar)
    else none
  | _ => none

/-- Trimmed lines that carry nothing: delimiters, lone stars, and lines without any star. -/
def isDecoration (bare : Text) : Bool :=
  bare.isEmpty || bare == "*".toList || bare == "*/".toList || bare == "**/".toList ||
    !bare.contains '*'

/-- The text that shares a line with the opening delimiter, written as a line of its own. -/
def openingRemark? (rest : Text) : Option Text :=
  let remark := (rest.trim.dropEndPairs ('*', '/')).trimEnd
  if remark.isEmpty then none else some (" * ".toList ++ remark)

/-- The group a line of a block belongs to, and the line as it is kept there. -/
def classify (line : Text) : Option (Text × Text) :=
  match keyword? line with
  | some key => some (key, line)
  | none =>
    match Text.after? openingLine line.trim with
    | some rest =>
      (openingRemark? rest).map fun remark => ((keyword? remark).getD commentKey, remark)
    | none => if isDecoration line.trim then none else some (commentKey, line)

/-- The tag groups of a doc block. -/
def TagGroups.ofBlock (block : Text) : TagGroups :=
  (block.lines.filterMap classify).foldl (fun g (key, line) => g.push key line) .empty

end PhpDoc
