import PhpDoc.Block.Alignment
import PhpDoc.Block.TagGroups

/-!
# Properties

Facts about properties come from a data source; existing `@property` lines come from the block.  A
line and a fact are the same when type and name are, so padding and trailing notes do not matter.
Merging writes one line for each name that was found, reuses the first line that says the same, and
keeps the lines about other names.
-/

namespace PhpDoc

/-- A property of the class. -/
structure PropertyFact where
  /-- The name without its sigil. -/
  name : Text
  /-- The type, as written. -/
  type : Text
  /-- A line that already describes the property. -/
  sourceLine : Option Text := none
deriving DecidableEq

/-- The line that describes the property. -/
def PropertyFact.render (fact : PropertyFact) : Text :=
  fact.sourceLine.getD (tagLine "@property".toList (fact.type ++ ' ' :: '$' :: fact.name))

/-- What the data source answered. -/
inductive Discovery where
  /-- The facts in the order in which they were found. -/
  | discovered (facts : List PropertyFact)
  /-- The source could not answer. -/
  | unavailable (reason : Text)
deriving DecidableEq

/-- The name of the variable at the start of the text, where a `&` may precede the sigil. -/
def variableName? (text : Text) : Option Text := do
  let text ← Text.after? ['$'] ((Text.after? ['&'] text).getD text)
  let (name, _) ← text.identifier?
  return name

/-- The name of the variable at the start of the text behind at least one blank. -/
def declaredName? (text : Text) : Option Text :=
  text.afterBlanks?.bind variableName?

/-- The shortest type within one line that a name follows.  It does not end in a blank, because the
blanks before the name are not part of it. -/
def typeAndName? : Text → Option (Text × Text)
  | [] => none
  | c :: text =>
    if c = '\n' then none
    else
      match if isBlank c then none else declaredName? text with
      | some name => some ([c], name)
      | none => (typeAndName? text).map fun (type, name) => (c :: type, name)

/-- The blank that counts as the type when a name directly follows the blanks after the keyword: the
last one within its line that has a blank on either side. -/
def blankType? (blanks : Text) : Option Char :=
  blanks.tail.dropLast.reverse.find? (· != '\n')

/-- Type and name after the keyword. -/
def afterKeyword? (text : Text) : Option (Text × Text) :=
  let blanks := text.takeWhile isBlank
  let rest := text.dropWhile isBlank
  if blanks.isEmpty then none
  else
    (typeAndName? rest).or do
      let type ← blankType? blanks
      let name ← variableName? rest
      return ([type], name)

/-- Type and name that a line declares, read at the first place where that succeeds. -/
def describe? : Text → Option (Text × Text)
  | [] => none
  | c :: text =>
    ((Text.after? "@property".toList (c :: text)).bind afterKeyword?).or (describe? text)

/-- An existing line, and whether a fact has taken it. -/
structure Slot where
  line : Text
  /-- Type and name that the line declares. -/
  declared : Option (Text × Text) := describe? line
  taken : Bool := false
deriving DecidableEq

/-- The first free line that describes the property, and the slots once it is taken. -/
def takeSlot? (fact : PropertyFact) : List Slot → Option (Text × List Slot)
  | [] => none
  | slot :: rest =>
    if !slot.taken && slot.declared == some (fact.type, fact.name) then
      some (slot.line, { slot with taken := true } :: rest)
    else (takeSlot? fact rest).map fun (line, rest) => (line, slot :: rest)

/-- A merge under way: the names met so far, the existing lines, and the lines written. -/
structure PropertyMerge where
  names : List Text
  slots : List Slot
  lines : List Text

namespace PropertyMerge

/-- Before any fact. -/
def start (existing : List Text) : PropertyMerge :=
  ⟨[], existing.map fun line => { line }, []⟩

/-- Writes the line of a fact, unless its name has been met. -/
def addFact (m : PropertyMerge) (fact : PropertyFact) : PropertyMerge :=
  if fact.name ∈ m.names then m
  else
    match takeSlot? fact m.slots with
    | some (line, slots) => ⟨fact.name :: m.names, slots, m.lines ++ [line]⟩
    | none => ⟨fact.name :: m.names, m.slots, m.lines ++ [fact.render]⟩

/-- Whether an existing line stays beside the lines written so far. -/
def keeps (m : PropertyMerge) (written : List Text) (slot : Slot) : Bool :=
  !slot.taken && !written.contains slot.line &&
    slot.declared.all fun (_, name) => !m.names.contains name

/-- All lines once every fact has been added. -/
def finish (m : PropertyMerge) : List Text :=
  m.slots.foldl
    (fun written slot => if m.keeps written slot then written ++ [slot.line] else written) m.lines

end PropertyMerge

/-- The `@property` lines of a block, given the existing ones and what the source answered. -/
def reconcile (existing : List Text) : Discovery → List Text
  | .unavailable _ => existing
  | .discovered facts =>
    align (facts.foldl PropertyMerge.addFact (.start existing)).finish none

end PhpDoc
