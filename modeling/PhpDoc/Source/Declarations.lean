import PhpDoc.Text.Blank
import PhpDoc.Text.Word

/-!
# Readers of declarations

Each reader takes the text from a line start on and gives what is declared there together with the
text after the part that was read.  Blanks inside a declaration may span lines.
-/

namespace PhpDoc

/-- Blanks that indent a line. -/
def isIndent (c : Char) : Bool :=
  c == ' ' || c == '\t'

/-- The keyword at the start of the text that blanks follow, among the given ones, and what follows
the blanks. -/
def keywordThenBlanks? (keywords : List Text) (text : Text) : Option (Text × Text) :=
  keywords.findSome? fun keyword =>
    ((Text.after? keyword text).bind Text.afterBlanks?).map fun rest => (keyword, rest)

/-- The modifiers at the start of the text, at most one for each character of `fuel`, and what
follows. -/
def takeModifiers (allowed : List Text) : (fuel : Text) → Text → List Text × Text
  | [], text => ([], text)
  | _ :: fuel, text =>
    match keywordThenBlanks? allowed text with
    | some (modifier, rest) =>
      let (modifiers, rest) := takeModifiers allowed fuel rest
      (modifier :: modifiers, rest)
    | none => ([], text)

/-- All modifiers at the start of the text, and what follows. -/
def readModifiers (allowed : List Text) (text : Text) : List Text × Text :=
  takeModifiers allowed text text

/-- `namespace Name;` -/
def readNamespace? (text : Text) : Option (Text × Text) := do
  let text ← (← Text.after? "namespace".toList text).afterBlanks?
  let (name, text) ← text.run? isPathChar
  let text ← Text.after? [';'] text.trimStart
  return (name, text)

/-- Modifiers of classes. -/
def classModifiers : List Text :=
  ["abstract".toList, "final".toList, "readonly".toList]

/-- A type head: modifiers, one of the keywords, and a complete word that is an identifier. -/
def readHead? (keywords : List Text) (text : Text) : Option (Text × Text) := do
  let (_, text) ← keywordThenBlanks? keywords (readModifiers classModifiers text).2
  let (name, text) ← text.identifier?
  if text.head?.any isWordChar then none else some (name, text)

/-- A class head that starts its line, such as `final class Name`. -/
def readClassHead? : Text → Option (Text × Text) :=
  readHead? ["class".toList]

/-- The head of any type, possibly indented. -/
def readTypeHead? (text : Text) : Option (Text × Text) :=
  readHead? ["class".toList, "trait".toList, "interface".toList, "enum".toList]
    (text.dropWhile isIndent)

/-- The body of a `use` statement. -/
def readUse? (text : Text) : Option (Text × Text) := do
  let text ← (← Text.after? "use".toList text).afterBlanks?
  let (clause, text) ← text.run? (· != ';')
  let text ← Text.after? [';'] text
  return (clause, text)

/-- A declared property. -/
structure PropertyHead where
  modifiers : List Text
  type : Option Text
  name : Text

/-- Modifiers of properties. -/
def propertyModifiers : List Text :=
  ["public".toList, "protected".toList, "private".toList, "static".toList, "readonly".toList,
    "var".toList]

/-- Characters of the type of a property. -/
def isPropertyTypeChar (c : Char) : Bool :=
  isPathChar c || c == '?' || c == '|' || c == '&'

/-- The type that blanks follow, if there is one, and what comes next. -/
def readPropertyType (text : Text) : Option Text × Text :=
  match (text.run? isPropertyTypeChar).bind fun (type, rest) =>
      rest.afterBlanks?.map fun rest => (type, rest) with
  | some (type, rest) => (some type, rest)
  | none => (none, text)

/-- An indented property: at least one modifier, an optional type, and the variable. -/
def readProperty? (text : Text) : Option (PropertyHead × Text) := do
  let (_, text) ← text.run? isIndent
  let (modifiers, text) := readModifiers propertyModifiers text
  if modifiers.isEmpty then none
  let (type, text) := readPropertyType text
  let text ← Text.after? ['$'] text
  let (name, text) ← text.identifier?
  return (⟨modifiers, type, name⟩, text)

/-- The head of a declared method. -/
structure MethodHead where
  modifiers : List Text
  name : Text

/-- Modifiers of methods. -/
def methodModifiers : List Text :=
  ["abstract".toList, "final".toList, "public".toList, "protected".toList, "private".toList,
    "static".toList]

/-- A method head up to and including its opening parenthesis. -/
def readMethod? (text : Text) : Option (MethodHead × Text) := do
  let (modifiers, text) := readModifiers methodModifiers (text.dropWhile isIndent)
  let text ← (← Text.after? "function".toList text).afterBlanks?
  let text := ((Text.after? ['&'] text).getD text).trimStart
  let (name, text) ← text.identifier?
  let text ← Text.after? ['('] text.trimStart
  return (⟨modifiers, name⟩, text)

/-- Characters of a returned type after its optional question mark. -/
def isReturnTypeChar (c : Char) : Bool :=
  isPathChar c || c == '|' || c == '&' || c == '(' || c == ')'

/-- The type returned, given the text after the parameter list. -/
def returnType? (text : Text) : Option Text := do
  let text := (← Text.after? [':'] text.trimStart).trimStart
  match text with
  | '?' :: rest => (Text.run? isReturnTypeChar rest).map fun (type, _) => '?' :: type
  | _ => (text.run? isReturnTypeChar).map Prod.fst

/-- Either quotation mark. -/
def isQuote (c : Char) : Bool :=
  c == '\'' || c == '"'

/-- What follows a quotation mark at the start of the text. -/
def afterQuote? : Text → Option Text
  | [] => none
  | c :: text => if isQuote c then some text else none

/-- The quoted, non-empty value of the protected property `name`. -/
def readOverride? (name : Text) (text : Text) : Option (Text × Text) := do
  let text ← (← Text.after? "protected".toList (text.dropWhile isIndent)).afterBlanks?
  let text :=
    ((Text.after? "string".toList ((Text.after? ['?'] text).getD text)).bind
      Text.afterBlanks?).getD text
  let text := (← Text.after? ('$' :: name) text).trimStart
  let text := (← Text.after? ['='] text).trimStart
  let text ← afterQuote? text
  let (value, text) ← text.run? fun c => !isQuote c
  let text ← afterQuote? text
  return (value, text)

end PhpDoc
