import PhpDoc.Source.Brackets
import PhpDoc.Text.Identifier

/-!
# Parameters

One declared parameter: attributes, modifiers, a type, `&`, `...` and a default value may surround
its variable.
-/

namespace PhpDoc

/-- A declared parameter. -/
structure Parameter where
  /-- The name without its sigil. -/
  name : Text
  /-- The declared type. -/
  type : Option Text
  byReference : Bool
  variadic : Bool
deriving DecidableEq

namespace Parameter

/-- The variable as it is declared: `&`, `...`, sigil and name. -/
def token (p : Parameter) : Text :=
  (if p.byReference then ['&'] else []) ++ (if p.variadic then "...".toList else []) ++
    '$' :: p.name

/-- Drops leading attribute groups, at most one for each character of `fuel`.  A group that is never
closed stays. -/
def dropAttributeGroups : (fuel : Text) → Text → Text
  | [], text => text.trimStart
  | _ :: fuel, text =>
    match (Text.after? "#[".toList text.trimStart).bind enclosed? with
    | some (_, rest) => dropAttributeGroups fuel rest
    | none => text.trimStart

/-- The text without leading attribute groups and blanks. -/
def dropAttributes (text : Text) : Text :=
  dropAttributeGroups text text

/-- The modifiers of a parameter that also declares a property. -/
def modifiers : List Text :=
  ["public".toList, "protected".toList, "private".toList, "readonly".toList]

/-- The parameter of the given type that a word declares: `&`, `...`, sigil and identifier. -/
def ofToken? (type : Option Text) (word : Text) : Option Parameter := do
  let unreferenced := Text.after? ['&'] word
  let single := Text.after? "...".toList (unreferenced.getD word)
  let name ← Text.after? ['$'] (single.getD (unreferenced.getD word))
  if Text.isIdentifier name then some ⟨name, type, unreferenced.isSome, single.isSome⟩ else none

/-- The parameter that a piece of a parameter list declares. -/
def parse? (piece : Text) : Option Parameter :=
  let declared : Text := (dropAttributes piece).takeWhile (· != '=')
  match declared.words.dropWhile modifiers.contains with
  | [token] => ofToken? none token
  | [type, token] => ofToken? (some type) token
  | _ => none

end Parameter

end PhpDoc
