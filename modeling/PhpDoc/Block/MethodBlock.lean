import PhpDoc.Block.Alignment
import PhpDoc.Block.Layout
import PhpDoc.Source.ImportTable
import PhpDoc.Source.Parameter

/-!
# Method blocks

A public method without a doc comment gets a block that states its parameters and what it returns,
with the types in their short form.
-/

namespace PhpDoc

/-- What a method declares. -/
structure Signature where
  name : Text
  parameters : List Parameter
  returnType : Option Text
  /-- The line on which the declaration starts. -/
  declarationLine : Text
  /-- The doc comment above it. -/
  doc : Option Text
  /-- The class, trait, interface or enum that declares it. -/
  declaringClass : Text
deriving DecidableEq

namespace Signature

/-- The indentation of the declaration. -/
def indent (m : Signature) : Text :=
  m.declarationLine.takeWhile fun c => c == ' ' || c == '\t'

/-- Whether a doc comment with any text stands above the method. -/
def documented (m : Signature) : Bool :=
  m.doc.any fun doc => !doc.trim.isEmpty

/-- Whether the method may get a block inside the given class. -/
def wantsBlock (m : Signature) (className : Text) : Bool :=
  !m.documented && m.declaringClass == className

/-- The line of one parameter. -/
def parameterLine (imports : ImportTable) (p : Parameter) : Text :=
  tagLine "@param".toList ((p.type.map imports.collapse).getD "mixed".toList ++ ' ' :: p.token)

/-- The groups of the block of a method. -/
def groups (m : Signature) (imports : ImportTable) : TagGroups :=
  let parameters := align (m.parameters.map (parameterLine imports)) none
  let g := TagGroups.empty.set "@param".toList parameters
  match m.returnType with
  | none => g
  | some type => g.set "@return".toList [tagLine "@return".toList (imports.collapse type)]

/-- The block of a method, indented like its declaration.  Methods that do not want one, and those
that declare neither parameters nor a returned type, have none. -/
def block? (m : Signature) (className : Text) (imports : ImportTable) : Option Text :=
  if m.wantsBlock className && !(m.parameters.isEmpty && m.returnType.isNone) then
    some (Text.joinLines
      (((m.groups imports).assemble methodOrder).lines.map fun line => m.indent ++ line))
  else none

end Signature

end PhpDoc
