import PhpDoc.Block.MethodBlock
import PhpDoc.Block.Property
import PhpDoc.Fault
import PhpDoc.Source.Anchor
import PhpDoc.Source.Declarations
import PhpDoc.Source.LineScan

/-!
# Class declarations

Reading a class file gives the facts that its blocks are made from: the namespace, the first class
head with the doc comment above it, the imports, the public properties and methods, and what the
class says about its database table.  A member belongs to the type whose head last precedes it.
-/

namespace PhpDoc

/-- A method together with the place of its declaration. -/
structure Method where
  signature : Signature
  /-- The attribute lines above the declaration and its first line. -/
  anchor : Text
  /-- How many characters of the source precede the anchor. -/
  offset : Nat
deriving DecidableEq

/-- What a class file declares. -/
structure ClassDecl where
  /-- The file it was read from. -/
  path : Text
  /-- The namespace. -/
  home : Text
  name : Text
  /-- The attribute lines above the class head, and the head. -/
  anchor : Text
  /-- How many characters of the source precede the doc comment, or the anchor if there is none. -/
  offset : Nat
  doc : Option Text
  /-- What stands between the doc comment and the anchor. -/
  separator : Text
  imports : ImportTable
  /-- The public instance properties. -/
  properties : List PropertyFact
  /-- The public methods. -/
  methods : List Method
  /-- The database connection the class asks for. -/
  connection : Option Text
  /-- The database table the class asks for. -/
  table : Option Text
  /-- The line ending of the file. -/
  newline : Text
deriving DecidableEq

namespace ClassDecl

/-- The text that a new class block replaces: doc comment, separator and anchor. -/
def previous (decl : ClassDecl) : Text :=
  match decl.doc with
  | some doc => doc ++ decl.separator ++ decl.anchor
  | none => decl.anchor

/-- A rendered text with the line ending of the file. -/
def withNewlines (decl : ClassDecl) (text : Text) : Text :=
  text.withNewlines decl.newline

/-- What replaces `previous`, given the new block. -/
def replacement (decl : ClassDecl) (block : Text) : Text :=
  decl.withNewlines block ++ decl.separator ++ decl.anchor

end ClassDecl

/-- The line ending of a source: a carriage return with a line feed if that pair occurs. -/
def newlineOf (source : Text) : Text :=
  if Text.occursIn "\r\n".toList source then "\r\n".toList else "\n".toList

/-- The name of the type whose head last precedes the offset, empty when there is none. -/
def scopeAt (heads : List (Found Text)) (offset : Nat) : Text :=
  (((heads.takeWhile fun head => head.start < offset).getLast?).map Found.value).getD []

/-- The public instance properties of the class. -/
def readProperties (source : Text) (heads : List (Found Text)) (className : Text) :
    List PropertyFact :=
  (scan readProperty? source).filterMap fun found =>
    let modifiers := found.value.modifiers
    if (modifiers.contains "public".toList || modifiers.contains "var".toList) &&
        !modifiers.contains "static".toList && scopeAt heads found.start == className then
      some { name := found.value.name, type := found.value.type.getD "mixed".toList }
    else none

/-- The first line of a text, without its ending. -/
def firstLine (text : Text) : Text :=
  let line := text.takeWhile (· != '\n')
  (Text.before? ['\r'] line).getD line

/-- The parameters of a list, if every item of it can be read. -/
def readParameters? (list : Text) : Option (List Parameter) :=
  (listItems list).mapM Parameter.parse?

/-- The method at a place where a method head was found, unless it is not public or its parameter
list cannot be read. -/
def readMethod (heads : List (Found Text)) (found : Found MethodHead) : Option Method := do
  let modifiers := found.value.modifiers
  if modifiers.contains "private".toList || modifiers.contains "protected".toList then none
  let (list, rest) ← enclosed? found.rest
  let parameters ← readParameters? list
  let (behind, attributes) := splitAttributes found.behind
  let line := firstLine found.ahead
  return {
    signature := {
      name := found.value.name
      parameters := parameters
      returnType := returnType? rest
      declarationLine := line
      doc := (precedingDoc? behind).map PrecedingDoc.comment
      declaringClass := scopeAt heads found.start }
    anchor := attributes ++ line
    offset := found.start - attributes.length }

/-- The public methods of all types in the source. -/
def readMethods (source : Text) (heads : List (Found Text)) : List Method :=
  (scan readMethod? source).filterMap (readMethod heads)

/-- The imports of a file in the given namespace, from the text before its class. -/
def readImports (home front : Text) : ImportTable :=
  (scan readUse? front).foldl (fun imports found => imports.addUse found.value)
    (.ofNamespace home)

/-- The class declaration of a source, given where the class head stands. -/
def ClassDecl.ofHead (path source home : Text) (head : Found Text) : ClassDecl :=
  let heads := scan readTypeHead? source
  let (behind, attributes) := splitAttributes head.behind
  let doc := precedingDoc? behind
  { path := path
    home := home
    name := head.value
    anchor := attributes ++ head.text
    offset := head.start - attributes.length - (doc.map PrecedingDoc.length).getD 0
    doc := doc.map PrecedingDoc.comment
    separator := (doc.map PrecedingDoc.gap).getD (newlineOf source)
    imports := readImports home head.behind.reverse
    properties := readProperties source heads head.value
    methods := readMethods source heads
    connection := (scanFirst? (readOverride? "connection".toList) source).map Found.value
    table := (scanFirst? (readOverride? "table".toList) source).map Found.value
    newline := newlineOf source }

/-- The class declaration of a source.  A missing namespace is reported before a missing class. -/
def ClassDecl.read (path source : Text) : Except Fault ClassDecl :=
  match scanFirst? readNamespace? source with
  | none => .error (.malformed path .noNamespace)
  | some home =>
    match scanFirst? readClassHead? source with
    | none => .error (.malformed path .noClass)
    | some head => .ok (.ofHead path source home.value head)

end PhpDoc
