import PhpDoc.Text.Blank

/-!
# Import tables

The `use` clauses of a file give short names to classes of other namespaces.  Collapsing a type
expression replaces each class name in it by the shortest name that the clauses, or the namespace of
the file, provide; a name that nothing shortens stays as it is written.
-/

namespace PhpDoc

/-- A class or namespace under the name that a file gives it. -/
structure Import where
  /-- The fully qualified name, without a leading backslash. -/
  fullName : Text
  /-- The name it has in the file. -/
  localName : Text
deriving DecidableEq

/-- The namespace of a file and what the file imports, in order. -/
structure ImportTable where
  home : Text
  imports : List Import
deriving DecidableEq

namespace ImportTable

/-- The table of a file that imports nothing and stands in no namespace. -/
def empty : ImportTable := ⟨[], []⟩

/-- The table of a file in the given namespace that imports nothing. -/
def ofNamespace (name : Text) : ImportTable :=
  ⟨Text.dropEndWhile (· == '\\') (name.dropWhile (· == '\\')), []⟩

/-- The last segment of a qualified name. -/
def lastSegment (name : Text) : Text :=
  ((Text.cutLast? ['\\'] name).map Prod.snd).getD name

/-- The import that a clause for a single name declares; none when a name is missing. -/
def single? (clause : Text) : Option Import :=
  let (full, short) :=
    match Text.cut? " as ".toList clause with
    | some (full, short) => (full.trim, short.trim)
    | none => (clause.trim, lastSegment clause.trim)
  let full := full.dropWhile (· == '\\')
  if full.isEmpty || short.isEmpty then none else some ⟨full, short⟩

/-- The clauses for single names that the trimmed body of a `use` statement stands for.  Functions
and constants are not classes and give none. -/
def singleClauses (clause : Text) : List Text :=
  if "function ".toList.isPrefixOf clause || "const ".toList.isPrefixOf clause then []
  else
    match Text.cut? ['{'] clause with
    | none => [clause]
    | some (stem, group) =>
      let stem := stem.trim.dropEndWhile (· == '\\')
      let items := ((group.dropEndWhile (· == '}')).pieces ',').map Text.trim
      (items.filter fun item => !item.isEmpty).map fun item => stem ++ '\\' :: item

/-- The table with the imports of one more `use` statement, given the text between the keyword and
the semicolon. -/
def addUse (t : ImportTable) (clause : Text) : ImportTable :=
  { t with imports := t.imports ++ (singleClauses clause.trim).filterMap single? }

/-- What follows `head` and a backslash in a qualified name. -/
def below? (head name : Text) : Option Text :=
  (Text.after? head name).bind (Text.after? ['\\'])

/-- The short form that one import gives to a name. -/
def shorten? (bare : Text) (i : Import) : Option Text :=
  if bare = i.fullName then some i.localName
  else (below? i.fullName bare).map fun rest => i.localName ++ '\\' :: rest

/-- The short form of a class that stands directly in the namespace of the file. -/
def neighbour? (t : ImportTable) (bare : Text) : Option Text :=
  if t.home.isEmpty then none
  else (below? t.home bare).filter fun rest => !rest.contains '\\'

/-- The short form of one class name. -/
def collapseName (t : ImportTable) (name : Text) : Text :=
  let bare := name.dropWhile (· == '\\')
  if bare.isEmpty then name
  else ((t.imports.findSome? (shorten? bare)).or (t.neighbour? bare)).getD name

/-- Characters between the names of a type expression. -/
def isTypeSeparator (c : Char) : Bool :=
  c == '|' || c == '&' || c == '(' || c == ')'

/-- The first name of a type expression, and each separator with the name behind it. -/
def typeParts : Text → Text × List (Char × Text)
  | [] => ([], [])
  | c :: rest =>
    match typeParts rest with
    | (name, more) => if isTypeSeparator c then ([], (c, name) :: more) else (c :: name, more)

/-- Collapses every name of a type expression without a leading question mark. -/
def collapseParts (t : ImportTable) (type : Text) : Text :=
  t.collapseName (typeParts type).1 ++
    (typeParts type).2.flatMap fun (separator, name) => separator :: t.collapseName name

/-- The type expression with every class name in its short form. -/
def collapse (t : ImportTable) (type : Text) : Text :=
  match type.trim with
  | '?' :: body => '?' :: t.collapseParts body
  | body => t.collapseParts body

end ImportTable

end PhpDoc
