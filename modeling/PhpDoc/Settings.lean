import PhpDoc.Fault
import PhpDoc.Json.Reader
import PhpDoc.Json.Writer
import PhpDoc.Project.Path

/-!
# Settings

The settings of a project are read from a JSON record whose fields all have defaults.
-/

namespace PhpDoc

/-- The settings of a project. -/
structure Settings where
  /-- The directory of the model classes. -/
  modelsRoot : Path
  /-- The directory of the other classes. -/
  classesRoot : Path
  /-- The connection of models that name none. -/
  defaultConnection : Text
  /-- The schema file of each connection. -/
  connections : Keyed Text Path
  /-- The description of a model block without free text; none when empty. -/
  placeholder : Text
  /-- The mixins that every model block carries. -/
  mixins : List Text
deriving DecidableEq

namespace Settings

/-- The settings of a project that gives none. -/
def default : Settings where
  modelsRoot := ⟨"app/Models".toList⟩
  classesRoot := ⟨"app/Http".toList⟩
  defaultConnection := "mysql".toList
  connections := Keyed.ofList [("mysql".toList, ⟨"database/schema/mysql.json".toList⟩)]
  placeholder := "<Class description here>".toList
  mixins := ["\\Illuminate\\Database\\Eloquent\\Builder".toList]

/-- The names of the fields in their order. -/
def fieldNames : List Text :=
  ["models_root".toList, "classes_root".toList, "default_connection".toList, "connections".toList,
    "placeholder".toList, "mixins".toList]

/-- A path, written as a string. -/
def pathOfJson? (value : Json.Value) : Option Path :=
  value.text?.map Path.mk

/-- The settings that a JSON value gives, with defaults for the fields it leaves out. -/
def ofJson? (value : Json.Value) : Option Settings := do
  let fields ← value.fields? fieldNames
  let modelsRoot ←
    Json.Value.optional? pathOfJson? "models_root".toList default.modelsRoot fields
  let classesRoot ←
    Json.Value.optional? pathOfJson? "classes_root".toList default.classesRoot fields
  let defaultConnection ←
    Json.Value.optional? Json.Value.text? "default_connection".toList
      default.defaultConnection fields
  let connections ←
    Json.Value.optional? (Json.Value.dictionary? pathOfJson?) "connections".toList
      default.connections fields
  let placeholder ←
    Json.Value.optional? Json.Value.text? "placeholder".toList default.placeholder fields
  let mixins ←
    Json.Value.optional? (Json.Value.items? Json.Value.text?) "mixins".toList default.mixins fields
  return { modelsRoot, classesRoot, defaultConnection, connections, placeholder, mixins }

/-- The settings that a JSON text writes. -/
def parse (text : Text) : Except Fault Settings :=
  match (Json.read? text).bind ofJson? with
  | some settings => .ok settings
  | none => .error .badJson

/-- A text as a JSON string. -/
def jsonText (text : Text) : Json.Value :=
  .string (.ofText text)

/-- The settings as a JSON object with all fields. -/
def toJson (s : Settings) : Json.Value :=
  .object [
    (.ofText "models_root".toList, jsonText s.modelsRoot.text),
    (.ofText "classes_root".toList, jsonText s.classesRoot.text),
    (.ofText "default_connection".toList, jsonText s.defaultConnection),
    (.ofText "connections".toList,
      .object (s.connections.entries.map fun (name, path) => (.ofText name, jsonText path.text))),
    (.ofText "placeholder".toList, jsonText s.placeholder),
    (.ofText "mixins".toList, .array (s.mixins.map jsonText))]

/-- The settings as a JSON text. -/
def render (s : Settings) : Text :=
  Json.write s.toJson

/-- Whether both give the same path to each connection. -/
def sameConnections (a b : Keyed Text Path) : Bool :=
  a.size == b.size &&
    a.entries.all fun (name, path) => (b.get? name).any fun other => path.same other

/-- Whether both settings mean the same: paths are compared by their steps, and the order of the
connections does not matter. -/
def same (a b : Settings) : Bool :=
  a.modelsRoot.same b.modelsRoot && a.classesRoot.same b.classesRoot &&
    a.defaultConnection == b.defaultConnection && sameConnections a.connections b.connections &&
    a.placeholder == b.placeholder && a.mixins == b.mixins

end Settings

end PhpDoc
