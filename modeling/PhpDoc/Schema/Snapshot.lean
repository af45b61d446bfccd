import PhpDoc.Fault
import PhpDoc.Json.Reader

/-!
# Schema snapshots

A snapshot lists the columns of each table of a database.  It is read from a JSON object that holds,
under the name of each table, the array of its columns.
-/

namespace PhpDoc

/-- A column of a table. -/
structure Column where
  name : Text
  /-- The type as the database gives it. -/
  nativeType : Text
deriving DecidableEq

/-- The columns of each table. -/
structure Snapshot where
  tables : Keyed Text (List Column)
deriving DecidableEq

/-- A column: a record of its name and its type. -/
def Column.ofJson? (value : Json.Value) : Option Column := do
  let fields ← value.fields? ["name".toList, "type".toList]
  let name ← Json.Value.required? Json.Value.text? "name".toList fields
  let type ← Json.Value.required? Json.Value.text? "type".toList fields
  return ⟨name, type⟩

namespace Snapshot

/-- The snapshot that a JSON text writes. -/
def parse (text : Text) : Except Fault Snapshot :=
  match (Json.read? text).bind (Json.Value.dictionary? (Json.Value.items? Column.ofJson?)) with
  | some tables => .ok ⟨tables⟩
  | none => .error .badJson

/-- The names of the tables in the order of their code points. -/
def tableNames (s : Snapshot) : List Text :=
  s.tables.keys.mergeSort Text.le

/-- The columns of a table in the order of their definition. -/
def columns (s : Snapshot) (table : Text) : Except Fault (List Column) :=
  match s.tables.get? table with
  | some columns => .ok columns
  | none => .error (.schema (.noTable table))

end Snapshot

end PhpDoc
