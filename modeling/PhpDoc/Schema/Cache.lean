import PhpDoc.Project.FileTree
import PhpDoc.Schema.Snapshot

/-!
# Schema cache

A connection is served by a source, which lists the columns of tables and may change with every
request.  The source was given to the connection, or it is the snapshot in the schema file of the
connection, read when the connection is first asked for.  Either is kept from then on.  A schema file
that cannot be read leaves nothing behind, so the next request tries again.
-/

namespace PhpDoc

/-- The type is one of sources of columns, with the state that a source has between requests.
Snapshots are among them. -/
class SchemaSource (σ : Type) where
  /-- The columns of a table, and the source afterwards. -/
  ask : σ → Text → Except Fault (List Column) × σ
  /-- The snapshot as a source. -/
  ofSnapshot : Snapshot → σ
  /-- A snapshot answers for its tables and stays what it is. -/
  ask_ofSnapshot : ∀ snapshot table,
    ask (ofSnapshot snapshot) table = (snapshot.columns table, ofSnapshot snapshot)

instance : SchemaSource Snapshot where
  ask snapshot table := (snapshot.columns table, snapshot)
  ofSnapshot snapshot := snapshot
  ask_ofSnapshot _ _ := rfl

/-- The sources of a project, as far as there are any yet.  They are snapshots unless others are
given. -/
structure SchemaCache (σ : Type := Snapshot) where
  /-- Where the paths of schema files start. -/
  root : Path
  /-- The schema file of each connection. -/
  connections : Keyed Text Path
  /-- The sources that were given or read so far. -/
  opened : Keyed Text σ
deriving DecidableEq

namespace SchemaCache

variable {σ : Type}

/-- A cache without sources. -/
def fresh (root : Path) (connections : Keyed Text Path) : SchemaCache σ :=
  ⟨root, connections, ∅⟩

/-- Answers for a connection from the given source from now on. -/
def insert (c : SchemaCache σ) (connection : Text) (source : σ) : SchemaCache σ :=
  { c with opened := c.opened.set connection source }

/-- The snapshot in the schema file of a connection. -/
def load (c : SchemaCache σ) (tree : FileTree) (connection : Text) : Except Fault Snapshot :=
  match c.connections.get? connection with
  | none => .error (.schema (.noConnection connection))
  | some file =>
    let path := c.root.join file
    if path.extension? = some "json".toList then
      match tree.readText? path with
      | none => .error .fileAccess
      | some text => Snapshot.parse text
    else .error (.schema (.unsupported path.text))

variable [SchemaSource σ]

/-- The source of a connection: the one in the cache, or else the snapshot in the schema file. -/
def source (c : SchemaCache σ) (tree : FileTree) (connection : Text) : Except Fault σ :=
  match c.opened.get? connection with
  | some source => .ok source
  | none => (c.load tree connection).map SchemaSource.ofSnapshot

/-- The columns of a table, and the cache afterwards. -/
def columns (c : SchemaCache σ) (tree : FileTree) (connection table : Text) :
    Except Fault (List Column) × SchemaCache σ :=
  match c.source tree connection with
  | .error fault => (.error fault, c)
  | .ok source =>
    let (answer, source) := SchemaSource.ask source table
    (answer, c.insert connection source)

end SchemaCache

end PhpDoc
