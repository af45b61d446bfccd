import PhpDoc.Block.ClassBlock
import PhpDoc.Project.ClassFile
import PhpDoc.Schema.Cache
import PhpDoc.Schema.ScalarType
import PhpDoc.Schema.TableName
import PhpDoc.Source.ClassDecl
import PhpDoc.Splice

/-!
# Merging blocks into a source

A source is read, its class block is rendered and takes the place of the old one, and every public
method that wants a block gets it above its anchor.  When one of these splices fails the source
stays as it is.
-/

namespace PhpDoc

variable {σ : Type} [SchemaSource σ]

/-- The properties of a model: the columns of its table. -/
def columnFacts (columns : List Column) : List PropertyFact :=
  columns.map fun column =>
    { name := column.name, type := (ScalarType.ofNative column.nativeType).name }

namespace ClassDecl

/-- What is said about a model whose columns cannot be found. -/
def unavailable (decl : ClassDecl) (fault : Fault) : Discovery :=
  .unavailable ("metadata unavailable for ".toList ++ decl.name ++ ": ".toList ++ fault.message)

/-- The properties of a model, and the cache afterwards. -/
def columnDiscovery (decl : ClassDecl) (settings : Settings) (cache : SchemaCache σ)
    (tree : FileTree) : Discovery × SchemaCache σ :=
  let connection := decl.connection.getD settings.defaultConnection
  let table := decl.table.getD (tableName decl.name)
  match cache.columns tree connection table with
  | (.ok columns, cache) => (.discovered (columnFacts columns), cache)
  | (.error fault, cache) => (decl.unavailable fault, cache)

/-- The properties of a class, and the cache afterwards. -/
def discovery (decl : ClassDecl) (kind : ClassKind) (settings : Settings) (cache : SchemaCache σ)
    (tree : FileTree) : Discovery × SchemaCache σ :=
  match kind with
  | .model => decl.columnDiscovery settings cache tree
  | .plain => (.discovered decl.properties, cache)

/-- The block of a class.  Only models have required mixins and a placeholder. -/
def classBlock (decl : ClassDecl) (kind : ClassKind) (settings : Settings)
    (discovery : Discovery) : ClassBlock where
  name := decl.name
  home := decl.home
  existing := decl.doc
  discovery := discovery
  mixins := match kind with
    | .model => settings.mixins
    | .plain => []
  placeholder := match kind with
    | .model => settings.placeholder
    | .plain => []

/-- The source with the block of one method, if it gets one. -/
def spliceMethod (decl : ClassDecl) (source : Text) (m : Method) : Except Fault Text :=
  match m.signature.block? decl.name decl.imports with
  | none => .ok source
  | some block =>
    spliceRequired source m.anchor (decl.withNewlines block ++ decl.newline ++ m.anchor)

/-- The source with its class block and all method blocks. -/
def spliceBlocks (decl : ClassDecl) (source : Text) (block : ClassBlock) : Except Fault Text := do
  let source ← spliceRequired source decl.previous (decl.replacement block.render)
  decl.methods.foldlM decl.spliceMethod source

end ClassDecl

/-- A source with its blocks merged in. -/
structure MergedSource where
  text : Text
  /-- Whether the properties could not be found. -/
  metadataUnavailable : Bool
deriving DecidableEq

/-- Merges the blocks of a source, and gives the cache afterwards. -/
def mergeSource (settings : Settings) (cache : SchemaCache σ) (tree : FileTree) (path : Path)
    (kind : ClassKind) (source : Text) : Except Fault MergedSource × SchemaCache σ :=
  match ClassDecl.read path.text source with
  | .error fault => (.error fault, cache)
  | .ok decl =>
    let (discovery, cache) := decl.discovery kind settings cache tree
    let unavailable := match discovery with
      | .unavailable _ => true
      | .discovered _ => false
    let merged := (decl.spliceBlocks source (decl.classBlock kind settings discovery)).map
      fun text => { text := text, metadataUnavailable := unavailable }
    (merged, cache)

end PhpDoc
