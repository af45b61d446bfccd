import Mathlib
import PhpDoc.Proofs.Files
import PhpDoc.Sync.Merge

/-!
# The answers behind a cache

A cache and a file tree give each connection a source: the one in the cache, or else the snapshot in
the schema file.  A request is answered by that source, which is kept as the request leaves it.  A
source is steady when what it was asked before does not show in its answers, as for snapshots.  While
all its sources are steady, a cache that has read something answers like one that has not, a failed
reading included.

What merging makes of a source text depends on the cache and the tree only through these answers.  A
schema file has the extension `json`, and writing to files with other extensions does not touch it.
-/

namespace PhpDoc

variable {σ : Type} [SchemaSource σ]

/-! ## Sources -/

namespace SchemaSource

/-- The source after it was asked for the tables, one after the other. -/
def asked (source : σ) (tables : List Text) : σ :=
  tables.foldl (fun source table => (ask source table).2) source

/-- The answer for a table does not depend on what was asked before. -/
def IsSteady (source : σ) : Prop :=
  ∀ tables table, (ask (asked source tables) table).1 = (ask source table).1

theorem asked_ofSnapshot (snapshot : Snapshot) (tables : List Text) :
    asked (ofSnapshot snapshot : σ) tables = ofSnapshot snapshot := by
  induction tables with
  | nil => rfl
  | cons table tables ih => rw [asked, List.foldl_cons, ask_ofSnapshot, ← asked, ih]

theorem isSteady_ofSnapshot (snapshot : Snapshot) : IsSteady (ofSnapshot snapshot : σ) := by
  intro tables table
  rw [asked_ofSnapshot]

/-- A request leaves a steady source steady. -/
theorem IsSteady.after_ask {source : σ} (h : IsSteady source) (table : Text) :
    IsSteady (ask source table).2 := by
  intro tables other
  have hfirst : (ask (ask source table).2 other).1 = (ask source other).1 := h [table] other
  rw [hfirst]
  exact h (table :: tables) other

end SchemaSource

/-- Sources that count the requests made to them and have one column in every table, beside
snapshots. -/
inductive CountingSource where
  | counting (requests : Nat)
  | snapshot (snapshot : Snapshot)
deriving DecidableEq

instance : SchemaSource CountingSource where
  ask
    | .counting requests, table =>
      (.ok [⟨table ++ "_id".toList, "int".toList⟩], .counting (requests + 1))
    | .snapshot snapshot, table => (snapshot.columns table, .snapshot snapshot)
  ofSnapshot := .snapshot
  ask_ofSnapshot _ _ := rfl

theorem CountingSource.asked_counting (requests : Nat) (tables : List Text) :
    SchemaSource.asked (counting requests) tables = counting (requests + tables.length) := by
  induction tables generalizing requests with
  | nil => rfl
  | cons table tables ih =>
      rw [SchemaSource.asked, List.foldl_cons, ← SchemaSource.asked]
      exact (ih (requests + 1)).trans (by rw [List.length_cons, Nat.add_right_comm, Nat.add_assoc])

/-- Counting does not show in the answers. -/
theorem CountingSource.isSteady (source : CountingSource) : SchemaSource.IsSteady source := by
  cases source with
  | counting requests =>
      intro tables table
      rw [asked_counting]
      rfl
  | snapshot snapshot => exact SchemaSource.isSteady_ofSnapshot snapshot

namespace SchemaCache

open SchemaSource

variable {c : SchemaCache σ} {tree tree' : FileTree}

/-- All sources in the cache are steady. -/
def IsSteady (c : SchemaCache σ) : Prop :=
  ∀ connection, ∀ source ∈ c.opened.get? connection, SchemaSource.IsSteady source

theorem isSteady_snapshots (c : SchemaCache) : c.IsSteady :=
  fun _ snapshot _ => isSteady_ofSnapshot snapshot

/-- What requests for columns are answered. -/
def answers (c : SchemaCache σ) (tree : FileTree) (connection table : Text) :
    Except Fault (List Column) :=
  (c.columns tree connection table).1

theorem answers_eq (c : SchemaCache σ) (tree : FileTree) (connection table : Text) :
    c.answers tree connection table =
      (c.source tree connection).bind fun source => (ask source table).1 := by
  rw [answers, columns]
  cases c.source tree connection <;> rfl

omit [SchemaSource σ] in
theorem get?_opened_insert (c : SchemaCache σ) (connection other : Text) (source : σ) :
    (c.insert connection source).opened.get? other =
      if other = connection then some source else c.opened.get? other :=
  Keyed.get?_alter _ _ _ _

theorem IsSteady.source (h : c.IsSteady) {connection : Text} {source : σ}
    (hsource : c.source tree connection = .ok source) : SchemaSource.IsSteady source := by
  rw [SchemaCache.source] at hsource
  cases hopened : c.opened.get? connection with
  | some kept =>
      rw [hopened] at hsource
      exact Except.ok.inj hsource ▸ h connection kept hopened
  | none =>
      rw [hopened] at hsource
      cases hload : c.load tree connection with
      | error fault => simp [hload, Except.map] at hsource
      | ok snapshot =>
          rw [hload] at hsource
          exact Except.ok.inj hsource ▸ isSteady_ofSnapshot snapshot

/-- A connection without a source is not in the cache. -/
theorem get?_opened_of_source_error {connection : Text} {fault : Fault}
    (h : c.source tree connection = .error fault) : c.opened.get? connection = none := by
  rw [source] at h
  cases hopened : c.opened.get? connection with
  | some kept => simp [hopened] at h
  | none => rfl

/-- A request leaves its source, as it has become, with the connection. -/
theorem get?_opened_columns (c : SchemaCache σ) (tree : FileTree) (connection table other : Text) :
    (c.columns tree connection table).2.opened.get? other =
      if other = connection then
        (c.source tree connection).toOption.map fun source => (ask source table).2
      else c.opened.get? other := by
  rw [columns]
  cases hsource : c.source tree connection with
  | ok source => exact c.get?_opened_insert _ _ _
  | error fault =>
      by_cases hother : other = connection
      · rw [if_pos hother, hother, get?_opened_of_source_error hsource]
        rfl
      · rw [if_neg hother]

theorem load_columns (c : SchemaCache σ) (tree : FileTree) (connection table : Text) :
    (c.columns tree connection table).2.load = c.load := by
  rw [columns]
  cases c.source tree connection <;> rfl

/-- After a request the sources are as before, except that the one asked may have changed. -/
theorem source_columns (c : SchemaCache σ) (tree : FileTree) (connection table other : Text) :
    (c.columns tree connection table).2.source tree other =
      if other = connection then
        (c.source tree connection).map fun source => (ask source table).2
      else c.source tree other := by
  rw [source, get?_opened_columns, load_columns]
  by_cases hother : other = connection
  · rw [if_pos hother, if_pos hother, hother]
    cases hsource : c.source tree connection with
    | ok source => rfl
    | error fault =>
        rw [source, get?_opened_of_source_error hsource] at hsource
        exact hsource
  · rw [if_neg hother, if_neg hother, source]

theorem IsSteady.columns (h : c.IsSteady) (tree : FileTree) (connection table : Text) :
    (c.columns tree connection table).2.IsSteady := by
  intro other source hsource
  rw [get?_opened_columns] at hsource
  split at hsource
  · cases hasked : c.source tree connection with
    | error fault => simp [hasked, Except.toOption] at hsource
    | ok before =>
        rw [hasked] at hsource
        exact Option.some.inj hsource ▸ (h.source hasked).after_ask table
  · exact h other source hsource

/-- A request to steady sources does not show in later answers. -/
theorem IsSteady.answers_columns (h : c.IsSteady) (tree : FileTree) (connection table : Text) :
    (c.columns tree connection table).2.answers tree = c.answers tree := by
  funext other otherTable
  rw [answers_eq, answers_eq, source_columns]
  split
  · next hother =>
      rw [hother]
      cases hsource : c.source tree connection with
      | error fault => rfl
      | ok source => exact h.source hsource [table] otherTable
  · rfl

/-- Where all schema files hold the same, a request is answered alike and leaves the same cache. -/
theorem columns_congr (h : c.load tree' = c.load tree) (connection table : Text) :
    c.columns tree' connection table = c.columns tree connection table := by
  rw [columns, columns, source, source, h]

theorem answers_congr (h : c.load tree' = c.load tree) : c.answers tree' = c.answers tree := by
  funext connection table
  rw [answers, answers, columns_congr h]

/-- The extension of schema files. -/
def fileExtension : Text := "json".toList

omit [SchemaSource σ] in
/-- Snapshots stay the same when only files with other extensions are written to. -/
theorem load_eq {changed : List Location} (h : FileTree.AgreesOutside changed tree tree')
    (hother : ∀ location ∈ changed, FileTree.extensionOf? location ≠ some fileExtension)
    (c : SchemaCache σ) : c.load tree' = c.load tree := by
  funext connection
  rw [load, load]
  cases c.connections.get? connection with
  | none => rfl
  | some file =>
      dsimp only
      split
      · next hextension =>
          rw [h.readText?_eq fun location hlocate hchanged =>
            hother location hchanged (FileTree.extensionOf?_of_locate? hlocate hextension)]
      · rfl

end SchemaCache

/-! ## Merging -/

section

variable {cache cache' : SchemaCache σ} {tree tree' : FileTree}

namespace ClassDecl

theorem discovery_fst_congr (h : cache'.answers tree' = cache.answers tree) (decl : ClassDecl)
    (kind : ClassKind) (settings : Settings) :
    (decl.discovery kind settings cache' tree').1 =
      (decl.discovery kind settings cache tree).1 := by
  cases kind with
  | plain => rfl
  | model =>
      have hfst : ∀ (cache : SchemaCache σ) (tree : FileTree),
          (decl.columnDiscovery settings cache tree).1 =
            match cache.answers tree (decl.connection.getD settings.defaultConnection)
              (decl.table.getD (tableName decl.name)) with
            | .ok columns => .discovered (columnFacts columns)
            | .error fault => decl.unavailable fault := by
        intro cache tree
        rw [columnDiscovery, SchemaCache.answers]
        rcases cache.columns tree _ _ with ⟨fault | columns, cache⟩ <;> rfl
      rw [discovery, discovery, hfst, hfst, h]

theorem discovery_snd (decl : ClassDecl) (kind : ClassKind) (settings : Settings)
    (cache : SchemaCache σ) (tree : FileTree) :
    (decl.discovery kind settings cache tree).2 = cache ∨ ∃ connection table,
      (decl.discovery kind settings cache tree).2 = (cache.columns tree connection table).2 := by
  cases kind with
  | plain => exact Or.inl rfl
  | model =>
      refine Or.inr ⟨decl.connection.getD settings.defaultConnection,
        decl.table.getD (tableName decl.name), ?_⟩
      rw [discovery, columnDiscovery]
      rcases cache.columns tree _ _ with ⟨fault | columns, cache⟩ <;> rfl

theorem discovery_congr (h : cache.load tree' = cache.load tree) (decl : ClassDecl)
    (kind : ClassKind) (settings : Settings) :
    decl.discovery kind settings cache tree' = decl.discovery kind settings cache tree := by
  cases kind with
  | plain => rfl
  | model =>
      rw [discovery, discovery, columnDiscovery, columnDiscovery, SchemaCache.columns_congr h]

end ClassDecl

variable (settings : Settings) (path : Path) (kind : ClassKind) (source : Text)

/-- What merging makes of a source text depends on the answers alone. -/
theorem mergeSource_fst_congr (h : cache'.answers tree' = cache.answers tree) :
    (mergeSource settings cache' tree' path kind source).1 =
      (mergeSource settings cache tree path kind source).1 := by
  rw [mergeSource, mergeSource]
  cases ClassDecl.read path.text source with
  | error fault => rfl
  | ok decl => simp only [decl.discovery_fst_congr h kind settings]

/-- Merging makes one request at most. -/
theorem mergeSource_snd (cache : SchemaCache σ) (tree : FileTree) :
    (mergeSource settings cache tree path kind source).2 = cache ∨ ∃ connection table,
      (mergeSource settings cache tree path kind source).2 =
        (cache.columns tree connection table).2 := by
  rw [mergeSource]
  cases ClassDecl.read path.text source with
  | error fault => exact Or.inl rfl
  | ok decl => exact decl.discovery_snd kind settings cache tree

/-- Merging keeps steady sources steady, and does not show in later answers. -/
theorem SchemaCache.IsSteady.mergeSource (h : cache.IsSteady) (tree : FileTree) :
    (mergeSource settings cache tree path kind source).2.IsSteady ∧
      (mergeSource settings cache tree path kind source).2.answers tree = cache.answers tree := by
  rcases mergeSource_snd settings path kind source cache tree with
    hsame | ⟨connection, table, hasked⟩
  · rw [hsame]
    exact ⟨h, rfl⟩
  · rw [hasked]
    exact ⟨h.columns tree connection table, h.answers_columns tree connection table⟩

/-- Merging reads nothing of a tree but its schema files. -/
theorem mergeSource_congr (h : cache.load tree' = cache.load tree) :
    mergeSource settings cache tree' path kind source =
      mergeSource settings cache tree path kind source := by
  rw [mergeSource, mergeSource]
  cases ClassDecl.read path.text source with
  | error fault => rfl
  | ok decl => simp only [decl.discovery_congr h kind settings]

end

end PhpDoc
