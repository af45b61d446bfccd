import Mathlib
import PhpDoc.Proofs.Groups
import PhpDoc.Proofs.SchemaView
import PhpDoc.Sync.Run

/-!
# What a cache answers after a history

A cache is asked for columns, is given sources, and reads schema files that change in between.  The
history alone says which source a connection has: the one that it was given last, as the requests
since then have left it, or else the snapshot that the first successful reading found in its file.  A
cache that started fresh holds exactly these sources, whatever the order of the steps, so its answers
and the number of its sources follow from the history.
-/

namespace PhpDoc

open SchemaSource

variable {σ : Type} [SchemaSource σ]

/-- What may happen to a cache and to the files it reads. -/
inductive CacheStep (σ : Type := Snapshot) where
  /-- The columns of a table are asked for. -/
  | columns (connection table : Text)
  /-- A source is given to a connection. -/
  | insert (connection : Text) (source : σ)
  /-- The files change, in any way. -/
  | write (change : FileTree → FileTree)

/-- The files and the cache after one step. -/
def CacheStep.apply (s : RunState σ) : CacheStep σ → RunState σ
  | columns connection table => { s with cache := (s.cache.columns s.tree connection table).2 }
  | insert connection source => { s with cache := s.cache.insert connection source }
  | write change => { s with tree := change s.tree }

/-- The files and the cache after the steps. -/
def RunState.afterSteps (s : RunState σ) (steps : List (CacheStep σ)) : RunState σ :=
  steps.foldl CacheStep.apply s

theorem Keyed.lookup_map {κ α : Type} [DecidableEq κ] (key : κ) (change : κ → α → α)
    (entries : List (κ × α)) :
    lookup key (entries.map fun e => (e.1, change e.1 e.2)) =
      (lookup key entries).map (change key) := by
  induction entries with
  | nil => rfl
  | cons e entries ih =>
      rw [List.map_cons, lookup_cons, lookup_cons, ih]
      by_cases h : e.1 = key
      · simp [h]
      · simp [h]

/-! ## What the history says -/

namespace CacheStep

section

omit [SchemaSource σ]

/-- The files after the steps. -/
def filesAfter : FileTree → List (CacheStep σ) → FileTree
  | tree, [] => tree
  | tree, write change :: steps => filesAfter (change tree) steps
  | tree, columns _ _ :: steps => filesAfter tree steps
  | tree, insert _ _ :: steps => filesAfter tree steps

/-- The tables that a connection was asked for, in order. -/
def requests (connection : Text) : List (CacheStep σ) → List Text
  | [] => []
  | columns asked table :: steps =>
    if asked = connection then table :: requests connection steps else requests connection steps
  | insert _ _ :: steps => requests connection steps
  | write _ :: steps => requests connection steps

/-- The snapshots that requests for columns find in the files of their connections, each in the files
as they are at the time of the request. -/
def readings (c : SchemaCache σ) : FileTree → List (CacheStep σ) → List (Text × Snapshot)
  | _, [] => []
  | tree, columns connection _ :: steps =>
    ((c.load tree connection).toOption.map fun snapshot => (connection, snapshot)).toList ++
      readings c tree steps
  | tree, insert _ _ :: steps => readings c tree steps
  | tree, write change :: steps => readings c (change tree) steps

end

/-- The sources given to connections, in order, each as the later requests to its connection have
left it. -/
def insertions : List (CacheStep σ) → List (Text × σ)
  | [] => []
  | insert connection source :: steps =>
    (connection, asked source (requests connection steps)) :: insertions steps
  | columns _ _ :: steps => insertions steps
  | write _ :: steps => insertions steps

/-- The source of a connection: the one it was given last, or the snapshot that was read first. -/
def sourceAfter? (c : SchemaCache σ) (tree : FileTree) (steps : List (CacheStep σ))
    (connection : Text) : Option σ :=
  (Keyed.lookup connection (insertions steps).reverse).or
    ((Keyed.lookup connection (readings c tree steps)).map ofSnapshot)

/-- The source that answers the next request: the one of the connection, or the snapshot in its
file. -/
def nextSource (c : SchemaCache σ) (tree : FileTree) (steps : List (CacheStep σ))
    (connection : Text) : Except Fault σ :=
  match sourceAfter? c tree steps connection with
  | some source => .ok source
  | none => (c.load (filesAfter tree steps) connection).map ofSnapshot

/-- The connections that were given a source or had a snapshot read. -/
def served (c : SchemaCache σ) (tree : FileTree) (steps : List (CacheStep σ)) : Finset Text :=
  ((insertions steps).map Prod.fst ++ (readings c tree steps).map Prod.fst).toFinset

variable (c : SchemaCache σ) (tree : FileTree) (steps more : List (CacheStep σ))

omit [SchemaSource σ] in
theorem filesAfter_append : filesAfter tree (steps ++ more) =
    filesAfter (filesAfter tree steps) more := by
  induction steps generalizing tree with
  | nil => rfl
  | cons step steps ih => cases step <;> exact ih _

omit [SchemaSource σ] in
theorem requests_append (connection : Text) : requests connection (steps ++ more) =
    requests connection steps ++ requests connection more := by
  induction steps with
  | nil => rfl
  | cons step steps ih =>
      cases step with
      | columns asked table =>
          by_cases h : asked = connection
          · simp [requests, h, ih]
          · simp [requests, h, ih]
      | insert | write => exact ih

omit [SchemaSource σ] in
theorem readings_append : readings c tree (steps ++ more) =
    readings c tree steps ++ readings c (filesAfter tree steps) more := by
  induction steps generalizing tree with
  | nil => rfl
  | cons step steps ih => cases step <;> simp [readings, filesAfter, ih]

/-- More steps bring more requests to the sources that were given before. -/
theorem insertions_append : insertions (steps ++ more) =
    (insertions steps).map (fun e => (e.1, asked e.2 (requests e.1 more))) ++ insertions more := by
  induction steps with
  | nil => rfl
  | cons step steps ih =>
      cases step with
      | insert connection source =>
          simp only [List.cons_append, insertions, ih, List.map_cons, requests_append, asked,
            List.foldl_append]
      | columns | write => exact ih

theorem lookup_insertions_append (connection : Text) :
    Keyed.lookup connection (insertions (steps ++ more)).reverse =
      (Keyed.lookup connection (insertions more).reverse).or
        ((Keyed.lookup connection (insertions steps).reverse).map
          (asked · (requests connection more))) := by
  rw [insertions_append, List.reverse_append, ← List.map_reverse, Keyed.lookup_append,
    Keyed.lookup_map connection fun key source => asked source (requests key more)]

-- what one more step adds

variable {c tree steps} (connection : Text)

theorem sourceAfter?_columns (table other : Text) :
    sourceAfter? c tree (steps ++ [.columns connection table]) other =
      if other = connection then
        (nextSource c tree steps connection).toOption.map fun source => (ask source table).2
      else sourceAfter? c tree steps other := by
  rw [sourceAfter?, lookup_insertions_append, readings_append, Keyed.lookup_append]
  by_cases hother : other = connection
  · subst hother
    have hrequests : requests other [(columns other table : CacheStep σ)] = [table] := by
      simp [requests]
    have hread : Keyed.lookup other (readings c (filesAfter tree steps) [columns other table]) =
        (c.load (filesAfter tree steps) other).toOption := by
      rw [readings, readings, List.append_nil]
      cases c.load (filesAfter tree steps) other <;> simp [Except.toOption, Keyed.lookup]
    rw [if_pos rfl, nextSource, sourceAfter?, hrequests, hread]
    -- a given source was asked once more, a snapshot does not mind, and a file may be read now
    cases Keyed.lookup other (insertions steps).reverse with
    | some source => rfl
    | none =>
        cases Keyed.lookup other (readings c tree steps) with
        | some snapshot => simp [insertions, Keyed.lookup, Except.toOption, ask_ofSnapshot]
        | none =>
            cases c.load (filesAfter tree steps) other <;>
              simp [insertions, Keyed.lookup, Except.toOption, Except.map, ask_ofSnapshot]
  · have hrequests : requests other [(columns connection table : CacheStep σ)] = [] := by
      simp [requests, Ne.symm hother]
    have hread : Keyed.lookup other
        (readings c (filesAfter tree steps) [columns connection table]) = none := by
      rw [readings, readings, List.append_nil]
      cases c.load (filesAfter tree steps) connection <;>
        simp [Except.toOption, Keyed.lookup, Ne.symm hother]
    rw [if_neg hother, hrequests, hread, Option.or_none, sourceAfter?]
    simp [insertions, Keyed.lookup, asked]

theorem sourceAfter?_insert (source : σ) (other : Text) :
    sourceAfter? c tree (steps ++ [.insert connection source]) other =
      if other = connection then some source else sourceAfter? c tree steps other := by
  rw [sourceAfter?, lookup_insertions_append, readings_append]
  by_cases hother : other = connection
  · simp [insertions, requests, Keyed.lookup_cons, hother, asked]
  · simp [insertions, requests, readings, Keyed.lookup, hother, Ne.symm hother, asked, sourceAfter?]

theorem sourceAfter?_write (change : FileTree → FileTree) (other : Text) :
    sourceAfter? c tree (steps ++ [.write change]) other = sourceAfter? c tree steps other := by
  rw [sourceAfter?, lookup_insertions_append, readings_append]
  simp [insertions, requests, readings, Keyed.lookup, asked, sourceAfter?]

theorem served_subset_append (c : SchemaCache σ) (tree : FileTree)
    (steps more : List (CacheStep σ)) :
    served c tree steps ⊆ served c tree (steps ++ more) := by
  have hkeys : (insertions (steps ++ more)).map Prod.fst =
      (insertions steps).map Prod.fst ++ (insertions more).map Prod.fst := by
    rw [insertions_append, List.map_append, List.map_map]
    rfl
  intro connection hserved
  simp only [served, hkeys, readings_append, List.mem_toFinset, List.map_append,
    List.mem_append] at hserved ⊢
  tauto

end CacheStep

/-! ## What the cache holds -/

namespace SchemaCache

section

omit [SchemaSource σ]

/-- Why the snapshot of a connection cannot be read, with the fault that says so. -/
inductive CannotOpen (c : SchemaCache σ) (tree : FileTree) (connection : Text) : Fault → Prop
  | noConnection : c.connections.get? connection = none →
      CannotOpen c tree connection (.schema (.noConnection connection))
  | unsupported {file : Path} : c.connections.get? connection = some file →
      (c.root.join file).extension? ≠ some fileExtension →
      CannotOpen c tree connection (.schema (.unsupported (c.root.join file).text))
  | unreadable {file : Path} : c.connections.get? connection = some file →
      (c.root.join file).extension? = some fileExtension →
      tree.readText? (c.root.join file) = none → CannotOpen c tree connection .fileAccess
  | invalid {file : Path} {text : Text} {fault : Fault} :
      c.connections.get? connection = some file →
      (c.root.join file).extension? = some fileExtension →
      tree.readText? (c.root.join file) = some text → Snapshot.parse text = .error fault →
      CannotOpen c tree connection fault

theorem load_eq_error_iff {c : SchemaCache σ} {tree : FileTree} {connection : Text} {fault : Fault} :
    c.load tree connection = .error fault ↔ c.CannotOpen tree connection fault := by
  constructor
  · intro h
    rw [load] at h
    cases hfile : c.connections.get? connection with
    | none =>
        rw [hfile] at h
        exact Except.error.inj h ▸ .noConnection hfile
    | some file =>
        rw [hfile] at h
        dsimp only at h
        split at h
        · next hextension =>
            cases hread : tree.readText? (c.root.join file) with
            | none =>
                rw [hread] at h
                exact Except.error.inj h ▸ .unreadable hfile hextension hread
            | some text =>
                rw [hread] at h
                exact .invalid hfile hextension hread h
        · next hextension => exact Except.error.inj h ▸ .unsupported hfile hextension
  · intro h
    cases h with
    | noConnection hnone => rw [load, hnone]
    | unsupported hfile hextension =>
        rw [load, hfile]
        exact if_neg hextension
    | unreadable hfile hextension hread =>
        rw [load, hfile]
        exact (if_pos hextension).trans (by rw [hread])
    | invalid hfile hextension hread hparse =>
        rw [load, hfile]
        exact (if_pos hextension).trans (by rw [hread]; exact hparse)

end

theorem columns_of_source {c : SchemaCache σ} {tree : FileTree} {connection : Text} {source : σ}
    (h : c.source tree connection = .ok source) (table : Text) :
    c.columns tree connection table =
      ((ask source table).1, c.insert connection (ask source table).2) := by
  rw [columns, h]

theorem columns_of_source_error {c : SchemaCache σ} {tree : FileTree} {connection : Text}
    {fault : Fault} (h : c.source tree connection = .error fault) (table : Text) :
    c.columns tree connection table = (.error fault, c) := by
  rw [columns, h]

theorem source_of_opened {c : SchemaCache σ} {connection : Text} {source : σ}
    (h : c.opened.get? connection = some source) (tree : FileTree) :
    c.source tree connection = .ok source := by
  rw [SchemaCache.source, h]

end SchemaCache

namespace RunState

open CacheStep

/-- The state is what the history says, from the cache `c` without sources and the files `tree`
on. -/
structure Follows (s : RunState σ) (c : SchemaCache σ) (tree : FileTree)
    (steps : List (CacheStep σ)) : Prop where
  tree_eq : s.tree = filesAfter tree steps
  load_eq : s.cache.load = c.load
  get?_opened : ∀ connection, s.cache.opened.get? connection = sourceAfter? c tree steps connection

variable {s : RunState σ} {c : SchemaCache σ} {tree : FileTree} {steps : List (CacheStep σ)}

theorem Follows.source_eq (h : s.Follows c tree steps) (connection : Text) :
    s.cache.source s.tree connection = nextSource c tree steps connection := by
  have hopened := h.get?_opened connection
  cases hafter : sourceAfter? c tree steps connection with
  | some source => simp only [SchemaCache.source, nextSource, hopened, hafter]
  | none => simp only [SchemaCache.source, nextSource, hopened, hafter, h.load_eq, h.tree_eq]

/-- One more step keeps the state as the history says. -/
theorem Follows.step (h : s.Follows c tree steps) (step : CacheStep σ) :
    (step.apply s).Follows c tree (steps ++ [step]) := by
  have htree : (step.apply s).tree = filesAfter tree (steps ++ [step]) := by
    rw [filesAfter_append, ← h.tree_eq]
    cases step <;> rfl
  cases step with
  | columns connection table =>
      refine ⟨htree, (SchemaCache.load_columns _ _ _ _).trans h.load_eq, fun other => ?_⟩
      rw [sourceAfter?_columns, CacheStep.apply, SchemaCache.get?_opened_columns, h.get?_opened,
        h.source_eq]
  | insert connection source =>
      refine ⟨htree, h.load_eq, fun other => ?_⟩
      rw [sourceAfter?_insert, CacheStep.apply, SchemaCache.get?_opened_insert, h.get?_opened]
  | write change =>
      refine ⟨htree, h.load_eq, fun other => ?_⟩
      rw [sourceAfter?_write]
      exact h.get?_opened other

/-- A cache that starts without sources follows its history. -/
theorem follows_afterSteps (hempty : c.opened = ∅) (tree : FileTree) (steps : List (CacheStep σ)) :
    (RunState.afterSteps ⟨tree, c⟩ steps).Follows c tree steps := by
  -- from the right, since the last step is the one that the state has just made
  induction steps using List.reverseRecOn with
  | nil =>
      refine ⟨rfl, rfl, fun connection => ?_⟩
      rw [afterSteps, List.foldl_nil, hempty]
      rfl
  | append_singleton steps step ih =>
      rw [afterSteps, List.foldl_append]
      exact ih.step step

/-! ## Answers -/

theorem Follows.size_opened (h : s.Follows c tree steps) :
    s.cache.opened.size = (served c tree steps).card := by
  refine Keyed.size_eq_card fun connection => ?_
  rw [h.get?_opened, sourceAfter?, Option.or_eq_none_iff, Option.map_eq_none_iff,
    Keyed.lookup_eq_none_iff, Keyed.lookup_eq_none_iff, served, List.mem_toFinset, List.mem_append,
    List.map_reverse, List.mem_reverse, not_or]

/-- A cache that started fresh answers from the sources of its history and holds one for each
connection that the history served, never fewer later on.  A request whose source cannot be opened
leaves the cache as it is.  A request that is answered, be it with a fault, leaves its source with
the connection, to answer next, whatever becomes of the files, and it leaves every other source
alone.  A missing table of a snapshot is a fault, and the other tables do not suffer from it. -/
theorem cache_follows_history (root : Path) (connections : Keyed Text Path) (tree : FileTree)
    (steps : List (CacheStep σ)) :
    let c : SchemaCache σ := SchemaCache.fresh root connections
    let s := RunState.afterSteps ⟨tree, c⟩ steps
    s.tree = filesAfter tree steps ∧
    (∀ connection table, (s.cache.columns s.tree connection table).1 =
      (nextSource c tree steps connection).bind fun source => (ask source table).1) ∧
    s.cache.opened.size = (served c tree steps).card ∧
    (∀ more, s.cache.opened.size ≤ (s.afterSteps more).cache.opened.size) ∧
    (∀ connection fault, nextSource c tree steps connection = .error fault ↔
      sourceAfter? c tree steps connection = none ∧ c.CannotOpen s.tree connection fault) ∧
    (∀ connection table fault, nextSource c tree steps connection = .error fault →
      s.cache.columns s.tree connection table = (.error fault, s.cache)) ∧
    (∀ connection table source, nextSource c tree steps connection = .ok source →
      (∀ other, (s.cache.columns s.tree connection table).2.opened.get? other =
        if other = connection then some (ask source table).2 else s.cache.opened.get? other) ∧
      ∀ tree' other, ((s.cache.columns s.tree connection table).2.columns tree' connection other).1 =
        (ask (ask source table).2 other).1) ∧
    ∀ connection table snapshot, nextSource c tree steps connection = .ok (ofSnapshot snapshot) →
      snapshot.tables.get? table = none →
      (s.cache.columns s.tree connection table).1 = .error (.schema (.noTable table)) ∧
      (s.cache.columns s.tree connection table).2.opened.get? connection =
        some (ofSnapshot snapshot) ∧
      ∀ tree' other, ((s.cache.columns s.tree connection table).2.columns tree' connection other).1 =
        snapshot.columns other := by
  intro c s
  have hfollows : s.Follows c tree steps := follows_afterSteps rfl tree steps
  have hcannot (connection : Text) (fault : Fault) :
      nextSource c tree steps connection = .error fault ↔
        sourceAfter? c tree steps connection = none ∧ c.CannotOpen s.tree connection fault := by
    rw [nextSource, ← SchemaCache.load_eq_error_iff, hfollows.tree_eq]
    cases sourceAfter? c tree steps connection with
    | some source => simp
    | none => cases c.load (filesAfter tree steps) connection <;> simp [Except.map]
  have hkept (connection table : Text) (source : σ)
      (hsource : nextSource c tree steps connection = .ok source) (other : Text) :
      (s.cache.columns s.tree connection table).2.opened.get? other =
        if other = connection then some (ask source table).2 else s.cache.opened.get? other := by
    rw [SchemaCache.get?_opened_columns, hfollows.source_eq, hsource]
    rfl
  have hlater (connection table : Text) (source : σ)
      (hsource : nextSource c tree steps connection = .ok source) (tree' : FileTree)
      (other : Text) :
      ((s.cache.columns s.tree connection table).2.columns tree' connection other).1 =
        (ask (ask source table).2 other).1 := by
    have hopened := hkept connection table source hsource connection
    rw [if_pos rfl] at hopened
    rw [SchemaCache.columns_of_source (SchemaCache.source_of_opened hopened tree')]
  refine ⟨hfollows.tree_eq, ?_, hfollows.size_opened, fun more => ?_, hcannot, ?_, ?_, ?_⟩
  · intro connection table
    rw [← SchemaCache.answers, SchemaCache.answers_eq, hfollows.source_eq]
  · have hmore : (s.afterSteps more).Follows c tree (steps ++ more) := by
      have happend : s.afterSteps more = RunState.afterSteps ⟨tree, c⟩ (steps ++ more) :=
        List.foldl_append.symm
      exact happend ▸ follows_afterSteps rfl tree (steps ++ more)
    rw [hfollows.size_opened, hmore.size_opened]
    exact Finset.card_le_card (served_subset_append c tree steps more)
  · intro connection table fault hfault
    exact SchemaCache.columns_of_source_error ((hfollows.source_eq connection).trans hfault) table
  · intro connection table source hsource
    exact ⟨hkept connection table source hsource, hlater connection table source hsource⟩
  · intro connection table snapshot hsource hmissing
    have hschema := (hfollows.source_eq connection).trans hsource
    refine ⟨?_, ?_, fun tree' other => ?_⟩
    · rw [SchemaCache.columns_of_source hschema, ask_ofSnapshot]
      change snapshot.columns table = _
      rw [Snapshot.columns, hmissing]
    · rw [hkept connection table _ hsource, if_pos rfl, ask_ofSnapshot]
    · rw [hlater connection table _ hsource, ask_ofSnapshot, ask_ofSnapshot]

/-- The files with the given text in the schema file. -/
def withSchemaText (text : Text) (tree : FileTree) : FileTree :=
  tree.place ["s.json".toList] (.file ⟨.text text, true⟩)

/-- A request that fails, one that reads the repaired schema file, a later change of the file, and a
source that counts for another connection. -/
def repairedSchema : List (CacheStep CountingSource) :=
  [.columns "db".toList "t".toList,
    .write (withSchemaText "\x7b\"t\":[\x7b\"name\":\"a\",\"type\":\"int\"\x7d]\x7d".toList),
    .columns "db".toList "u".toList, .write (withSchemaText "\x7b\x7d".toList),
    .insert "mysql".toList (.counting 0), .columns "mysql".toList "users".toList]

theorem repairedSchema_answers :
    let c : SchemaCache CountingSource :=
      SchemaCache.fresh ⟨[]⟩ (Keyed.ofList [("db".toList, ⟨"s.json".toList⟩)])
    let s := RunState.afterSteps ⟨withSchemaText "no".toList (.empty []), c⟩ repairedSchema
    (s.cache.columns s.tree "db".toList "t".toList).1 = .ok [⟨"a".toList, "int".toList⟩] ∧
      (s.cache.columns s.tree "mysql".toList "posts".toList).1 =
        .ok [⟨"posts_id".toList, "int".toList⟩] ∧
      (s.cache.columns s.tree "mysql".toList "posts".toList).2.opened.get? "mysql".toList =
        some (.counting 2) ∧
      s.cache.opened.size = 2 := by
  obtain ⟨-, hanswer, hsize, -, -, -, hkept, -⟩ := cache_follows_history ⟨[]⟩
    (Keyed.ofList [("db".toList, ⟨"s.json".toList⟩)]) (withSchemaText "no".toList (.empty []))
    repairedSchema
  refine ⟨(hanswer "db".toList "t".toList).trans (by decide +kernel),
    (hanswer "mysql".toList "posts".toList).trans (by decide +kernel), ?_,
    hsize.trans (by decide +kernel)⟩
  exact (hkept "mysql".toList "posts".toList (.counting 1) (by decide +kernel)).1 "mysql".toList

end RunState

end PhpDoc
