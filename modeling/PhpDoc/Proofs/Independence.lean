import Mathlib
import PhpDoc.Proofs.ClassFiles
import PhpDoc.Proofs.SchemaView
import PhpDoc.Sync.Run

/-!
# Files of a run do not disturb one another

A run takes a project from state to state, one file at a time.  The step lemmas say what one file
may do to the state: it writes its own text or nothing, and makes one request to a source at most.
The run lemmas follow by induction over the files.  When no two files share a location and the
sources are steady, every file is reported on as if it were the only one.

Two files may share a location, when a path goes up and down again through a directory; the later
one is then read as the earlier one left it.  So the files have to be told apart.  And a source that
answers once and then fails tells the first file that asks it from the others.  So the sources have
to answer for a table alike whenever they are asked, as all snapshots do.
-/

namespace PhpDoc

/-- No two of the files are at the same location. -/
def FileTree.TellsApart (tree : FileTree) (files : List ClassFile) : Prop :=
  (files.filterMap fun file => tree.locate? file.path).Nodup

instance (tree : FileTree) (files : List ClassFile) : Decidable (tree.TellsApart files) :=
  inferInstanceAs (Decidable (List.Nodup _))

namespace FileTree.TellsApart

variable {tree : FileTree} {file other : ClassFile} {files : List ClassFile} {location : Location}

theorem tail (h : tree.TellsApart (file :: files)) : tree.TellsApart files :=
  List.Nodup.sublist ((List.sublist_cons_self file files).filterMap _) h

/-- No later file is where the first one is. -/
theorem locate?_ne (h : tree.TellsApart (file :: files)) (hother : other ∈ files)
    (hlocate : tree.locate? file.path = some location) :
    tree.locate? other.path ≠ some location := by
  intro hsame
  rw [TellsApart, List.filterMap_cons, hlocate, List.nodup_cons] at h
  exact h.1 (List.mem_filterMap.2 ⟨other, hother, hsame⟩)

end FileTree.TellsApart

/-- The location that a run wrote to for a report, if it wrote. -/
def FileReport.target? (tree : FileTree) (write : Bool) (r : FileReport) : Option Location :=
  if write = true ∧ r.outcome = .patched then tree.locate? r.file.path else none

theorem FileReport.locate?_of_target? {tree : FileTree} {write : Bool} {r : FileReport}
    {location : Location} (h : r.target? tree write = some location) :
    tree.locate? r.file.path = some location := by
  rw [target?] at h
  split at h
  · exact h
  · contradiction

/-- Where nothing was written to before, nothing is once the first file is done. -/
theorem FileTree.TellsApart.not_mem_append_target? {tree : FileTree} {r : FileReport}
    {files : List ClassFile} {changed : List Location} (h : tree.TellsApart (r.file :: files))
    (hnot : ∀ file ∈ r.file :: files, ∀ location ∈ tree.locate? file.path, location ∉ changed)
    (write : Bool) :
    ∀ file ∈ files, ∀ location ∈ tree.locate? file.path,
      location ∉ changed ++ (r.target? tree write).toList := by
  intro file hfile location hlocate hchanged
  rcases List.mem_append.1 hchanged with hchanged | hchanged
  · exact hnot file (List.mem_cons_of_mem _ hfile) location hlocate hchanged
  · have hfirst := FileReport.locate?_of_target? (Option.mem_toList.1 hchanged)
    exact h.locate?_ne hfile hfirst hlocate

namespace Project

variable {σ : Type} [SchemaSource σ] {p : Project} {write : Bool} {s t : RunState σ}
  {file : ClassFile} {files : List ClassFile}

theorem outcomeOf_ne_unchanged (fault : Fault) : outcomeOf fault ≠ .unchanged := by
  cases fault <;> simp [outcomeOf]

theorem outcomeOf_ne_patched (fault : Fault) : outcomeOf fault ≠ .patched := by
  cases fault <;> simp [outcomeOf]

/-! ## One file -/

theorem file_storeMerged (tree : FileTree) (file : ClassFile) (write : Bool) (source : Text)
    (merged : MergedSource) : (storeMerged tree file write source merged).1.file = file := by
  rw [storeMerged]
  split
  · rfl
  · split
    · split <;> rfl
    · rfl

@[simp] theorem file_processFile (p : Project) (write : Bool) (s : RunState σ) (file : ClassFile) :
    (p.processFile write s file).1.file = file := by
  rw [processFile]
  split
  · rfl
  · split
    · rfl
    · exact file_storeMerged ..

/-- Storing a merged text writes it over the file it was read from, or leaves the tree alone. -/
theorem tree_storeMerged {tree : FileTree} {source : Text}
    (hread : tree.readText? file.path = some source) (merged : MergedSource) :
    (¬(write = true ∧ (storeMerged tree file write source merged).1.outcome = .patched) ∧
        (storeMerged tree file write source merged).2 = tree) ∨
      (write = true ∧ (storeMerged tree file write source merged).1.outcome = .patched) ∧
        ∃ location old, tree.locate? file.path = some location ∧
          tree.entryAt? location = some (.file old) ∧ file.path.wantsDirectory = false ∧
        (storeMerged tree file write source merged).2 =
          tree.withText location (storeMerged tree file write source merged).1.after := by
  obtain ⟨location, writable, hlocate, hentry, hpath⟩ := FileTree.exists_file_of_readText? hread
  rw [storeMerged]
  split
  · exact Or.inl ⟨by simp [untouched], rfl⟩
  · cases write with
    | false => exact Or.inl ⟨by simp, rfl⟩
    | true =>
        cases hwrite : tree.writeText? file.path merged.text with
        | none => exact Or.inl ⟨by simp [untouched], by simp⟩
        | some tree' =>
            obtain ⟨location', hlocate', -, rfl⟩ := FileTree.writeText?_eq_some_iff.1 hwrite
            obtain rfl : location = location' := Option.some.inj (hlocate.symm.trans hlocate')
            exact Or.inr ⟨by simp, location, _, hlocate, hentry, hpath, by simp⟩

/-- Processing a file writes the reported text over the file, or leaves the tree alone. -/
theorem tree_processFile (p : Project) (write : Bool) (s : RunState σ) (file : ClassFile) :
    (¬(write = true ∧ (p.processFile write s file).1.outcome = .patched) ∧
        (p.processFile write s file).2.tree = s.tree) ∨
      (write = true ∧ (p.processFile write s file).1.outcome = .patched) ∧
        ∃ location old, s.tree.locate? file.path = some location ∧
          s.tree.entryAt? location = some (.file old) ∧ file.path.wantsDirectory = false ∧
        (p.processFile write s file).2.tree =
          s.tree.withText location (p.processFile write s file).1.after := by
  rw [processFile]
  split
  · exact Or.inl ⟨by simp [untouched], rfl⟩
  · next source hread =>
      split
      · next fault cache _ =>
          exact Or.inl ⟨by simp [untouched, outcomeOf_ne_patched], rfl⟩
      · next merged cache _ => exact tree_storeMerged hread merged

/-- Outside the location that is written to, the tree stays as it is. -/
theorem agreesOutside_processFile (p : Project) (write : Bool) (s : RunState σ) (file : ClassFile) :
    FileTree.AgreesOutside ((p.processFile write s file).1.target? s.tree write).toList s.tree
      (p.processFile write s file).2.tree := by
  rcases tree_processFile p write s file with
    ⟨hkept, htree⟩ | ⟨hwritten, location, old, hlocate, hentry, -, htree⟩
  · rw [FileReport.target?, if_neg hkept, htree]
    exact .refl s.tree
  · rw [FileReport.target?, if_pos hwritten, file_processFile, hlocate, htree]
    exact .of_withText (FileTree.get?_of_entryAt? hentry).2 _

theorem cache_processFile (p : Project) (write : Bool) (s : RunState σ) (file : ClassFile) :
    (p.processFile write s file).2.cache =
      match s.tree.readText? file.path with
      | none => s.cache
      | some source =>
        (mergeSource p.settings s.cache s.tree file.path file.kind source).2 := by
  rw [processFile]
  cases s.tree.readText? file.path with
  | none => rfl
  | some source =>
      dsimp only
      rcases mergeSource p.settings s.cache s.tree file.path file.kind source with
        ⟨fault | merged, cache⟩ <;> rfl

theorem report_processFile (p : Project) (write : Bool) (s : RunState σ) (file : ClassFile) :
    (p.processFile write s file).1 =
      match s.tree.readText? file.path with
      | none => untouched file .malformed [] false
      | some source =>
        match (mergeSource p.settings s.cache s.tree file.path file.kind source).1 with
        | .error fault => untouched file (outcomeOf fault) source false
        | .ok merged => (storeMerged s.tree file write source merged).1 := by
  rw [processFile]
  cases s.tree.readText? file.path with
  | none => rfl
  | some source =>
      dsimp only
      rcases mergeSource p.settings s.cache s.tree file.path file.kind source with
        ⟨fault | merged, cache⟩ <;> rfl

theorem report_storeMerged_congr {tree tree' : FileTree} {merged : MergedSource}
    (h : (tree'.writeText? file.path merged.text).isSome =
      (tree.writeText? file.path merged.text).isSome) (source : Text) :
    (storeMerged tree' file write source merged).1 =
      (storeMerged tree file write source merged).1 := by
  rw [storeMerged, storeMerged]
  split
  · rfl
  · split
    · cases hnew : tree'.writeText? file.path merged.text with
      | none =>
          rw [hnew, Option.isSome_none, eq_comm, Option.isSome_eq_false_iff,
            Option.isNone_iff_eq_none] at h
          rw [h]
      | some _ =>
          rw [hnew, Option.isSome_some, eq_comm, Option.isSome_iff_exists] at h
          obtain ⟨_, h⟩ := h
          rw [h]
    · rfl

/-- A report depends on what is read from the file, on what merging makes of it, and on whether the
file can be written. -/
theorem report_congr (hread : t.tree.readText? file.path = s.tree.readText? file.path)
    (hmerge : ∀ source, (mergeSource p.settings t.cache t.tree file.path file.kind source).1 =
      (mergeSource p.settings s.cache s.tree file.path file.kind source).1)
    (hwrite : ∀ text, (t.tree.writeText? file.path text).isSome =
      (s.tree.writeText? file.path text).isSome) :
    (p.processFile write t file).1 = (p.processFile write s file).1 := by
  simp only [report_processFile, hread, hmerge, report_storeMerged_congr (hwrite _)]

/-! ## States of a run -/

/-- The second state is one that a run from the first one can reach when it has written to the
locations `changed`. -/
structure Continues (changed : List Location) (s t : RunState σ) : Prop where
  agrees : FileTree.AgreesOutside changed s.tree t.tree
  extension : ∀ location ∈ changed,
    FileTree.extensionOf? location = some ClassFile.fileExtension
  /-- Steady sources stay steady, and go on to answer as at the start. -/
  answers_eq : s.cache.IsSteady →
    t.cache.IsSteady ∧ t.cache.answers t.tree = s.cache.answers s.tree

namespace Continues

variable {changed : List Location}

theorem refl (s : RunState σ) : Continues [] s s :=
  ⟨.refl s.tree, by simp, fun h => ⟨h, rfl⟩⟩

theorem load_eq (h : Continues changed s t) (cache : SchemaCache σ) :
    cache.load t.tree = cache.load s.tree := by
  refine SchemaCache.load_eq h.agrees (fun location hmem hjson => ?_) cache
  exact absurd ((h.extension location hmem).symm.trans hjson) (by decide)

/-- A file that was not written to is reported on as at the start. -/
theorem report_eq (h : Continues changed s t) (hsteady : s.cache.IsSteady)
    (hnot : ∀ location ∈ s.tree.locate? file.path, location ∉ changed) :
    (p.processFile write t file).1 = (p.processFile write s file).1 :=
  report_congr (h.agrees.readText?_eq hnot)
    (mergeSource_fst_congr p.settings file.path file.kind · (h.answers_eq hsteady).2)
    (h.agrees.isSome_writeText?_eq hnot)

theorem target?_eq (h : Continues changed s t) (r : FileReport) :
    r.target? t.tree write = r.target? s.tree write := by
  rw [FileReport.target?, FileReport.target?, h.agrees.locate?_eq]

/-- Processing a class file goes on with the run. -/
theorem processFile (h : Continues changed s t) (p : Project) (write : Bool)
    (hextension : file.path.extension? = some ClassFile.fileExtension) :
    Continues (changed ++ ((p.processFile write t file).1.target? s.tree write).toList) s
      (p.processFile write t file).2 := by
  have hagrees := agreesOutside_processFile p write t file
  rw [h.target?_eq] at hagrees
  have htargets : ∀ location ∈ ((p.processFile write t file).1.target? s.tree write).toList,
      FileTree.extensionOf? location = some ClassFile.fileExtension := by
    intro location hmem
    have hlocate := FileReport.locate?_of_target? (Option.mem_toList.1 hmem)
    rw [file_processFile] at hlocate
    exact FileTree.extensionOf?_of_locate? hlocate hextension
  refine ⟨h.agrees.trans hagrees, fun location hmem => ?_, ?_⟩
  · rcases List.mem_append.1 hmem with hmem | hmem
    · exact h.extension location hmem
    · exact htargets location hmem
  · -- the schema files are as before, and merging does not show in the answers
    intro hsteady
    obtain ⟨hsteady', hanswers⟩ := h.answers_eq hsteady
    have hload : ∀ cache : SchemaCache σ,
        cache.load (p.processFile write t file).2.tree = cache.load t.tree := by
      refine SchemaCache.load_eq hagrees fun location hmem hjson => ?_
      exact absurd ((htargets location hmem).symm.trans hjson) (by decide)
    rw [SchemaCache.answers_congr (hload _), ← hanswers, cache_processFile]
    cases t.tree.readText? file.path with
    | none => exact ⟨hsteady', rfl⟩
    | some source => exact hsteady'.mergeSource p.settings file.path file.kind source t.tree

end Continues

/-! ## Many files -/

@[simp] theorem processFiles_nil (p : Project) (write : Bool) (s : RunState σ) :
    p.processFiles write s [] = ([], s) := rfl

theorem processFiles_cons (p : Project) (write : Bool) (s : RunState σ) (file : ClassFile)
    (files : List ClassFile) :
    p.processFiles write s (file :: files) =
      ((p.processFile write s file).1 ::
          (p.processFiles write (p.processFile write s file).2 files).1,
        (p.processFiles write (p.processFile write s file).2 files).2) := rfl

theorem files_processFiles (p : Project) (write : Bool) (s : RunState σ) (files : List ClassFile) :
    (p.processFiles write s files).1.map FileReport.file = files := by
  induction files generalizing s with
  | nil => rfl
  | cons file files ih => simp [processFiles_cons, ih]

/-- Processing class files goes on with the run. -/
theorem Continues.processFiles {changed : List Location} (h : Continues changed s t) (p : Project)
    (write : Bool)
    (hextension : ∀ file ∈ files, file.path.extension? = some ClassFile.fileExtension) :
    Continues (changed ++ (p.processFiles write t files).1.filterMap (·.target? s.tree write)) s
      (p.processFiles write t files).2 := by
  -- the start stays fixed while the state moves on and `changed` grows by each target
  induction files generalizing t changed with
  | nil => simpa using h
  | cons file files ih =>
      have hfirst := h.processFile p write (hextension file List.mem_cons_self)
      have hrest := ih hfirst fun other hmem => hextension other (List.mem_cons_of_mem _ hmem)
      rw [processFiles_cons]
      cases htarget : (p.processFile write t file).1.target? s.tree write <;>
        simpa [htarget] using hrest

/-- Files that were told apart, and that were not written to before, are reported on as at the
start. -/
theorem Continues.reports_eq {changed : List Location} (h : Continues changed s t)
    (hsteady : s.cache.IsSteady)
    (hextension : ∀ file ∈ files, file.path.extension? = some ClassFile.fileExtension)
    (hapart : s.tree.TellsApart files)
    (hnot : ∀ file ∈ files, ∀ location ∈ s.tree.locate? file.path, location ∉ changed) :
    (p.processFiles write t files).1 = files.map fun file => (p.processFile write s file).1 := by
  -- what carries the induction is that no file still to come is where something was written
  induction files generalizing t changed with
  | nil => rfl
  | cons file files ih =>
      have hfirst := h.processFile p write (hextension file List.mem_cons_self)
      have hrest := ih hfirst (fun other hmem => hextension other (List.mem_cons_of_mem _ hmem))
        hapart.tail (FileTree.TellsApart.not_mem_append_target? (by simpa using hapart)
          (by simpa using hnot) write)
      rw [processFiles_cons, List.map_cons, h.report_eq hsteady (hnot file List.mem_cons_self),
        hrest]

/-! ## Runs -/

/-- Every class file is reported on as if it were the only one. -/
theorem reports_run (p : Project) (className : Option Text) (write : Bool) (s : RunState σ)
    (hsteady : s.cache.IsSteady) (h : s.tree.TellsApart (p.discover s.tree className)) :
    (p.run className write s).1 =
      (p.discover s.tree className).map fun file => (p.processFile write s file).1 :=
  (Continues.refl s).reports_eq hsteady (fun _ => ClassFile.extension?_of_mem_discover _ _ _) h
    (by simp)

theorem tellsApart_discover_some {tree : FileTree} {name : Text}
    (h : tree.TellsApart (p.discover tree none)) :
    tree.TellsApart (p.discover tree (some name)) := by
  rw [discover, ClassFile.discover_some]
  exact List.Nodup.sublist ((List.filter_sublist).filterMap _) h

/-- **Files are processed independently.**  As long as every source answers for a table alike
whenever it is asked, a run for one class reports what a run for all classes, from the same state,
reports on the files of that class; and a run reports on every file what processing that file alone,
from the state at the start, reports. -/
theorem run_some_eq_filter (p : Project) (name : Text) (write : Bool) (s : RunState σ)
    (hsteady : s.cache.IsSteady) (h : s.tree.TellsApart (p.discover s.tree none)) :
    (p.run (some name) write s).1 =
        (p.run none write s).1.filter (fun r => r.file.path.stem? == some name) ∧
      (p.run none write s).1 =
        (p.discover s.tree none).map fun file => (p.processFile write s file).1 := by
  refine ⟨?_, reports_run p none write s hsteady h⟩
  rw [reports_run p (some name) write s hsteady (tellsApart_discover_some h),
    reports_run p none write s hsteady h, List.filter_map]
  simp only [Function.comp_def, file_processFile]
  rw [discover, discover, ClassFile.discover_some]

/-- Two models in order, and a schema with a table for one of them. -/
def twoModels : RunState where
  tree := {
    entries := Keyed.ofList [
      (["app".toList, "Models".toList, "Post.php".toList],
        .file ⟨.text "<?php\nnamespace A;\nclass Post\n".toList, false⟩),
      (["app".toList, "Models".toList, "User.php".toList],
        .file ⟨.text "<?php\nnamespace A;\nclass User\n".toList, true⟩),
      (["database".toList, "schema".toList, "mysql.json".toList],
        .file ⟨.text "\x7b\"users\":[[\"id\",\"int\"]]\x7d".toList, true⟩)]
    workingDirectory := [] }
  cache := .fresh ⟨".".toList⟩ Settings.default.connections

/-- A project at the working directory, with default settings. -/
def atWorkingDirectory : Project :=
  ⟨⟨".".toList⟩, .default⟩

theorem discover_twoModels :
    atWorkingDirectory.discover twoModels.tree none =
      [⟨⟨"./app/Models/Post.php".toList⟩, .model⟩, ⟨⟨"./app/Models/User.php".toList⟩, .model⟩] := by
  have hmodels : twoModels.tree.directory? ⟨"./app/Models".toList⟩ =
      some ["app".toList, "Models".toList] := by decide +kernel
  have hclasses : twoModels.tree.directory? ⟨"./app/Http".toList⟩ = none := by decide +kernel
  have hsorted := ClassFile.pathsBelow_of_sorted twoModels.tree hmodels (by decide +kernel) none
  have hmodelsRoot : atWorkingDirectory.root.join atWorkingDirectory.settings.modelsRoot =
      ⟨"./app/Models".toList⟩ := by decide
  have hclassesRoot : atWorkingDirectory.root.join atWorkingDirectory.settings.classesRoot =
      ⟨"./app/Http".toList⟩ := by decide
  rw [discover, ClassFile.discover, hmodelsRoot, hclassesRoot, hsorted,
    ClassFile.pathsBelow.eq_def _ ⟨"./app/Http".toList⟩, hclasses]
  decide +kernel

theorem tellsApart_twoModels :
    twoModels.tree.TellsApart (atWorkingDirectory.discover twoModels.tree none) := by
  rw [discover_twoModels]
  decide +kernel

/-- The two models, where a source that counts answers for the default connection. -/
def countedModels : RunState CountingSource :=
  ⟨twoModels.tree,
    (SchemaCache.fresh ⟨".".toList⟩ Settings.default.connections).insert
      Settings.default.defaultConnection (.counting 0)⟩

theorem countedModels_run_some_eq_filter :
    countedModels.cache.IsSteady ∧
    countedModels.tree.TellsApart (atWorkingDirectory.discover countedModels.tree none) ∧
    (atWorkingDirectory.run (some "User".toList) true countedModels).1 =
      (atWorkingDirectory.run none true countedModels).1.filter
        (fun r => r.file.path.stem? == some "User".toList) ∧
    (atWorkingDirectory.run none true countedModels).1.map
        (fun r => (r.outcome, r.metadataUnavailable)) =
      [(.notWritable, false), (.patched, false)] := by
  have hsteady : countedModels.cache.IsSteady := fun _ source _ => source.isSteady
  obtain ⟨hfilter, hmap⟩ := run_some_eq_filter atWorkingDirectory "User".toList true countedModels
    hsteady tellsApart_twoModels
  refine ⟨hsteady, tellsApart_twoModels, hfilter, ?_⟩
  rw [hmap, countedModels, discover_twoModels]
  decide +kernel

end Project
end PhpDoc
