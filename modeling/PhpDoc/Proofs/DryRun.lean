import Mathlib
import PhpDoc.Command
import PhpDoc.Proofs.Atomicity

/-!
# A dry run predicts the real one

A run that writes and a run that does not are compared file by file and state by state.  They make
the same requests in the same order, because no write reaches a schema file, so whatever state the
sources have, both runs get the same answers and end with the same cache.  A report of the dry run is
the report of the real one, unless the file turns out to be read-only.

What the commands print is made of the reports, so that a check fails just when a run would have
something to write.
-/

namespace PhpDoc

/-- How a report without writing goes with the report with writing. -/
inductive FileReport.Predicts : FileReport → FileReport → Prop
  /-- The reports are equal. -/
  | same (r : FileReport) (h : r.outcome ≠ .notWritable) : Predicts r r
  /-- The new text could not be written. -/
  | readOnly (r : FileReport) (h : r.outcome = .patched) :
      Predicts r { r with outcome := .notWritable, after := r.before }

theorem FileReport.Predicts.patched_iff {dry real : FileReport} (h : dry.Predicts real) :
    dry.outcome = .patched ↔ real.outcome = .patched ∨ real.outcome = .notWritable := by
  cases h with
  | same h => simp [h]
  | readOnly h => simp [h]

/-- The dry run would patch a file exactly when the real one patches a file or cannot write one. -/
theorem FileReport.exists_patched_iff {dry real : List FileReport}
    (h : List.Forall₂ FileReport.Predicts dry real) :
    (∃ r ∈ dry, r.outcome = .patched) ↔
      ∃ r ∈ real, r.outcome = .patched ∨ r.outcome = .notWritable := by
  induction h with
  | nil => simp
  | cons hfirst _ ih => simp only [List.exists_mem_cons_iff, hfirst.patched_iff, ih]

namespace Project

variable {σ : Type} [SchemaSource σ] {p : Project} {write : Bool} {s t dry real : RunState σ}
  {file : ClassFile} {files : List ClassFile}

/-! ## Two runs -/

theorem outcomeOf_ne_notWritable (fault : Fault) : outcomeOf fault ≠ .notWritable := by
  cases fault <;> simp [outcomeOf]

theorem predicts_storeMerged (tree : FileTree) (file : ClassFile) (source : Text)
    (merged : MergedSource) :
    (storeMerged tree file false source merged).1.Predicts
      (storeMerged tree file true source merged).1 := by
  rw [storeMerged, storeMerged]
  by_cases hsame : merged.text = source
  · simp only [hsame, if_true]
    exact .same _ (by simp [untouched])
  · simp only [hsame, if_false, if_true, Bool.false_eq_true]
    cases tree.writeText? file.path merged.text with
    | none => exact .readOnly ⟨file, .patched, source, merged.text, _⟩ rfl
    | some tree' => exact .same _ (by simp)

/-- The report on one file, without and with writing. -/
theorem predicts_processFile (p : Project) (s : RunState σ) (file : ClassFile) :
    (p.processFile false s file).1.Predicts (p.processFile true s file).1 := by
  rw [report_processFile, report_processFile]
  cases s.tree.readText? file.path with
  | none => exact .same _ (by simp [untouched])
  | some source =>
      dsimp only
      cases (mergeSource p.settings s.cache s.tree file.path file.kind source).1 with
      | error fault => exact .same _ (outcomeOf_ne_notWritable fault)
      | ok merged => exact predicts_storeMerged s.tree file source merged

/-- A file that was not written to is reported on, and makes its request, as on the tree at the
start. -/
theorem Continues.processFile_eq {changed : List Location} (h : Continues changed s t)
    (p : Project) (write : Bool)
    (hnot : ∀ location ∈ s.tree.locate? file.path, location ∉ changed) :
    (p.processFile write t file).1 = (p.processFile write ⟨s.tree, t.cache⟩ file).1 ∧
      (p.processFile write t file).2.cache =
        (p.processFile write ⟨s.tree, t.cache⟩ file).2.cache := by
  have hread := h.agrees.readText?_eq hnot
  have hmerge (source : Text) :=
    mergeSource_congr p.settings file.path file.kind source (h.load_eq t.cache)
  refine ⟨report_congr hread (fun source => congrArg Prod.fst (hmerge source))
    (h.agrees.isSome_writeText?_eq hnot), ?_⟩
  rw [cache_processFile, cache_processFile, hread]
  cases s.tree.readText? file.path with
  | none => rfl
  | some source => exact congrArg Prod.snd (hmerge source)

/-- Whether a file is written does not show in the cache. -/
theorem cache_processFile_write (p : Project) (write write' : Bool) (s : RunState σ)
    (file : ClassFile) :
    (p.processFile write s file).2.cache = (p.processFile write' s file).2.cache := by
  rw [cache_processFile, cache_processFile]

/-- Two runs from one start that have come to the same cache go on alike, one of them without
writing. -/
theorem Continues.predicts_processFiles {changed changed' : List Location}
    (hdry : Continues changed s dry) (hreal : Continues changed' s real)
    (hcache : dry.cache = real.cache)
    (hextension : ∀ file ∈ files, file.path.extension? = some ClassFile.fileExtension)
    (hapart : s.tree.TellsApart files)
    (hnot : ∀ file ∈ files, ∀ location ∈ s.tree.locate? file.path, location ∉ changed)
    (hnot' : ∀ file ∈ files, ∀ location ∈ s.tree.locate? file.path, location ∉ changed') :
    List.Forall₂ FileReport.Predicts (p.processFiles false dry files).1
        (p.processFiles true real files).1 ∧
      (p.processFiles false dry files).2.cache = (p.processFiles true real files).2.cache := by
  -- the next file and the schema files read as at the start in both runs, so both make its request
  -- to the same source
  induction files generalizing dry real changed changed' with
  | nil => exact ⟨.nil, hcache⟩
  | cons file files ih =>
      obtain ⟨hdryReport, hdryCache⟩ :=
        hdry.processFile_eq p false (hnot file List.mem_cons_self)
      obtain ⟨hrealReport, hrealCache⟩ :=
        hreal.processFile_eq p true (hnot' file List.mem_cons_self)
      have hextension' := fun other hmem => hextension other (List.mem_cons_of_mem file hmem)
      have hrest := ih (hdry.processFile p false (hextension file List.mem_cons_self))
        (hreal.processFile p true (hextension file List.mem_cons_self))
        (by rw [hdryCache, hrealCache, hcache, cache_processFile_write]) hextension' hapart.tail
        (FileTree.TellsApart.not_mem_append_target? (by simpa using hapart) (by simpa using hnot)
          false)
        (FileTree.TellsApart.not_mem_append_target? (by simpa using hapart) (by simpa using hnot')
          true)
      rw [processFiles_cons, processFiles_cons]
      refine ⟨.cons ?_ hrest.1, hrest.2⟩
      rw [hdryReport, hrealReport, hcache]
      exact predicts_processFile p _ file

/-- A run without writing and a run with writing: the reports go together one by one, and the caches
are equal. -/
theorem predicts_run (p : Project) (className : Option Text) (s : RunState σ)
    (h : s.tree.TellsApart (p.discover s.tree className)) :
    List.Forall₂ FileReport.Predicts (p.run className false s).1 (p.run className true s).1 ∧
      (p.run className false s).2.cache = (p.run className true s).2.cache :=
  (Continues.refl s).predicts_processFiles (Continues.refl s) rfl
    (fun _ => ClassFile.extension?_of_mem_discover _ _ _) h (by simp) (by simp)

end Project

/-! ## What a command prints -/

namespace Transcript

/-- What a command prints about a run with the given reports. -/
def ofReports (mode : RunMode) (root : Path) (className : Option Text) (verbose : Bool)
    (reports : List FileReport) : Transcript :=
  if reports = [] then silent.printLine (nothingFound className)
  else
    let summary := Summary.ofReports reports
    let t :=
      if verbose then
        silent.warnLine
          ("Found ".toList ++ Text.ofNat reports.length ++ " files to process".toList)
      else silent
    concludeRun mode (reportSummary mode (reports.foldl (reportFile mode root verbose) t) summary)
      summary.patched

/-- The end of what is printed when files are out of date. -/
def outOfDate : Text := " file(s) have out-of-date annotations\n".toList

/-- The command failed because files are out of date. -/
def IsOutOfDate (t : Transcript) : Prop :=
  t.exit = 1 ∧ outOfDate <:+ t.err

instance (t : Transcript) : Decidable t.IsOutOfDate :=
  inferInstanceAs (Decidable (_ ∧ _))

theorem exit_printLine (t : Transcript) (line : Text) : (t.printLine line).exit = t.exit := rfl

theorem exit_foldl {α : Type} {say : Transcript → α → Transcript}
    (h : ∀ t a, (say t a).exit = t.exit) (t : Transcript) (items : List α) :
    (items.foldl say t).exit = t.exit := by
  induction items generalizing t with
  | nil => rfl
  | cons item items ih => rw [List.foldl_cons, ih, h]

theorem exit_reportFile (mode : RunMode) (root : Path) (verbose : Bool) (t : Transcript)
    (r : FileReport) : (reportFile mode root verbose t r).exit = t.exit := by
  have hend : ∀ (t : Transcript) (b : Bool) (line : Text),
      (if b = true then t.warnLine line else t).exit = t.exit := by
    intro t b line
    split <;> rfl
  unfold reportFile
  rw [hend]
  cases r.outcome with
  | patched => cases mode <;> rfl
  | unchanged => cases verbose <;> rfl
  | noMatch | ambiguous | malformed | notWritable => rfl

theorem exit_reportSummary (mode : RunMode) (t : Transcript) (s : Summary) :
    (reportSummary mode t s).exit = t.exit :=
  exit_foldl exit_printLine t _

/-- A check ends as out of date exactly when a file would be patched. -/
theorem isOutOfDate_concludeRun {t : Transcript} (h : t.exit = 0) (patched : Nat) :
    (concludeRun .check t patched).IsOutOfDate ↔ patched ≠ 0 := by
  rw [concludeRun]
  split
  · next hzero =>
      refine ⟨fun hdate => ?_, fun hpatched => absurd hzero hpatched⟩
      have hexit := hdate.1
      rw [exit_printLine, h] at hexit
      contradiction
  · next hpatched =>
      refine ⟨fun _ => hpatched, fun _ => ⟨rfl, ?_⟩⟩
      refine ⟨t.err ++ ("\n✗ ".toList ++ Text.ofNat patched), ?_⟩
      have hline : outOfDate = " file(s) have out-of-date annotations".toList ++ ['\n'] := by decide
      rw [hline, fail, warnLine]
      simp only [List.append_assoc]

theorem isOutOfDate_ofReports (root : Path) (className : Option Text) (verbose : Bool)
    (reports : List FileReport) :
    (ofReports .check root className verbose reports).IsOutOfDate ↔
      ∃ r ∈ reports, r.outcome = .patched := by
  rw [ofReports]
  split
  · next hnone =>
      refine ⟨fun hdate => ?_, fun hpatched => by simp [hnone] at hpatched⟩
      exact absurd hdate.1 Nat.zero_ne_one
  · dsimp only
    rw [isOutOfDate_concludeRun]
    · have hpatched : (Summary.ofReports reports).patched =
          reports.countP (·.outcome == .patched) :=
        (Summary.counter_foldl_record .zero reports .patched).trans (Nat.zero_add _)
      rw [hpatched, Nat.ne_zero_iff_zero_lt, List.countP_pos_iff]
      simp
    · rw [exit_reportSummary, exit_foldl (exit_reportFile _ _ _)]
      split <;> rfl

/-- A message that ends otherwise is not about files that are out of date. -/
theorem not_isOutOfDate {t : Transcript} (ending : Text) (hend : ending <:+ t.err)
    (hshort : ending.length ≤ outOfDate.length) (hother : ¬ ending <:+ outOfDate) :
    ¬ t.IsOutOfDate := fun h =>
  hother (List.suffix_of_suffix_length_le hend h.2 hshort)

theorem not_isOutOfDate_missingRoot (root : Path) : ¬ (missingRoot .check root).IsOutOfDate := by
  refine not_isOutOfDate " is not a directory\n".toList ?_ (by decide) (by decide)
  refine ⟨"✗ ".toList ++ ("Project root ".toList ++ root.text), ?_⟩
  have hline : " is not a directory\n".toList = " is not a directory".toList ++ ['\n'] := by decide
  rw [hline, missingRoot, if_pos rfl, fail, warnLine, silent]
  simp only [List.append_assoc, List.nil_append]

end Transcript

theorem runProject_eq (mode : RunMode) (p : Project) (className : Option Text) (verbose : Bool)
    {tree : FileTree} (hroot : (tree.directory? p.root).isNone = false) :
    runProject mode p className verbose tree =
      let (reports, s) := p.run className (decide (mode = .write)) ⟨tree, p.freshCache⟩
      (.ofReports mode p.root className verbose reports, s.tree) := by
  rw [runProject, hroot, if_neg Bool.false_ne_true, Project.run]
  cases hfiles : p.discover tree className with
  | nil => rfl
  | cons file files =>
      have hlength : (p.processFiles (decide (mode = .write)) ⟨tree, p.freshCache⟩
          (file :: files)).1.length = (file :: files).length := by
        rw [← List.length_map FileReport.file, Project.files_processFiles]
      have hsome : (p.processFiles (decide (mode = .write)) ⟨tree, p.freshCache⟩
          (file :: files)).1 ≠ [] := by
        rw [Project.processFiles_cons]
        exact List.cons_ne_nil _ _
      dsimp only
      rw [runFiles, Transcript.ofReports, if_neg hsome, hlength]

/-- The reports that an invocation prints (`execute_run_eq`); none if it does not come to a run. -/
def Invocation.reports (i : Invocation) (tree : FileTree) : List FileReport :=
  match i.command with
  | .init _ => []
  | .run mode root className =>
    match loadSettings tree i.settingsFile with
    | .error _ => []
    | .ok settings =>
      let p : Project := ⟨root, settings⟩
      if (tree.directory? root).isNone then []
      else (p.run className (decide (mode = .write)) ⟨tree, p.freshCache⟩).1

/-- Settings cannot be loaded when their file cannot be read, or does not hold settings. -/
theorem loadSettings_eq_error {tree : FileTree} {file : Path} {fault : Fault}
    (h : loadSettings tree file = .error fault) : fault = .fileAccess ∨ fault = .badJson := by
  rw [loadSettings] at h
  split at h
  · contradiction
  · split at h
    · exact Or.inl (Except.error.inj h).symm
    · rw [Settings.parse] at h
      split at h
      · contradiction
      · exact Or.inr (Except.error.inj h).symm

theorem not_isOutOfDate_loadSettings {tree : FileTree} {file : Path} {fault : Fault}
    (h : loadSettings tree file = .error fault) :
    ¬ (Transcript.stopped fault.message).IsOutOfDate := by
  rcases loadSettings_eq_error h with rfl | rfl
  · decide
  · decide

namespace Invocation

variable {root settingsFile : Path} {className : Option Text} {verbose : Bool} {tree : FileTree}
  {settings : Settings}

/-- An invocation that comes to a run prints its reports. -/
theorem execute_run_eq (mode : RunMode) (hsettings : loadSettings tree settingsFile = .ok settings)
    (hroot : (tree.directory? root).isNone = false) :
    ((⟨.run mode root className, settingsFile, verbose⟩ : Invocation).execute tree).1 =
      .ofReports mode root className verbose
        ((⟨.run mode root className, settingsFile, verbose⟩ : Invocation).reports tree) := by
  simp only [execute, reports, hsettings, hroot, runProject_eq mode ⟨root, settings⟩ _ _ hroot]
  rfl

/-- A check fails for files that are out of date exactly when a run that writes has something to
write. -/
theorem isOutOfDate_execute_iff
    (h : ∀ settings, loadSettings tree settingsFile = .ok settings →
      tree.TellsApart ((⟨root, settings⟩ : Project).discover tree className)) :
    ((⟨.run .check root className, settingsFile, verbose⟩ : Invocation).execute
        tree).1.IsOutOfDate ↔
      ∃ r ∈ (⟨.run .write root className, settingsFile, verbose⟩ : Invocation).reports tree,
        r.outcome = .patched ∨ r.outcome = .notWritable := by
  cases hsettings : loadSettings tree settingsFile with
  | error fault =>
      -- both commands stop, and the message of the check is another one
      have hstopped := not_isOutOfDate_loadSettings hsettings
      simpa only [execute, reports, hsettings, List.not_mem_nil, false_and, exists_false,
        iff_false] using hstopped
  | ok settings =>
      cases hroot : (tree.directory? root).isNone with
      | true =>
          -- the same without a root
          have hmissing := Transcript.not_isOutOfDate_missingRoot root
          simpa only [execute, reports, hsettings, runProject, hroot, if_true, List.not_mem_nil,
            false_and, exists_false, iff_false] using hmissing
      | false =>
          have hpredicts := Project.predicts_run ⟨root, settings⟩ className
            ⟨tree, Project.freshCache ⟨root, settings⟩⟩ (h settings hsettings)
          rw [execute_run_eq .check hsettings hroot, Transcript.isOutOfDate_ofReports]
          simpa only [reports, hsettings, hroot, Bool.false_eq_true, if_false, reduceCtorEq,
            decide_false, decide_true] using FileReport.exists_patched_iff hpredicts.1

/-- **A dry run predicts the real run.**  Whatever sources the cache holds, a run that does not
write reports on the same files in the same order as one that writes, and reports the same, except
that a file it would patch may turn out to be read-only; and it leaves the same cache.  So a check
fails for files that are out of date exactly when a run that writes would patch a file, or find one
that it cannot write; the reports meant here are those that the commands print. -/
theorem dryRun_predicts_run :
    (∀ (σ : Type) [SchemaSource σ] (p : Project) (className : Option Text) (s : RunState σ),
      s.tree.TellsApart (p.discover s.tree className) →
      List.Forall₂ FileReport.Predicts (p.run className false s).1 (p.run className true s).1 ∧
        (p.run className false s).2.cache = (p.run className true s).2.cache) ∧
    (∀ (root settingsFile : Path) (className : Option Text) (verbose : Bool) (tree : FileTree),
      (∀ settings, loadSettings tree settingsFile = .ok settings →
        tree.TellsApart ((⟨root, settings⟩ : Project).discover tree className)) →
      (((⟨.run .check root className, settingsFile, verbose⟩ : Invocation).execute
          tree).1.IsOutOfDate ↔
        ∃ r ∈ (⟨.run .write root className, settingsFile, verbose⟩ : Invocation).reports tree,
          r.outcome = .patched ∨ r.outcome = .notWritable)) ∧
    (∀ (mode : RunMode) (root settingsFile : Path) (className : Option Text) (verbose : Bool)
      (tree : FileTree) (settings : Settings),
      loadSettings tree settingsFile = .ok settings → (tree.directory? root).isNone = false →
      ((⟨.run mode root className, settingsFile, verbose⟩ : Invocation).execute tree).1 =
        .ofReports mode root className verbose
          ((⟨.run mode root className, settingsFile, verbose⟩ : Invocation).reports tree)) := by
  refine ⟨?_, ?_, ?_⟩
  · intro σ _ p className s h
    exact Project.predicts_run p className s h
  · intro root settingsFile className verbose tree h
    exact isOutOfDate_execute_iff h
  · intro mode root settingsFile className verbose tree settings hsettings hroot
    exact execute_run_eq mode hsettings hroot

theorem twoModels_dryRun_predicts_run :
    Project.twoModels.tree.TellsApart
        (Project.atWorkingDirectory.discover Project.twoModels.tree none) ∧
    List.Forall₂ FileReport.Predicts
      (Project.atWorkingDirectory.run none false Project.twoModels).1
      (Project.atWorkingDirectory.run none true Project.twoModels).1 ∧
    (Project.atWorkingDirectory.run none false Project.twoModels).2.cache =
      (Project.atWorkingDirectory.run none true Project.twoModels).2.cache ∧
    ((⟨.run .check ⟨".".toList⟩ none, defaultSettingsFile, true⟩ : Invocation).execute
      Project.twoModels.tree).1.IsOutOfDate := by
  have hsettings : loadSettings Project.twoModels.tree defaultSettingsFile = .ok .default := by
    decide +kernel
  have hroot : (Project.twoModels.tree.directory? ⟨".".toList⟩).isNone = false := by
    decide +kernel
  have hreports : (⟨.run .write ⟨".".toList⟩ none, defaultSettingsFile, true⟩ : Invocation).reports
      Project.twoModels.tree = (Project.atWorkingDirectory.run none true Project.twoModels).1 := by
    simp only [reports, hsettings, hroot, Bool.false_eq_true, if_false, decide_true]
    rfl
  obtain ⟨hruns, hcheck, -⟩ := dryRun_predicts_run
  have hrun := hruns Snapshot Project.atWorkingDirectory none Project.twoModels
    Project.tellsApart_twoModels
  refine ⟨Project.tellsApart_twoModels, hrun.1, hrun.2, ?_⟩
  refine (hcheck _ _ none true Project.twoModels.tree fun settings h => ?_).2 ?_
  · obtain rfl : Settings.default = settings := Except.ok.inj (hsettings.symm.trans h)
    exact Project.tellsApart_twoModels
  · have hpost : (Project.atWorkingDirectory.processFile true Project.twoModels
        ⟨⟨"./app/Models/Post.php".toList⟩, .model⟩).1.outcome = .notWritable := by
      decide +kernel
    rw [hreports, Project.reports_run _ _ _ _ (SchemaCache.isSteady_snapshots _)
      Project.tellsApart_twoModels, Project.discover_twoModels]
    exact ⟨_, List.mem_cons_self, Or.inr hpost⟩

end Invocation
end PhpDoc
