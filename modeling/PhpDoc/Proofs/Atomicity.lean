import Mathlib
import PhpDoc.Proofs.Independence

/-!
# A run changes a file as a whole or not at all

A file goes through one class splice and any number of method splices, and is then written.  Each
of these stages can fail after the ones before it succeeded.  Whatever fails, the file is left as it
was, the report names the failure, and the other files are processed as if nothing had happened.
-/

namespace PhpDoc

/-! ## Stages that can fail -/

/-- A fold that fails does so at one item, after all items before it succeeded. -/
theorem foldlM_eq_error_iff {ε α β : Type} {step : β → α → Except ε β} {start : β} {items : List α}
    {fault : ε} :
    items.foldlM step start = .error fault ↔ ∃ earlier item later reached,
      items = earlier ++ item :: later ∧ earlier.foldlM step start = .ok reached ∧
        step reached item = .error fault := by
  -- either the first item fails, or the fold goes on from what it gave
  induction items generalizing start with
  | nil => simp [pure, Except.pure]
  | cons item items ih =>
      rw [List.foldlM_cons]
      cases hstep : step start item with
      | error fault' =>
          constructor
          · intro h
            obtain rfl : fault' = fault := by simpa [bind, Except.bind] using h
            exact ⟨[], item, items, start, rfl, rfl, hstep⟩
          · rintro ⟨earlier, item', later, reached, hitems, hearlier, hfault⟩
            cases earlier with
            | nil =>
                obtain ⟨rfl, rfl⟩ := List.cons.inj hitems
                obtain rfl : start = reached := by
                  simpa [pure, Except.pure] using hearlier
                simpa [bind, Except.bind, hstep] using hfault
            | cons first earlier =>
                obtain ⟨rfl, -⟩ := List.cons.inj hitems
                simp [List.foldlM_cons, hstep, bind, Except.bind] at hearlier
      | ok next =>
          change items.foldlM step next = .error fault ↔ _
          rw [ih]
          constructor
          · rintro ⟨earlier, item', later, reached, rfl, hearlier, hfault⟩
            refine ⟨item :: earlier, item', later, reached, rfl, ?_, hfault⟩
            rw [List.foldlM_cons, hstep]
            exact hearlier
          · rintro ⟨earlier, item', later, reached, hitems, hearlier, hfault⟩
            cases earlier with
            | nil =>
                obtain ⟨rfl, rfl⟩ := List.cons.inj hitems
                obtain rfl : start = reached := by
                  simpa [pure, Except.pure] using hearlier
                rw [hstep] at hfault
                contradiction
            | cons first earlier =>
                obtain ⟨rfl, rfl⟩ := List.cons.inj hitems
                rw [List.foldlM_cons, hstep] at hearlier
                exact ⟨earlier, item', later, reached, rfl, hearlier, hfault⟩

theorem ClassDecl.spliceBlocks_eq_error_iff {decl : ClassDecl} {source : Text} {block : ClassBlock}
    {fault : Fault} :
    decl.spliceBlocks source block = .error fault ↔
      spliceRequired source decl.previous (decl.replacement block.render) = .error fault ∨
      ∃ text, spliceRequired source decl.previous (decl.replacement block.render) = .ok text ∧
        ∃ earlier m later reached, decl.methods = earlier ++ m :: later ∧
          earlier.foldlM decl.spliceMethod text = .ok reached ∧
          decl.spliceMethod reached m = .error fault := by
  rw [spliceBlocks]
  cases spliceRequired source decl.previous (decl.replacement block.render) with
  | error fault' => simp [bind, Except.bind]
  | ok text =>
      simp only [reduceCtorEq, Except.ok.injEq, exists_eq_left', false_or]
      exact foldlM_eq_error_iff

theorem mergeSource_fst_eq_error_iff {settings : Settings} {cache : SchemaCache} {tree : FileTree}
    {path : Path} {kind : ClassKind} {source : Text} {fault : Fault} :
    (mergeSource settings cache tree path kind source).1 = .error fault ↔
      ClassDecl.read path.text source = .error fault ∨
      ∃ decl, ClassDecl.read path.text source = .ok decl ∧
        decl.spliceBlocks source (decl.classBlock kind settings
          (decl.discovery kind settings cache tree).1) = .error fault := by
  rw [mergeSource]
  cases ClassDecl.read path.text source with
  | error fault' => simp
  | ok decl =>
      simp only [reduceCtorEq, Except.ok.injEq, exists_eq_left', false_or]
      cases decl.spliceBlocks source (decl.classBlock kind settings
        (decl.discovery kind settings cache tree).1) <;> simp [Except.map]

namespace Project

variable {p : Project} {write : Bool} {s t : RunState} {file : ClassFile} {files : List ClassFile}

/-- A source that cannot be read as a class file makes its file malformed. -/
theorem outcomeOf_of_read {path source : Text} {fault : Fault}
    (h : ClassDecl.read path source = .error fault) : outcomeOf fault = .malformed := by
  rw [ClassDecl.read] at h
  split at h
  · rw [← Except.error.inj h]
    rfl
  · split at h
    · rw [← Except.error.inj h]
      rfl
    · contradiction

/-- The class block that a file gets. -/
def blockOf (p : Project) (s : RunState) (file : ClassFile) (decl : ClassDecl) : ClassBlock :=
  decl.classBlock file.kind p.settings (decl.discovery file.kind p.settings s.cache s.tree).1

/-- A stage at which a file fails, and the outcome that stands for it. -/
inductive Fails (p : Project) (write : Bool) (s : RunState) (file : ClassFile) : Outcome → Prop
  /-- There is no text to read. -/
  | unreadable (hread : s.tree.readText? file.path = none) : Fails p write s file .malformed
  /-- The text has no namespace or no class. -/
  | headless {source : Text} {fault : Fault} (hread : s.tree.readText? file.path = some source)
      (hdecl : ClassDecl.read file.path.text source = .error fault) :
      Fails p write s file .malformed
  /-- The old class block stands nowhere, or at several places. -/
  | classSplice {source : Text} {decl : ClassDecl} {fault : Fault}
      (hread : s.tree.readText? file.path = some source)
      (hdecl : ClassDecl.read file.path.text source = .ok decl)
      (hclass : spliceRequired source decl.previous
        (decl.replacement (p.blockOf s file decl).render) = .error fault) :
      Fails p write s file (outcomeOf fault)
  /-- The class block and the blocks of earlier methods went in, but the anchor of a method stands
  nowhere, or at several places. -/
  | methodSplice {source text reached : Text} {decl : ClassDecl} {earlier later : List Method}
      {m : Method} {fault : Fault} (hread : s.tree.readText? file.path = some source)
      (hdecl : ClassDecl.read file.path.text source = .ok decl)
      (hclass : spliceRequired source decl.previous
        (decl.replacement (p.blockOf s file decl).render) = .ok text)
      (hmethods : decl.methods = earlier ++ m :: later)
      (hearlier : earlier.foldlM decl.spliceMethod text = .ok reached)
      (hmethod : decl.spliceMethod reached m = .error fault) :
      Fails p write s file (outcomeOf fault)
  /-- The new text cannot be written. -/
  | readOnly {source : Text} {merged : MergedSource}
      (hread : s.tree.readText? file.path = some source)
      (hmerge : (mergeSource p.settings s.cache s.tree file.path file.kind source).1 = .ok merged)
      (hchanged : merged.text ≠ source) (hwrite : write = true)
      (hfile : s.tree.writeText? file.path merged.text = none) : Fails p write s file .notWritable

/-- A source that does not merge makes its file fail at one of the stages. -/
theorem fails_of_merge_error {source : Text} {fault : Fault}
    (hread : s.tree.readText? file.path = some source)
    (h : (mergeSource p.settings s.cache s.tree file.path file.kind source).1 = .error fault) :
    p.Fails write s file (outcomeOf fault) := by
  rcases mergeSource_fst_eq_error_iff.1 h with hdecl | ⟨decl, hdecl, hsplice⟩
  · rw [outcomeOf_of_read hdecl]
    exact .headless hread hdecl
  · rcases ClassDecl.spliceBlocks_eq_error_iff.1 hsplice with
      hclass | ⟨text, hclass, earlier, m, later, reached, hmethods, hearlier, hmethod⟩
    · exact .classSplice hread hdecl hclass
    · exact .methodSplice hread hdecl hclass hmethods hearlier hmethod

theorem report_of_merge_error {source : Text} {fault : Fault}
    (hread : s.tree.readText? file.path = some source)
    (h : (mergeSource p.settings s.cache s.tree file.path file.kind source).1 = .error fault) :
    (p.processFile write s file).1 = untouched file (outcomeOf fault) source false := by
  rw [report_processFile, hread]
  dsimp only
  rw [h]

theorem report_of_merge_ok {source : Text} {merged : MergedSource}
    (hread : s.tree.readText? file.path = some source)
    (h : (mergeSource p.settings s.cache s.tree file.path file.kind source).1 = .ok merged) :
    (p.processFile write s file).1 = (storeMerged s.tree file write source merged).1 := by
  rw [report_processFile, hread]
  dsimp only
  rw [h]

/-- A file that fails at a stage is reported with the outcome of that stage. -/
theorem outcome_of_fails {outcome : Outcome} (h : p.Fails write s file outcome) :
    (p.processFile write s file).1.outcome = outcome ∧ outcome ≠ .patched ∧
      outcome ≠ .unchanged := by
  have hmerged : ∀ {source : Text} {fault : Fault}, s.tree.readText? file.path = some source →
      (mergeSource p.settings s.cache s.tree file.path file.kind source).1 = .error fault →
      (p.processFile write s file).1.outcome = outcomeOf fault ∧ outcomeOf fault ≠ .patched ∧
        outcomeOf fault ≠ .unchanged := by
    intro source fault hread hmerge
    rw [report_of_merge_error hread hmerge]
    exact ⟨rfl, outcomeOf_ne_patched fault, outcomeOf_ne_unchanged fault⟩
  -- all stages before the writing one show as a fault of the merge
  cases h with
  | unreadable hread =>
      rw [report_processFile, hread]
      exact ⟨rfl, by decide, by decide⟩
  | headless hread hdecl =>
      rw [← outcomeOf_of_read hdecl]
      exact hmerged hread (mergeSource_fst_eq_error_iff.2 (.inl hdecl))
  | classSplice hread hdecl hclass =>
      exact hmerged hread (mergeSource_fst_eq_error_iff.2
        (.inr ⟨_, hdecl, ClassDecl.spliceBlocks_eq_error_iff.2 (.inl hclass)⟩))
  | methodSplice hread hdecl hclass hmethods hearlier hmethod =>
      exact hmerged hread (mergeSource_fst_eq_error_iff.2
        (.inr ⟨_, hdecl, ClassDecl.spliceBlocks_eq_error_iff.2
          (.inr ⟨_, hclass, _, _, _, _, hmethods, hearlier, hmethod⟩)⟩))
  | readOnly hread hmerge hchanged hwrite hfile =>
      rw [report_of_merge_ok hread hmerge, storeMerged, if_neg hchanged, if_pos hwrite, hfile]
      exact ⟨rfl, by decide, by decide⟩

/-- A file that is neither patched nor unchanged has failed at a stage. -/
theorem fails_of_outcome (hpatched : (p.processFile write s file).1.outcome ≠ .patched)
    (hunchanged : (p.processFile write s file).1.outcome ≠ .unchanged) :
    p.Fails write s file (p.processFile write s file).1.outcome := by
  cases hread : s.tree.readText? file.path with
  | none =>
      rw [report_processFile, hread]
      exact .unreadable hread
  | some source =>
      cases hmerge : (mergeSource p.settings s.cache s.tree file.path file.kind source).1 with
      | error fault =>
          rw [report_of_merge_error hread hmerge]
          exact fails_of_merge_error hread hmerge
      | ok merged =>
          rw [report_of_merge_ok hread hmerge, storeMerged] at hpatched hunchanged ⊢
          by_cases hsame : merged.text = source
          · simp [hsame, untouched] at hunchanged
          · cases hwrite : write with
            | false => simp [hsame, hwrite] at hpatched
            | true =>
                cases hfile : s.tree.writeText? file.path merged.text with
                | none =>
                    simp only [hsame, if_false, if_true]
                    exact .readOnly hread hmerge hsame rfl hfile
                | some tree => simp [hsame, hwrite, hfile] at hpatched

/-- A stage fails exactly when its outcome is reported. -/
theorem fails_iff (p : Project) (write : Bool) (s : RunState) (file : ClassFile)
    (outcome : Outcome) :
    p.Fails write s file outcome ↔ (p.processFile write s file).1.outcome = outcome ∧
      outcome ≠ .patched ∧ outcome ≠ .unchanged := by
  refine ⟨outcome_of_fails, ?_⟩
  rintro ⟨rfl, hpatched, hunchanged⟩
  exact fails_of_outcome hpatched hunchanged

/-! ## Reports -/

theorem before_processFile (p : Project) (write : Bool) (s : RunState) (file : ClassFile) :
    (p.processFile write s file).1.before = (s.tree.readText? file.path).getD [] := by
  rw [report_processFile]
  cases s.tree.readText? file.path with
  | none => rfl
  | some source =>
      dsimp only
      split
      · rfl
      · rw [storeMerged]
        split
        · rfl
        · split
          · split <;> rfl
          · rfl

/-- A text is reported as patched exactly when it is reported as changed. -/
theorem patched_iff_changed (p : Project) (write : Bool) (s : RunState) (file : ClassFile) :
    (p.processFile write s file).1.outcome = .patched ↔
      (p.processFile write s file).1.after ≠ (p.processFile write s file).1.before := by
  rw [report_processFile]
  cases s.tree.readText? file.path with
  | none => simp [untouched]
  | some source =>
      dsimp only
      split
      · next fault _ => simp [untouched, outcomeOf_ne_patched]
      · next merged _ =>
          rw [storeMerged]
          split
          · simp [untouched]
          · next hchanged =>
              split
              · split
                · simp [untouched]
                · simp [hchanged]
              · simp [hchanged]

end Project

/-! ## Counts -/

namespace Summary

/-- The counter of an outcome. -/
def counter (s : Summary) : Outcome → Nat
  | .patched => s.patched
  | .unchanged => s.unchanged
  | .noMatch => s.noMatch
  | .ambiguous => s.ambiguous
  | .malformed => s.malformed
  | .notWritable => s.notWritable

/-- Recording a report raises the counter of its outcome, and no other one. -/
theorem counter_record (s : Summary) (r : FileReport) (outcome : Outcome) :
    (s.record r).counter outcome = s.counter outcome + if r.outcome = outcome then 1 else 0 := by
  rw [record]
  cases r.outcome <;> cases outcome <;> cases r.metadataUnavailable <;> rfl

theorem total_record (s : Summary) (r : FileReport) : (s.record r).total = s.total + 1 := by
  rw [record]
  cases r.outcome <;> cases r.metadataUnavailable <;> simp [count, total] <;> omega

theorem counter_foldl_record (s : Summary) (reports : List FileReport) (outcome : Outcome) :
    (reports.foldl record s).counter outcome =
      s.counter outcome + reports.countP (·.outcome == outcome) := by
  induction reports generalizing s with
  | nil => rfl
  | cons r reports ih =>
      rw [List.foldl_cons, ih, counter_record, List.countP_cons]
      simp only [beq_iff_eq]
      omega

theorem total_foldl_record (s : Summary) (reports : List FileReport) :
    (reports.foldl record s).total = s.total + reports.length := by
  induction reports generalizing s with
  | nil => rfl
  | cons r reports ih =>
      rw [List.foldl_cons, ih, total_record, List.length_cons]
      omega

end Summary

/-! ## What a run leaves behind -/

theorem FileTree.TellsApart.eq_of_locate? {tree : FileTree} {files : List ClassFile}
    (h : tree.TellsApart files) {file other : ClassFile} (hfile : file ∈ files)
    (hother : other ∈ files) {location : Location}
    (hlocate : tree.locate? file.path = some location)
    (hlocate' : tree.locate? other.path = some location) : file = other := by
  induction files with
  | nil => simp at hfile
  | cons first files ih =>
      rcases List.mem_cons.1 hfile with rfl | hfile'
      · rcases List.mem_cons.1 hother with rfl | hother'
        · rfl
        · exact absurd hlocate' (h.locate?_ne hother' hlocate)
      · rcases List.mem_cons.1 hother with rfl | hother'
        · exact absurd hlocate (h.locate?_ne hfile' hlocate')
        · exact ih h.tail hfile' hother'

namespace Project

variable {p : Project} {write : Bool} {s t : RunState} {file : ClassFile} {files : List ClassFile}

theorem locate?_of_target?_processFile {location : Location}
    (h : (p.processFile write s file).1.target? s.tree write = some location) :
    s.tree.locate? file.path = some location := by
  have hlocate := FileReport.locate?_of_target? h
  rwa [file_processFile] at hlocate

/-- What was written stands at its target. -/
theorem get?_processFile {location : Location}
    (h : (p.processFile write s file).1.target? s.tree write = some location) :
    (p.processFile write s file).2.tree.entries.get? location =
      some (.file ⟨.text (p.processFile write s file).1.after, true⟩) := by
  have hlocate := locate?_of_target?_processFile h
  rcases tree_processFile p write s file with
    ⟨hkept, -⟩ | ⟨-, location', old, hlocate', -, -, htree⟩
  · rw [FileReport.target?, if_neg hkept] at h
    contradiction
  · obtain rfl : location' = location := Option.some.inj (hlocate'.symm.trans hlocate)
    rw [htree, FileTree.get?_withText, if_pos rfl]

/-- The text of a report that was written stays in place for the rest of the run. -/
theorem get?_of_target? (hextension : ∀ file ∈ files,
      file.path.extension? = some ClassFile.fileExtension)
    (hapart : t.tree.TellsApart files) {r : FileReport}
    (hr : r ∈ (p.processFiles write t files).1) {location : Location}
    (htarget : r.target? t.tree write = some location) :
    (p.processFiles write t files).2.tree.entries.get? location =
      some (.file ⟨.text r.after, true⟩) := by
  -- a state after some files takes the place of the start, as locations and targets stay the same
  induction files generalizing t with
  | nil => simp at hr
  | cons file files ih =>
      have hstep := (Continues.refl t).processFile p write (hextension file List.mem_cons_self)
      have hextension' := fun other hmem => hextension other (List.mem_cons_of_mem file hmem)
      rw [processFiles_cons] at hr ⊢
      rcases List.mem_cons.1 hr with rfl | hr
      · -- the file itself was written, and every later file is somewhere else
        have hlater : location ∉
            (p.processFiles write (p.processFile write t file).2 files).1.filterMap
              (·.target? (p.processFile write t file).2.tree write) := by
          intro hmem
          obtain ⟨r', hr', htarget'⟩ := List.mem_filterMap.1 hmem
          have hfile : r'.file ∈ files := by
            rw [← files_processFiles p write (p.processFile write t file).2 files]
            exact List.mem_map_of_mem hr'
          have hlocate := FileReport.locate?_of_target? htarget'
          rw [hstep.agrees.locate?_eq] at hlocate
          exact hapart.locate?_ne hfile (locate?_of_target?_processFile htarget) hlocate
        have hafter :=
          (Continues.refl (p.processFile write t file).2).processFiles p write hextension'
        rw [hafter.agrees.get?_eq location (by simpa using hlater)]
        exact get?_processFile htarget
      · refine ih hextension' ?_ hr (by rwa [hstep.target?_eq])
        simpa only [FileTree.TellsApart, hstep.agrees.locate?_eq] using hapart.tail

/-- What a run over the given files reports and leaves behind. -/
structure IsAtomicRun (p : Project) (write : Bool) (s : RunState) (files : List ClassFile)
    (reports : List FileReport) (after : FileTree) : Prop where
  /-- Every file is reported on, in order, as if it were the only one. -/
  reports_eq : reports = files.map fun file => (p.processFile write s file).1
  /-- A report gives the text that the file held. -/
  before_eq : ∀ r ∈ reports, r.before = (s.tree.readText? r.file.path).getD []
  /-- Exactly the patched files have a new text. -/
  patched_iff : ∀ r ∈ reports, r.outcome = .patched ↔ r.after ≠ r.before
  /-- The other outcomes tell which stage failed. -/
  fails_iff : ∀ r ∈ reports, ∀ outcome, p.Fails write s r.file outcome ↔
    r.outcome = outcome ∧ outcome ≠ .patched ∧ outcome ≠ .unchanged
  /-- A patched file holds the new text if the run writes, and every other file what it held. -/
  holds : ∀ r ∈ reports, after.find? r.file.path =
    if write = true ∧ r.outcome = .patched then some (.file ⟨.text r.after, true⟩)
    else s.tree.find? r.file.path
  /-- Nothing is created or removed. -/
  keys_eq : after.entries.keys = s.tree.entries.keys
  /-- What lies elsewhere stays as it is. -/
  elsewhere : ∀ location, (∀ file ∈ files, s.tree.locate? file.path ≠ some location) →
    after.entries.get? location = s.tree.entries.get? location
  /-- All files are counted. -/
  total_eq : (Summary.ofReports reports).total = files.length
  /-- Each of them is counted under its outcome. -/
  counter_eq : ∀ outcome, (Summary.ofReports reports).counter outcome =
    reports.countP (·.outcome == outcome)

section

variable (hextension : ∀ file ∈ files, file.path.extension? = some ClassFile.fileExtension)
  (hapart : s.tree.TellsApart files) {file : ClassFile} (hfile : file ∈ files)
include hextension hapart hfile

/-- A run does not write to a file that it does not patch. -/
theorem not_mem_targets_of_not_patched
    (hkept : ¬ (write = true ∧ (p.processFile write s file).1.outcome = .patched)) :
    ∀ location ∈ s.tree.locate? file.path, location ∉
      [] ++ (p.processFiles write s files).1.filterMap (·.target? s.tree write) := by
  intro location hlocate hmem
  rw [List.nil_append,
    (Continues.refl s).reports_eq s.cache.isSteady_snapshots hextension hapart (by simp),
    List.filterMap_map] at hmem
  obtain ⟨other, hother, htarget⟩ := List.mem_filterMap.1 hmem
  obtain rfl := hapart.eq_of_locate? hfile hother hlocate (locate?_of_target?_processFile htarget)
  rw [Function.comp_apply, FileReport.target?, if_neg hkept] at htarget
  contradiction

/-- What a run leaves at the path of a file that it reports on. -/
theorem find?_processFiles : (p.processFiles write s files).2.tree.find? file.path =
    if write = true ∧ (p.processFile write s file).1.outcome = .patched then
      some (.file ⟨.text (p.processFile write s file).1.after, true⟩)
    else s.tree.find? file.path := by
  have hafter := (Continues.refl s).processFiles p write hextension
  rcases tree_processFile p write s file with
    ⟨hkept, -⟩ | ⟨hwritten, location, old, hlocate, hentry, hpath, -⟩
  · rw [if_neg hkept,
      hafter.agrees.find?_eq (not_mem_targets_of_not_patched hextension hapart hfile hkept)]
  · have hr : (p.processFile write s file).1 ∈ (p.processFiles write s files).1 := by
      rw [(Continues.refl s).reports_eq s.cache.isSteady_snapshots hextension hapart (by simp)]
      exact List.mem_map_of_mem hfile
    have htarget : (p.processFile write s file).1.target? s.tree write = some location := by
      rw [FileReport.target?, if_pos hwritten, file_processFile, hlocate]
    rw [if_pos hwritten]
    exact hafter.agrees.find?_eq_some hlocate hentry hpath
      (get?_of_target? hextension hapart hr htarget)

end

/-- **A run is atomic on every file.**  Each file of a run is patched as a whole or left as it is;
which of the two is reported, with the stage that failed if one did; and neither the other files nor
their reports depend on it. -/
theorem isAtomicRun_run (p : Project) (className : Option Text) (write : Bool) (s : RunState)
    (h : s.tree.TellsApart (p.discover s.tree className)) :
    IsAtomicRun p write s (p.discover s.tree className) (p.run className write s).1
      (p.run className write s).2.tree := by
  have hextension : ∀ file ∈ p.discover s.tree className,
      file.path.extension? = some ClassFile.fileExtension :=
    fun _ => ClassFile.extension?_of_mem_discover _ _ _
  have hreports := reports_run p className write s s.cache.isSteady_snapshots h
  have hafter := (Continues.refl s).processFiles p write hextension
  -- every report is the report on one of the files
  have hreport : ∀ {P : FileReport → Prop},
      (∀ file ∈ p.discover s.tree className, P (p.processFile write s file).1) →
      ∀ r ∈ (p.run className write s).1, P r := by
    intro P hP r hr
    rw [hreports] at hr
    obtain ⟨file, hfile, rfl⟩ := List.mem_map.1 hr
    exact hP file hfile
  exact {
    reports_eq := hreports
    before_eq := hreport fun file _ => by
      rw [file_processFile]
      exact before_processFile p write s file
    patched_iff := hreport fun file _ => patched_iff_changed p write s file
    fails_iff := hreport fun file _ => by
      rw [file_processFile]
      exact fails_iff p write s file
    holds := hreport fun file hfile => by
      rw [file_processFile]
      exact find?_processFiles hextension h hfile
    keys_eq := hafter.agrees.keys_eq
    elsewhere := fun location hnot => by
      refine hafter.agrees.get?_eq location fun hmem => ?_
      obtain ⟨r, hr, htarget⟩ := List.mem_filterMap.1 hmem
      refine hnot r.file ?_ (FileReport.locate?_of_target? htarget)
      rw [← files_processFiles p write s (p.discover s.tree className)]
      exact List.mem_map_of_mem hr
    total_eq := by
      rw [Summary.ofReports, Summary.total_foldl_record, hreports, List.length_map]
      exact Nat.zero_add _
    counter_eq := fun outcome => by
      rw [Summary.ofReports, Summary.counter_foldl_record]
      cases outcome <;> exact Nat.zero_add _ }

theorem twoModels_isAtomicRun_run :
    twoModels.tree.TellsApart (atWorkingDirectory.discover twoModels.tree none) ∧
    IsAtomicRun atWorkingDirectory true twoModels (atWorkingDirectory.discover twoModels.tree none)
      (atWorkingDirectory.run none true twoModels).1
      (atWorkingDirectory.run none true twoModels).2.tree ∧
    (atWorkingDirectory.run none true twoModels).1.map FileReport.outcome =
      [.notWritable, .patched] := by
  have hatomic := isAtomicRun_run atWorkingDirectory none true twoModels tellsApart_twoModels
  refine ⟨tellsApart_twoModels, hatomic, ?_⟩
  rw [hatomic.reports_eq, discover_twoModels]
  decide +kernel

end Project
end PhpDoc
