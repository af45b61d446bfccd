import Mathlib
import PhpDoc.Proofs.AnchorPlaces
import PhpDoc.Proofs.Atomicity
import PhpDoc.Proofs.Rereading

/-!
# A second run changes nothing

A file that was patched is read again.  Its class is the one that was read before, with the new block
for its doc comment, so rendering gives this block again; the block stands at one place, and no
method lacks a doc comment.  That needs five things of the file that is patched: its class block is
one comment that reads back, the types in its method blocks break no line, the blocks of methods go
elsewhere than the class block, the anchor of the class stands at one place, and no declaration runs
over a place where a block goes in.  A property line without a type is enough to break the first of
them, and then the second run patches the file once more.
-/

namespace PhpDoc

theorem ClassBlock.newline_mem_render (b : ClassBlock) : '\n' ∈ b.render := by
  rw [render, TagGroups.assemble, List.cons_append, Text.joinLines_cons (by simp)]
  exact List.mem_append_right _ List.mem_cons_self

namespace ClassDecl

/-- What a source needs for its merge to be the last one that changes it. -/
structure MergesOnce (decl : ClassDecl) (kind : ClassKind) (source : Text) (block : ClassBlock) :
    Prop where
  /-- The class block is one comment, and all of it reads back. -/
  comment : block.IsOneComment
  /-- The types in the blocks of methods break no line. -/
  types : ∀ m ∈ decl.methods, (decl.addition? m).isSome →
    ∀ type ∈ m.signature.writtenTypes decl.imports, Signature.IsWholeType type
  /-- Methods that get a block stand apart from the text that the class block replaces. -/
  apart : ∀ m ∈ decl.methods, (decl.addition? m).isSome →
    m.IsApart (source.take decl.offset) decl.previous
  /-- The anchor of the class stands at one place. -/
  only : places source decl.anchor = {decl.offset + decl.heading.length}
  /-- No declaration runs over a place where a block goes in. -/
  lines : decl.LeavesDeclarations kind source

variable {decl decl' : ClassDecl} {kind : ClassKind} {path source text : Text}

/-! ## Merging again -/

theorem IsRereading.discovery_eq {block : Text} (h : decl.IsRereading decl' kind block)
    (settings : Settings) (cache : SchemaCache) (tree : FileTree) :
    (decl'.discovery kind settings cache tree).1 = (decl.discovery kind settings cache tree).1 := by
  cases kind with
  | plain => rw [discovery, discovery, h.properties_eq]
  | model =>
      obtain ⟨hconnection, htable⟩ := h.overrides_eq rfl
      have hreason : ∀ fault, decl'.unavailable fault = decl.unavailable fault := fun fault => by
        rw [unavailable, unavailable, h.name_eq]
      rw [discovery, discovery, columnDiscovery, columnDiscovery, hconnection, htable, h.name_eq]
      rcases cache.columns tree _ _ with ⟨fault | columns, cache⟩
      · exact hreason fault
      · rfl

/-- The block of the class that is read again is the same, with itself for the comment it had. -/
theorem IsRereading.classBlock_eq {settings : Settings} {d : Discovery}
    (h : decl.IsRereading decl' kind (decl.classBlock kind settings d).render) :
    decl'.classBlock kind settings d = (decl.classBlock kind settings d).again decl.newline := by
  unfold classBlock
  rw [h.name_eq, h.home_eq, h.doc_eq]
  rfl

/-- A merged source is settled. -/
theorem MergesOnce.exists_isSettled {settings : Settings} {cache cache' : SchemaCache}
    {tree tree' : FileTree} (hread : read path source = .ok decl)
    (h : decl.MergesOnce kind source
      (decl.classBlock kind settings (decl.discovery kind settings cache tree).1))
    (hsplice : decl.spliceBlocks source
      (decl.classBlock kind settings (decl.discovery kind settings cache tree).1) = .ok text)
    (hanswers : cache'.answers tree' = cache.answers tree) :
    ∃ decl', read path text = .ok decl' ∧ decl'.IsSettled text
      (decl'.classBlock kind settings (decl'.discovery kind settings cache' tree').1) := by
  obtain ⟨block, hblock⟩ : ∃ block,
    decl.classBlock kind settings (decl.discovery kind settings cache tree).1 = block := ⟨_, rfl⟩
  rw [hblock] at h hsplice
  have hstable := h.comment.isStable
  have hnewline := newline_cases hread
  obtain ⟨hblank, hlast⟩ := separator_spec hread
  obtain ⟨hcomment, hnote⟩ := h.comment.isNote hnewline hblank hlast
  have hinert : ∀ line ∈ (decl.doc.getD []).lines, IsInert line := by
    have hlines := h.comment.inert
    rwa [← hblock] at hlines
  obtain ⟨front, rest, hmerged⟩ :=
    exists_areMerged hread hsplice h.only h.apart hinert hnote h.types
  have hapart := h.apart
  rw [hmerged.take_eq hread] at hapart
  obtain ⟨decl', hread', hagain⟩ := hmerged.exists_isRereading h.lines hread hapart h.types hcomment
    block.newline_mem_render hstable.not_infix_render
  -- the class is rendered as it was
  have hrender : (decl'.classBlock kind settings
      (decl'.discovery kind settings cache' tree').1).render = block.render := by
    rw [decl'.discovery_fst_congr hanswers, hagain.discovery_eq, IsRereading.classBlock_eq]
    · rw [hblock]
      exact hstable.render_again hnewline
    · rwa [hblock]
  refine ⟨decl', hread', ?_, ?_, hagain.documented⟩
  · rw [hagain.doc_eq, hrender, withNewlines, withNewlines, hagain.newline_eq]
  · have hprevious : decl'.previous = decl.replacement block.render := by
      rw [previous, hagain.doc_eq, hagain.separator_eq, hagain.anchor_eq]
      rfl
    rw [hprevious]
    exact hmerged.exists_anchoredOccurrences_eq hread h.only hcomment

end ClassDecl

namespace Project

section

variable {p : Project} {s : RunState} {files : List ClassFile}
  (hextension : ∀ file ∈ files, file.path.extension? = some ClassFile.fileExtension)
  (hapart : s.tree.TellsApart files)
include hextension hapart

/-- A file that a run patched, from a source that merges once, is settled afterwards. -/
theorem outcome_after_processFiles {file : ClassFile} (hfile : file ∈ files) {source : Text}
    {decl : ClassDecl} (hsource : s.tree.readText? file.path = some source)
    (hread : ClassDecl.read file.path.text source = .ok decl)
    (honce : decl.MergesOnce file.kind source (p.blockOf s file decl))
    (hpatched : (p.processFile true s file).1.outcome = .patched) :
    (p.processFile true (p.processFiles true s files).2 file).1.outcome = .unchanged := by
  obtain ⟨source', merged, cache, hsource', hmerge, hafter⟩ := exists_merge_of_patched hpatched
  obtain rfl : source' = source := Option.some.inj (hsource'.symm.trans hsource)
  obtain ⟨decl', hread', hsplice⟩ := mergeSource_eq_ok hmerge
  obtain rfl : decl' = decl := Except.ok.inj (hread'.symm.trans hread)
  have hheld : (p.processFiles true s files).2.tree.readText? file.path = some merged.text := by
    rw [FileTree.readText?, find?_processFiles hextension hapart hfile, if_pos ⟨rfl, hpatched⟩,
      hafter]
  -- writing class files does not show in what the schemas answer
  have hcontinues := (Continues.refl s).processFiles p true hextension
  rw [outcome_eq_unchanged_iff hheld, mergeSource_eq_self_iff]
  exact honce.exists_isSettled hread hsplice (hcontinues.answers_eq s.cache.isSteady_snapshots).2

/-- **A second run patches nothing.**  If the sources of all files merge once, no file is patched
when the files are processed again. -/
theorem not_patched_after_processFiles
    (honce : ∀ file ∈ files, ∀ source decl, s.tree.readText? file.path = some source →
      ClassDecl.read file.path.text source = .ok decl →
      decl.MergesOnce file.kind source (p.blockOf s file decl)) :
    ∀ r ∈ (p.processFiles true (p.processFiles true s files).2 files).1, r.outcome ≠ .patched := by
  have hcontinues := (Continues.refl s).processFiles p true hextension
  have hapart' : (p.processFiles true s files).2.tree.TellsApart files := by
    simpa only [FileTree.TellsApart, hcontinues.agrees.locate?_eq] using hapart
  rw [(Continues.refl _).reports_eq (SchemaCache.isSteady_snapshots _) hextension hapart' (by simp)]
  intro r hr
  obtain ⟨file, hfile, rfl⟩ := List.mem_map.1 hr
  by_cases hpatched : (p.processFile true s file).1.outcome = .patched
  · obtain ⟨source, merged, cache, hsource, hmerge, -⟩ := exists_merge_of_patched hpatched
    obtain ⟨decl, hread, -⟩ := mergeSource_eq_ok hmerge
    rw [outcome_after_processFiles hextension hapart hfile hsource hread
      (honce file hfile source decl hsource hread) hpatched]
    simp
  · -- a file that was not patched is as it was
    rw [hcontinues.report_eq s.cache.isSteady_snapshots
      (not_mem_targets_of_not_patched hextension hapart hfile fun hwritten => hpatched hwritten.2)]
    exact hpatched

end

/-- **A second run changes nothing.**  A file that was patched, from a source that merges once, is
left unchanged by the next run with the same settings and schemas. -/
theorem unchanged_after_patched (p : Project) (s s' : RunState) (file : ClassFile)
    (report : FileReport) (source : Text) (decl : ClassDecl)
    (hextension : file.path.extension? = some ClassFile.fileExtension)
    (hsource : s.tree.readText? file.path = some source)
    (hread : ClassDecl.read file.path.text source = .ok decl)
    (honce : decl.MergesOnce file.kind source (p.blockOf s file decl))
    (h : p.processFile true s file = (report, s')) (hpatched : report.outcome = .patched) :
    (p.processFile true s' file).1.outcome = .unchanged := by
  have hapart : s.tree.TellsApart [file] := by
    rw [FileTree.TellsApart, List.filterMap_cons]
    split <;> simp
  have hafter := outcome_after_processFiles (by simpa using hextension) hapart
    (List.mem_singleton_self file) hsource hread honce (by rw [h]; exact hpatched)
  rwa [processFiles_cons, processFiles_nil, h] at hafter

/-- A project with default settings. -/
def lone : Project :=
  ⟨⟨[]⟩, .default⟩

/-- The only file of that project. -/
def loneFile (kind : ClassKind) : ClassFile :=
  ⟨⟨"X.php".toList⟩, kind⟩

/-- The state in which that file holds the text, with a table for its class. -/
def holding (text : Text) : RunState where
  tree := (FileTree.empty []).place ["X.php".toList] (.file ⟨.text text, true⟩)
  cache := lone.freshCache.insert "mysql".toList ⟨Keyed.ofList [("x".toList,
    [⟨"b".toList, "varchar(9)".toList⟩, ⟨"c".toList, "bigint".toList⟩])]⟩

/-- The comment of a model: a property line of another type than its column, and a tag that the
block does not manage. -/
def modelComment : Text :=
  "/**\r\n * @property int $b the key\r\n * @see B\r\n */".toList

/-- The model with that comment, which names its table, and with a method that has none. -/
def modelSource : Text :=
  "<?php\r\nnamespace A;\r\n".toList ++ modelComment ++
    ("\r\n#[C]\r\nclass X\r\n\x7b\r\n  protected $table = 'x';\r\n  #[D]\r\n" ++
      "  function f(?int $a): array\r\n\x7d\r\n").toList

/-- The block of that model. -/
def modelBlock : ClassBlock where
  name := "X".toList
  home := "A".toList
  existing := some modelComment
  discovery := .discovered [{ name := "b".toList, type := "string".toList },
    { name := "c".toList, type := "int".toList }]
  mixins := Settings.default.mixins
  placeholder := Settings.default.placeholder

theorem modelBlock_isOneComment : modelBlock.IsOneComment where
  existing := by decide +kernel
  name := by decide
  home := List.all_eq_true.1 (by decide)
  properties := by
    have hlines : (TagGroups.ofBlock modelComment).lines "@property".toList =
        [tagLine "@property".toList
          ("int".toList ++ ' ' :: '$' :: ("b".toList ++ " the key".toList))] := by
      decide +kernel
    refine Or.inr ⟨_, rfl, fun fact hfact => ?_, ?_⟩
    · simp only [List.mem_cons, List.not_mem_nil, or_false] at hfact
      rcases hfact with rfl | rfl <;>
        exact ⟨rfl, by decide, by decide, List.all_eq_true.1 (by decide)⟩
    · rw [modelBlock, Option.getD_some, hlines]
      refine ⟨[("int".toList, "b".toList)], .cons ?_ .nil, by decide⟩
      refine isTypedLine_tagLine (by decide) (by decide) ?_
      rintro c ⟨⟩
      rfl
  mixins := by decide
  distinct := by decide
  description := Or.inr ⟨by decide, by decide, by decide, by decide⟩
  inert := by decide +kernel
  kept_whole := by decide +kernel
  mixins_whole := by decide
  description_whole := by decide

theorem modelSource_mergesOnce : ∃ decl,
    ClassDecl.read (loneFile .model).path.text modelSource = .ok decl ∧
      decl.MergesOnce .model modelSource
        (lone.blockOf (holding modelSource) (loneFile .model) decl) := by
  have hparts : (ClassDecl.read (loneFile .model).path.text modelSource).map (fun decl =>
      (decl.name, decl.home, decl.doc,
        (decl.discovery .model lone.settings (holding modelSource).cache
          (holding modelSource).tree).1,
        decide ((∀ m ∈ decl.methods, (decl.addition? m).isSome →
            ∀ type ∈ m.signature.writtenTypes decl.imports, Signature.IsWholeType type) ∧
          (∀ m ∈ decl.methods, (decl.addition? m).isSome →
            m.IsApart (modelSource.take decl.offset) decl.previous) ∧
          places modelSource decl.anchor = {decl.offset + decl.heading.length} ∧
          decl.LeavesDeclarations .model modelSource))) =
      .ok (modelBlock.name, modelBlock.home, modelBlock.existing, modelBlock.discovery, true) := by
    decide +kernel
  cases hread : ClassDecl.read (loneFile .model).path.text modelSource with
  | error fault =>
      rw [hread, Except.map] at hparts
      contradiction
  | ok decl =>
      rw [hread, Except.map, Except.ok.injEq, Prod.mk.injEq, Prod.mk.injEq, Prod.mk.injEq,
        Prod.mk.injEq, decide_eq_true_eq] at hparts
      obtain ⟨hname, hhome, hdoc, hdiscovery, htypes, hapart, honly, hlines⟩ := hparts
      refine ⟨decl, rfl, ?_, htypes, hapart, honly, hlines⟩
      have hblock : lone.blockOf (holding modelSource) (loneFile .model) decl = modelBlock := by
        unfold blockOf ClassDecl.classBlock
        rw [hname, hhome, hdoc]
        exact congrArg (ClassBlock.mk _ _ _ · _ _) hdiscovery
      rw [hblock]
      exact modelBlock_isOneComment

theorem modelSource_unchanged_after_patched :
    (lone.processFile true (holding modelSource) (loneFile .model)).1.outcome = .patched ∧
    (lone.processFile true (lone.processFile true (holding modelSource) (loneFile .model)).2
      (loneFile .model)).1.outcome = .unchanged := by
  have hpatched : (lone.processFile true (holding modelSource) (loneFile .model)).1.outcome =
      .patched := by
    decide +kernel
  have hsource : (holding modelSource).tree.readText? (loneFile .model).path = some modelSource := by
    decide +kernel
  obtain ⟨decl, hread, honce⟩ := modelSource_mergesOnce
  exact ⟨hpatched, unchanged_after_patched lone (holding modelSource) _ (loneFile .model) _
    modelSource decl (by decide) hsource hread honce Prod.mk.eta.symm hpatched⟩

/-- A class with a property line that gives no type, for a property that has one. -/
def untypedProperty : Text :=
  ("<?php\nnamespace A;\n/**\n * @property $x\n */\nclass X\n\x7b\n    public int $x;\n" ++
    "\x7d\n").toList

/-- Alignment moves the name of the untyped line to the right, and the blanks before it are read as
its type from then on, so the second run drops the line. -/
theorem untypedProperty_patched_twice :
    (lone.processFile true (holding untypedProperty) (loneFile .plain)).1.outcome = .patched ∧
    (lone.processFile true (lone.processFile true (holding untypedProperty) (loneFile .plain)).2
      (loneFile .plain)).1.outcome = .patched := by
  decide +kernel

end Project

end PhpDoc
