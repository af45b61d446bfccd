import Mathlib
import PhpDoc.Proofs.Independence
import PhpDoc.Proofs.Insertion
import PhpDoc.Proofs.Regrouping

/-!
# When a run changes nothing

A source is settled when merging would write what is already there: the doc comment of the class is
the block that is rendered from it, it stands at one place, and no method lacks a block.  A run
leaves a file unchanged exactly when its text is settled.

A merge that gives its source back cannot have moved text around.  The argument counts opening
delimiters: a class block has at least as many as the comment it replaces, and every method block
adds at least one.
-/

namespace PhpDoc

/-! ## Counting opening delimiters -/

/-- How often the opening delimiter of a doc comment occurs in the text. -/
def openings : Text → Nat
  | [] => 0
  | c :: text => (if openingLine.isPrefixOf (c :: text) then 1 else 0) + openings text

theorem openings_append_cons {b : Char} (hb : b ∉ openingLine) (front rest : Text) :
    openings (front ++ b :: rest) = openings front + openings rest := by
  induction front with
  | nil =>
      have hnot : ¬ openingLine <+: b :: rest := by
        rintro ⟨more, hmore⟩
        have hslash : '/' = b := (List.cons.inj hmore).1
        exact hb (hslash ▸ List.mem_cons_self)
      rw [← List.isPrefixOf_iff_prefix, Bool.not_eq_true] at hnot
      simp [openings, hnot]
  | cons c front ih =>
      have hiff : openingLine <+: c :: (front ++ b :: rest) ↔ openingLine <+: c :: front :=
        @Text.isPrefix_append_cons_iff openingLine (c :: front) rest b hb
      have hbool : openingLine.isPrefixOf (c :: (front ++ b :: rest)) =
          openingLine.isPrefixOf (c :: front) := by
        rw [Bool.eq_iff_iff, List.isPrefixOf_iff_prefix, List.isPrefixOf_iff_prefix, hiff]
      rw [List.cons_append, openings, ih, hbool, openings, Nat.add_assoc]

theorem openings_append_of_lineStartsAfter {front : Text} (h : LineStartsAfter front)
    (rest : Text) : openings (front ++ rest) = openings front + openings rest := by
  by_cases hne : front = []
  · simp [hne, openings]
  · obtain ⟨before, rfl⟩ := eq_append_newline_of_lineStartsAfter h hne
    have hb : '\n' ∉ openingLine := by decide
    rw [List.append_assoc, List.singleton_append, openings_append_cons hb,
      openings_append_cons hb, openings, Nat.add_zero]

theorem openings_eq_zero {text : Text} (h : ¬ openingLine <:+: text) : openings text = 0 := by
  induction text with
  | nil => rfl
  | cons c text ih =>
      have hstart : ¬ openingLine <+: c :: text := fun hstart => h hstart.isInfix
      have hlater : ¬ openingLine <:+: text := fun hlater =>
        h (hlater.trans (List.suffix_cons c text).isInfix)
      rw [openings, if_neg (by rwa [List.isPrefixOf_iff_prefix]), ih hlater]

theorem one_le_openings {text : Text} (h : openingLine <:+: text) : 1 ≤ openings text := by
  obtain ⟨front, rest, rfl⟩ := h
  induction front with
  | nil =>
      have hstart : openingLine.isPrefixOf (openingLine ++ rest) = true := by
        rw [List.isPrefixOf_iff_prefix]
        exact List.prefix_append _ _
      change 1 ≤ (if openingLine.isPrefixOf (openingLine ++ rest) then 1 else 0) + _
      rw [if_pos hstart]
      exact Nat.le_add_right _ _
  | cons c front ih =>
      rw [List.cons_append, List.cons_append, openings]
      omega

theorem IsDocComment.openings_eq {doc : Text} (h : IsDocComment doc) : openings doc = 1 := by
  obtain ⟨rest, rfl⟩ := h.opens
  have hlater : ¬ openingLine <:+: "**".toList ++ rest := by
    rintro ⟨u, v, huv⟩
    have hnil := h.opens_once ('/' :: u) v (congrArg (List.cons '/') huv.symm)
    simp at hnil
  have hstart : openingLine.isPrefixOf (openingLine ++ rest) = true := by
    rw [List.isPrefixOf_iff_prefix]
    exact List.prefix_append _ _
  change (if openingLine.isPrefixOf (openingLine ++ rest) then 1 else 0) +
    openings ("**".toList ++ rest) = 1
  rw [if_pos hstart, openings_eq_zero hlater]

/-! ## Blocks open comments -/

theorem openingLine_isPrefix_assemble (g : TagGroups) (order : GroupOrder) :
    openingLine <+: g.assemble order :=
  Text.isPrefix_joinLines_cons _ _

/-- The block of a method opens a comment on its first line. -/
theorem openingLine_isInfix_block {m : Signature} {className block : Text} {imports : ImportTable}
    (h : m.block? className imports = some block) : openingLine <:+: block := by
  rw [Signature.block?] at h
  split at h
  · obtain rfl := Option.some.inj h
    -- the first line of the assembled block is the opening delimiter
    obtain ⟨rest, hrest⟩ : ∃ rest, (m.groups imports).assemble methodOrder =
        openingLine ++ '\n' :: rest :=
      ⟨_, by rw [TagGroups.assemble, List.cons_append, Text.joinLines_cons (by simp)]⟩
    rw [hrest, Text.lines_append_newline (by decide), List.map_cons]
    have hline : openingLine <:+ m.indent ++ openingLine := List.suffix_append _ _
    exact hline.isInfix.trans (Text.isPrefix_joinLines_cons _ _).isInfix
  · contradiction

/-! ## Splices open comments -/

namespace ClassDecl

variable {decl : ClassDecl} {source : Text}

theorem newline_cases {path : Text} (h : read path source = .ok decl) :
    decl.newline = ['\n'] ∨ decl.newline = ['\r', '\n'] := by
  obtain ⟨home, head, -, -, rfl⟩ := exists_heads_of_read h
  change newlineOf source = _ ∨ newlineOf source = _
  rw [newlineOf]
  split
  · exact Or.inr rfl
  · exact Or.inl rfl

theorem lineStartsAfter_append_newline {path : Text} (h : read path source = .ok decl)
    (text : Text) : LineStartsAfter (text ++ decl.newline) := by
  rcases newline_cases h with hnewline | hnewline <;> simp [LineStartsAfter, hnewline]

/-- A method block brings in at least one opening delimiter. -/
theorem openings_spliceMethod {path text text' : Text} {m : Method}
    (hread : read path source = .ok decl) (h : decl.spliceMethod text m = .ok text') :
    openings text + (decl.addition? m).toList.length ≤ openings text' := by
  rw [spliceMethod] at h
  cases hblock : m.signature.block? decl.name decl.imports with
  | none =>
      simp only [hblock, Except.ok.injEq] at h
      simp [addition?, hblock, h]
  | some block =>
      simp only [hblock] at h
      obtain ⟨front, rest, rfl, honly, rfl⟩ := spliceRequired_eq_ok_iff.1 h
      have hfront : LineStartsAfter front :=
        lineStartsAfter_of_mem_anchoredOccurrences (honly ▸ List.mem_singleton_self _)
      have hadded : 1 ≤ openings (decl.withNewlines block ++ decl.newline) := by
        refine one_le_openings ?_
        exact (Text.isInfix_withNewlines (by decide) (openingLine_isInfix_block hblock) _).trans
          (List.prefix_append _ _).isInfix
      have hsplit : front ++ (decl.withNewlines block ++ decl.newline ++ m.anchor) ++ rest =
          front ++ (decl.withNewlines block ++ decl.newline ++ (m.anchor ++ rest)) := by simp
      rw [hsplit, openings_append_of_lineStartsAfter hfront,
        openings_append_of_lineStartsAfter (lineStartsAfter_append_newline hread _),
        List.append_assoc, openings_append_of_lineStartsAfter hfront]
      simp only [addition?, hblock, Option.map_some, Option.toList_some, List.length_singleton]
      omega

theorem openings_foldlM_spliceMethod {path text text' : Text} {methods : List Method}
    (hread : read path source = .ok decl)
    (h : methods.foldlM decl.spliceMethod text = .ok text') :
    openings text + (methods.filterMap decl.addition?).length ≤ openings text' := by
  induction methods generalizing text with
  | nil =>
      simp only [List.foldlM_nil, pure, Except.pure, Except.ok.injEq] at h
      simp [h]
  | cons m methods ih =>
      cases hm : decl.spliceMethod text m with
      | error fault => simp [List.foldlM_cons, hm, bind, Except.bind] at h
      | ok next =>
          rw [List.foldlM_cons, hm] at h
          have hfirst := openings_spliceMethod hread hm
          have hlater := ih h
          cases hadd : decl.addition? m with
          | none =>
              simp only [hadd, Option.toList_none, List.length_nil] at hfirst
              rw [List.filterMap_cons_none hadd]
              omega
          | some addition =>
              simp only [hadd, Option.toList_some, List.length_singleton] at hfirst
              rw [List.filterMap_cons_some hadd, List.length_cons]
              omega

theorem foldlM_spliceMethod_eq_self {text : Text} {methods : List Method}
    (h : methods.filterMap decl.addition? = []) :
    methods.foldlM decl.spliceMethod text = .ok text := by
  induction methods with
  | nil => rfl
  | cons m methods ih =>
      rw [List.filterMap_eq_nil_iff] at h
      have hm := h m List.mem_cons_self
      rw [addition?, Option.map_eq_none_iff] at hm
      have hsplice : decl.spliceMethod text m = .ok text := by rw [spliceMethod, hm]
      rw [List.foldlM_cons, hsplice]
      exact ih (List.filterMap_eq_nil_iff.2 fun n hn => h n (List.mem_cons_of_mem _ hn))

/-! ## Settled sources -/

/-- What separates a doc comment from the class: blanks, and at least one. -/
theorem separator_of_doc {path doc : Text} (h : read path source = .ok decl)
    (hdoc : decl.doc = some doc) :
    decl.separator ≠ [] ∧ ∀ c ∈ decl.separator, isBlank c = true := by
  obtain ⟨home, head, -, hhead, rfl⟩ := exists_heads_of_read h
  rw [doc_ofHead] at hdoc
  obtain ⟨d, hd, rfl⟩ := Option.map_eq_some_iff.1 hdoc
  have hseparator : (ofHead path source home.value head).separator = d.gap := by
    rw [separator_ofHead, hd, Option.map_some, Option.getD_some]
  obtain ⟨front, hbehind, hblanks, hcomment⟩ := precedingDoc?_spec hd
  rw [hseparator]
  refine ⟨fun hnil => ?_, hblanks⟩
  -- the comment does not end a line, and the attributes or the head start one
  have hstarts : LineStartsAfter (splitAttributes head.behind).1.reverse :=
    lineStartsAfter_reverse_iff.2 (splitAttributes_spec hhead.startsLine rfl).2.1
  obtain ⟨before, hbefore⟩ := hcomment.closes
  rw [hbehind, hnil, List.append_nil, ← hbefore, ← List.append_assoc,
    lineStartsAfter_append_iff _ (by decide)] at hstarts
  exact absurd (hstarts '/' rfl) (by decide)

theorem separator_of_no_doc {path : Text} (h : read path source = .ok decl)
    (hdoc : decl.doc = none) : decl.separator = decl.newline := by
  obtain ⟨home, head, -, -, rfl⟩ := exists_heads_of_read h
  rw [doc_ofHead, Option.map_eq_none_iff] at hdoc
  rw [separator_ofHead, hdoc]
  rfl

/-- Merging has nothing to do: the doc comment of the class is the given block, it stands at one
place, and every method of the class that declares parameters or a returned type is documented. -/
structure IsSettled (decl : ClassDecl) (source : Text) (block : ClassBlock) : Prop where
  doc_eq : decl.doc = some (decl.withNewlines block.render)
  only : ∃ offset, anchoredOccurrences source decl.previous = [offset]
  documented : ∀ m ∈ decl.methods, m.signature.declaringClass = decl.name →
    (m.signature.parameters ≠ [] ∨ m.signature.returnType ≠ none) → m.signature.documented = true

theorem addition?_eq_none_iff (m : Method) :
    decl.addition? m = none ↔ (m.signature.declaringClass = decl.name →
      (m.signature.parameters ≠ [] ∨ m.signature.returnType ≠ none) →
      m.signature.documented = true) := by
  rw [addition?, Option.map_eq_none_iff, Signature.block?_eq_none_iff]

theorem additions_eq_nil_iff (decl : ClassDecl) :
    decl.additions = [] ↔ ∀ m ∈ decl.methods, m.signature.declaringClass = decl.name →
      (m.signature.parameters ≠ [] ∨ m.signature.returnType ≠ none) →
      m.signature.documented = true := by
  rw [additions, List.filterMap_eq_nil_iff]
  exact forall₂_congr fun m _ => addition?_eq_none_iff m

theorem openingLine_isPrefix_withNewlines (decl : ClassDecl) (block : ClassBlock) :
    openingLine <+: decl.withNewlines block.render := by
  obtain ⟨rest, hrest⟩ := openingLine_isPrefix_assemble block.groups classOrder
  rw [withNewlines, ClassBlock.render, ← hrest, Text.withNewlines_append,
    Text.withNewlines_eq_self (by decide)]
  exact List.prefix_append _ _

/-- A class that has no doc comment gains an opening delimiter. -/
theorem openings_lt_of_no_doc {path front rest : Text} (h : read path source = .ok decl)
    (hdoc : decl.doc = none) (hsource : source = front ++ decl.previous ++ rest)
    (hfront : LineStartsAfter front) (block : ClassBlock) :
    openings source < openings (front ++ decl.replacement block.render ++ rest) := by
  have hprevious : decl.previous = decl.anchor := by rw [previous, hdoc]
  have hopens : 1 ≤ openings (decl.withNewlines block.render ++ decl.newline) :=
    one_le_openings (((decl.openingLine_isPrefix_withNewlines block).trans
      (List.prefix_append _ _)).isInfix)
  have hsplit : front ++ decl.replacement block.render ++ rest =
      front ++ (decl.withNewlines block.render ++ decl.newline ++ (decl.anchor ++ rest)) := by
    rw [replacement, separator_of_no_doc h hdoc]
    simp
  rw [hsplit, hsource, hprevious, List.append_assoc, openings_append_of_lineStartsAfter hfront,
    openings_append_of_lineStartsAfter hfront,
    openings_append_of_lineStartsAfter (lineStartsAfter_append_newline h _)]
  omega

/-- A class block has at least as many opening delimiters as the doc comment it replaces. -/
theorem openings_le_of_doc {path front rest doc : Text} (h : read path source = .ok decl)
    (hdoc : decl.doc = some doc) (hsource : source = front ++ decl.previous ++ rest)
    (hfront : LineStartsAfter front) (block : ClassBlock) :
    openings source ≤ openings (front ++ decl.replacement block.render ++ rest) := by
  obtain ⟨hne, hblanks⟩ := separator_of_doc h hdoc
  obtain ⟨b, blanks, hseparator⟩ := List.exists_cons_of_ne_nil hne
  have hb : b ∉ openingLine :=
    not_mem_openingLine_of_blank (hblanks b (by rw [hseparator]; exact List.mem_cons_self))
  have hopens : 1 ≤ openings (decl.withNewlines block.render) :=
    one_le_openings (decl.openingLine_isPrefix_withNewlines block).isInfix
  have hold := (isDocComment_of_read h hdoc).openings_eq
  have hbefore : source = front ++ (doc ++ b :: (blanks ++ decl.anchor ++ rest)) := by
    rw [hsource, previous, hdoc, hseparator]
    simp
  have hafter : front ++ decl.replacement block.render ++ rest =
      front ++ (decl.withNewlines block.render ++ b :: (blanks ++ decl.anchor ++ rest)) := by
    rw [replacement, hseparator]
    simp
  rw [hafter, hbefore, openings_append_of_lineStartsAfter hfront,
    openings_append_of_lineStartsAfter hfront, openings_append_cons hb, openings_append_cons hb]
  omega

theorem previous_eq_of_isSettled {block : ClassBlock} (h : decl.IsSettled source block) :
    decl.replacement block.render = decl.previous := by
  rw [previous, h.doc_eq, replacement]

/-- Merging gives the source back exactly when it is settled. -/
theorem spliceBlocks_eq_self_iff {path : Text} (hread : read path source = .ok decl)
    (block : ClassBlock) :
    decl.spliceBlocks source block = .ok source ↔ decl.IsSettled source block := by
  constructor
  · intro h
    obtain ⟨front, rest, hsource, honly, hmethods⟩ := spliceBlocks_eq_ok h
    have hfront : LineStartsAfter front := by
      rw [hsource] at honly
      exact lineStartsAfter_of_mem_anchoredOccurrences (honly ▸ List.mem_singleton_self _)
    have hcount := openings_foldlM_spliceMethod hread hmethods
    cases hdoc : decl.doc with
    | none =>
        have hlt := openings_lt_of_no_doc hread hdoc hsource hfront block
        omega
    | some doc =>
        have hle := openings_le_of_doc hread hdoc hsource hfront block
        have hnone : decl.additions = [] := List.eq_nil_of_length_eq_zero (by
          rw [additions]; omega)
        rw [foldlM_spliceMethod_eq_self hnone, Except.ok.injEq] at hmethods
        -- no method was touched, so the class block is what stood in its place
        have hsame : decl.replacement block.render = decl.previous := by
          have hparts := hmethods.trans hsource
          rw [List.append_cancel_right_eq] at hparts
          exact List.append_cancel_left hparts
        refine ⟨?_, ⟨front.length, honly⟩, (additions_eq_nil_iff decl).1 hnone⟩
        rw [replacement, previous, hdoc, List.append_cancel_right_eq,
          List.append_cancel_right_eq] at hsame
        rw [hdoc, hsame]
  · intro h
    obtain ⟨offset, honly⟩ := h.only
    obtain ⟨front, rest, hsource, rfl, -, -⟩ :=
      exists_of_mem_anchoredOccurrences (honly ▸ List.mem_singleton_self offset)
    have hclass : spliceRequired source decl.previous (decl.replacement block.render) =
        .ok source :=
      spliceRequired_eq_ok_iff.2
        ⟨front, rest, hsource, honly, by rw [previous_eq_of_isSettled h, ← hsource]⟩
    rw [spliceBlocks, hclass]
    exact foldlM_spliceMethod_eq_self ((additions_eq_nil_iff decl).2 h.documented)

end ClassDecl

/-! ## Runs -/

theorem mergeSource_of_spliceBlocks {settings : Settings} {cache : SchemaCache} {tree : FileTree}
    {path : Path} {kind : ClassKind} {source text : Text} {decl : ClassDecl}
    (hread : ClassDecl.read path.text source = .ok decl)
    (h : decl.spliceBlocks source (decl.classBlock kind settings
      (decl.discovery kind settings cache tree).1) = .ok text) :
    ∃ merged cache', mergeSource settings cache tree path kind source = (.ok merged, cache') ∧
      merged.text = text := by
  simp only [mergeSource, hread, h, Except.map]
  exact ⟨_, _, rfl, rfl⟩

/-- Merging gives a source back exactly when it is settled. -/
theorem mergeSource_eq_self_iff (settings : Settings) (cache : SchemaCache) (tree : FileTree)
    (path : Path) (kind : ClassKind) (source : Text) :
    (∃ merged cache', mergeSource settings cache tree path kind source = (.ok merged, cache') ∧
      merged.text = source) ↔
    ∃ decl, ClassDecl.read path.text source = .ok decl ∧ decl.IsSettled source
      (decl.classBlock kind settings (decl.discovery kind settings cache tree).1) := by
  constructor
  · rintro ⟨merged, cache', hmerge, htext⟩
    obtain ⟨decl, hread, hsplice⟩ := mergeSource_eq_ok hmerge
    rw [htext, ClassDecl.spliceBlocks_eq_self_iff hread] at hsplice
    exact ⟨decl, hread, hsplice⟩
  · rintro ⟨decl, hread, hsettled⟩
    exact mergeSource_of_spliceBlocks hread
      ((ClassDecl.spliceBlocks_eq_self_iff hread _).2 hsettled)

namespace Project

variable {p : Project} {write : Bool} {s s' : RunState} {file : ClassFile} {report : FileReport}

/-- A file is unchanged when merging gives its text back. -/
theorem outcome_eq_unchanged_iff {source : Text}
    (hsource : s.tree.readText? file.path = some source) :
    (p.processFile write s file).1.outcome = .unchanged ↔
      ∃ merged cache', mergeSource p.settings s.cache s.tree file.path file.kind source =
        (.ok merged, cache') ∧ merged.text = source := by
  rcases hmerge : mergeSource p.settings s.cache s.tree file.path file.kind source with
    ⟨fault | merged, cache'⟩
  · simp [processFile, hsource, hmerge, untouched, outcomeOf_ne_unchanged]
  · have hstored : (p.processFile write s file).1 =
        (storeMerged s.tree file write source merged).1 := by
      simp only [processFile, hsource, hmerge]
    rw [hstored, storeMerged]
    split
    · next heq => simp [untouched, heq]
    · next hne =>
        have hnot : ¬ ∃ merged' cache'',
            ((.ok merged, cache') : Except Fault MergedSource × SchemaCache) =
              (.ok merged', cache'') ∧ merged'.text = source := by
          rintro ⟨merged', cache'', heq, htext⟩
          simp only [Prod.mk.injEq, Except.ok.injEq] at heq
          exact hne (heq.1 ▸ htext)
        simp only [hnot, iff_false]
        split
        · split <;> simp [untouched]
        · simp

/-- A merged text that is reported as a patch was written. -/
theorem storeMerged_of_patched {tree : FileTree} {source : Text} {merged : MergedSource}
    (h : (storeMerged tree file true source merged).1.outcome = .patched) :
    ∃ tree', tree.writeText? file.path merged.text = some tree' ∧
      storeMerged tree file true source merged =
        (⟨file, .patched, source, merged.text, merged.metadataUnavailable⟩, tree') := by
  by_cases hsame : merged.text = source
  · simp [storeMerged, hsame, untouched] at h
  · cases hwrite : tree.writeText? file.path merged.text with
    | none => simp [storeMerged, hsame, hwrite, untouched] at h
    | some tree' => exact ⟨tree', rfl, by simp [storeMerged, hsame, hwrite]⟩

/-- A file that was patched was merged, and the merged text is reported. -/
theorem exists_merge_of_patched (hpatched : (p.processFile true s file).1.outcome = .patched) :
    ∃ source merged cache, s.tree.readText? file.path = some source ∧
      mergeSource p.settings s.cache s.tree file.path file.kind source = (.ok merged, cache) ∧
      (p.processFile true s file).1.after = merged.text := by
  rw [processFile] at hpatched ⊢
  cases hsource : s.tree.readText? file.path with
  | none => simp [hsource, untouched] at hpatched
  | some source =>
      rcases hmerge : mergeSource p.settings s.cache s.tree file.path file.kind source with
        ⟨fault | merged, cache⟩
      · simp only [hsource, hmerge, untouched] at hpatched
        exact absurd hpatched (outcomeOf_ne_patched fault)
      · simp only [hsource, hmerge] at hpatched ⊢
        obtain ⟨tree', -, hstored⟩ := storeMerged_of_patched hpatched
        exact ⟨source, merged, cache, rfl, hmerge, by rw [hstored]⟩

end Project
end PhpDoc
