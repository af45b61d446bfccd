import Mathlib
import PhpDoc.Proofs.MergedNotes

/-!
# Reading a merged source

Reading a merged source gives the class that was read before, with the new block for its doc comment
and with every method documented, if all declarations stayed whole.  The two sources are annotations
of one text, so their scans find the same cuts of it.  What stands above a cut is read again: above
the class the new block, above a method either the doc comment that stood there, which stayed whole
too, or the block that was put in.
-/

namespace PhpDoc

theorem newlineOf_cases (source : Text) :
    (['\r', '\n'] <:+: source ∧ newlineOf source = ['\r', '\n']) ∨
      (¬ ['\r', '\n'] <:+: source ∧ newlineOf source = ['\n']) := by
  by_cases hoccurs : ['\r', '\n'] <:+: source
  · exact Or.inl ⟨hoccurs, if_pos ((Text.occursIn_iff _ _).2 hoccurs)⟩
  · exact Or.inr ⟨hoccurs, if_neg (mt (Text.occursIn_iff _ _).1 hoccurs)⟩

namespace ClassDecl

/-! ## Declarations that stay whole -/

/-- What is read below `above` stays whole. -/
def LeavesRead {α : Type} (decl : ClassDecl) (read : Text → Option (α × Text))
    (above ahead : Text) : Prop :=
  ∀ found ∈ read ahead, decl.Leaves above.length ((above ++ ahead).length - found.2.length)

instance {α : Type} (decl : ClassDecl) (read : Text → Option (α × Text)) (above ahead : Text) :
    Decidable (decl.LeavesRead read above ahead) :=
  Option.decidableForallMem (read ahead)

/-- The properties that say which table a model belongs to. -/
def overrides : List Text := ["connection".toList, "table".toList]

/-- All that is read at the line start between the two texts stays whole: the heads and properties
there; the parameter list of a public method; a method together with the doc comment above it; and
the values that say which table a model belongs to. -/
@[mk_iff]
structure LeavesLine (decl : ClassDecl) (kind : ClassKind) (above ahead : Text) : Prop where
  home : decl.LeavesRead readNamespace? above ahead
  head : decl.LeavesRead readClassHead? above ahead
  type : decl.LeavesRead readTypeHead? above ahead
  property : decl.LeavesRead readProperty? above ahead
  method : decl.LeavesRead readMethod? above ahead
  list : ∀ found ∈ readMethod? ahead,
    ¬ (found.1.modifiers.contains "private".toList ∨
      found.1.modifiers.contains "protected".toList) →
      decl.Leaves above.length ((above ++ ahead).length - (afterList found.2).length)
  comment : ∀ found ∈ readMethod? ahead, ∀ doc ∈ precedingDoc? (splitAttributes above.reverse).1,
    decl.Leaves (above.length - (splitAttributes above.reverse).2.length - doc.length)
      ((above ++ ahead).length - found.2.length)
  value : kind = .model → ∀ name ∈ overrides, ∀ opened ∈ readOpening? name ahead,
    decl.Leaves above.length ((above ++ ahead).length - (afterValue opened.2).length)

instance (decl : ClassDecl) (kind : ClassKind) (above ahead : Text) :
    Decidable (decl.LeavesLine kind above ahead) :=
  decidable_of_iff' _ (leavesLine_iff decl kind above ahead)

/-- All that is declared in the source stays whole. -/
def LeavesDeclarations (decl : ClassDecl) (kind : ClassKind) (source : Text) : Prop :=
  ∀ n < source.length, LineStartsAfter (source.take n) →
    decl.LeavesLine kind (source.take n) (source.drop n)

instance (decl : ClassDecl) (kind : ClassKind) (source : Text) :
    Decidable (decl.LeavesDeclarations kind source) :=
  inferInstanceAs (Decidable (∀ n < source.length, LineStartsAfter (source.take n) →
    decl.LeavesLine kind (source.take n) (source.drop n)))

variable {decl : ClassDecl} {kind : ClassKind} {path source text block front rest : Text}

theorem LeavesDeclarations.leavesLine (h : decl.LeavesDeclarations kind source)
    {above ahead : Text} (hsource : source = above ++ ahead) (hne : ahead ≠ [])
    (hstarts : LineStartsAfter above) : decl.LeavesLine kind above ahead := by
  have hpos := List.length_pos_of_ne_nil hne
  have hline := h above.length (by rw [hsource, List.length_append]; omega)
  rw [hsource, List.take_left, List.drop_left] at hline
  exact hline hstarts

/-! ## Scans -/

namespace AreMerged

variable (h : decl.AreMerged block source text front rest)
include h

theorem leavesLine (hlines : decl.LeavesDeclarations kind source) {above below : Text}
    (hbase : front ++ (decl.anchor ++ rest) = above ++ below) (hne : below ≠ [])
    (hstarts : LineStartsAfter above) :
    decl.LeavesLine kind (annotatedAbove decl.oldNotes above)
      (annotatedTail decl.oldNotes above.length below) := by
  refine hlines.leavesLine ?_ (mt (annotatedTail_eq_nil_iff _ _).1 hne)
    ((lineStartsAfter_annotatedAbove_iff h.revision.before hbase).2 hstarts)
  rw [h.source_eq, hbase, annotated_eq_above_append _ _ hne]

theorem noteFree {above below : Text} (hbase : front ++ (decl.anchor ++ rest) = above ++ below)
    (hne : below ≠ []) {start : Nat} {after : Text}
    (hleaves : decl.Leaves start ((annotatedAbove decl.oldNotes above ++
      annotatedTail decl.oldNotes above.length below).length - after.length)) :
    NoteFree decl.oldNotes (decl.newNotes block) (front ++ (decl.anchor ++ rest)) start
      ((annotated decl.oldNotes 0 (front ++ (decl.anchor ++ rest))).length - after.length) := by
  rw [← annotated_eq_above_append _ _ hne, ← hbase] at hleaves
  exact noteFree_of_leaves hleaves h.length_eq

variable {α : Type} {read : Text → Option (α × Text)}

/-- A reader of declarations that reads alike wherever a line starts finds the same cuts. -/
theorem exists_cuts (hread : IsLineReader read)
    (halike : ∀ above below, front ++ (decl.anchor ++ rest) = above ++ below → below ≠ [] →
      LineStartsAfter above → ReadsAlike read decl.oldNotes (decl.newNotes block) above below) :
    ∃ cuts : List (Cut α),
      (∀ cut ∈ cuts, cut.IsIn (decl.newNotes block) (front ++ (decl.anchor ++ rest))) ∧
      scan read source = cuts.map (·.found decl.oldNotes) ∧
      scan read text = cuts.map (·.found (decl.newNotes block)) := by
  rw [h.source_eq, h.text_eq]
  refine PhpDoc.exists_cuts hread h.revision fun above below hbase hstarts => ?_
  by_cases hne : below = []
  · have hnone : read [] = none := by
      cases hfound : read [] with
      | none => rfl
      | some found => exact absurd (hread.leaves hfound).2 (Nat.not_lt_zero _)
    rw [hne]
    exact .none hnone hnone
  · exact halike above below hbase hne hstarts

theorem exists_cuts_of_leavesRead (hread : IsLineReader read) (hnear : IsNearsighted read)
    (hleaves : ∀ above ahead, source = above ++ ahead → ahead ≠ [] → LineStartsAfter above →
      decl.LeavesRead read above ahead) :
    ∃ cuts : List (Cut α),
      (∀ cut ∈ cuts, cut.IsIn (decl.newNotes block) (front ++ (decl.anchor ++ rest))) ∧
      scan read source = cuts.map (·.found decl.oldNotes) ∧
      scan read text = cuts.map (·.found (decl.newNotes block)) := by
  refine h.exists_cuts hread fun above below hbase hne hstarts => ?_
  refine hnear.readsAlike h.revision hbase fun value after hfound => h.noteFree hbase hne ?_
  refine hleaves _ _ ?_ (mt (annotatedTail_eq_nil_iff _ _).1 hne)
    ((lineStartsAfter_annotatedAbove_iff h.revision.before hbase).2 hstarts) _ hfound
  rw [h.source_eq, hbase, annotated_eq_above_append _ _ hne]

/-! ## What is declared -/

variable (hlines : decl.LeavesDeclarations kind source)
include hlines

/-- A place of the text belongs to the same type in both sources. -/
theorem scopeAt_eq {above below : Text} (hbase : front ++ (decl.anchor ++ rest) = above ++ below) :
    scopeAt (scan readTypeHead? text) (annotatedAbove (decl.newNotes block) above).length =
      scopeAt (scan readTypeHead? source) (annotatedAbove decl.oldNotes above).length := by
  obtain ⟨cuts, hcuts, hsource, htext⟩ := h.exists_cuts_of_leavesRead isLineReader_readTypeHead?
    isNearsighted_readTypeHead? fun _ _ heq hne hstarts => (hlines.leavesLine heq hne hstarts).type
  rw [hsource, htext, scopeAt_map_found (fun cut hcut => (hcuts cut hcut).base_eq) hbase,
    scopeAt_map_found (fun cut hcut => (hcuts cut hcut).base_eq) hbase]

theorem readProperties_eq (className : Text) :
    readProperties text (scan readTypeHead? text) className =
      readProperties source (scan readTypeHead? source) className := by
  obtain ⟨cuts, hcuts, hsource, htext⟩ := h.exists_cuts_of_leavesRead isLineReader_readProperty?
    isNearsighted_readProperty? fun _ _ heq hne hstarts =>
      (hlines.leavesLine heq hne hstarts).property
  rw [readProperties, readProperties, hsource, htext, List.filterMap_map, List.filterMap_map]
  refine List.filterMap_congr fun cut hcut => ?_
  have hscope := h.scopeAt_eq hlines (hcuts cut hcut).base_eq
  simp only [Function.comp_apply, Cut.found, hscope]

theorem scanFirst?_readOverride?_eq (hkind : kind = .model) {name : Text}
    (hname : name ∈ overrides) :
    (scanFirst? (readOverride? name) text).map Found.value =
      (scanFirst? (readOverride? name) source).map Found.value := by
  have hidentifier : Text.isIdentifier name = true := by
    simp only [overrides, List.mem_cons, List.not_mem_nil, or_false] at hname
    rcases hname with rfl | rfl <;> decide
  obtain ⟨cuts, -, hsource, htext⟩ := h.exists_cuts (isLineReader_readOverride? name)
    fun above below hbase hne hstarts => readsAlike_readOverride? hidentifier h.revision hbase
      fun opened hopened => h.noteFree hbase hne
        ((h.leavesLine hlines hbase hne hstarts).value hkind name hname _ hopened)
  rw [scanFirst?, scanFirst?, hsource, htext]
  cases cuts <;> rfl

/-- The namespace and the class head are found again. -/
theorem exists_read (hread : ClassDecl.read path source = .ok decl) :
    ∃ (home : Text) (head : Cut Text),
      head.IsIn (decl.newNotes block) (front ++ (decl.anchor ++ rest)) ∧
      (head.found decl.oldNotes).StandsIn readClassHead? source ∧
      decl = ofHead path source home (head.found decl.oldNotes) ∧
      ClassDecl.read path text = .ok (ofHead path text home (head.found (decl.newNotes block))) := by
  obtain ⟨homes, -, hhomes, hhomes'⟩ := h.exists_cuts_of_leavesRead isLineReader_readNamespace?
    isNearsighted_readNamespace? fun _ _ heq hne hstarts => (hlines.leavesLine heq hne hstarts).home
  obtain ⟨heads, hcuts, hheads, hheads'⟩ := h.exists_cuts_of_leavesRead isLineReader_readClassHead?
    isNearsighted_readClassHead? fun _ _ heq hne hstarts => (hlines.leavesLine heq hne hstarts).head
  obtain ⟨home, head, hhome, hhead, hdecl⟩ := exists_scanFirst?_of_read hread
  have hstands := standsIn_of_scanFirst? hhead
  rw [scanFirst?, hhomes, List.head?_map, Option.map_eq_some_iff] at hhome
  rw [scanFirst?, hheads, List.head?_map, Option.map_eq_some_iff] at hhead
  obtain ⟨homeCut, hhomeCut, rfl⟩ := hhome
  obtain ⟨headCut, hheadCut, rfl⟩ := hhead
  refine ⟨homeCut.value, headCut, hcuts _ (List.mem_of_mem_head? hheadCut), hstands, hdecl, ?_⟩
  rw [ClassDecl.read, scanFirst?, scanFirst?, hhomes', hheads', List.head?_map, List.head?_map,
    hhomeCut, hheadCut]
  rfl

end AreMerged

/-! ## The class -/

/-- The heading of a class ends where its attribute lines start. -/
theorem length_above_ofHead {head : Found Text} (h : head.StandsIn readClassHead? source)
    (path home : Text) : (splitAttributes head.behind).1.length =
      (ofHead path source home head).offset + (ofHead path source home head).heading.length := by
  have hstart := (h.areAttributesBelow (Prod.mk.eta).symm).2.1
  have hoffset : (ofHead path source home head).offset = head.start -
      (splitAttributes head.behind).2.length -
        ((precedingDoc? (splitAttributes head.behind).1).map PrecedingDoc.length).getD 0 := rfl
  rw [hoffset, heading, doc_ofHead, separator_ofHead]
  cases hd : precedingDoc? (splitAttributes head.behind).1 with
  | none =>
      simp only [Option.map_none, Option.getD_none, List.length_nil]
      omega
  | some d =>
      obtain ⟨-, -, before, hbefore⟩ := precedingDoc?_eq_some_iff.1 hd
      have hlengths := congrArg List.length hbefore
      simp only [List.length_reverse, List.length_append] at hlengths
      simp only [Option.map_some, Option.getD_some, List.length_append, PrecedingDoc.length]
      omega

/-- The class head stands below the new block. -/
theorem AreMerged.exists_above (h : decl.AreMerged block source text front rest) {home : Text}
    {head : Cut Text} (hcut : head.IsIn (decl.newNotes block) (front ++ (decl.anchor ++ rest)))
    (hstands : (head.found decl.oldNotes).StandsIn readClassHead? source)
    (hdecl : decl = ofHead path source home (head.found decl.oldNotes)) :
    ∃ attributes, AttributeLines attributes ∧ decl.anchor = attributes ++ head.text ∧
      annotatedAbove (decl.newNotes block) head.above =
        annotated (decl.newNotes block) 0 front ++ (decl.withNewlines block ++ decl.separator) ++
          attributes := by
  rcases hsplit : splitAttributes (head.found decl.oldNotes).behind with ⟨above, attributes⟩
  obtain ⟨-, hstart, hattributes⟩ := hstands.areAttributesBelow hsplit
  have hcut' := hcut.of_revision h.revision
  have hanchor : decl.anchor = attributes ++ head.text := by
    have hhead := congrArg ClassDecl.anchor hdecl
    rwa [anchor_ofHead, hsplit, Found.text_eq hcut'.ahead_found] at hhead
  have habove : above.length = decl.offset + decl.heading.length := by
    have hlength := length_above_ofHead hstands path home
    rwa [hsplit, ← hdecl] at hlength
  -- the head stands below `front` and its attribute lines
  have hsame : head.above = front ++ attributes := by
    refine eq_of_length_annotatedAbove_eq decl.oldNotes hcut.base_eq
      (by rw [hanchor]; simp : _ = (front ++ attributes) ++ (head.text ++ rest)) ?_
    rw [annotatedAbove_oldNotes_append h.length_eq, List.length_append, List.length_append,
      h.length_eq]
    exact hstart.trans (by omega)
  refine ⟨attributes, hattributes.lines, hanchor, ?_⟩
  have hpos := List.length_pos_of_ne_nil hcut.ne_nil
  have hlength : decl.anchor.length = attributes.length + head.text.length := by
    rw [hanchor, List.length_append]
  rw [hsame, annotatedAbove_append_of_clear, annotatedAbove, newNotes, if_pos h.length_eq]
  intro j hj hj'
  rw [List.length_append] at hj'
  have := h.length_eq
  exact h.clear j (by omega) (by omega)

theorem AreMerged.ofHead_eq (h : decl.AreMerged block source text front rest)
    (hread : ClassDecl.read path source = .ok decl) {home : Text} {head : Cut Text}
    (hcut : head.IsIn (decl.newNotes block) (front ++ (decl.anchor ++ rest)))
    (hstands : (head.found decl.oldNotes).StandsIn readClassHead? source)
    (hdecl : decl = ofHead path source home (head.found decl.oldNotes))
    (hcomment : IsDocComment (decl.withNewlines block)) :
    (ofHead path text home (head.found (decl.newNotes block))).doc =
        some (decl.withNewlines block) ∧
      (ofHead path text home (head.found (decl.newNotes block))).separator = decl.separator ∧
      (ofHead path text home (head.found (decl.newNotes block))).anchor = decl.anchor := by
  obtain ⟨attributes, hattributes, hanchor, habove⟩ := h.exists_above hcut hstands hdecl
  obtain ⟨hblank, hlast⟩ := separator_spec hread
  have hplain : startsLine (annotated (decl.newNotes block) 0 front ++ decl.withNewlines block ++
      decl.separator).reverse = true := by
    rw [startsLine_iff, List.head?_reverse, List.getLast?_append, hlast]
    simp
  have hbehind : (head.found (decl.newNotes block)).behind =
      (annotated (decl.newNotes block) 0 front ++ decl.withNewlines block ++ decl.separator ++
        attributes).reverse := by
    rw [Cut.found, habove]
    simp
  rw [doc_ofHead, separator_ofHead, anchor_ofHead, hbehind,
    splitAttributes_append hattributes hplain (hcomment.endsPlain hblank _),
    precedingDoc?_append hcomment hblank, Found.text_eq hcut.ahead_found, hanchor]
  exact ⟨rfl, rfl, rfl⟩

/-! ## The methods -/

section

variable (h : decl.AreMerged block source text front rest)
  (hlines : decl.LeavesDeclarations kind source)
include h hlines

/-- A method of the merged source was read from the source, at the same place.  It belongs to the
same type and has the same parameters, and no returned type came in. -/
theorem AreMerged.exists_method {n : Method}
    (hn : n ∈ readMethods text (scan readTypeHead? text)) :
    ∃ (cut : Cut MethodHead) (m : Method),
      cut.IsIn (decl.newNotes block) (front ++ (decl.anchor ++ rest)) ∧
      (cut.found decl.oldNotes).StandsIn readMethod? source ∧
      readMethod (scan readTypeHead? source) (cut.found decl.oldNotes) = some m ∧
      m ∈ readMethods source (scan readTypeHead? source) ∧
      m.signature.declaringClass = n.signature.declaringClass ∧
      m.signature.parameters = n.signature.parameters ∧
      (n.signature.returnType ≠ none → m.signature.returnType ≠ none) ∧
      n.signature.doc = (precedingDoc? (splitAttributes
        (annotatedAbove (decl.newNotes block) cut.above).reverse).1).map PrecedingDoc.comment := by
  obtain ⟨cuts, hcuts, hsource, htext⟩ := h.exists_cuts_of_leavesRead isLineReader_readMethod?
    isNearsighted_readMethod? fun _ _ heq hne hstarts => (hlines.leavesLine heq hne hstarts).method
  obtain ⟨found, hfound, hmethod⟩ := List.mem_filterMap.1 hn
  rw [htext, List.mem_map] at hfound
  obtain ⟨cut, hcut, rfl⟩ := hfound
  have hmem : cut.found decl.oldNotes ∈ scan readMethod? source := by
    rw [hsource]
    exact List.mem_map_of_mem hcut
  have hstands := standsIn_of_mem_scan hmem
  obtain ⟨hpublic, list, after, parameters, hlist, hparameters, rfl⟩ :=
    readMethod_eq_some_iff.1 hmethod
  have hin := hcuts cut hcut
  have hne : cut.text ++ cut.below ≠ [] := by simp [hin.ne_nil]
  have hwhole : front ++ (decl.anchor ++ rest) = (cut.above ++ cut.text) ++ cut.below := by
    rw [hin.base_eq, List.append_assoc]
  have hpos := List.length_pos_of_ne_nil hin.ne_nil
  -- the list of parameters stayed whole, so it is read alike
  have hleaves := (h.leavesLine hlines hin.base_eq hne hin.starts).list _ hstands.read_eq
    (by rwa [List.contains_iff_mem, List.contains_iff_mem, not_or])
  obtain ⟨inner, below, hbelow, -, list?, hold, hnew⟩ :=
    isClosedBy_enclosed?.exists_of_noteFree h.revision hwhole
      (length_annotatedAbove_lt decl.oldNotes hin.base_eq hwhole (by simp [hpos]))
      (h.noteFree hin.base_eq hne hleaves)
  have hlist' := hnew.symm.trans hlist
  obtain ⟨list', rfl, hpair⟩ := Option.map_eq_some_iff.1 hlist'
  obtain ⟨rfl, rfl⟩ := Prod.mk.inj hpair
  have hread := (@readMethod_eq_some_iff (scan readTypeHead? source) (cut.found decl.oldNotes) _).2
    ⟨hpublic, list', _, parameters, hold, hparameters, rfl⟩
  refine ⟨cut, _, hin, hstands, hread, List.mem_filterMap.2 ⟨_, hmem, hread⟩,
    (h.scopeAt_eq hlines hin.base_eq).symm, rfl, fun htype => ?_, rfl⟩
  have hrest : front ++ (decl.anchor ++ rest) = (cut.above ++ cut.text ++ inner) ++ below := by
    rw [hwhole, hbelow, ← List.append_assoc]
  exact returnType?_ne_none h.revision hrest htype

/-- A doc comment above a method stays there. -/
theorem AreMerged.hasDocAbove_of_doc {cut : Cut MethodHead}
    (hcut : cut.IsIn (decl.newNotes block) (front ++ (decl.anchor ++ rest)))
    (hstands : (cut.found decl.oldNotes).StandsIn readMethod? source) {doc : PrecedingDoc}
    (hdoc : precedingDoc? (splitAttributes (cut.found decl.oldNotes).behind).1 = some doc) :
    HasDocAbove (annotatedAbove (decl.newNotes block) cut.above) := by
  rcases hsplit : splitAttributes (cut.found decl.oldNotes).behind with ⟨upper, attributes⟩
  obtain ⟨hbehind, hstarts, hattributes⟩ := splitAttributes_spec hstands.startsLine hsplit
  rw [hsplit] at hdoc
  obtain ⟨hcomment, hgap, before, hbefore⟩ := precedingDoc?_eq_some_iff.1 hdoc
  have habove : annotatedAbove decl.oldNotes cut.above =
      before ++ (doc.comment ++ doc.gap ++ attributes) := by
    rw [Cut.found, List.reverse_reverse] at hbehind
    rw [hbehind, hbefore]
    simp
  have hne : cut.text ++ cut.below ≠ [] := by simp [hcut.ne_nil]
  have hleaves := (h.leavesLine hlines hcut.base_eq hne hcut.starts).comment _ hstands.read_eq doc
  rw [Cut.found] at hsplit
  rw [hsplit] at hleaves
  have hstart : (annotatedAbove decl.oldNotes cut.above).length - attributes.length - doc.length =
      before.length := by
    rw [habove, PrecedingDoc.length]
    simp only [List.length_append]
    omega
  have hfree := h.noteFree hcut.base_eq hne (hleaves hdoc)
  obtain ⟨outer, hsame, -, hclear⟩ := hfree.exists_append_above h.revision.places hcut.base_eq hne
    hstart (hcut.of_revision h.revision).length_above_lt habove
  rw [hsame] at hclear
  have hends : LineStartsAfter (before ++ doc.comment ++ doc.gap) := by
    rw [← hbefore]
    exact lineStartsAfter_reverse_iff.2 hstarts
  refine ⟨annotatedAbove (decl.newNotes block) outer, doc.comment, doc.gap, attributes, ?_, hcomment,
    hgap, ?_, hattributes⟩
  · rw [hsame, annotatedAbove_append_of_clear hclear]
    simp
  · have hne : doc.comment ++ doc.gap ≠ [] := by simp [hcomment.ne_nil]
    rw [List.append_assoc, lineStartsAfter_append_iff _ hne] at hends ⊢
    exact hends

end

/-- The anchor of a method that gets a block stays whole. -/
theorem leaves_of_mem_methods (hread : ClassDecl.read path source = .ok decl) {m : Method}
    (hm : m ∈ decl.methods) (hlength : front.length = decl.offset)
    (hapart : m.IsApart front decl.previous) :
    decl.Leaves m.offset (m.offset + m.anchor.length) := by
  have horder : ∀ ⦃m⦄, m ∈ decl.methods → ∀ ⦃n⦄, n ∈ decl.methods →
      n.offset ≤ m.offset ∨ m.offset + m.anchor.length ≤ n.offset :=
    List.Pairwise.forall_of_forall_of_flip (fun _ _ => Or.inl le_rfl)
      ((pairwise_methods hread).imp Or.inr)
      ((pairwise_methods hread).imp fun hle => Or.inl (by omega))
  intro change hchange
  rcases List.mem_cons.1 hchange with rfl | hchange
  · rw [Method.IsApart, previous_eq_heading_append, List.length_append, hlength] at hapart
    dsimp only
    omega
  · obtain ⟨⟨o, note⟩, hmem, rfl⟩ := List.mem_map.1 hchange
    obtain ⟨n, hn, hadd⟩ := mem_additions.1 hmem
    obtain ⟨rfl, -⟩ := addition?_eq_some_iff.1 hadd
    exact horder hm hn

/-- A method that gets a block has it as its doc comment from then on. -/
theorem AreMerged.hasDocAbove_of_addition (h : decl.AreMerged block source text front rest)
    (hread : ClassDecl.read path source = .ok decl) {cut : Cut MethodHead} {m : Method}
    (hcut : cut.IsIn (decl.newNotes block) (front ++ (decl.anchor ++ rest)))
    (hstands : (cut.found decl.oldNotes).StandsIn readMethod? source)
    (hmethod : readMethod (scan readTypeHead? source) (cut.found decl.oldNotes) = some m)
    (hm : m ∈ decl.methods) {note : Text} (hadd : decl.addition? m = some (m.offset, note))
    (hapart : m.IsApart front decl.previous)
    (htypes : ∀ type ∈ m.signature.writtenTypes decl.imports, Signature.IsWholeType type) :
    HasDocAbove (annotatedAbove (decl.newNotes block) cut.above) := by
  obtain ⟨upper, attributes, after, hmstands, hattributes, hanchor, hbehind⟩ :=
    exists_stands_of_readMethod hstands hmethod
  have habove : annotatedAbove decl.oldNotes cut.above = upper ++ attributes := by
    rwa [Cut.found, List.reverse_reverse] at hbehind
  have hne : cut.text ++ cut.below ≠ [] := by simp [hcut.ne_nil]
  have hline := List.length_pos_of_ne_nil (isDeclarationLine_of_readMethod? hstands.read_eq).ne_nil
  have hfree : NoteFree decl.oldNotes (decl.newNotes block) (front ++ (decl.anchor ++ rest)) m.offset
      (m.offset + m.anchor.length) :=
    noteFree_of_leaves (leaves_of_mem_methods hread hm h.length_eq hapart) h.length_eq
  obtain ⟨outer, hsame, houter, hclear⟩ := hfree.exists_append_above h.revision.places hcut.base_eq
    hne hmstands.length_eq.symm
    (by rw [habove, hanchor, List.length_append, List.length_append, hmstands.length_eq]; omega) habove
  rw [hsame] at hclear
  have hbase : front ++ (decl.anchor ++ rest) = outer ++ (attributes ++ (cut.text ++ cut.below)) := by
    rw [hcut.base_eq, hsame, List.append_assoc]
  have hoffset : (annotatedAbove decl.oldNotes outer).length = m.offset := by
    rw [houter, hmstands.length_eq]
  -- it is not the note of the class
  have hother : outer.length ≠ decl.offset := by
    intro hclass
    have hlength := length_annotatedAbove_oldNotes hbase h.length_eq
    rw [if_neg (by omega)] at hlength
    have hanchors := List.length_pos_of_ne_nil (anchor_ne_nil hread)
    have hpos := List.length_pos_of_ne_nil hmstands.isAnchor.ne_nil
    rw [Method.IsApart, previous_eq_heading_append, List.length_append, h.length_eq] at hapart
    omega
  have hnote : decl.newNotes block outer.length = note := by
    rw [newNotes_of_ne hbase h.length_eq hother, hoffset]
    exact additionsAt_of_mem (pairwise_additions hread) (mem_additions.2 ⟨m, hm, hadd⟩)
  obtain ⟨-, methodBlock, hblock, rfl⟩ := addition?_eq_some_iff.1 hadd
  obtain ⟨comment, hcomment, hdoc, -⟩ := Signature.exists_isNote_of_block?
    (isIdentifier_of_mem_parameters hread hm) htypes hblock (newline_cases hread)
  refine ⟨annotated (decl.newNotes block) 0 outer ++ m.signature.indent, comment, decl.newline,
    attributes, ?_, hdoc, ?_, lineStartsAfter_append_newline hread _, hattributes⟩
  · rw [hsame, annotatedAbove_append_of_clear hclear, annotatedAbove, hnote, withNewlines, hcomment]
    simp
  · rcases newline_cases hread with hnewline | hnewline <;> rw [hnewline]
    · exact List.all_eq_true.1 (by decide)
    · exact List.all_eq_true.1 (by decide)

/-- Every method of the merged source that wants a doc comment has one. -/
theorem AreMerged.documented (h : decl.AreMerged block source text front rest)
    (hlines : decl.LeavesDeclarations kind source)
    (hread : ClassDecl.read path source = .ok decl)
    (hapart : ∀ m ∈ decl.methods, (decl.addition? m).isSome → m.IsApart front decl.previous)
    (htypes : ∀ m ∈ decl.methods, (decl.addition? m).isSome →
      ∀ type ∈ m.signature.writtenTypes decl.imports, Signature.IsWholeType type) {n : Method}
    (hn : n ∈ readMethods text (scan readTypeHead? text))
    (hclass : n.signature.declaringClass = decl.name)
    (hcontent : n.signature.parameters ≠ [] ∨ n.signature.returnType ≠ none) :
    n.signature.documented = true := by
  obtain ⟨cut, m, hcut, hstands, hmethod, hm, hscope, hparameters, htype, hdoc⟩ :=
    h.exists_method hlines hn
  rw [← methods_of_read hread] at hm
  have hstarts := (lineStartsAfter_annotatedAbove_iff h.revision.after hcut.base_eq).2 hcut.starts
  rw [documented_iff hstarts hdoc]
  cases hd : precedingDoc? (splitAttributes (cut.found decl.oldNotes).behind).1 with
  | some doc => exact h.hasDocAbove_of_doc hlines hcut hstands hd
  | none =>
      -- it had none, so it got one
      have hnone : decl.addition? m ≠ none := by
        rw [Ne, addition?_eq_none_iff, hscope, hparameters]
        intro hdocumented
        have hold := hdocumented hclass (hcontent.imp_right htype)
        obtain ⟨-, list, after, parameters, -, -, rfl⟩ := readMethod_eq_some_iff.1 hmethod
        simp [Signature.documented, hd] at hold
      obtain ⟨⟨o, note⟩, hadd⟩ := Option.ne_none_iff_exists'.1 hnone
      obtain ⟨rfl, -⟩ := addition?_eq_some_iff.1 hadd
      have hsome : (decl.addition? m).isSome := by rw [hadd]; rfl
      exact h.hasDocAbove_of_addition hread hcut hstands hmethod hm hadd (hapart m hm hsome)
        (htypes m hm hsome)

/-! ## The line ending -/

/-- No note brings a carriage return in front of a line feed into a source without one. -/
theorem not_infix_newNotes (hread : ClassDecl.read path source = .ok decl)
    (hsource : source = front ++ decl.heading ++ decl.anchor ++ rest)
    (hcomment : IsDocComment (decl.withNewlines block)) (hpair : ¬ ['\r', '\n'] <:+: block)
    (htypes : ∀ m ∈ decl.methods, (decl.addition? m).isSome →
      ∀ type ∈ m.signature.writtenTypes decl.imports, Signature.IsWholeType type)
    (hnewline : decl.newline = ['\n']) (hnone : ¬ ['\r', '\n'] <:+: source) (j : Nat) :
    ¬ ['\r', '\n'] <:+: decl.newNotes block j := by
  have hwith : ∀ text, decl.withNewlines text = text := fun text => by
    rw [withNewlines, hnewline, Text.withNewlines_newline]
  have hend : ¬ ['\r', '\n'] <:+: ['\n'] := by decide
  rw [newNotes]
  split
  · rw [hwith] at hcomment ⊢
    refine not_infix_append hpair (fun hoccurs => ?_) (by rw [hcomment.getLast?_eq]; simp)
    cases hdoc : decl.doc with
    | none =>
        rw [separator_of_no_doc hread hdoc, hnewline] at hoccurs
        exact hend hoccurs
    | some doc =>
        refine hnone (hoccurs.trans ?_)
        rw [hsource, heading, hdoc]
        exact ⟨front ++ doc, decl.anchor ++ rest, by simp⟩
  · by_contra hoccurs
    have hne : ∀ note : Text, ['\r', '\n'] <:+: note → note ≠ [] := by
      rintro note hnote rfl
      simp at hnote
    obtain ⟨note, hmem⟩ := exists_of_additionsAt_ne_nil (hne _ hoccurs)
    rw [additionsAt_of_mem (pairwise_additions hread) hmem] at hoccurs
    obtain ⟨m, hm, hadd⟩ := mem_additions.1 hmem
    obtain ⟨-, methodBlock, hmethod, rfl⟩ := addition?_eq_some_iff.1 hadd
    have hnames := isIdentifier_of_mem_parameters hread hm
    have hwhole := htypes m hm (by rw [hadd]; rfl)
    obtain ⟨comment, rfl, hiff⟩ := Signature.exists_comment_of_block? hnames hmethod
    have hdoc := hiff.2 fun type htype => (hwhole type htype).no_delimiter
    rw [hwith, hnewline] at hoccurs
    refine not_infix_append (Signature.lines_of_block? hnames hwhole hmethod).2 hend ?_ hoccurs
    rw [List.getLast?_append_of_ne_nil _ hdoc.ne_nil, hdoc.getLast?_eq]
    simp

/-- The merged source has the line ending of the source. -/
theorem AreMerged.newlineOf_eq (h : decl.AreMerged block source text front rest)
    (hread : ClassDecl.read path source = .ok decl)
    (hcomment : IsDocComment (decl.withNewlines block)) (hbreaks : '\n' ∈ block)
    (hpair : ¬ ['\r', '\n'] <:+: block)
    (htypes : ∀ m ∈ decl.methods, (decl.addition? m).isSome →
      ∀ type ∈ m.signature.writtenTypes decl.imports, Signature.IsWholeType type) :
    newlineOf text = decl.newline := by
  have hanchor := anchor_ne_nil hread
  have hsource : newlineOf source = decl.newline := by
    obtain ⟨home, head, -, -, rfl⟩ := exists_heads_of_read hread
    rfl
  rcases newlineOf_cases source with ⟨-, hnewline⟩ | ⟨hnone, hnewline⟩ <;> rw [hsource] at hnewline
  · -- the new block has a line ending in it
    have hblock : ['\r', '\n'] <:+: decl.withNewlines block := by
      obtain ⟨before, after, rfl⟩ := List.append_of_mem hbreaks
      rw [withNewlines, hnewline, Text.withNewlines_append]
      refine ⟨Text.withNewlines before ['\r', '\n'], Text.withNewlines after ['\r', '\n'], ?_⟩
      rw [List.append_assoc]
      rfl
    have hoccurs : ['\r', '\n'] <:+: text := by
      rw [h.text_eq, annotated_append, Nat.zero_add,
        annotated_of_ne_nil _ front.length (by simp [hanchor]), newNotes, if_pos h.length_eq]
      refine hblock.trans ⟨annotated (decl.newNotes block) 0 front, decl.separator ++
        annotatedTail (decl.newNotes block) front.length (decl.anchor ++ rest), by simp⟩
    rw [hnewline]
    exact ((newlineOf_cases text).resolve_right fun hnot => hnot.1 hoccurs).2
  · have hparts := h.source_eq
    rw [annotated_oldNotes h.length_eq (by simp [hanchor]), ← List.append_assoc] at hparts
    have hnotes := not_infix_newNotes hread hparts hcomment hpair htypes hnewline hnone
    have hnot : ¬ ['\r', '\n'] <:+: text := by
      rw [h.source_eq] at hnone
      rw [h.text_eq]
      exact h.revision.not_infix_annotated hnotes hnone
    rw [hnewline]
    exact ((newlineOf_cases text).resolve_left fun hoccurs => hnot hoccurs.1).2

/-! ## Reading again -/

/-- The second class is the first one with the block for its doc comment, and all its methods that
want a doc comment have one. -/
structure IsRereading (decl decl' : ClassDecl) (kind : ClassKind) (block : Text) : Prop where
  home_eq : decl'.home = decl.home
  name_eq : decl'.name = decl.name
  anchor_eq : decl'.anchor = decl.anchor
  doc_eq : decl'.doc = some (decl.withNewlines block)
  separator_eq : decl'.separator = decl.separator
  newline_eq : decl'.newline = decl.newline
  properties_eq : decl'.properties = decl.properties
  overrides_eq : kind = .model → decl'.connection = decl.connection ∧ decl'.table = decl.table
  documented : ∀ m ∈ decl'.methods, m.signature.declaringClass = decl'.name →
    (m.signature.parameters ≠ [] ∨ m.signature.returnType ≠ none) → m.signature.documented = true

/-- **Reading a merged source.**  If all declarations stayed whole, the class is read again, with
the new block for its doc comment. -/
theorem AreMerged.exists_isRereading (h : decl.AreMerged block source text front rest)
    (hlines : decl.LeavesDeclarations kind source)
    (hread : ClassDecl.read path source = .ok decl)
    (hapart : ∀ m ∈ decl.methods, (decl.addition? m).isSome → m.IsApart front decl.previous)
    (htypes : ∀ m ∈ decl.methods, (decl.addition? m).isSome →
      ∀ type ∈ m.signature.writtenTypes decl.imports, Signature.IsWholeType type)
    (hcomment : IsDocComment (decl.withNewlines block)) (hbreaks : '\n' ∈ block)
    (hpair : ¬ ['\r', '\n'] <:+: block) :
    ∃ decl', ClassDecl.read path text = .ok decl' ∧ decl.IsRereading decl' kind block := by
  obtain ⟨home, head, hcut, hstands, hdecl, hread'⟩ := h.exists_read hlines hread
  obtain ⟨hdoc, hseparator, hanchor⟩ := h.ofHead_eq hread hcut hstands hdecl hcomment
  have hname : decl.name = head.value := congrArg ClassDecl.name hdecl
  have hconnection := congrArg ClassDecl.connection hdecl
  have htable := congrArg ClassDecl.table hdecl
  refine ⟨_, hread', (congrArg ClassDecl.home hdecl).symm, hname.symm, hanchor, hdoc, hseparator,
    h.newlineOf_eq hread hcomment hbreaks hpair htypes, ?_, fun hkind => ?_,
    fun m hm hclass hcontent => ?_⟩
  · exact (h.readProperties_eq hlines head.value).trans (congrArg ClassDecl.properties hdecl).symm
  · exact ⟨(h.scanFirst?_readOverride?_eq hlines hkind (by simp [overrides])).trans hconnection.symm,
      (h.scanFirst?_readOverride?_eq hlines hkind (by simp [overrides])).trans htable.symm⟩
  · exact h.documented hlines hread hapart htypes hm (hclass.trans hname.symm) hcontent

end ClassDecl

end PhpDoc
