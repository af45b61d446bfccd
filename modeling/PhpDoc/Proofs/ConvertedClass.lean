import Mathlib
import PhpDoc.Proofs.Anchors
import PhpDoc.Proofs.ConvertedScan
import PhpDoc.Proofs.Undocumented

/-!
# The class of a source with other line endings

The class that is read from a source with a carriage return before every line feed is the converted
class: names and types are the same, and comments, anchors and offsets are those of the converted
source.  The source must have no carriage returns of its own, because one at the end of a line would
count as a part of the line ending.
-/

namespace PhpDoc

/-! ## Methods -/

/-- A first line is read without its line ending. -/
theorem firstLine_withNewlines {text : Text} (h : '\r' ∉ text) :
    firstLine (text.withNewlines crlf) = firstLine text := by
  have hsplit : text.takeWhile (· != '\n') ++ text.dropWhile (· != '\n') = text :=
    List.takeWhile_append_dropWhile
  have hnewline := newline_not_mem_takeWhile text
  have hreturn : (text.takeWhile (· != '\n')).getLast? ≠ some '\r' := fun hlast =>
    h (hsplit ▸ List.mem_append_left _ (List.mem_of_getLast? hlast))
  rw [firstLine_eq, firstLine_eq, Text.dropReturn_eq_self hreturn]
  cases hrest : text.dropWhile (· != '\n') with
  | nil =>
      rw [hrest, List.append_nil] at hsplit
      rw [Text.withNewlines_eq_self (hsplit ▸ hnewline), Text.dropReturn_eq_self hreturn]
  | cons c rest =>
      obtain rfl : c = '\n' := startsLine_iff.1 (startsLine_dropWhile text) c (by rw [hrest]; rfl)
      have hconverted : text.withNewlines crlf =
          (text.takeWhile (· != '\n') ++ ['\r']) ++ '\n' :: Text.withNewlines rest crlf := by
        conv_lhs => rw [← hsplit, hrest]
        rw [Text.withNewlines_append, Text.withNewlines_eq_self hnewline, List.append_assoc]
        rfl
      have hline : ∀ c ∈ text.takeWhile (· != '\n') ++ ['\r'], (c != '\n') = true := by
        intro c hc
        rcases List.mem_append.1 hc with hc | hc
        · exact bne_iff_ne.2 fun heq => hnewline (heq ▸ hc)
        · rw [List.mem_singleton.1 hc]
          rfl
      rw [hconverted, Text.takeWhile_append_stop hline (by simp), Text.dropReturn_append_return]

/-- The method at the same place of the converted source. -/
def Method.converted (m : Method) (source : Text) : Method where
  signature := { m.signature with doc := m.signature.doc.map (Text.withNewlines · crlf) }
  anchor := m.anchor.withNewlines crlf
  offset := convertedOffset source m.offset

theorem readMethod_converted {source : Text} (hreturn : '\r' ∉ source) {found : Found MethodHead}
    (h : found.StandsIn readMethod? source) :
    readMethod (scan readTypeHead? (source.withNewlines crlf)) (found.converted id) =
      (readMethod (scan readTypeHead? source) found).map (·.converted source) := by
  have hahead : '\r' ∉ found.ahead := fun hmem =>
    hreturn (h.source_eq ▸ List.mem_append_right _ hmem)
  have hfirst : firstLine (found.converted id).ahead = firstLine found.ahead :=
    firstLine_withNewlines hahead
  have hline : Text.withNewlines (firstLine found.ahead) crlf = firstLine found.ahead :=
    Text.withNewlines_eq_self (fun hmem => newline_not_mem_takeWhile found.ahead
      ((firstLine_isPrefix found.ahead).subset hmem)) crlf
  have hsplit : splitAttributes (found.converted id).behind = (splitAttributes found.behind).map
      (Text.withNewlines · crlf.reverse) (Text.withNewlines · crlf) :=
    splitAttributes_withNewlines h.startsLine
  have hscope : scopeAt (scan readTypeHead? (source.withNewlines crlf))
      (found.converted id).start = scopeAt (scan readTypeHead? source) found.start := by
    rw [h.start_converted, scopeAt_converted h.start_le]
  have henclosed : enclosed? (found.converted id).rest = (enclosed? found.rest).map
      (Prod.map (Text.withNewlines · crlf) (Text.withNewlines · crlf)) :=
    enclosed?_withNewlines isLineEnding_crlf found.rest
  -- the parameters and the returned type are read alike, so only texts and offsets differ
  have hmethod : ∀ parameters after, Method.converted
      ⟨⟨found.value.name, parameters, returnType? after, firstLine found.ahead,
          (precedingDoc? (splitAttributes found.behind).1).map PrecedingDoc.comment,
          scopeAt (scan readTypeHead? source) found.start⟩,
        (splitAttributes found.behind).2 ++ firstLine found.ahead,
        found.start - (splitAttributes found.behind).2.length⟩ source =
      ⟨⟨found.value.name, parameters, returnType? (after.withNewlines crlf), firstLine found.ahead,
          ((precedingDoc? (splitAttributes found.behind).1).map PrecedingDoc.converted).map
            PrecedingDoc.comment,
          scopeAt (scan readTypeHead? source) found.start⟩,
        Text.withNewlines (splitAttributes found.behind).2 crlf ++ firstLine found.ahead,
        convertedOffset source (found.start - (splitAttributes found.behind).2.length)⟩ := by
    intro parameters after
    rw [Method.converted, Text.withNewlines_append, hline,
      returnType?_withNewlines isLineEnding_crlf, Option.map_map, Option.map_map]
    rfl
  ext m'
  simp only [Option.map_eq_some_iff, readMethod_eq_some_iff, henclosed, hsplit, hfirst, hscope,
    Prod.map_fst, Prod.map_snd, precedingDoc?_withNewlines, h.sub_attributes]
  constructor
  · rintro ⟨hvisible, list', after', parameters, ⟨⟨list, after⟩, hlist, heq⟩, hparameters, rfl⟩
    obtain ⟨rfl, rfl⟩ := Prod.mk.inj heq
    rw [readParameters?_withNewlines isLineEnding_crlf] at hparameters
    exact ⟨_, ⟨hvisible, list, after, parameters, hlist, hparameters, rfl⟩,
      hmethod parameters after⟩
  · rintro ⟨m, ⟨hvisible, list, after, parameters, hlist, hparameters, rfl⟩, rfl⟩
    refine ⟨hvisible, _, _, parameters, ⟨(list, after), hlist, rfl⟩, ?_, hmethod parameters after⟩
    rwa [readParameters?_withNewlines isLineEnding_crlf]

theorem readMethods_withNewlines {source : Text} (hreturn : '\r' ∉ source) :
    readMethods (source.withNewlines crlf) (scan readTypeHead? (source.withNewlines crlf)) =
      (readMethods source (scan readTypeHead? source)).map (·.converted source) := by
  rw [readMethods, readMethods, scan_withNewlines (converts_readMethod? isLineEnding_crlf)
    isLineReader_readMethod?.leaves, List.filterMap_map, List.map_filterMap]
  exact List.filterMap_congr fun found hfound =>
    readMethod_converted hreturn (standsIn_of_mem_scan hfound)

/-! ## Imports -/

/-- An import of the converted source. -/
def Import.converted (i : Import) : Import :=
  ⟨i.fullName.withNewlines crlf, i.localName.withNewlines crlf⟩

namespace ImportTable

/-- The imports of the converted source. -/
def converted (t : ImportTable) : ImportTable :=
  ⟨t.home, t.imports.map Import.converted⟩

theorem lastSegment_withNewlines (name : Text) :
    lastSegment (name.withNewlines crlf) = (lastSegment name).withNewlines crlf := by
  rw [lastSegment, lastSegment,
    Text.cutLast?_withNewlines isLineEnding_crlf (by decide) (by decide), Option.map_map]
  cases Text.cutLast? ['\\'] name <;> rfl

theorem single?_withNewlines (clause : Text) :
    single? (clause.withNewlines crlf) = (single? clause).map Import.converted := by
  have hdrop : ∀ text : Text, (text.withNewlines crlf).dropWhile (· == '\\') =
      Text.withNewlines (text.dropWhile (· == '\\')) crlf := fun text =>
    Text.dropWhile_withNewlines isLineEnding_crlf rfl text
  rw [single?, single?, Text.cut?_withNewlines isLineEnding_crlf (by decide) (by decide)]
  cases Text.cut? " as ".toList clause with
  | none =>
      simp only [Option.map_none, Text.trim_withNewlines isLineEnding_crlf,
        lastSegment_withNewlines, hdrop, Text.isEmpty_withNewlines isLineEnding_crlf]
      split <;> rfl
  | some found =>
      simp only [Option.map_some, Prod.map, Text.trim_withNewlines isLineEnding_crlf, hdrop,
        Text.isEmpty_withNewlines isLineEnding_crlf]
      split <;> rfl

theorem singleClauses_withNewlines (clause : Text) :
    singleClauses (clause.withNewlines crlf) =
      (singleClauses clause).map (Text.withNewlines · crlf) := by
  have hn := isLineEnding_crlf
  rw [singleClauses, singleClauses, Text.isPrefixOf_withNewlines hn (by decide),
    Text.isPrefixOf_withNewlines hn (by decide)]
  split
  · rfl
  · rw [Text.cut?_withNewlines hn (by decide) (by decide)]
    cases Text.cut? ['{'] clause with
    | none => rfl
    | some found =>
        obtain ⟨stem, group⟩ := found
        have hstem := Text.dropEndWhile_withNewlines hn (p := (· == '\\')) rfl stem.trim
        have hgroup := Text.dropEndWhile_withNewlines hn (p := (· == '}')) rfl group
        have hitems : ∀ list : Text, ((list.withNewlines crlf).pieces ',').map Text.trim =
            ((list.pieces ',').map Text.trim).map (Text.withNewlines · crlf) := by
          intro list
          rw [Text.pieces_withNewlines hn (by decide) (by decide), List.map_map, List.map_map]
          exact List.map_congr_left fun piece _ => Text.trim_withNewlines hn piece
        have hkept : (fun item : Text => !item.isEmpty) ∘ (Text.withNewlines · crlf) =
            fun item : Text => !item.isEmpty :=
          funext fun item => congrArg _ (Text.isEmpty_withNewlines hn item)
        simp only [Option.map_some, Prod.map, Text.trim_withNewlines hn, hstem, hgroup, hitems]
        generalize ((group.dropEndWhile (· == '}')).pieces ',').map Text.trim = items
        rw [List.filter_map, hkept, List.map_map, List.map_map]
        refine List.map_congr_left fun item _ => ?_
        simp [Text.withNewlines_append, Text.withNewlines_cons]

theorem addUse_withNewlines (t : ImportTable) (clause : Text) :
    t.converted.addUse (clause.withNewlines crlf) = (t.addUse clause).converted := by
  rw [addUse, addUse, converted, converted, Text.trim_withNewlines isLineEnding_crlf,
    singleClauses_withNewlines, List.filterMap_map, List.map_append, List.map_filterMap]
  congr 2
  exact List.filterMap_congr fun clause _ => single?_withNewlines clause

theorem readImports_withNewlines (home front : Text) :
    readImports home (front.withNewlines crlf) = (readImports home front).converted := by
  have hleaves : ∀ {text value rest : Text}, readUse? text = some (value, rest) →
      rest <:+ text ∧ rest.length < text.length := by
    intro text value rest h
    simp only [readUse?, Option.bind_eq_bind, Option.bind_eq_some_iff, Prod.exists,
      Option.pure_def, Option.some.injEq, Prod.mk.injEq] at h
    obtain ⟨after, hafter, blanks, hblanks, clause, next, hrun, last, hlast, -, rfl⟩ := h
    exact leaves_of_after? hlast (by simp) <| (suffix_of_run? hrun).trans <|
      (suffix_of_afterBlanks? hblanks).trans <| suffix_of_after? hafter
  have hfold : ∀ (found : List (Found Text)) (t : ImportTable),
      (found.map (·.converted (Text.withNewlines · crlf))).foldl
          (fun imports found => imports.addUse found.value) t.converted =
        (found.foldl (fun imports found => imports.addUse found.value) t).converted := by
    intro found
    induction found with
    | nil => exact fun t => rfl
    | cons f found ih =>
        intro t
        rw [List.map_cons, List.foldl_cons, List.foldl_cons, ← ih, ← addUse_withNewlines]
        rfl
  rw [readImports, readImports, scan_withNewlines (converts_readUse? isLineEnding_crlf) hleaves]
  exact hfold _ (.ofNamespace home)

end ImportTable

/-! ## The class -/

theorem newlineOf_withNewlines {source : Text} (h : '\n' ∈ source) :
    newlineOf (source.withNewlines crlf) = crlf := by
  obtain ⟨front, rest, rfl⟩ := List.append_of_mem h
  have hoccurs : Text.occursIn "\r\n".toList (Text.withNewlines (front ++ '\n' :: rest) crlf) =
      true := by
    rw [Text.occursIn_iff, Text.withNewlines_append, Text.withNewlines_cons_newline]
    exact ⟨_, _, List.append_assoc _ _ _⟩
  rw [newlineOf, if_pos hoccurs]
  rfl

theorem newlineOf_of_not_mem {source : Text} (h : '\r' ∉ source) : newlineOf source = ['\n'] := by
  have hoccurs : ¬ Text.occursIn "\r\n".toList source = true := by
    rw [Text.occursIn_iff]
    exact fun hpair => h (hpair.subset (by simp))
  rw [newlineOf, if_neg hoccurs]
  rfl

/-- A class head starts with a modifier or with its keyword. -/
theorem exists_keyword_of_readHead? {keywords : List Text} {text name rest : Text}
    (h : readHead? keywords text = some (name, rest)) :
    ∃ word ∈ keywords ++ classModifiers, word <+: text := by
  simp only [readHead?, Option.bind_eq_bind, Option.bind_eq_some_iff, Prod.exists] at h
  obtain ⟨keyword, after, hkeyword, -⟩ := h
  obtain ⟨hmem, blanks, -, -, htext⟩ := keywordThenBlanks?_eq_some hkeyword
  rcases (takeModifiers_spec classModifiers text text).2 with hnone | ⟨word, hword, hstarts⟩
  · rw [readModifiers, hnone] at htext
    exact ⟨keyword, List.mem_append_left _ hmem, blanks ++ after,
      by rw [htext, List.append_assoc]⟩
  · exact ⟨word, List.mem_append_right _ hword, hstarts⟩

/-- A class is read from several lines, because a namespace and a class head start one each. -/
theorem newline_mem_of_read {path source : Text} {decl : ClassDecl}
    (h : ClassDecl.read path source = .ok decl) : '\n' ∈ source := by
  obtain ⟨home, head, hhome, hhead, -⟩ := ClassDecl.exists_heads_of_read h
  by_contra hnot
  -- within a single line both heads would be read at the start of the source
  have hwhole : ∀ {f : Found Text} {read : Text → Option (Text × Text)},
      f.StandsIn read source → f.ahead = source := by
    intro f read hf
    have hfront : '\n' ∉ f.behind.reverse := fun hmem =>
      hnot (hf.source_eq ▸ List.mem_append_left _ hmem)
    have hnil := eq_nil_of_lineStartsAfter (lineStartsAfter_reverse_iff.2 hf.startsLine) hfront
    rw [hf.source_eq, hnil, List.nil_append]
  have hnamespace : "namespace".toList <+: source := by
    have hread := hhome.read_eq
    rw [hwhole hhome] at hread
    simp only [readNamespace?, Option.bind_eq_bind, Option.bind_eq_some_iff] at hread
    obtain ⟨after, hafter, -⟩ := hread
    exact ⟨after, ((Text.after?_eq_some_iff _ _ _).1 hafter).symm⟩
  obtain ⟨word, hword, hstarts⟩ := exists_keyword_of_readHead? (hwhole hhead ▸ hhead.read_eq)
  have hapart : ∀ word ∈ ["class".toList] ++ classModifiers,
      ¬ (word <+: "namespace".toList ∨ "namespace".toList <+: word) := by decide
  exact hapart word hword (List.prefix_or_prefix_of_prefix hstarts hnamespace)

namespace ClassDecl

/-- The class of the converted source. -/
def converted (decl : ClassDecl) (source : Text) : ClassDecl :=
  { decl with
    anchor := decl.anchor.withNewlines crlf
    offset := convertedOffset source decl.offset
    doc := decl.doc.map (Text.withNewlines · crlf)
    separator := decl.separator.withNewlines crlf
    imports := decl.imports.converted
    methods := decl.methods.map (·.converted source)
    connection := decl.connection.map (Text.withNewlines · crlf)
    table := decl.table.map (Text.withNewlines · crlf)
    newline := crlf }

/-- The doc comment of the converted source starts where that of the source does. -/
theorem offset_converted {source : Text} {head : Found Text}
    (h : head.StandsIn readClassHead? source) :
    (head.converted id).start - (Text.withNewlines (splitAttributes head.behind).2 crlf).length -
        (((precedingDoc? (splitAttributes head.behind).1).map PrecedingDoc.converted).map
          PrecedingDoc.length).getD 0 =
      convertedOffset source (head.start - (splitAttributes head.behind).2.length -
        ((precedingDoc? (splitAttributes head.behind).1).map PrecedingDoc.length).getD 0) := by
  have hbehind := (splitAttributes_spec h.startsLine (Prod.mk.eta).symm).1
  rw [h.sub_attributes]
  cases hdoc : precedingDoc? (splitAttributes head.behind).1 with
  | none => rfl
  | some d =>
      obtain ⟨front, hfront, -, -⟩ := precedingDoc?_spec hdoc
      have hstart : head.start - (splitAttributes head.behind).2.length =
          (front ++ (d.comment ++ d.gap)).length := by
        rw [h.start_eq, ← List.length_reverse, hbehind, List.length_append, Nat.add_sub_cancel,
          hfront, List.append_assoc]
      have hsource : source = front ++ (d.comment ++ d.gap) ++
          ((splitAttributes head.behind).2 ++ head.ahead) := by
        rw [h.source_eq, hbehind, hfront]
        simp
      have hlength : d.converted.length = (Text.withNewlines (d.comment ++ d.gap) crlf).length := by
        rw [Text.withNewlines_append, List.length_append]
        rfl
      have hlength' : d.length = (d.comment ++ d.gap).length := by
        rw [List.length_append]
        rfl
      simp only [Option.map_some, Option.getD_some, hstart, hlength, hlength']
      rw [hsource, convertedOffset_sub]

theorem ofHead_withNewlines {path source home : Text} {head : Found Text}
    (hreturn : '\r' ∉ source) (hnewline : '\n' ∈ source)
    (hhead : head.StandsIn readClassHead? source) :
    ofHead path (source.withNewlines crlf) home (head.converted id) =
      (ofHead path source home head).converted source := by
  have hsplit : splitAttributes (head.converted id).behind = (splitAttributes head.behind).map
      (Text.withNewlines · crlf.reverse) (Text.withNewlines · crlf) :=
    splitAttributes_withNewlines hhead.startsLine
  have htext := Found.text_converted (isLineReader_readClassHead?.leaves hhead.read_eq).1 id
  have hfront : (head.converted id).behind.reverse =
      Text.withNewlines head.behind.reverse crlf := by
    rw [Found.converted, Text.reverse_withNewlines, List.reverse_reverse]
  have hoverride : ∀ name, NoBreak name →
      (scanFirst? (readOverride? name) (source.withNewlines crlf)).map Found.value =
        ((scanFirst? (readOverride? name) source).map Found.value).map
          (Text.withNewlines · crlf) := by
    intro name hname
    rw [scanFirst?_withNewlines (converts_readOverride? isLineEnding_crlf hname)
      (isLineReader_readOverride? name).leaves, Option.map_map, Option.map_map]
    rfl
  have hseparator : (((precedingDoc? (splitAttributes head.behind).1).map
      PrecedingDoc.converted).map PrecedingDoc.gap).getD crlf =
        Text.withNewlines (((precedingDoc? (splitAttributes head.behind).1).map
          PrecedingDoc.gap).getD (newlineOf source)) crlf := by
    rw [newlineOf_of_not_mem hreturn]
    cases precedingDoc? (splitAttributes head.behind).1 <;> rfl
  have hcomment : ((precedingDoc? (splitAttributes head.behind).1).map
      PrecedingDoc.converted).map PrecedingDoc.comment =
        ((precedingDoc? (splitAttributes head.behind).1).map PrecedingDoc.comment).map
          (Text.withNewlines · crlf) := by
    cases precedingDoc? (splitAttributes head.behind).1 <;> rfl
  simp only [ofHead, converted, hsplit, Prod.map_fst, Prod.map_snd, precedingDoc?_withNewlines,
    offset_converted hhead, htext, hfront, ImportTable.readImports_withNewlines,
    readProperties_withNewlines, readMethods_withNewlines hreturn,
    hoverride _ (by decide : NoBreak "connection".toList),
    hoverride _ (by decide : NoBreak "table".toList), hseparator, hcomment,
    newlineOf_withNewlines hnewline, Text.withNewlines_append]
  rfl

/-- Reading converts with the source. -/
theorem read_withNewlines {source : Text} (hreturn : '\r' ∉ source) (path : Text) :
    ClassDecl.read path (source.withNewlines crlf) =
      (ClassDecl.read path source).map (·.converted source) := by
  rw [ClassDecl.read, ClassDecl.read,
    scanFirst?_withNewlines (converts_readNamespace? isLineEnding_crlf)
      isLineReader_readNamespace?.leaves,
    scanFirst?_withNewlines (converts_readClassHead? isLineEnding_crlf)
      isLineReader_readClassHead?.leaves]
  cases hhome : scanFirst? readNamespace? source with
  | none => rfl
  | some home =>
      cases hhead : scanFirst? readClassHead? source with
      | none => rfl
      | some head =>
          have hread : ClassDecl.read path source = .ok (ofHead path source home.value head) := by
            simp only [ClassDecl.read, hhome, hhead]
          exact congrArg Except.ok (ofHead_withNewlines hreturn (newline_mem_of_read hread)
            (standsIn_of_scanFirst? hhead))

end ClassDecl

end PhpDoc
