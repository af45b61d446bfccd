import Mathlib
import PhpDoc.Proofs.ConvertedClass
import PhpDoc.Proofs.Insertion

/-!
# Merging a source with other line endings

Merging a plain class commutes with writing a carriage return before every line feed.  The class is
read as the converted class, its blocks are rendered the same and written with the line ending of
the source, and a text without carriage returns stands in a text at the places at which it stands
when both are converted: what a converted text starts with is never the line feed inside a line
ending.
-/

namespace PhpDoc

/-! ## Places -/

theorem head?_withNewlines_ne (text : Text) : (text.withNewlines crlf).head? ≠ some '\n' := by
  cases text with
  | nil => simp [Text.withNewlines]
  | cons c text =>
      by_cases hc : c = '\n'
      · rw [hc, Text.withNewlines_cons_newline]
        simp [crlf]
      · rw [Text.withNewlines_cons hc]
        simpa using hc

/-- A text without carriage returns starts another one exactly when it does so after converting. -/
theorem after?_converted {needle : Text} (h : '\r' ∉ needle) (text : Text) :
    Text.after? (needle.withNewlines crlf) (text.withNewlines crlf) =
      (Text.after? needle text).map (Text.withNewlines · crlf) := by
  induction needle generalizing text with
  | nil => rfl
  | cons d needle ih =>
      rw [List.mem_cons, not_or] at h
      have hinside : ∀ (text : Text),
          Text.after? ('\n' :: Text.withNewlines needle crlf) (text.withNewlines crlf) = none := by
        intro text
        rw [Text.after?_eq_none_iff]
        rintro ⟨rest, hrest⟩
        exact head?_withNewlines_ne text (by rw [← hrest]; rfl)
      have hfeed : ∀ text : Text, Text.withNewlines ('\n' :: text) crlf =
          '\r' :: '\n' :: Text.withNewlines text crlf := fun text => rfl
      cases text with
      | nil =>
          by_cases hd : d = '\n'
          · rw [hd]
            rfl
          · rw [Text.withNewlines_cons hd]
            rfl
      | cons c text =>
          -- a line feed meets a line feed, or two other characters meet; otherwise there is no match
          by_cases hd : d = '\n' <;> by_cases hc : c = '\n'
          · rw [hd, hc, hfeed, hfeed, Text.after?, if_pos rfl, Text.after?, if_pos rfl, Text.after?,
              if_pos rfl, ih h.2]
          · rw [hd, hfeed, Text.withNewlines_cons hc, Text.after?, Text.after?,
              if_neg (Ne.symm hc), hinside]
            split <;> rfl
          · rw [hc, hfeed, Text.withNewlines_cons hd, Text.after?, Text.after?, if_neg (Ne.symm h.1),
              if_neg hd]
            rfl
          · rw [Text.withNewlines_cons hd, Text.withNewlines_cons hc, Text.after?, Text.after?,
              ih h.2]
            split <;> rfl

theorem endsName_withNewlines (rest : Text) : endsName (rest.withNewlines crlf) = endsName rest := by
  have hbreak : (isAlphanumeric '\r' || '\r' == '_') = false ∧
      (isAlphanumeric '\n' || '\n' == '_') = false := by decide
  rw [endsName, endsName, Text.any_head?_withNewlines isLineEnding_crlf hbreak.1 hbreak.2]

/-- Nothing converted occurs at the line feed inside a line ending. -/
theorem WrittenAs.anchoredFrom_zero {c d : Char} {more needle : Text} (h : WrittenAs c d more)
    (hne : needle ≠ []) (offset : Nat) (fresh : Bool) (text : Text) :
    anchoredFrom (needle.withNewlines crlf) offset fresh 0 (more ++ text) =
      anchoredFrom (needle.withNewlines crlf) offset fresh more.length (more ++ text) := by
  rcases h with ⟨-, -, rfl⟩ | ⟨-, -, rfl⟩
  · rfl
  · have hnone : Text.after? (needle.withNewlines crlf) ('\n' :: text) = none := by
      rw [Text.after?_eq_none_iff]
      rintro ⟨rest, hrest⟩
      have hhead := congrArg List.head? hrest
      rw [List.head?_append_of_ne_nil _
        (mt (Text.withNewlines_eq_nil_iff isLineEnding_crlf needle).1 hne)] at hhead
      exact head?_withNewlines_ne needle hhead
    rw [List.singleton_append, anchoredFrom, hnone, List.length_singleton, anchoredFrom]

/-- The places of a text that `front` precedes. -/
theorem anchoredFrom_withNewlines {needle : Text} (hreturn : '\r' ∉ needle) (hne : needle ≠ [])
    (front text : Text) (fresh : Bool) (skip : Nat) :
    anchoredFrom (needle.withNewlines crlf) (front.withNewlines crlf).length fresh
        (Text.withNewlines (text.take skip) crlf).length (text.withNewlines crlf) =
      (anchoredFrom needle front.length fresh skip text).map (convertedOffset (front ++ text)) := by
  induction text generalizing front fresh skip with
  | nil => rfl
  | cons c text ih =>
      obtain ⟨d, more, hwritten⟩ := exists_writtenAs c
      have hfront : (front ++ [c]).length = front.length + 1 := by simp
      have hfront' : (Text.withNewlines (front ++ [c]) crlf).length =
          (front.withNewlines crlf).length + (1 + more.length) := by
        rw [Text.withNewlines_append, List.length_append, hwritten.cons]
        simp [Text.withNewlines, Nat.add_comm]
      -- what follows the first character, with that character moved to the front
      have hskipped : ∀ skip, anchoredFrom (needle.withNewlines crlf)
          ((front.withNewlines crlf).length + 1) (d == '\n')
          (more.length + (Text.withNewlines (text.take skip) crlf).length)
          (more ++ Text.withNewlines text crlf) =
            (anchoredFrom needle (front.length + 1) (c == '\n') skip text).map
              (convertedOffset (front ++ c :: text)) := by
        intro skip
        have hlater := ih (front ++ [c]) (c == '\n') skip
        rw [hfront, hfront', List.append_assoc, List.singleton_append] at hlater
        rw [← hlater]
        rcases hwritten with ⟨-, rfl, rfl⟩ | ⟨rfl, rfl, rfl⟩
        · simp
        · rw [List.singleton_append, List.length_singleton, Nat.add_comm 1, anchoredFrom]
      cases skip with
      | succ skip =>
          rw [hwritten.length_take_succ, hwritten.cons, anchoredFrom, hskipped, anchoredFrom]
      | zero =>
          have hzero : (Text.withNewlines ((c :: text).take 0) crlf).length = 0 := rfl
          have hafter := after?_converted hreturn (c :: text)
          rw [hwritten.cons] at hafter
          rw [hzero, hwritten.cons, anchoredFrom, anchoredFrom, hafter]
          cases hfound : Text.after? needle (c :: text) with
          | none => exact (hwritten.anchoredFrom_zero hne _ _ _).trans (hskipped 0)
          | some rest =>
              obtain ⟨first, needle, rfl⟩ := List.exists_cons_of_ne_nil hne
              have htext : c :: text = first :: (needle ++ rest) :=
                (Text.after?_eq_some_iff _ _ _).1 hfound
              obtain ⟨rfl, rfl⟩ := List.cons.inj htext
              have hlength : (Text.withNewlines (c :: needle) crlf).length - 1 = more.length +
                  (Text.withNewlines ((needle ++ rest).take needle.length) crlf).length := by
                rw [hwritten.cons, List.take_left, List.length_cons, List.length_append]
                omega
              have hlength' : (c :: needle).length - 1 = needle.length := rfl
              have hplace : convertedOffset (front ++ c :: (needle ++ rest)) front.length =
                  (front.withNewlines crlf).length := convertedOffset_length front _
              simp only [Option.map_some, endsName_withNewlines, hlength, hlength', hskipped]
              split
              · rw [List.map_cons, hplace]
              · rfl

theorem anchoredOccurrences_withNewlines {needle : Text} (hreturn : '\r' ∉ needle)
    (source : Text) :
    anchoredOccurrences (source.withNewlines crlf) (needle.withNewlines crlf) =
      (anchoredOccurrences source needle).map (convertedOffset source) := by
  by_cases hne : needle = []
  · rw [hne]
    rfl
  · rw [anchoredOccurrences_of_ne_nil hne, anchoredOccurrences_of_ne_nil
      (mt (Text.withNewlines_eq_nil_iff isLineEnding_crlf needle).1 hne)]
    exact anchoredFrom_withNewlines hreturn hne [] source true 0

/-- Replacing a text converts with the source, and fails alike. -/
theorem spliceRequired_withNewlines {previous : Text} (hreturn : '\r' ∉ previous)
    (source replacement : Text) :
    spliceRequired (source.withNewlines crlf) (previous.withNewlines crlf)
        (replacement.withNewlines crlf) =
      (spliceRequired source previous replacement).map (Text.withNewlines · crlf) := by
  rw [spliceRequired, spliceRequired, splice, splice, anchoredOccurrences_withNewlines hreturn]
  cases hplaces : anchoredOccurrences source previous with
  | nil => rfl
  | cons place places =>
      cases places with
      | nil =>
          obtain ⟨front, rest, rfl, rfl, -, -⟩ := exists_of_mem_anchoredOccurrences
            (hplaces ▸ List.mem_cons_self : place ∈ anchoredOccurrences source previous)
          have hplace : convertedOffset (front ++ previous ++ rest) front.length =
              (Text.withNewlines front crlf).length := by
            rw [List.append_assoc, convertedOffset_length]
          have hreplaced : replaceAt (Text.withNewlines (front ++ previous ++ rest) crlf)
              (Text.withNewlines front crlf).length (previous.withNewlines crlf).length
              (replacement.withNewlines crlf) =
                Text.withNewlines (replaceAt (front ++ previous ++ rest) front.length
                  previous.length replacement) crlf := by
            simp only [Text.withNewlines_append, replaceAt_append]
          rw [List.map_singleton, hplace]
          exact congrArg Except.ok hreplaced
      | cons next places =>
          have hcount : ((place :: next :: places).map (convertedOffset source)).length =
              (place :: next :: places).length := List.length_map _
          exact congrArg (fun count => Except.error (Fault.ambiguousSplice count)) hcount

/-! ## Blocks -/

namespace ImportTable

theorem shorten?_eq_none {bare : Text} {i : Import} (hbare : '\n' ∉ bare)
    (hfull : '\n' ∈ i.fullName) : shorten? bare i = none := by
  have hne : bare ≠ i.fullName := fun heq => hbare (heq ▸ hfull)
  have hafter : Text.after? i.fullName bare = none := by
    rw [Text.after?_eq_none_iff]
    exact fun hstarts => hbare (hstarts.subset hfull)
  rw [shorten?, if_neg hne, below?, hafter]
  rfl

/-- A full name that runs over lines shortens nothing, before and after converting. -/
theorem shorten?_converted {bare : Text} {i : Import} (hbare : '\n' ∉ bare)
    (hlocal : '\n' ∉ i.localName) : shorten? bare i.converted = shorten? bare i := by
  by_cases hfull : '\n' ∈ i.fullName
  · have hconverted : '\n' ∈ i.converted.fullName :=
      List.mem_flatMap.2 ⟨'\n', hfull, by decide⟩
    rw [shorten?_eq_none hbare hfull, shorten?_eq_none hbare hconverted]
  · rw [Import.converted, Text.withNewlines_eq_self hfull, Text.withNewlines_eq_self hlocal]

variable {t : ImportTable} (haliases : ∀ i ∈ t.imports, '\n' ∉ i.localName)
include haliases

theorem collapseName_converted {name : Text} (hname : '\n' ∉ name) :
    t.converted.collapseName name = t.collapseName name := by
  have hbare : '\n' ∉ name.dropWhile (· == '\\') := fun hmem =>
    hname ((List.dropWhile_suffix _).subset hmem)
  have hfound : t.converted.imports.findSome? (shorten? (name.dropWhile (· == '\\'))) =
      t.imports.findSome? (shorten? (name.dropWhile (· == '\\'))) := by
    rw [converted, List.findSome?_map]
    generalize t.imports = imports at haliases
    induction imports with
    | nil => rfl
    | cons i imports ih =>
        rw [List.findSome?_cons, List.findSome?_cons, Function.comp_apply,
          shorten?_converted hbare (haliases i List.mem_cons_self),
          ih fun j hj => haliases j (List.mem_cons_of_mem _ hj)]
  rw [collapseName, collapseName, hfound]
  rfl

omit haliases in
theorem newline_not_mem_typeParts {type : Text} (htype : '\n' ∉ type) :
    '\n' ∉ (typeParts type).1 ∧ ∀ part ∈ (typeParts type).2, '\n' ∉ part.2 := by
  induction type with
  | nil => simp [typeParts]
  | cons c type ih =>
      rw [List.mem_cons, not_or] at htype
      rcases hrest : typeParts type with ⟨name, more⟩
      rw [hrest] at ih
      obtain ⟨hfirst, hmore⟩ := ih htype.2
      rw [typeParts, hrest]
      dsimp only
      split
      · refine ⟨by simp, fun part hpart => ?_⟩
        rcases List.mem_cons.1 hpart with rfl | hpart
        · exact hfirst
        · exact hmore part hpart
      · exact ⟨by simp [htype.1, hfirst], hmore⟩

/-- A type expression within one line is shortened alike. -/
theorem collapse_converted {type : Text} (htype : '\n' ∉ type) :
    t.converted.collapse type = t.collapse type := by
  have hparts : ∀ body : Text, '\n' ∉ body →
      t.converted.collapseParts body = t.collapseParts body := by
    intro body hbody
    obtain ⟨hfirst, hmore⟩ := newline_not_mem_typeParts hbody
    rw [collapseParts, collapseParts, collapseName_converted haliases hfirst]
    refine congrArg _ (List.flatMap_congr fun part hpart => ?_)
    exact congrArg (part.1 :: ·) (collapseName_converted haliases (hmore part hpart))
  have htrim : '\n' ∉ type.trim := fun hmem => htype ((Text.trim_isInfix type).subset hmem)
  rw [collapse, collapse]
  split
  · next body hbody =>
      rw [hbody, List.mem_cons, not_or] at htrim
      rw [hparts body htrim.2]
  · exact hparts _ htrim

end ImportTable

/-- The types of a signature stand within one line. -/
structure Signature.IsOneLined (m : Signature) : Prop where
  parameters : ∀ p ∈ m.parameters, ∀ type ∈ p.type, '\n' ∉ type
  returnType : ∀ type ∈ m.returnType, '\n' ∉ type

theorem Signature.block?_converted {m : Signature} (hm : m.IsOneLined) {imports : ImportTable}
    (haliases : ∀ i ∈ imports.imports, '\n' ∉ i.localName) (className : Text) :
    ({ m with doc := m.doc.map (Text.withNewlines · crlf) } : Signature).block? className
      imports.converted = m.block? className imports := by
  have hdocumented : ({ m with doc := m.doc.map (Text.withNewlines · crlf) } : Signature).documented =
      m.documented := by
    rw [documented, documented, Option.any_map]
    refine congrArg (Option.any · m.doc) (funext fun doc => ?_)
    rw [Text.trim_withNewlines isLineEnding_crlf, Text.isEmpty_withNewlines isLineEnding_crlf]
  have hlines : m.parameters.map (parameterLine imports.converted) =
      m.parameters.map (parameterLine imports) := by
    refine List.map_congr_left fun p hp => ?_
    rw [parameterLine, parameterLine]
    cases htype : p.type with
    | none => rfl
    | some type =>
        rw [Option.map_some, Option.map_some,
          ImportTable.collapse_converted haliases (hm.parameters p hp type htype)]
  have hgroups : ({ m with doc := m.doc.map (Text.withNewlines · crlf) } : Signature).groups
      imports.converted = m.groups imports := by
    rw [groups, groups, hlines]
    cases htype : m.returnType with
    | none => rfl
    | some type =>
        simp only [ImportTable.collapse_converted haliases (hm.returnType type htype)]
  rw [block?, block?, wantsBlock, wantsBlock, hdocumented, hgroups]
  rfl

theorem isBlank_eq_false_of_mem_words {text word : Text} (h : word ∈ text.words) :
    ∀ c ∈ word, isBlank c = false := by
  induction text generalizing word with
  | nil => simp [Text.words] at h
  | cons c text ih =>
      rw [Text.words] at h
      split at h
      · exact ih h
      · next hc =>
          rw [Bool.not_eq_true] at hc
          split at h
          · rcases List.mem_cons.1 h with rfl | h
            · simpa using hc
            · exact ih h
          · cases hwords : Text.words text with
            | nil =>
                rw [hwords, Text.consHead, List.mem_singleton] at h
                rw [h]
                simpa using hc
            | cons first more =>
                rw [hwords, Text.consHead] at h
                rcases List.mem_cons.1 h with rfl | h
                · intro d hd
                  rcases List.mem_cons.1 hd with rfl | hd
                  · exact hc
                  · exact ih (hwords ▸ List.mem_cons_self) d hd
                · exact ih (hwords ▸ List.mem_cons_of_mem _ h)

theorem newline_not_mem_type_of_parse? {piece : Text} {p : Parameter}
    (h : Parameter.parse? piece = some p) : ∀ type ∈ p.type, '\n' ∉ type := by
  rw [Parameter.parse?] at h
  split at h
  · rw [(Parameter.of_ofToken? h).1]
    simp
  · next type token hwords =>
      rw [(Parameter.of_ofToken? h).1]
      rintro type' ⟨⟩ hmem
      have hword : type ∈ Text.words ((Parameter.dropAttributes piece).takeWhile (· != '=')) :=
        (List.dropWhile_suffix _).subset (hwords ▸ List.mem_cons_self)
      exact absurd (isBlank_eq_false_of_mem_words hword _ hmem) (by decide)
  · contradiction

theorem newline_not_mem_returnType {text type : Text} (h : returnType? text = some type) :
    '\n' ∉ type := by
  have hrun : ∀ {text value : Text}, (text.run? isReturnTypeChar).map Prod.fst = some value →
      '\n' ∉ value := by
    intro text value hvalue hmem
    obtain ⟨⟨value', rest⟩, hrun, rfl⟩ := Option.map_eq_some_iff.1 hvalue
    exact absurd ((run?_eq_some_iff.1 hrun).2.2.1 _ hmem) (by decide)
  rw [returnType?_eq, Option.bind_eq_some_iff] at h
  obtain ⟨rest, -, h⟩ := h
  split at h
  · obtain ⟨value, hvalue, rfl⟩ := Option.map_eq_some_iff.1 h
    rw [List.mem_cons, not_or]
    exact ⟨by decide, hrun hvalue⟩
  · exact hrun h

theorem isOneLined_of_readMethod {heads : List (Found Text)} {found : Found MethodHead} {m : Method}
    (h : readMethod heads found = some m) : m.signature.IsOneLined := by
  obtain ⟨-, list, after, parameters, -, hparameters, rfl⟩ := readMethod_eq_some_iff.1 h
  refine ⟨fun p hp => ?_, fun type htype => newline_not_mem_returnType htype⟩
  obtain ⟨piece, -, hpiece⟩ := exists_of_mem_mapM hparameters p hp
  exact newline_not_mem_type_of_parse? hpiece

/-! ## Merging -/

namespace ClassDecl

variable {source : Text} {decl : ClassDecl}

theorem previous_converted (decl : ClassDecl) (source : Text) :
    (decl.converted source).previous = decl.previous.withNewlines crlf := by
  rw [previous, previous]
  cases hdoc : decl.doc with
  | none => simp [converted, hdoc]
  | some doc => simp [converted, hdoc, Text.withNewlines_append]

/-- Blocks are written with the line ending of the source. -/
theorem replacement_converted (hnewline : decl.newline = ['\n']) (source block : Text) :
    (decl.converted source).replacement block = (decl.replacement block).withNewlines crlf := by
  rw [replacement, replacement, withNewlines, withNewlines, hnewline, Text.withNewlines_newline,
    Text.withNewlines_append, Text.withNewlines_append]
  rfl

/-- A comment is divided into the same lines. -/
theorem render_classBlock_converted (hdoc : ∀ doc ∈ decl.doc, '\r' ∉ doc) (source : Text)
    (settings : Settings) (discovery : Discovery) :
    ((decl.converted source).classBlock .plain settings discovery).render =
      (decl.classBlock .plain settings discovery).render := by
  have hgroups : TagGroups.ofBlock ((decl.doc.map (Text.withNewlines · crlf)).getD []) =
      TagGroups.ofBlock (decl.doc.getD []) := by
    cases h : decl.doc with
    | none => rfl
    | some doc =>
        have hlines : (Text.withNewlines doc crlf).lines = doc.lines :=
          Text.lines_withNewlines_return fun hpair =>
            hdoc doc h (hpair.subset List.mem_cons_self)
        rw [Option.map_some, Option.getD_some, Option.getD_some, TagGroups.ofBlock_eq_ofPairs,
          TagGroups.ofBlock_eq_ofPairs, hlines]
  have hexisting : TagGroups.ofBlock
      (((decl.converted source).classBlock .plain settings discovery).existing.getD []) =
        TagGroups.ofBlock ((decl.classBlock .plain settings discovery).existing.getD []) := hgroups
  rw [ClassBlock.render, ClassBlock.render, ClassBlock.groups, ClassBlock.groups, hexisting]
  rfl

theorem spliceMethod_converted {m : Method} (hm : m.signature.IsOneLined)
    (hanchor : '\r' ∉ m.anchor) (haliases : ∀ i ∈ decl.imports.imports, '\n' ∉ i.localName)
    (hnewline : decl.newline = ['\n']) (source text : Text) :
    (decl.converted source).spliceMethod (text.withNewlines crlf) (m.converted source) =
      (decl.spliceMethod text m).map (Text.withNewlines · crlf) := by
  have hblock : (m.converted source).signature.block? (decl.converted source).name
      (decl.converted source).imports = m.signature.block? decl.name decl.imports :=
    Signature.block?_converted hm haliases decl.name
  rw [spliceMethod, spliceMethod, hblock]
  cases m.signature.block? decl.name decl.imports with
  | none => rfl
  | some block =>
      have hreplacement : (decl.converted source).withNewlines block ++
          (decl.converted source).newline ++ (m.converted source).anchor =
            Text.withNewlines (decl.withNewlines block ++ decl.newline ++ m.anchor) crlf := by
        rw [withNewlines, withNewlines, hnewline, Text.withNewlines_newline,
          Text.withNewlines_append, Text.withNewlines_append]
        rfl
      simp only [hreplacement]
      exact spliceRequired_withNewlines hanchor text _

theorem foldlM_spliceMethod_converted {methods : List Method}
    (hmethods : ∀ m ∈ methods, m.signature.IsOneLined ∧ '\r' ∉ m.anchor)
    (haliases : ∀ i ∈ decl.imports.imports, '\n' ∉ i.localName)
    (hnewline : decl.newline = ['\n']) (source text : Text) :
    (methods.map (·.converted source)).foldlM (decl.converted source).spliceMethod
        (text.withNewlines crlf) =
      (methods.foldlM decl.spliceMethod text).map (Text.withNewlines · crlf) := by
  induction methods generalizing text with
  | nil => rfl
  | cons m methods ih =>
      obtain ⟨hm, hanchor⟩ := hmethods m List.mem_cons_self
      rw [List.map_cons, List.foldlM_cons, List.foldlM_cons,
        spliceMethod_converted hm hanchor haliases hnewline]
      cases decl.spliceMethod text m with
      | error fault => rfl
      | ok next => exact ih (fun m hm => hmethods m (List.mem_cons_of_mem _ hm)) next

/-- The text that a class block replaces stands in the source. -/
theorem previous_isInfix {path : Text} (h : ClassDecl.read path source = .ok decl) :
    decl.previous <:+: source := by
  obtain ⟨home, head, -, hhead, rfl⟩ := exists_heads_of_read h
  have hbehind := (splitAttributes_spec hhead.startsLine (Prod.mk.eta).symm).1
  obtain ⟨rest, hrest⟩ : head.text <+: head.ahead := List.take_prefix _ _
  have hsource : source = (splitAttributes head.behind).1.reverse ++
      (ofHead path source home.value head).anchor ++ rest := by
    rw [anchor_ofHead, hhead.source_eq, hbehind, ← hrest]
    simp
  cases hdoc : precedingDoc? (splitAttributes head.behind).1 with
  | none =>
      have hnone : (ofHead path source home.value head).doc = none := by
        rw [doc_ofHead, hdoc, Option.map_none]
      rw [previous, hnone]
      exact ⟨_, rest, hsource.symm⟩
  | some d =>
      obtain ⟨front, hfront, -, -⟩ := precedingDoc?_spec hdoc
      have hsome : (ofHead path source home.value head).doc = some d.comment := by
        rw [doc_ofHead, hdoc, Option.map_some]
      have hgap : (ofHead path source home.value head).separator = d.gap := by
        rw [separator_ofHead, hdoc, Option.map_some, Option.getD_some]
      rw [previous, hsome, hgap]
      refine ⟨front, rest, ?_⟩
      conv_rhs => rw [hsource, hfront]
      simp

/-- Splicing all blocks converts with the source, and fails alike. -/
theorem spliceBlocks_converted {path : Text} (h : ClassDecl.read path source = .ok decl)
    (hreturn : '\r' ∉ source) (haliases : ∀ i ∈ decl.imports.imports, '\n' ∉ i.localName)
    (settings : Settings) (discovery : Discovery) :
    (decl.converted source).spliceBlocks (source.withNewlines crlf)
        ((decl.converted source).classBlock .plain settings discovery) =
      (decl.spliceBlocks source (decl.classBlock .plain settings discovery)).map
        (Text.withNewlines · crlf) := by
  have hprevious : '\r' ∉ decl.previous := fun hmem => hreturn ((previous_isInfix h).subset hmem)
  have hdoc : ∀ doc ∈ decl.doc, '\r' ∉ doc := by
    intro doc hdoc hmem
    refine hprevious ?_
    rw [previous, Option.mem_def.1 hdoc]
    simp [hmem]
  have hnewline : decl.newline = ['\n'] := by
    obtain ⟨home, head, -, -, rfl⟩ := exists_heads_of_read h
    exact newlineOf_of_not_mem hreturn
  have hmethods : ∀ m ∈ decl.methods, m.signature.IsOneLined ∧ '\r' ∉ m.anchor := by
    intro m hm
    obtain ⟨above, below, hstands⟩ := exists_stands_of_mem_methods h m hm
    refine ⟨?_, fun hmem => hreturn (by rw [hstands.source_eq]; simp [hmem])⟩
    rw [methods_of_read h] at hm
    obtain ⟨found, -, hfound⟩ := List.mem_filterMap.1 hm
    exact isOneLined_of_readMethod hfound
  rw [spliceBlocks, spliceBlocks, render_classBlock_converted hdoc, previous_converted,
    replacement_converted hnewline, spliceRequired_withNewlines hprevious]
  cases spliceRequired source decl.previous
      (decl.replacement (decl.classBlock .plain settings discovery).render) with
  | error fault => rfl
  | ok text => exact foldlM_spliceMethod_converted hmethods haliases hnewline source text

end ClassDecl

/-- **Merging commutes with converting line endings.**  For a source without carriage returns whose
imports have names within one line, the merge of a plain class gives the converted text where it
gives a text, and the same fault where it fails. -/
theorem mergeSource_withNewlines {σ : Type} [SchemaSource σ] (settings : Settings)
    (cache : SchemaCache σ) (tree : FileTree) (path : Path) (source : Text) (hreturn : '\r' ∉ source)
    (haliases : ∀ decl, ClassDecl.read path.text source = .ok decl →
      ∀ i ∈ decl.imports.imports, '\n' ∉ i.localName) :
    mergeSource settings cache tree path .plain (source.withNewlines crlf) =
      (mergeSource settings cache tree path .plain source).map
        (Except.map fun merged => { merged with text := merged.text.withNewlines crlf }) id := by
  rw [mergeSource, mergeSource, ClassDecl.read_withNewlines hreturn]
  cases hread : ClassDecl.read path.text source with
  | error fault => rfl
  | ok decl =>
      have hsplice := ClassDecl.spliceBlocks_converted hread hreturn (haliases decl hread) settings
        (.discovered decl.properties)
      change (Except.map _ ((decl.converted source).spliceBlocks (source.withNewlines crlf)
        ((decl.converted source).classBlock .plain settings (.discovered decl.properties))),
          cache) = _
      rw [hsplice]
      change _ = (Except.map _ (Except.map _ (decl.spliceBlocks source
        (decl.classBlock .plain settings (.discovered decl.properties)))), cache)
      cases decl.spliceBlocks source
        (decl.classBlock .plain settings (.discovered decl.properties)) <;> rfl

/-- A class whose imports, head and parameters run over lines, with a doc comment and an attribute
above it. -/
def spreadClass : Text :=
  ("<?php\nnamespace A;\nuse B\\\x7bC,\n    D as E\x7d;\n/**\n * Foo\n */\n#[X]\nfinal\n  class U\n\x7b\n" ++
    "    public ?int $n;\n\n    #[Y]\n    public function f(\\B\\D $d,\n        $e = 'a\n')\n" ++
    "        : \\B\\C\n\x7d\n").toList

theorem spreadClass_mergeSource_withNewlines :
    '\r' ∉ spreadClass ∧
      (mergeSource .default (.fresh ⟨[]⟩ ∅ : SchemaCache) (.empty []) ⟨"U.php".toList⟩ .plain
        spreadClass).1.isOk = true ∧
      mergeSource .default (.fresh ⟨[]⟩ ∅ : SchemaCache) (.empty []) ⟨"U.php".toList⟩ .plain
          (spreadClass.withNewlines crlf) =
        (mergeSource .default (.fresh ⟨[]⟩ ∅) (.empty []) ⟨"U.php".toList⟩ .plain spreadClass).map
          (Except.map fun merged => { merged with text := merged.text.withNewlines crlf }) id := by
  have hreturn : '\r' ∉ spreadClass := by decide +kernel
  have hlocal : (ClassDecl.read "U.php".toList spreadClass).toOption.map
      (fun decl => decl.imports.imports.map Import.localName) =
        some ["C".toList, "E".toList] := by decide +kernel
  refine ⟨hreturn, by decide +kernel, mergeSource_withNewlines _ _ _ _ _ hreturn ?_⟩
  intro decl hread i hi hmem
  rw [hread, Except.toOption, Option.map_some, Option.some.injEq] at hlocal
  have hname := List.mem_map_of_mem (f := Import.localName) hi
  rw [hlocal, List.mem_cons, List.mem_singleton] at hname
  rcases hname with hname | hname
  · exact absurd (hname ▸ hmem) (by decide)
  · exact absurd (hname ▸ hmem) (by decide)

end PhpDoc
