import Mathlib
import PhpDoc.Proofs.Balance
import PhpDoc.Proofs.Insertion
import PhpDoc.Proofs.Undocumented

/-!
# A class declaration as slices of its source

Every text that a class declaration carries stands in the source at the offset given with it.  The
text that a class block replaces is the doc comment, the blanks after it and the anchor, or the
anchor alone; the anchor is all attribute lines above the class head, and the head.  The anchors of
the methods follow one another, each from the start of a line to the end of one.  No subtraction
that leads to an offset is cut off at zero, and no slice reaches beyond the source.
-/

namespace PhpDoc

/-! ## Attribute lines and doc comments -/

/-- The attribute lines are all that stand directly below `front`, which ends a line. -/
structure AreAttributesBelow (front attributes : Text) : Prop where
  starts : LineStartsAfter front
  lines : AttributeLines attributes
  maximal : EndsPlain front

/-- What was found stands below its attribute lines. -/
theorem Found.StandsIn.areAttributesBelow {α : Type} {read : Text → Option (α × Text)}
    {found : Found α} {source above attributes : Text} (h : found.StandsIn read source)
    (hsplit : splitAttributes found.behind = (above, attributes)) :
    source = above.reverse ++ (attributes ++ found.ahead) ∧
      found.start = above.length + attributes.length ∧
      AreAttributesBelow above.reverse attributes := by
  obtain ⟨hbehind, hstarts, hlines⟩ := splitAttributes_spec h.startsLine hsplit
  refine ⟨?_, ?_, lineStartsAfter_reverse_iff.2 hstarts, hlines,
    endsPlain_of_takeAttributes le_rfl hsplit⟩
  · rw [h.source_eq, hbehind, List.append_assoc]
  · rw [h.start_eq, ← List.length_reverse, hbehind, List.length_append, List.length_reverse]

/-- The doc comment above a declaration is the one that ends the text there up to blanks. -/
theorem precedingDoc?_eq_some_iff {behind : Text} {d : PrecedingDoc} :
    precedingDoc? behind = some d ↔ IsDocComment d.comment ∧ (∀ c ∈ d.gap, isBlank c = true) ∧
      ∃ before, behind.reverse = before ++ d.comment ++ d.gap := by
  constructor
  · intro h
    obtain ⟨before, hbehind, hgap, hcomment⟩ := precedingDoc?_spec h
    exact ⟨hcomment, hgap, before, hbehind⟩
  · rintro ⟨hcomment, hgap, before, hbehind⟩
    have hfound := precedingDoc?_append hcomment hgap before
    rwa [← hbehind, List.reverse_reverse] at hfound

/-! ## The class head -/

/-- A class head: modifiers, the keyword and the name, with blanks between the words. -/
inductive IsClassHead (name : Text) : Text → Prop
  | plain {blanks : Text} : blanks ≠ [] → (∀ c ∈ blanks, isBlank c = true) →
      Text.isIdentifier name = true → IsClassHead name ("class".toList ++ blanks ++ name)
  | modified {modifier blanks head : Text} : modifier ∈ classModifiers → blanks ≠ [] →
      (∀ c ∈ blanks, isBlank c = true) → IsClassHead name head →
      IsClassHead name (modifier ++ blanks ++ head)

/-- Modifiers that were read can be put back in front of a class head. -/
theorem exists_classHead_of_takeModifiers {name head rest : Text} (hhead : IsClassHead name head)
    (fuel text : Text) (h : (takeModifiers classModifiers fuel text).2 = head ++ rest) :
    ∃ whole, IsClassHead name whole ∧ text = whole ++ rest := by
  induction fuel generalizing text with
  | nil => exact ⟨head, hhead, h⟩
  | cons _ fuel ih =>
      rw [takeModifiers] at h
      split at h
      · next modifier after hkeyword =>
          obtain ⟨hmem, blanks, hne, hblanks, rfl⟩ := keywordThenBlanks?_eq_some hkeyword
          obtain ⟨whole, hwhole, rfl⟩ := ih after h
          exact ⟨modifier ++ blanks ++ whole, .modified hmem hne hblanks hwhole, by simp⟩
      · exact ⟨head, hhead, h⟩

theorem exists_classHead_of_readClassHead? {text name rest : Text}
    (h : readClassHead? text = some (name, rest)) :
    ∃ head, IsClassHead name head ∧ text = head ++ rest ∧
      ∀ c ∈ rest.head?, isWordChar c = false := by
  simp only [readClassHead?, readHead?, Option.bind_eq_bind, Option.bind_eq_some_iff,
    Prod.exists] at h
  obtain ⟨keyword, after, hkeyword, name', rest', hname, h⟩ := h
  split at h
  · contradiction
  · next hends =>
      simp only [Option.some.injEq, Prod.mk.injEq] at h
      obtain ⟨rfl, rfl⟩ := h
      obtain ⟨rfl, hident, -⟩ := identifier?_eq_some_iff.1 hname
      obtain ⟨hmem, blanks, hne, hblanks, hmodified⟩ := keywordThenBlanks?_eq_some hkeyword
      obtain rfl := List.mem_singleton.1 hmem
      obtain ⟨head, hhead, htext⟩ := exists_classHead_of_takeModifiers
        (.plain hne hblanks hident) text text (hmodified.trans (List.append_assoc _ _ _).symm)
      refine ⟨head, hhead, htext, fun c hc => ?_⟩
      rw [Option.mem_def] at hc
      simpa [hc] using hends

/-- Nothing can be read at a line start before the first find of a scan. -/
theorem read_eq_none_of_scanFirst? {α : Type} {read : Text → Option (α × Text)}
    {source above ahead : Text} {f : Found α} (h : scanFirst? read source = some f)
    (hsource : source = above ++ ahead) (hstarts : LineStartsAfter above)
    (hlt : above.length < f.start) : read ahead = none := by
  have hstands := standsIn_of_scanFirst? h
  have hne : ahead ≠ [] := by
    rintro rfl
    have hlength := congrArg List.length (hsource.symm.trans hstands.source_eq)
    simp only [List.append_nil, List.length_append, List.length_reverse] at hlength
    have hstart := hstands.start_eq
    omega
  have hfirst : ∀ g ∈ scan read source, f.start ≤ g.start := by
    rw [scanFirst?] at h
    obtain ⟨more, hscan⟩ := List.head?_eq_some_iff.1 h
    have hpairs := pairwise_scan read source
    rw [hscan, List.pairwise_cons] at hpairs
    intro g hg
    rw [hscan] at hg
    rcases List.mem_cons.1 hg with rfl | hg
    · exact le_rfl
    · exact (hpairs.1 g hg).1.le
  rw [Option.eq_none_iff_forall_ne_some]
  rintro ⟨value, rest⟩ hread
  have hline : startsLine (above.reverse ++ []) = true := by
    rw [List.append_nil, ← lineStartsAfter_reverse_iff, List.reverse_reverse]
    exact hstarts
  subst hsource
  rcases @exists_mem_scanFrom α read 0 0 [] above ahead rest value hne hline hread with
    hskip | ⟨g, hg, hstart⟩ | ⟨g, hg, hstart, -⟩
  · exact absurd hskip (Nat.not_lt_zero _)
  · have hle := hfirst g hg
    omega
  · have hle := hfirst g hg
    omega

/-! ## The class -/

/-- How a class stands in its source: `front` precedes its attribute lines, and `rest` follows the
name in its head. -/
structure ClassDecl.Stands (decl : ClassDecl) (source front attributes head rest : Text) :
    Prop where
  source_eq : source = front ++ decl.anchor ++ rest
  anchor_eq : decl.anchor = attributes ++ head
  areAttributes : AreAttributesBelow front attributes
  isClassHead : IsClassHead decl.name head
  ends : ∀ c ∈ rest.head?, isWordChar c = false
  first : ∀ above ahead, source = above ++ ahead → LineStartsAfter above →
    above.length < front.length + attributes.length → readClassHead? ahead = none
  doc_eq : ∀ doc, decl.doc = some doc → IsDocComment doc ∧
    (∀ c ∈ decl.separator, isBlank c = true) ∧
    ∃ before, front = before ++ doc ++ decl.separator ∧ before.length = decl.offset
  no_doc : decl.doc = none → front.length = decl.offset
  doc_of_above : ∀ before comment gap, IsDocComment comment → (∀ c ∈ gap, isBlank c = true) →
    front = before ++ comment ++ gap → decl.doc = some comment ∧ decl.separator = gap

theorem ClassDecl.exists_stands_of_read {path source : Text} {decl : ClassDecl}
    (h : read path source = .ok decl) :
    ∃ front attributes head rest, decl.Stands source front attributes head rest := by
  obtain ⟨home, found, -, hfirst, rfl⟩ := exists_scanFirst?_of_read h
  have hfound := standsIn_of_scanFirst? hfirst
  obtain ⟨head, hhead, hahead, hends⟩ := exists_classHead_of_readClassHead? hfound.read_eq
  rcases hsplit : splitAttributes found.behind with ⟨above, attributes⟩
  obtain ⟨hsource, hlength, hattributes⟩ := hfound.areAttributesBelow hsplit
  have hanchor : (ofHead path source home.value found).anchor = attributes ++ head := by
    rw [anchor_ofHead, hsplit, Found.text_eq hahead]
  have hoffset : (ofHead path source home.value found).offset = found.start - attributes.length -
      ((precedingDoc? above).map PrecedingDoc.length).getD 0 := by
    rw [ofHead, hsplit]
  refine ⟨above.reverse, attributes, head, found.rest, ?_, hanchor, hattributes, hhead, hends,
    fun a b heq hstarts hlt => ?_, fun doc hdoc => ?_, fun hdoc => ?_,
    fun before comment gap hcomment hgap hfront => ?_⟩
  · rw [hanchor, hsource, hahead]
    simp
  · rw [List.length_reverse, ← hlength] at hlt
    exact read_eq_none_of_scanFirst? hfirst heq hstarts hlt
  · rw [doc_ofHead, hsplit] at hdoc
    obtain ⟨d, hd, rfl⟩ := Option.map_eq_some_iff.1 hdoc
    have hgap : (ofHead path source home.value found).separator = d.gap := by
      rw [separator_ofHead, hsplit]
      simp only [hd, Option.map_some, Option.getD_some]
    obtain ⟨hcomment, hblank, before, hbefore⟩ := precedingDoc?_eq_some_iff.1 hd
    rw [hgap]
    refine ⟨hcomment, hblank, before, hbefore, ?_⟩
    have hlengths := congrArg List.length hbefore
    simp only [List.length_append, List.length_reverse] at hlengths
    rw [hoffset, hd, Option.map_some, Option.getD_some, PrecedingDoc.length]
    omega
  · rw [doc_ofHead, hsplit, Option.map_eq_none_iff] at hdoc
    rw [hoffset, hdoc, Option.map_none, Option.getD_none, List.length_reverse]
    omega
  · have hd := (precedingDoc?_eq_some_iff (d := ⟨comment, gap⟩)).2
      ⟨hcomment, hgap, before, hfront⟩
    rw [doc_ofHead, separator_ofHead, hsplit]
    simp only [hd, Option.map_some, Option.getD_some, and_self]

/-- What a class block replaces stands at the offset of the class. -/
theorem ClassDecl.Stands.exists_previous {decl : ClassDecl}
    {source front attributes head rest : Text}
    (h : decl.Stands source front attributes head rest) :
    ∃ before, source = before ++ decl.previous ++ rest ∧ before.length = decl.offset := by
  rw [previous]
  cases hdoc : decl.doc with
  | none => exact ⟨front, h.source_eq, h.no_doc hdoc⟩
  | some doc =>
      obtain ⟨-, -, before, hfront, hlength⟩ := h.doc_eq doc hdoc
      refine ⟨before, ?_, hlength⟩
      rw [h.source_eq, hfront]
      simp

/-! ## The methods -/

/-- How a method stands in its source: `front` precedes its attribute lines, and `rest` starts with
the ending of its declaration line. -/
structure Method.IsSlice (m : Method) (source front attributes rest : Text) : Prop where
  source_eq : source = front ++ m.anchor ++ rest
  length_eq : front.length = m.offset
  anchor_eq : m.anchor = attributes ++ m.signature.declarationLine
  areAttributes : AreAttributesBelow front attributes
  newline_not_mem : '\n' ∉ m.signature.declarationLine
  ends : EndsLine m.signature.declarationLine rest
  list : ∃ between list right after, right ∈ rightBrackets ∧
    m.signature.declarationLine ++ rest = between ++ '(' :: (list ++ right :: after) ∧
    '(' ∉ between ∧ readParameters? list = some m.signature.parameters ∧
    m.signature.returnType = returnType? after
  doc_iff : ∀ doc, m.signature.doc = some doc ↔ IsDocComment doc ∧
    ∃ before gap, front = before ++ doc ++ gap ∧ ∀ c ∈ gap, isBlank c = true

theorem exists_isSlice_of_mem_readMethods {source : Text} {heads : List (Found Text)} {m : Method}
    (h : m ∈ readMethods source heads) :
    ∃ front attributes rest, m.IsSlice source front attributes rest := by
  obtain ⟨found, hmem, hread⟩ := List.mem_filterMap.1 h
  have hfound := standsIn_of_mem_scan hmem
  obtain ⟨-, list, after, parameters, hlist, hparameters, rfl⟩ := readMethod_eq_some_iff.1 hread
  rcases hsplit : splitAttributes found.behind with ⟨above, attributes⟩
  obtain ⟨hsource, hlength, hattributes⟩ := hfound.areAttributesBelow hsplit
  obtain ⟨rest, hahead, hends⟩ := exists_endsLine_firstLine found.ahead
  refine ⟨above.reverse, attributes, rest, ?_, ?_, rfl, hattributes, ?_, hends, ?_,
    fun doc => ?_⟩
  · dsimp only
    rw [hsource]
    conv_lhs => rw [hahead]
    simp
  · dsimp only
    rw [List.length_reverse, hlength]
    omega
  · exact (isDeclarationLine_of_readMethod? hfound.read_eq).newline_not_mem
  · obtain ⟨between, hbetween, hparen⟩ := leadsTo_of_readMethod? (Or.inl rfl) hfound.read_eq
    obtain ⟨right, hright, hrest⟩ := exists_right_of_enclosed? hlist
    refine ⟨between, list, right, after, hright, ?_, hparen, hparameters, rfl⟩
    rw [← hahead, hbetween, hrest]
  · dsimp only
    rw [Option.map_eq_some_iff]
    constructor
    · rintro ⟨d, hd, rfl⟩
      obtain ⟨hcomment, hgap, before, hbefore⟩ := precedingDoc?_eq_some_iff.1 hd
      exact ⟨hcomment, before, d.gap, hbefore, hgap⟩
    · rintro ⟨hcomment, before, gap, hfront, hgap⟩
      exact ⟨⟨doc, gap⟩, precedingDoc?_eq_some_iff.2 ⟨hcomment, hgap, before, hfront⟩, rfl⟩

/-! ## All slices -/

namespace ClassDecl

/-- A class declaration is made of slices of its source: what its block replaces, its anchor and the
doc comment above it, and the anchors of its methods in their order. -/
theorem read_gives_slices {path source : Text} {decl : ClassDecl}
    (h : read path source = .ok decl) :
    (∃ front attributes head rest, decl.Stands source front attributes head rest ∧
      ∃ before, source = before ++ decl.previous ++ rest ∧ before.length = decl.offset ∧
        decl.offset + decl.previous.length ≤ source.length) ∧
    (∀ m ∈ decl.methods, m.offset + m.anchor.length ≤ source.length ∧
      ∃ front attributes rest, m.IsSlice source front attributes rest) ∧
    decl.methods.Pairwise fun m n => m.offset + m.anchor.length ≤ n.offset := by
  refine ⟨?_, fun m hm => ?_, pairwise_methods h⟩
  · obtain ⟨front, attributes, head, rest, hstands⟩ := exists_stands_of_read h
    obtain ⟨before, hsource, hlength⟩ := hstands.exists_previous
    refine ⟨front, attributes, head, rest, hstands, before, hsource, hlength, ?_⟩
    rw [hsource, List.length_append, List.length_append, hlength]
    exact Nat.le_add_right _ _
  · rw [methods_of_read h] at hm
    obtain ⟨front, attributes, rest, hslice⟩ := exists_isSlice_of_mem_readMethods hm
    refine ⟨?_, front, attributes, rest, hslice⟩
    rw [hslice.source_eq, List.length_append, List.length_append, hslice.length_eq]
    exact Nat.le_add_right _ _

/-- A class with both line endings, an opening delimiter before its doc comment, attributes, and a
method on a last line that a carriage return ends. -/
def mixedEndings : Text :=
  ("<?php\r\nnamespace A;\r\n/* /** a */ \r\n#[B]\r\nfinal class X\r\n\x7b\n  #[C]\n" ++
    "  function f(int $a)\r\n\x7d\nabstract function g(): int\r").toList

theorem mixedEndings_gives_slices : ∃ decl, read "X.php".toList mixedEndings = .ok decl ∧
    decl.previous = "/** a */ \r\n#[B]\r\nfinal class X".toList ∧
    (∃ before rest, mixedEndings = before ++ decl.previous ++ rest ∧ before.length = 24) ∧
    decl.methods.map Method.anchor =
      ["  #[C]\n  function f(int $a)".toList, "abstract function g(): int".toList] ∧
    (∀ m ∈ decl.methods, ∃ front attributes rest,
      m.IsSlice mixedEndings front attributes rest) ∧
    decl.methods.Pairwise fun m n => m.offset + m.anchor.length ≤ n.offset := by
  have hparts : (read "X.php".toList mixedEndings).map (fun decl =>
      (decl.offset, decl.previous, decl.methods.map Method.anchor)) =
      .ok (24, "/** a */ \r\n#[B]\r\nfinal class X".toList,
        ["  #[C]\n  function f(int $a)".toList, "abstract function g(): int".toList]) := by
    decide +kernel
  cases hread : read "X.php".toList mixedEndings with
  | error fault =>
      rw [hread, Except.map] at hparts
      contradiction
  | ok decl =>
      rw [hread, Except.map, Except.ok.injEq, Prod.mk.injEq, Prod.mk.injEq] at hparts
      obtain ⟨hoffset, hprevious, hanchors⟩ := hparts
      obtain ⟨⟨-, -, -, rest, -, before, hsource, hlength, -⟩, hmethods, horder⟩ :=
        read_gives_slices hread
      exact ⟨decl, rfl, hprevious, ⟨before, rest, hsource, hlength.trans hoffset⟩, hanchors,
        fun m hm => (hmethods m hm).2, horder⟩

end ClassDecl

end PhpDoc
