import Mathlib
import PhpDoc.Proofs.Columns
import PhpDoc.Proofs.Layout
import PhpDoc.Proofs.Rerendering
import PhpDoc.Proofs.WrittenComments

/-!
# What a method block states

The block of a method has one line for each parameter, in the order of the declaration, and one for
the returned type; a separator stands between the two when both are there.  Aligning a line changes
only blanks, so the words of a parameter line are those that were put into it: the tag, the type in
its short form, and the variable as it is declared.
-/

namespace PhpDoc

/-! ## Words -/

/-- A blank divides the words of a text. -/
theorem Text.words_append_cons {b : Char} (hb : isBlank b = true) (front rest : Text) :
    words (front ++ b :: rest) = words front ++ words rest := by
  induction front with
  | nil => simp [words, hb]
  | cons c front ih =>
      by_cases hc : isBlank c = true
      · simp only [List.cons_append, words, hc, if_true, ih]
      · cases front with
        | nil => simp [words, hc, hb]
        | cons d front =>
            by_cases hd : isBlank d = true
            · simpa [words, hc, hd] using ih
            · -- the word goes on, so the character joins the first word of what follows it
              have hjoin : ∀ text : Text, words (c :: d :: text) = consHead c (words (d :: text)) := by
                intro text
                rw [words, if_neg hc, if_neg (by simpa using hd)]
              have hne : words (d :: front) ≠ [] := by
                rw [words, if_neg hd]
                split_ifs
                · exact List.cons_ne_nil _ _
                · cases words front <;> exact List.cons_ne_nil _ _
              obtain ⟨word, more, hwords⟩ := List.exists_cons_of_ne_nil hne
              rw [List.cons_append, List.cons_append, hjoin, hjoin, ← List.cons_append, ih, hwords]
              rfl

theorem Text.words_append_append {blanks : Text} (hne : blanks ≠ [])
    (hblanks : ∀ c ∈ blanks, isBlank c = true) (front rest : Text) :
    words (front ++ blanks ++ rest) = words front ++ words rest := by
  obtain ⟨b, blanks, rfl⟩ := List.exists_cons_of_ne_nil hne
  rw [List.append_assoc, List.cons_append, words_append_cons (hblanks b List.mem_cons_self),
    words_append_of_blank fun c hc => hblanks c (List.mem_cons_of_mem _ hc)]

/-- Alignment keeps the words of a line. -/
theorem words_alignLine (width : Nat) (line : Text) :
    (alignLine width line).words = line.words := by
  rcases alignLine_cases width line with hsame | ⟨front, blanks, token, n, hne, hblanks, rfl, halign⟩
  · rw [hsame]
  · have hspaces : ∀ c ∈ List.replicate (n + 1) ' ', isBlank c = true := by
      intro c hc
      rw [List.eq_of_mem_replicate hc]
      decide
    rw [halign, Text.words_append_append (by simp) hspaces, Text.words_append_append hne hblanks]

/-! ## Lines between delimiters -/

/-- Lines that are no separators stay as they are when none is due. -/
theorem spaceOut_eq_self {lines : List Text} (h : separatorLine ∉ lines) (started : Bool) :
    spaceOut started false lines = lines := by
  induction lines generalizing started with
  | nil => rfl
  | cons line rest ih =>
      obtain ⟨hline, hrest⟩ := not_or.1 (mt List.mem_cons.2 h)
      rw [spaceOut, if_neg (Ne.symm hline), if_neg (by decide), ih hrest]

/-- A separator after the first lines shows when other lines follow. -/
theorem spaceOut_append_separator {first second : List Text} (hfirst : separatorLine ∉ first)
    (hsecond : separatorLine ∉ second) (hne : first ≠ []) :
    spaceOut false false (first ++ separatorLine :: second) =
      first ++ (if second = [] then [] else [separatorLine]) ++ second := by
  have hstarted : (first.foldl spacingAfter (false, false)).1 = true := by
    obtain ⟨line, more, rfl⟩ := List.exists_cons_of_ne_nil hne
    rw [foldl_spacingAfter_fst, contentLines_cons (List.ne_of_not_mem_cons hfirst).symm]
    rfl
  rw [spaceOut_append, spaceOut_eq_self hfirst, hstarted, spaceOut, if_pos rfl, List.append_assoc]
  congr 1
  cases second with
  | nil => rfl
  | cons line more =>
      obtain ⟨hline, hmore⟩ := not_or.1 (mt List.mem_cons.2 hsecond)
      rw [spaceOut, if_neg (Ne.symm hline), if_pos rfl, spaceOut_eq_self hmore]
      rfl

namespace Signature

variable {m : Signature} {imports : ImportTable}

/-! ## The groups of a method -/

/-- The aligned lines of the parameters. -/
def parameterLines (m : Signature) (imports : ImportTable) : List Text :=
  align (m.parameters.map (parameterLine imports)) none

/-- The line of the returned type, if there is one. -/
def returnLines (m : Signature) (imports : ImportTable) : List Text :=
  m.returnType.toList.map fun type => tagLine "@return".toList (imports.collapse type)

theorem lines_groups (m : Signature) (imports : ImportTable) :
    (m.groups imports).lines "@param".toList = m.parameterLines imports ∧
      (m.groups imports).lines "@return".toList = m.returnLines imports ∧
      (m.groups imports).unordered methodOrder = [] := by
  have hkeys : ∀ lines : List Text,
      (TagGroups.empty.set "@param".toList lines).keys = ["@param".toList] := fun lines => rfl
  cases hreturn : m.returnType with
  | none =>
      simp only [groups, returnLines, hreturn, TagGroups.unordered, hkeys, TagGroups.lines_set_self]
      exact ⟨rfl, rfl, by decide⟩
  | some type =>
      simp only [groups, returnLines, hreturn, TagGroups.unordered, TagGroups.keys_set, hkeys,
        TagGroups.lines_set_self]
      refine ⟨?_, rfl, by decide⟩
      rw [TagGroups.lines_set_of_ne _ (by decide), TagGroups.lines_set_self]
      rfl

theorem bodyLines_groups (m : Signature) (imports : ImportTable) :
    (m.groups imports).bodyLines methodOrder =
      (if m.parameterLines imports = [] then []
        else m.parameterLines imports ++ [separatorLine]) ++ m.returnLines imports := by
  obtain ⟨hparam, hreturn, hunordered⟩ := m.lines_groups imports
  have hordered : (m.groups imports).bodyLines methodOrder =
      (m.groups imports).orderedLines "@param".toList true ++
        ((m.groups imports).orderedLines "@return".toList false ++ []) ++
        (m.groups imports).unorderedLines methodOrder := rfl
  rw [hordered, TagGroups.unorderedLines, hunordered]
  simp only [TagGroups.orderedLines, hparam, hreturn]
  cases m.parameterLines imports <;> cases m.returnLines imports <;> simp

/-! ## The lines of a method -/

/-- What is written about the method stands on lines of its own: the names and types of the
parameters have no blanks, none of these types is empty, and the returned type breaks no line. -/
structure IsStatable (m : Signature) (imports : ImportTable) : Prop where
  names : ∀ p ∈ m.parameters, ∀ c ∈ p.name, isBlank c = false
  types : ∀ type ∈ m.parameters.filterMap Parameter.type,
    imports.collapse type ≠ [] ∧ ∀ c ∈ imports.collapse type, isBlank c = false
  returned : ∀ type ∈ m.returnType.toList,
    '\n' ∉ imports.collapse type ∧ (imports.collapse type).getLast? ≠ some '\r'

/-- The words that state a parameter: its type is `mixed` when it declares none. -/
def parameterWords (imports : ImportTable) (p : Parameter) : List Text :=
  ["*".toList, "@param".toList, (p.type.map imports.collapse).getD "mixed".toList,
    (if p.byReference then "&".toList else []) ++ (if p.variadic then "...".toList else []) ++
      "$".toList ++ p.name]

theorem isBlank_of_mem_token {p : Parameter} (hname : ∀ c ∈ p.name, isBlank c = false) :
    ∀ c ∈ p.token, isBlank c = false := by
  intro c hc
  simp only [Parameter.token, List.mem_append, List.mem_cons] at hc
  rcases hc with (hc | hc) | rfl | hc
  · split_ifs at hc <;> simp at hc
    exact hc ▸ by decide
  · split_ifs at hc <;> simp at hc
    exact hc ▸ by decide
  · decide
  · exact hname c hc

/-- The type of a parameter as it is written is a word. -/
theorem IsStatable.isBlank_of_mem_type (h : m.IsStatable imports) {p : Parameter}
    (hp : p ∈ m.parameters) :
    (p.type.map imports.collapse).getD "mixed".toList ≠ [] ∧
      ∀ c ∈ (p.type.map imports.collapse).getD "mixed".toList, isBlank c = false := by
  cases htype : p.type with
  | none => exact ⟨by simp, by simp [isBlank]⟩
  | some type => exact h.types type (List.mem_filterMap.2 ⟨p, hp, htype⟩)

theorem IsStatable.words_parameterLine (h : m.IsStatable imports) {p : Parameter}
    (hp : p ∈ m.parameters) : (parameterLine imports p).words = parameterWords imports p := by
  have hword : ∀ word : Text, word ≠ [] → (∀ c ∈ word, isBlank c = false) →
      word.words = [word] := by
    intro word hne hnot
    have hend : ([] : Text).head?.all isBlank = true := rfl
    simpa [Text.words] using Text.words_append_of_not_blank hne hnot hend
  have htag : Text.words (" * ".toList ++ "@param".toList) = ["*".toList, "@param".toList] := by
    decide
  have htoken : p.token ≠ [] := List.ne_nil_of_mem p.sigil_mem_token
  obtain ⟨hne, htype⟩ := h.isBlank_of_mem_type hp
  rw [parameterLine, tagLine, Text.words_append_cons (by decide),
    Text.words_append_cons (by decide), htag, hword _ hne htype,
    hword _ htoken (isBlank_of_mem_token (h.names p hp))]
  simp [parameterWords, Parameter.token]

/-- A line of the block: it has text, and neither a line feed nor a carriage return ends it. -/
structure IsWholeLine (line : Text) : Prop where
  ne_nil : line ≠ []
  newline_not_mem : '\n' ∉ line
  last_ne_return : line.getLast? ≠ some '\r'

theorem isWholeLine_tagLine {tag body : Text} (htag : '\n' ∉ tag) (hbody : '\n' ∉ body)
    (hlast : body.getLast? ≠ some '\r') : IsWholeLine (tagLine tag body) where
  ne_nil := by simp [tagLine]
  newline_not_mem := ClassBlock.newline_not_mem_tagLine htag hbody
  last_ne_return := ClassBlock.getLast?_tagLine hlast

theorem newline_not_mem_of_not_blank {text : Text} (h : ∀ c ∈ text, isBlank c = false) :
    '\n' ∉ text ∧ text.getLast? ≠ some '\r' :=
  ⟨fun hmem => absurd (h _ hmem) (by decide),
    fun hlast => absurd (h _ (List.mem_of_getLast? hlast)) (by decide)⟩

theorem isWholeLine_parameterLine {p : Parameter}
    (htype : '\n' ∉ (p.type.map imports.collapse).getD "mixed".toList)
    (hname : ∀ c ∈ p.name, isBlank c = false) : IsWholeLine (parameterLine imports p) := by
  have htoken := newline_not_mem_of_not_blank (isBlank_of_mem_token hname)
  refine isWholeLine_tagLine (by decide) ?_ ?_
  · rw [List.mem_append, List.mem_cons, not_or, not_or]
    exact ⟨htype, by decide, htoken.1⟩
  · have hne : ' ' :: p.token ≠ [] := List.cons_ne_nil _ _
    rw [List.getLast?_append_of_ne_nil _ hne, List.getLast?_cons_of_ne_nil
      (List.ne_nil_of_mem p.sigil_mem_token)]
    exact htoken.2

theorem IsWholeLine.alignLine {line : Text} (h : IsWholeLine line) (width : Nat) :
    IsWholeLine (alignLine width line) where
  ne_nil := by
    intro hnil
    have hlast := getLast?_alignLine width line
    rw [hnil, List.getLast?_nil] at hlast
    exact h.ne_nil (List.getLast?_eq_none_iff.1 hlast.symm)
  newline_not_mem := newline_not_mem_alignLine h.newline_not_mem width
  last_ne_return := by
    rw [getLast?_alignLine]
    exact h.last_ne_return

theorem IsStatable.isWholeLine_of_mem (h : m.IsStatable imports) {key line : Text}
    (hline : line ∈ (m.groups imports).lines key) :
    IsWholeLine line ∧ keyword? line = some key := by
  have hparam : IsKeyword "@param".toList :=
    @IsKeyword.intro 'p' "aram".toList (by decide) (List.all_eq_true.1 (by decide))
  have hreturn : IsKeyword "@return".toList :=
    @IsKeyword.intro 'r' "eturn".toList (by decide) (List.all_eq_true.1 (by decide))
  rcases mem_groups_iff.1 hline with ⟨rfl, haligned⟩ | ⟨rfl, type, htype, rfl⟩
  · obtain ⟨width, l, hl, rfl⟩ := mem_align haligned
    obtain ⟨p, hp, rfl⟩ := List.mem_map.1 hl
    have htype := newline_not_mem_of_not_blank (h.isBlank_of_mem_type hp).2
    exact ⟨(isWholeLine_parameterLine htype.1 (h.names p hp)).alignLine width,
      keyword?_alignLine (tagLineParts hparam _).keyword?_eq width⟩
  · obtain ⟨hnewline, hlast⟩ := h.returned type (Option.mem_toList.2 htype)
    exact ⟨isWholeLine_tagLine (by decide) hnewline hlast, (tagLineParts hreturn _).keyword?_eq⟩

/-- The lines of the block before they are indented. -/
def statedLines (m : Signature) (imports : ImportTable) : List Text :=
  openingLine :: (m.parameterLines imports ++
    (if m.parameters ≠ [] ∧ m.returnType ≠ none then [separatorLine] else []) ++
    m.returnLines imports) ++ [closingLine]

theorem IsStatable.lines_assemble (h : m.IsStatable imports) :
    ((m.groups imports).assemble methodOrder).lines = m.statedLines imports := by
  obtain ⟨hparam, hreturn, -⟩ := m.lines_groups imports
  have hseparator : ∀ key, separatorLine ∉ (m.groups imports).lines key := fun key hmem =>
    absurd (h.isWholeLine_of_mem hmem).2 (by rw [show keyword? separatorLine = none by decide]; simp)
  have hfirst := hseparator "@param".toList
  have hsecond := hseparator "@return".toList
  rw [hparam] at hfirst
  rw [hreturn] at hsecond
  have hparameters : m.parameterLines imports = [] ↔ m.parameters = [] := by
    simp [parameterLines, align]
  have hreturned : m.returnLines imports = [] ↔ m.returnType = none := by
    simp [returnLines]
  have hspaced : spaceOut false false ((m.groups imports).bodyLines methodOrder) =
      m.parameterLines imports ++
        (if m.parameters ≠ [] ∧ m.returnType ≠ none then [separatorLine] else []) ++
        m.returnLines imports := by
    rw [bodyLines_groups]
    by_cases hnil : m.parameterLines imports = []
    · simp [hnil, hparameters.1 hnil, spaceOut_eq_self hsecond]
    · rw [if_neg hnil, List.append_assoc, List.singleton_append,
        spaceOut_append_separator hfirst hsecond hnil]
      simp [hreturned, mt hparameters.2 hnil]
  have hclean : ∀ line ∈ spaceOut false false ((m.groups imports).bodyLines methodOrder),
      line.getLast? ≠ some '\r' := by
    intro line hline
    rcases mem_of_mem_spaceOut hline with rfl | hline
    · decide
    · rcases TagGroups.mem_bodyLines hline with rfl | ⟨key, hline⟩
      · decide
      · exact (h.isWholeLine_of_mem hline).1.last_ne_return
  rw [TagGroups.lines_assemble methodOrder fun key line hline =>
    (h.isWholeLine_of_mem hline).1.newline_not_mem, Text.map_dropReturn_eq_self hclean, hspaced]
  rfl

/-- Indented lines are the lines of the text that they are joined to. -/
theorem lines_joinLines_indented {lines : List Text} (m : Signature) (hne : lines ≠ [])
    (h : ∀ line ∈ lines, IsWholeLine line) :
    (Text.joinLines (lines.map fun line => m.indent ++ line)).lines =
      lines.map fun line => m.indent ++ line := by
  have hindent : '\n' ∉ m.indent := fun hmem => absurd (List.mem_takeWhile_imp hmem) (by decide)
  have hwhole : ∀ line ∈ lines, IsWholeLine (m.indent ++ line) := by
    intro line hline
    obtain ⟨hnil, hnewline, hlast⟩ := h line hline
    refine ⟨by simp [hnil], by simp [hindent, hnewline], ?_⟩
    rwa [List.getLast?_append_of_ne_nil _ hnil]
  rcases List.eq_nil_or_concat lines with hnil | ⟨front, last, rfl⟩
  · contradiction
  · have hlast := hwhole last (by simp)
    rw [List.concat_eq_append, List.map_append, List.map_singleton,
      Text.lines_joinLines _ hlast.newline_not_mem hlast.ne_nil, Text.map_dropReturn_eq_self]
    · intro line hline
      obtain ⟨l, hl, rfl⟩ := List.mem_map.1 hline
      exact (hwhole l (by simp [hl])).last_ne_return
    · intro line hline
      obtain ⟨l, hl, rfl⟩ := List.mem_map.1 hline
      exact (hwhole l (by simp [hl])).newline_not_mem

theorem isWholeLine_of_mem_fixed {line : Text}
    (h : line ∈ [openingLine, separatorLine, closingLine]) : IsWholeLine line := by
  have hall : [openingLine, separatorLine, closingLine].all (fun line =>
      line != [] && !line.contains '\n' && line.getLast? != some '\r') = true := by decide
  have hchecked := List.all_eq_true.1 hall line h
  simp only [Bool.and_eq_true, bne_iff_ne, Bool.not_eq_true', List.contains_eq_mem,
    decide_eq_false_iff_not] at hchecked
  exact ⟨hchecked.1.1, hchecked.1.2, hchecked.2⟩

theorem IsStatable.isWholeLine_statedLines (h : m.IsStatable imports) :
    ∀ line ∈ m.statedLines imports, IsWholeLine line := by
  obtain ⟨hparam, hreturn, -⟩ := m.lines_groups imports
  intro line hline
  simp only [statedLines, List.cons_append, List.mem_cons, List.mem_append, List.not_mem_nil,
    or_false] at hline
  rcases hline with rfl | ((hline | hline) | hline) | rfl
  · exact isWholeLine_of_mem_fixed (by simp)
  · exact (h.isWholeLine_of_mem (hparam ▸ hline)).1
  · split_ifs at hline
    · exact isWholeLine_of_mem_fixed (by simp [List.mem_singleton.1 hline])
    · simp at hline
  · exact (h.isWholeLine_of_mem (hreturn ▸ hline)).1
  · exact isWholeLine_of_mem_fixed (by simp)

/-- A method that wants a block and has something to state gets one.  Its lines are the opening
delimiter, one line for each parameter in their order, a separator when a returned type follows, the
line of that type and the closing delimiter, each indented like the declaration; and the words of a
parameter line state that parameter. -/
theorem block?_states_signature (m : Signature) (className : Text) (imports : ImportTable)
    (hwants : m.wantsBlock className = true)
    (hcontent : m.parameters ≠ [] ∨ m.returnType ≠ none) (h : m.IsStatable imports) :
    ∃ lines parameterLines : List Text,
      m.block? className imports = some (Text.joinLines lines) ∧
      (Text.joinLines lines).lines = lines ∧
      lines = (openingLine :: (parameterLines ++
          (if m.parameters ≠ [] ∧ m.returnType ≠ none then [separatorLine] else []) ++
          m.returnType.toList.map fun type => " * @return ".toList ++ imports.collapse type) ++
          [closingLine]).map (fun line => m.indent ++ line) ∧
      parameterLines.map (fun line => (m.indent ++ line).words) =
        m.parameters.map (parameterWords imports) := by
  refine ⟨(m.statedLines imports).map fun line => m.indent ++ line, m.parameterLines imports, ?_,
    ?_, ?_, ?_⟩
  · have hsome : (m.parameters.isEmpty && m.returnType.isNone) = false := by
      rcases hcontent with hne | hne <;> simp [hne, Option.isSome_iff_ne_none]
    rw [block?, hwants, hsome, h.lines_assemble]
    rfl
  · exact m.lines_joinLines_indented (by simp [statedLines]) h.isWholeLine_statedLines
  · simp [statedLines, returnLines, tagLine]
  · rw [parameterLines, align, List.map_map, List.map_map]
    refine List.map_congr_left fun p hp => ?_
    rw [Function.comp_apply, Function.comp_apply, Text.words_append_of_blank m.isBlank_of_mem_indent,
      words_alignLine, h.words_parameterLine hp]

/-- A method with two parameters that are written alike, and one that declares no type. -/
def relay : Signature where
  name := "relay".toList
  parameters := [⟨"to".toList, some "\\B\\Foo".toList, false, false⟩,
    ⟨"to".toList, some "\\B\\Foo".toList, false, false⟩, ⟨"rest".toList, none, true, true⟩]
  returnType := some "?\\A\\Bar".toList
  declarationLine := "\tpublic function relay(".toList
  doc := none
  declaringClass := "X".toList

/-- The imports of its file. -/
def relayImports : ImportTable :=
  (ImportTable.ofNamespace "A".toList).addUse "B\\Foo as F".toList

theorem relay_states_signature :
    relay.wantsBlock "X".toList = true ∧ relay.IsStatable relayImports ∧
      ∃ lines parameterLines : List Text,
        relay.block? "X".toList relayImports = some (Text.joinLines lines) ∧
        Text.joinLines lines = ("\t/**\n\t * @param F     $to\n\t * @param F     $to\n" ++
          "\t * @param mixed &...$rest\n\t *\n\t * @return ?Bar\n\t */").toList ∧
        parameterLines.map (fun line => (relay.indent ++ line).words) =
          [["*".toList, "@param".toList, "F".toList, "$to".toList],
            ["*".toList, "@param".toList, "F".toList, "$to".toList],
            ["*".toList, "@param".toList, "mixed".toList, "&...$rest".toList]] := by
  have hnames : relay.parameters.all (fun p => p.name.all fun c => !isBlank c) = true := by decide
  have htypes : (relay.parameters.filterMap Parameter.type).all (fun type =>
      relayImports.collapse type != [] &&
        (relayImports.collapse type).all fun c => !isBlank c) = true := by
    decide
  have hstatable : relay.IsStatable relayImports :=
    ⟨by simpa only [List.all_eq_true, Bool.not_eq_true'] using hnames,
      by simpa only [List.all_eq_true, Bool.and_eq_true, bne_iff_ne, Bool.not_eq_true'] using htypes,
      by decide⟩
  have hblock : relay.block? "X".toList relayImports =
      some ("\t/**\n\t * @param F     $to\n\t * @param F     $to\n" ++
        "\t * @param mixed &...$rest\n\t *\n\t * @return ?Bar\n\t */").toList := by
    decide +kernel
  obtain ⟨lines, parameterLines, hsome, -, -, hwords⟩ :=
    block?_states_signature relay "X".toList relayImports (by decide) (by decide) hstatable
  exact ⟨by decide, hstatable, lines, parameterLines, hsome,
    Option.some.inj (hsome.symm.trans hblock), hwords⟩

end Signature

end PhpDoc
