import Mathlib
import PhpDoc.Proofs.ParameterLists
import PhpDoc.Proofs.SingleComment
import PhpDoc.Proofs.Undocumented

/-!
# When a method block is one comment

A method block is a comment between two delimiters.  The tags, the variables and the indentation in
it hold no delimiter, so the block is one doc comment exactly when none stands in a type that is
written there.  Then the comment is read as the doc comment of the method wherever the block stands
above the method, and the method wants no other.  A type that holds a delimiter ends the comment
early, or hides its start.
-/

namespace PhpDoc

/-! ## Delimiters -/

/-- The delimiters of doc comments. -/
def commentDelimiters : List Text := [openingLine, commentEnd]

/-- A delimiter of doc comments stands in the text. -/
def HoldsDelimiter (text : Text) : Prop :=
  ∃ d ∈ commentDelimiters, d <:+: text

instance (text : Text) : Decidable (HoldsDelimiter text) :=
  inferInstanceAs (Decidable (∃ d ∈ commentDelimiters, d <:+: text))

/-- Delimiters are made of stars and slashes, and a slash is among them. -/
theorem of_mem_commentDelimiters {d : Text} (h : d ∈ commentDelimiters) :
    '/' ∈ d ∧ ∀ c ∈ d, c = '/' ∨ c = '*' := by
  have hall : commentDelimiters.all
      (fun d => d.contains '/' && d.all fun c => c == '/' || c == '*') = true := by decide
  simpa using List.all_eq_true.1 hall d h

theorem isBlank_of_mem_commentDelimiters {d : Text} (h : d ∈ commentDelimiters) :
    ∀ c ∈ d, isBlank c = false := by
  intro c hc
  rcases (of_mem_commentDelimiters h).2 c hc with rfl | rfl <;> decide

theorem ne_nil_of_mem_commentDelimiters {d : Text} (h : d ∈ commentDelimiters) : d ≠ [] :=
  List.ne_nil_of_mem (of_mem_commentDelimiters h).1

theorem not_mem_of_mem_commentDelimiters {d : Text} (h : d ∈ commentDelimiters) {c : Char}
    (hc : isBlank c = true) : c ∉ d := fun hmem =>
  absurd ((isBlank_of_mem_commentDelimiters h c hmem).symm.trans hc) (by decide)

theorem exists_holdsDelimiter_iff {ls : List Text} :
    (∃ line ∈ ls, HoldsDelimiter line) ↔ ∃ d ∈ commentDelimiters, ∃ line ∈ ls, d <:+: line := by
  constructor
  · rintro ⟨line, hline, d, hd, hoccurs⟩
    exact ⟨d, hd, line, hline, hoccurs⟩
  · rintro ⟨d, hd, line, hline, hoccurs⟩
    exact ⟨line, hline, d, hd, hoccurs⟩

theorem holdsDelimiter_lines_iff (text : Text) :
    (∃ line ∈ text.lines, HoldsDelimiter line) ↔ HoldsDelimiter text := by
  rw [exists_holdsDelimiter_iff, HoldsDelimiter]
  exact exists_congr fun d => and_congr_right fun hd =>
    Text.infix_lines_iff (ne_nil_of_mem_commentDelimiters hd)
      (not_mem_of_mem_commentDelimiters hd (by decide))
      (not_mem_of_mem_commentDelimiters hd (by decide)) text

theorem holdsDelimiter_joinLines_iff (ls : List Text) :
    HoldsDelimiter (Text.joinLines ls) ↔ ∃ line ∈ ls, HoldsDelimiter line := by
  rw [exists_holdsDelimiter_iff, HoldsDelimiter]
  exact exists_congr fun d => and_congr_right fun hd =>
    Text.infix_joinLines_iff (not_mem_of_mem_commentDelimiters hd (by decide))
      (ne_nil_of_mem_commentDelimiters hd) ls

theorem holdsDelimiter_append_of_blank {blanks : Text} (h : ∀ c ∈ blanks, isBlank c = true)
    (rest : Text) : HoldsDelimiter (blanks ++ rest) ↔ HoldsDelimiter rest :=
  exists_congr fun _ => and_congr_right fun hd =>
    Text.infix_append_of_blank (ne_nil_of_mem_commentDelimiters hd)
      (isBlank_of_mem_commentDelimiters hd) h rest

theorem holdsDelimiter_append_cons {b : Char} (hb : isBlank b = true) (front rest : Text) :
    HoldsDelimiter (front ++ b :: rest) ↔ HoldsDelimiter front ∨ HoldsDelimiter rest := by
  simp only [HoldsDelimiter, ← exists_or, ← and_or_left]
  exact exists_congr fun d => and_congr_right fun hd =>
    Text.infix_append_cons_iff (not_mem_of_mem_commentDelimiters hd hb)

theorem holdsDelimiter_alignLine_iff (width : Nat) (line : Text) :
    HoldsDelimiter (alignLine width line) ↔ HoldsDelimiter line :=
  exists_congr fun _ => and_congr_right fun hd =>
    infix_alignLine_iff (ne_nil_of_mem_commentDelimiters hd)
      (isBlank_of_mem_commentDelimiters hd) width line

theorem not_holdsDelimiter_of_slash_not_mem {text : Text} (h : '/' ∉ text) :
    ¬ HoldsDelimiter text := by
  rintro ⟨d, hd, hoccurs⟩
  exact h (hoccurs.subset (of_mem_commentDelimiters hd).1)

theorem holdsDelimiter_tagLine_iff {tag : Text} (htag : '/' ∉ tag) (body : Text) :
    HoldsDelimiter (tagLine tag body) ↔ HoldsDelimiter body := by
  have hfront : ¬ HoldsDelimiter (" * ".toList ++ tag) :=
    not_holdsDelimiter_of_slash_not_mem (by simp [htag])
  rw [tagLine, holdsDelimiter_append_cons (by decide)]
  simp only [hfront, false_or]

/-! ## Comments of whole lines -/

/-- Apart from the delimiters at its ends, a doc comment holds none. -/
theorem isDocComment_append_iff (middle : Text) :
    IsDocComment (openingLine ++ (middle ++ commentEnd)) ↔
      ¬ openingLine <:+: "**".toList ++ (middle ++ commentEnd) ∧
      ¬ commentEnd <:+: openingLine ++ (middle ++ ['*']) := by
  have hfirst : openingLine ++ (middle ++ commentEnd) =
      '/' :: ("**".toList ++ (middle ++ commentEnd)) := rfl
  have hlast : openingLine ++ (middle ++ commentEnd) =
      (openingLine ++ (middle ++ ['*'])) ++ ['/'] := by
    simp [commentEnd]
  constructor
  · intro h
    constructor
    · rintro ⟨front, rest, hopens⟩
      have hnil := h.opens_once ('/' :: front) rest (by rw [hfirst, ← hopens]; simp)
      contradiction
    · rintro ⟨front, rest, hcloses⟩
      have hnil := h.closes_once front (rest ++ ['/']) (by rw [hlast, ← hcloses]; simp)
      simp at hnil
  · rintro ⟨hopens, hcloses⟩
    refine ⟨List.prefix_append _ _, ⟨openingLine ++ middle, by simp⟩, ?_, fun front rest heq => ?_,
      fun front rest heq => ?_⟩
    · simp [openingLine, commentEnd]
    · cases front with
      | nil => rfl
      | cons c front =>
          rw [hfirst] at heq
          exact absurd ⟨front, rest, ((List.cons.inj heq).2).symm⟩ hopens
    · rcases List.eq_nil_or_concat rest with hnil | ⟨rest, c, rfl⟩
      · exact hnil
      · have hall : (openingLine ++ (middle ++ ['*'])) ++ ['/'] =
            (front ++ commentEnd ++ rest) ++ [c] := by
          rw [← hlast, heq]
          simp
        exact absurd ⟨front, rest, (List.append_inj' hall rfl).1.symm⟩ hcloses

theorem IsDocComment.exists_middle {comment : Text} (h : IsDocComment comment) :
    ∃ middle, comment = openingLine ++ (middle ++ commentEnd) := by
  obtain ⟨rest, rfl⟩ := h.opens
  have hlength := h.length_le
  have hcloses : commentEnd <:+ rest := by
    refine List.suffix_of_suffix_length_le h.closes (List.suffix_append _ _) ?_
    simp [openingLine, commentEnd] at hlength ⊢
    omega
  obtain ⟨middle, rfl⟩ := hcloses
  exact ⟨middle, rfl⟩

/-- A doc comment stays one with other line ends. -/
theorem IsDocComment.withNewlines {comment newline : Text} (h : IsDocComment comment)
    (hends : newline ≠ []) (hblank : ∀ c ∈ newline, isBlank c = true) :
    IsDocComment (comment.withNewlines newline) := by
  obtain ⟨middle, rfl⟩ := h.exists_middle
  have hoccurs : ∀ d ∈ commentDelimiters, ∀ text : Text,
      d <:+: text.withNewlines newline ↔ d <:+: text := fun d hd text =>
    Text.infix_withNewlines_iff (ne_nil_of_mem_commentDelimiters hd)
      (not_mem_of_mem_commentDelimiters hd (by decide)) hends
      (fun c hc => not_mem_of_mem_commentDelimiters hd (hblank c hc)) text
  have hsame : ∀ {text : Text}, '\n' ∉ text → text.withNewlines newline = text := fun htext =>
    Text.withNewlines_eq_self htext newline
  obtain ⟨hopens, hcloses⟩ := (isDocComment_append_iff middle).1 h
  have hopens' := mt (hoccurs _ (by decide) _).1 hopens
  have hcloses' := mt (hoccurs _ (by decide) _).1 hcloses
  simp only [Text.withNewlines_append, hsame (by decide : '\n' ∉ openingLine),
    hsame (by decide : '\n' ∉ commentEnd), hsame (by decide : '\n' ∉ "**".toList),
    hsame (by decide : '\n' ∉ ['*'])] at hopens' hcloses' ⊢
  exact (isDocComment_append_iff _).2 ⟨hopens', hcloses'⟩

/-- Between two texts that hold no delimiter, a delimiter stands in one of the lines. -/
theorem infix_joinLines_between_iff {d first last blanks : Text} (hd : d ∈ commentDelimiters)
    (hfirst : ¬ d <:+: first) (hlast : ¬ d <:+: last) (hblanks : ∀ c ∈ blanks, isBlank c = true)
    (inner : List Text) :
    d <:+: first ++ ('\n' :: Text.joinLines (inner ++ [blanks]) ++ last) ↔
      ∃ line ∈ inner, d <:+: line := by
  have hne := ne_nil_of_mem_commentDelimiters hd
  have hnewline : '\n' ∉ d := not_mem_of_mem_commentDelimiters hd (by decide)
  have hlast' : ¬ d <:+: blanks ++ last := by
    rwa [Text.infix_append_of_blank hne (isBlank_of_mem_commentDelimiters hd) hblanks]
  rw [List.cons_append, Text.joinLines_concat_append, Text.infix_append_cons_iff hnewline,
    Text.infix_joinLines_iff hnewline hne]
  simp only [hfirst, false_or, List.mem_append, List.mem_singleton, or_and_right, exists_or,
    exists_eq_left, hlast', or_false]

/-- Lines between two delimiters are one doc comment as long as they hold no delimiter. -/
theorem isDocComment_joinLines_iff {blanks : Text} (hblanks : ∀ c ∈ blanks, isBlank c = true)
    (inner : List Text) :
    IsDocComment (Text.joinLines (openingLine :: inner ++ [blanks ++ commentEnd])) ↔
      ∀ line ∈ inner, ¬ HoldsDelimiter line := by
  have hcomment : Text.joinLines (openingLine :: inner ++ [blanks ++ commentEnd]) =
      openingLine ++ ('\n' :: Text.joinLines (inner ++ [blanks]) ++ commentEnd) := by
    rw [List.cons_append, Text.joinLines_cons (by simp), List.cons_append,
      Text.joinLines_concat_append]
  -- a second opening delimiter starts behind the first slash, a second closing one ends before the
  -- last; what is left of the delimiters there holds none
  rw [hcomment, isDocComment_append_iff,
    infix_joinLines_between_iff (by decide) (by decide) (by decide) hblanks,
    infix_joinLines_between_iff (by decide) (by decide) (by decide) hblanks]
  simp only [HoldsDelimiter, commentDelimiters, List.mem_cons, List.not_mem_nil, or_false,
    exists_eq_or_imp, exists_eq_left]
  grind

/-! ## Method blocks -/

/-- The lines of a block stand between its delimiters, and a delimiter among them comes from a line
of a group. -/
theorem TagGroups.exists_lines_assemble (g : TagGroups) (order : GroupOrder) :
    ∃ inner, (g.assemble order).lines = openingLine :: inner ++ [closingLine] ∧
      ((∃ line ∈ inner, HoldsDelimiter line) ↔
        ∃ key, ∃ line ∈ g.lines key, HoldsDelimiter line) := by
  rw [← exists_mem_spaceOut_iff (by decide) g order, assemble]
  obtain ⟨body, hbody⟩ : ∃ body, body = spaceOut false false (g.bodyLines order) := ⟨_, rfl⟩
  have hopening : '\n' ∉ openingLine := by decide
  have hclosing : Text.lines closingLine = [closingLine] :=
    Text.lines_of_not_mem (by decide) (by decide)
  rw [← hbody]
  -- a line of a group may itself be divided, so the lines in between need not be those of the body
  by_cases hnil : body = []
  · refine ⟨[], ?_, by simp [hnil]⟩
    rw [hnil]
    decide
  · refine ⟨Text.lines (Text.joinLines body ++ ['\n']), ?_, ?_⟩
    · rw [List.cons_append, Text.joinLines_cons (by simp), Text.joinLines_concat hnil,
        Text.lines_append_newline hopening, Text.lines_append_newline_append, hclosing]
      rfl
    · have hend : ¬ HoldsDelimiter [] := by decide
      rw [holdsDelimiter_lines_iff, holdsDelimiter_append_cons (by decide),
        holdsDelimiter_joinLines_iff]
      simp only [hend, or_false]

namespace Signature

variable {m : Signature} {imports : ImportTable}

/-- The declared types in the form in which they are written in the block. -/
def writtenTypes (m : Signature) (imports : ImportTable) : List Text :=
  (m.parameters.filterMap Parameter.type ++ m.returnType.toList).map imports.collapse

theorem isBlank_of_mem_indent (m : Signature) : ∀ c ∈ m.indent, isBlank c = true := by
  intro c hc
  have hc := List.mem_takeWhile_imp hc
  rw [Bool.or_eq_true, beq_iff_eq, beq_iff_eq] at hc
  rcases hc with rfl | rfl <;> decide

theorem mem_groups_iff {key line : Text} :
    line ∈ (m.groups imports).lines key ↔
      (key = "@param".toList ∧ line ∈ align (m.parameters.map (parameterLine imports)) none) ∨
      (key = "@return".toList ∧
        ∃ type ∈ m.returnType, line = tagLine "@return".toList (imports.collapse type)) := by
  have hparam : ∀ parameters : List Text,
      line ∈ (TagGroups.empty.set "@param".toList parameters).lines key ↔
        key = "@param".toList ∧ line ∈ parameters := by
    intro parameters
    rw [TagGroups.lines_set]
    split_ifs with hkey
    · simp only [hkey, true_and]
    · simp only [hkey, false_and, TagGroups.lines_empty, List.not_mem_nil]
  rw [groups]
  cases hreturn : m.returnType with
  | none => simp only [hparam, Option.not_mem_none, false_and, exists_false, and_false, or_false]
  | some type =>
      rw [TagGroups.lines_set]
      split_ifs with hkey
      · simp [hkey]
      · rw [hparam]
        simp only [hkey, false_and, or_false]

theorem holdsDelimiter_parameterLine_iff {p : Parameter} (hname : Text.isIdentifier p.name = true) :
    HoldsDelimiter (parameterLine imports p) ↔
      ∃ type ∈ p.type, HoldsDelimiter (imports.collapse type) := by
  have htoken : ¬ HoldsDelimiter p.token := not_holdsDelimiter_of_slash_not_mem fun hmem =>
    absurd (Parameter.isTokenChar_of_mem_token hname _ hmem) (by decide)
  have hmixed : ¬ HoldsDelimiter "mixed".toList := by decide
  rw [parameterLine, holdsDelimiter_tagLine_iff (by decide), holdsDelimiter_append_cons (by decide)]
  cases hp : p.type with
  | none =>
      rw [Option.map_none, Option.getD_none]
      simp only [hmixed, htoken, Option.not_mem_none, false_and, exists_false, or_false]
  | some type => simp [htoken]

/-- A delimiter in the lines of the block of a method stands in one of its types. -/
theorem exists_holdsDelimiter_groups_iff
    (hnames : ∀ p ∈ m.parameters, Text.isIdentifier p.name = true) :
    (∃ key, ∃ line ∈ (m.groups imports).lines key, HoldsDelimiter line) ↔
      ∃ type ∈ m.writtenTypes imports, HoldsDelimiter type := by
  have htag : '/' ∉ "@return".toList := by decide
  have hparameter : ∀ p ∈ m.parameters, HoldsDelimiter (parameterLine imports p) ↔
      ∃ type ∈ p.type, HoldsDelimiter (imports.collapse type) := fun p hp =>
    holdsDelimiter_parameterLine_iff (hnames p hp)
  constructor
  · rintro ⟨key, line, hline, hholds⟩
    rcases mem_groups_iff.1 hline with ⟨-, hline⟩ | ⟨-, type, htype, rfl⟩
    · obtain ⟨width, l, hl, rfl⟩ := mem_align hline
      obtain ⟨p, hp, rfl⟩ := List.mem_map.1 hl
      rw [holdsDelimiter_alignLine_iff, hparameter p hp] at hholds
      obtain ⟨type, htype, hholds⟩ := hholds
      refine ⟨imports.collapse type, List.mem_map_of_mem ?_, hholds⟩
      exact List.mem_append_left _ (List.mem_filterMap.2 ⟨p, hp, htype⟩)
    · rw [holdsDelimiter_tagLine_iff htag] at hholds
      refine ⟨imports.collapse type, List.mem_map_of_mem ?_, hholds⟩
      exact List.mem_append_right _ (Option.mem_toList.2 htype)
  · rintro ⟨written, hwritten, hholds⟩
    obtain ⟨type, htype, rfl⟩ := List.mem_map.1 hwritten
    rcases List.mem_append.1 htype with htype | htype
    · obtain ⟨p, hp, htype⟩ := List.mem_filterMap.1 htype
      have hline := (hparameter p hp).2 ⟨type, htype, hholds⟩
      obtain ⟨width, halign⟩ : ∃ width, align (m.parameters.map (parameterLine imports)) none =
          (m.parameters.map (parameterLine imports)).map (alignLine width) := ⟨_, rfl⟩
      refine ⟨_, alignLine width (parameterLine imports p), mem_groups_iff.2 (Or.inl ⟨rfl, ?_⟩),
        (holdsDelimiter_alignLine_iff _ _).2 hline⟩
      rw [halign]
      exact List.mem_map_of_mem (List.mem_map_of_mem hp)
    · exact ⟨_, _, mem_groups_iff.2 (Or.inr ⟨rfl, type, Option.mem_toList.1 htype, rfl⟩),
        (holdsDelimiter_tagLine_iff htag _).2 hholds⟩

/-- A block is the indentation and a comment, which is a doc comment exactly when no written type
holds a delimiter. -/
theorem exists_comment_of_block? (hnames : ∀ p ∈ m.parameters, Text.isIdentifier p.name = true)
    {className block : Text} (hblock : m.block? className imports = some block) :
    ∃ comment, block = m.indent ++ comment ∧
      (IsDocComment comment ↔ ∀ type ∈ m.writtenTypes imports, ¬ HoldsDelimiter type) := by
  rw [block?] at hblock
  split at hblock
  · obtain ⟨inner, hlines, hholds⟩ := (m.groups imports).exists_lines_assemble methodOrder
    have hblanks : ∀ c ∈ m.indent ++ [' '], isBlank c = true := by
      intro c hc
      rcases List.mem_append.1 hc with hc | hc
      · exact m.isBlank_of_mem_indent c hc
      · rw [List.mem_singleton.1 hc]
        decide
    -- the indentation of the first line goes in front of the comment, that of the others is in it
    refine ⟨Text.joinLines (openingLine :: inner.map (m.indent ++ ·) ++
      [m.indent ++ [' '] ++ commentEnd]), ?_, ?_⟩
    · rw [← Option.some.inj hblock, hlines, List.map_append, List.map_cons, List.cons_append,
        List.cons_append, Text.joinLines_cons (by simp), Text.joinLines_cons (by simp)]
      simp [closingLine, commentEnd]
    · have hindented : (∃ line ∈ inner.map (m.indent ++ ·), HoldsDelimiter line) ↔
          ∃ line ∈ inner, HoldsDelimiter line := by
        simp only [List.mem_map, exists_exists_and_eq_and,
          holdsDelimiter_append_of_blank m.isBlank_of_mem_indent]
      rw [isDocComment_joinLines_iff hblanks, ← not_iff_not]
      simp only [not_forall, not_not, exists_prop]
      rw [hindented, hholds, exists_holdsDelimiter_groups_iff hnames]
  · contradiction

end Signature

/-! ## Comments above a method -/

/-- The text ends in the comment and a line end: the comment is read there, and a method that is
read below it, with the given attributes, has it for its doc comment and wants no block. -/
structure DocumentsBelow (above attributes comment newline : Text) : Prop where
  splitAttributes_eq : splitAttributes (above ++ attributes).reverse = (above.reverse, attributes)
  precedingDoc?_eq : precedingDoc? above.reverse = some ⟨comment, newline⟩
  exists_method : ∀ (heads : List (Found Text)) (found : Found MethodHead) (m : Method),
    readMethod heads found = some m →
    ∃ m', readMethod heads { found with behind := (above ++ attributes).reverse } = some m' ∧
      m'.signature = { m.signature with doc := some comment } ∧
      ∀ className, m'.signature.wantsBlock className = false

/-- The line ends that a source may have. -/
def lineEnds : List Text := ["\n".toList, "\r\n".toList]

theorem of_mem_lineEnds {newline : Text} (h : newline ∈ lineEnds) :
    newline ≠ [] ∧ (∀ c ∈ newline, isBlank c = true) ∧ newline.getLast? = some '\n' := by
  have hall : lineEnds.all (fun newline => !newline.isEmpty && newline.all isBlank &&
      newline.getLast? == some '\n') = true := by decide
  simpa [and_assoc] using List.all_eq_true.1 hall newline h

theorem Signature.wantsBlock_of_doc {m : Signature} {comment : Text} (hdoc : m.doc = some comment)
    (h : IsDocComment comment) (className : Text) : m.wantsBlock className = false := by
  simp [wantsBlock, documented, hdoc, h.trim_eq, h.ne_nil]

theorem IsDocComment.documentsBelow {comment newline attributes : Text} (h : IsDocComment comment)
    (hnewline : newline ∈ lineEnds) (hattributes : AttributeLines attributes) (front : Text) :
    DocumentsBelow (front ++ comment ++ newline) attributes comment newline := by
  obtain ⟨-, hblank, hlast⟩ := of_mem_lineEnds hnewline
  have hline : startsLine (front ++ comment ++ newline).reverse = true := by
    rw [startsLine_iff, List.head?_reverse, List.getLast?_append, hlast]
    simp
  have hsplit := splitAttributes_append hattributes hline (h.endsPlain hblank front)
  have hdoc := precedingDoc?_append h hblank front
  refine ⟨hsplit, hdoc, fun heads found m hread => ?_⟩
  obtain ⟨hpublic, list, after, parameters, hlist, hparameters, rfl⟩ :=
    readMethod_eq_some_iff.1 hread
  refine ⟨_, readMethod_eq_some_iff.2 ⟨hpublic, list, after, parameters, hlist, hparameters, rfl⟩,
    ?_, Signature.wantsBlock_of_doc ?_ h⟩ <;> simp only [hsplit, hdoc, Option.map_some]

theorem DocumentsBelow.isDocComment {above attributes comment newline : Text}
    (h : DocumentsBelow above attributes comment newline) : IsDocComment comment := by
  obtain ⟨-, -, -, hcomment⟩ := precedingDoc?_spec h.precedingDoc?_eq
  exact hcomment

namespace ClassDecl

variable {path source : Text} {decl : ClassDecl} {m : Method}

theorem isIdentifier_of_mem_parameters (h : read path source = .ok decl) (hm : m ∈ decl.methods) :
    ∀ p ∈ m.signature.parameters, Text.isIdentifier p.name = true := by
  rw [methods_of_read h, readMethods] at hm
  obtain ⟨found, -, hread⟩ := List.mem_filterMap.1 hm
  obtain ⟨-, list, after, parameters, -, hparameters, rfl⟩ := readMethod_eq_some_iff.1 hread
  intro p hp
  obtain ⟨piece, -, hpiece⟩ := exists_of_mem_mapM hparameters p hp
  exact Parameter.isIdentifier_of_parse? hpiece

theorem exists_attributes_of_mem_methods (h : read path source = .ok decl)
    (hm : m ∈ decl.methods) : ∃ attributes, AttributeLines attributes ∧
      m.anchor = attributes ++ m.signature.declarationLine := by
  rw [methods_of_read h, readMethods] at hm
  obtain ⟨found, hfound, hread⟩ := List.mem_filterMap.1 hm
  have hline := (standsIn_of_mem_scan hfound).startsLine
  obtain ⟨-, list, after, parameters, -, -, rfl⟩ := readMethod_eq_some_iff.1 hread
  exact ⟨_, (splitAttributes_spec hline (Prod.mk.eta).symm).2.2, rfl⟩

/-- The block of a method of a class is its indentation and a comment.  That is one doc comment, and
it is read as such above the anchor of the method, exactly when no delimiter stands in a type that
is written in it. -/
theorem methodBlock_isDocComment_iff (h : read path source = .ok decl) (hm : m ∈ decl.methods)
    {block : Text} (hblock : m.signature.block? decl.name decl.imports = some block) :
    ∃ comment attributes, block = m.signature.indent ++ comment ∧
      m.anchor = attributes ++ m.signature.declarationLine ∧
      (IsDocComment comment ↔
        ∀ type ∈ m.signature.writtenTypes decl.imports, ¬ HoldsDelimiter type) ∧
      ((∀ ending ∈ lineEnds, ∀ newline ∈ lineEnds, ∀ front,
          DocumentsBelow (front ++ block.withNewlines ending ++ newline) attributes
            (comment.withNewlines ending) newline) ↔
        ∀ type ∈ m.signature.writtenTypes decl.imports, ¬ HoldsDelimiter type) := by
  obtain ⟨comment, rfl, hcomment⟩ :=
    Signature.exists_comment_of_block? (isIdentifier_of_mem_parameters h hm) hblock
  obtain ⟨attributes, hattributes, hanchor⟩ := exists_attributes_of_mem_methods h hm
  refine ⟨comment, attributes, rfl, hanchor, hcomment, ?_⟩
  rw [← hcomment]
  constructor
  · intro hread
    have hdoc := (hread "\n".toList (by decide) "\n".toList (by decide) []).isDocComment
    rwa [show "\n".toList = ['\n'] from rfl, Text.withNewlines_newline] at hdoc
  · intro hdoc ending hending newline hnewline front
    obtain ⟨hne, hblank, -⟩ := of_mem_lineEnds hending
    -- the comment is found below the indentation, whatever stands above
    have hindent : '\n' ∉ m.signature.indent := fun hmem => by
      have hrun := List.mem_takeWhile_imp hmem
      contradiction
    rw [Text.withNewlines_append, Text.withNewlines_eq_self hindent, ← List.append_assoc]
    exact (hdoc.withNewlines hne hblank).documentsBelow hnewline hattributes _

/-- The only method of a source, from what is computed about all of them. -/
theorem exists_method_of_map {α : Type} {f : ClassDecl → Method → α} {a : α}
    (h : (read path source).map (fun decl => decl.methods.map (f decl)) = .ok [a]) :
    ∃ decl, read path source = .ok decl ∧ ∃ m ∈ decl.methods, f decl m = a := by
  cases hread : read path source with
  | error fault =>
      rw [hread, Except.map] at h
      contradiction
  | ok decl =>
      rw [hread, Except.map, Except.ok.injEq] at h
      have hmem : a ∈ decl.methods.map (f decl) := by
        rw [h]
        exact List.mem_singleton_self a
      exact ⟨decl, rfl, List.mem_map.1 hmem⟩

/-- A method with attributes, whose types are shortened. -/
def importedTypes : Text :=
  ("<?php\nnamespace A;\nuse B\\C;\nclass X\n\x7b\n    #[Pure]\n" ++
    "    public function f(\\B\\C &$a, int $b): ?\\A\\D\n\x7d\n").toList

theorem importedTypes_isDocComment : ∃ decl, read "X.php".toList importedTypes = .ok decl ∧
    ∃ m ∈ decl.methods, ∃ block comment attributes,
      m.signature.block? decl.name decl.imports = some block ∧
      block = ("    /**\n     * @param C   &$a\n     * @param int $b\n     *\n" ++
        "     * @return ?D\n     */").toList ∧
      block = m.signature.indent ++ comment ∧ IsDocComment comment ∧
      m.anchor = attributes ++ m.signature.declarationLine ∧
      ∀ ending ∈ lineEnds, ∀ newline ∈ lineEnds, ∀ front,
        DocumentsBelow (front ++ block.withNewlines ending ++ newline) attributes
          (comment.withNewlines ending) newline := by
  have hparts : (read "X.php".toList importedTypes).map (fun decl => decl.methods.map fun m =>
      (m.signature.writtenTypes decl.imports, m.signature.block? decl.name decl.imports)) =
      .ok [(["C".toList, "int".toList, "?D".toList],
        some ("    /**\n     * @param C   &$a\n     * @param int $b\n     *\n" ++
          "     * @return ?D\n     */").toList)] := by
    decide +kernel
  obtain ⟨decl, hread, m, hm, hmethod⟩ := exists_method_of_map hparts
  obtain ⟨htypes, hblock⟩ := Prod.mk.inj hmethod
  have hclean : ∀ type ∈ m.signature.writtenTypes decl.imports, ¬ HoldsDelimiter type := by
    rw [htypes]
    decide
  obtain ⟨comment, attributes, heq, hanchor, hcomment, habove⟩ :=
    methodBlock_isDocComment_iff hread hm hblock
  exact ⟨decl, hread, m, hm, _, comment, attributes, hblock, rfl, heq, hcomment.2 hclean, hanchor,
    habove.2 hclean⟩

/-- A type with a comment in front of it. -/
def commentedType : Text :=
  "<?php\nnamespace A;\nclass X\n\x7b\n    public function f(/*in*/int $a)\n\x7d\n".toList

/-- Its block is closed by that comment and is not read above the method. -/
theorem commentedType_closes_block : ∃ decl, read "X.php".toList commentedType = .ok decl ∧
    ∃ m ∈ decl.methods, ∃ block, m.signature.block? decl.name decl.imports = some block ∧
      block = "    /**\n     * @param /*in*/int $a\n     */".toList ∧
      (∀ comment, block = m.signature.indent ++ comment → ¬ IsDocComment comment) ∧
      precedingDoc? (block ++ "\n".toList).reverse = none := by
  have hparts : (read "X.php".toList commentedType).map (fun decl => decl.methods.map fun m =>
      (m.signature.indent, m.signature.block? decl.name decl.imports)) =
      .ok [("    ".toList, some "    /**\n     * @param /*in*/int $a\n     */".toList)] := by
    decide +kernel
  obtain ⟨decl, hread, m, hm, hmethod⟩ := exists_method_of_map hparts
  obtain ⟨hindent, hblock⟩ := Prod.mk.inj hmethod
  refine ⟨decl, hread, m, hm, _, hblock, rfl, fun comment heq hcomment => ?_, by decide +kernel⟩
  have hparts : "    /**\n     * @param /*in*/int $a\n     */".toList = "    ".toList ++
      ("/**\n     * @param /*in".toList ++ commentEnd ++ "int $a\n     */".toList) := by
    decide +kernel
  rw [hindent, hparts, List.append_cancel_left_eq] at heq
  exact absurd (hcomment.closes_once _ _ heq.symm) (by decide)

end ClassDecl

end PhpDoc
