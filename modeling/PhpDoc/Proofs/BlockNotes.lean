import Mathlib
import PhpDoc.Proofs.Annotations
import PhpDoc.Proofs.MethodLines

/-!
# Blocks are notes

The block of a class and the block of a method are whole lines that open a comment.  Their lines are
those that were kept, tags with what is written behind them, and separators; so they declare nothing
as long as no kept line does and nothing that is written into them breaks a line.  What such blocks
add to a source is a note in the sense of scans.
-/

namespace PhpDoc

/-! ## Texts that declare nothing -/

theorem IsInert.append {front rest : Text} (hfront : IsInert front) (hrest : IsInert rest) :
    IsInert (front ++ rest) := by
  intro c hc
  rw [List.dropWhile_append] at hc
  split at hc
  · exact hrest c hc
  · next hne =>
      rw [List.head?_append_of_ne_nil _ (by simpa using hne)] at hc
      exact hfront c hc

theorem IsInert.of_append {front rest : Text} (h : IsInert (front ++ rest)) : IsInert front := by
  intro c hc
  have hne : front.dropWhile isIndent ≠ [] := by
    intro hnil
    rw [hnil] at hc
    contradiction
  refine h c ?_
  rwa [List.dropWhile_append, if_neg (by simpa using hne), List.head?_append_of_ne_nil _ hne]

theorem isInert_cons {c : Char} (hindent : isIndent c = false) (hlower : c.isLower = false)
    (rest : Text) : IsInert (c :: rest) := by
  intro d hd
  rw [List.dropWhile_cons_of_neg (by simp [hindent])] at hd
  obtain rfl : c = d := Option.some.inj hd
  exact hlower

theorem isInert_of_blank {text : Text} (h : ∀ c ∈ text, isBlank c = true) : IsInert text := by
  intro c hc
  have hmem := (List.dropWhile_suffix isIndent).subset (List.mem_of_mem_head? hc)
  by_contra hlower
  rw [Bool.not_eq_false] at hlower
  have hblank := h c hmem
  rw [isBlank_of_isLower hlower] at hblank
  contradiction

theorem isInert_star (rest : Text) : IsInert (" *".toList ++ rest) :=
  (isInert_cons (by decide) (by decide) rest : IsInert ('*' :: rest))

theorem isInert_of_dropReturn {line : Text} (h : IsInert (Text.dropReturn line)) :
    IsInert line := by
  rcases Text.dropReturn_cases line with ⟨-, heq⟩ | hreturn
  · rwa [heq] at h
  · rw [hreturn]
    exact h.append (isInert_cons (by decide) (by decide) [])

/-- A text declares nothing when none of its lines does. -/
theorem declaresNothing_of_lines {text : Text} (h : ∀ line ∈ text.lines, IsInert line) :
    DeclaresNothing text := by
  induction text using Text.induction_on_lines with
  | last line hline =>
      intro above below heq hstarts
      obtain rfl : above = [] := eq_nil_of_lineStartsAfter hstarts fun hmem =>
        hline (heq ▸ List.mem_append_left _ hmem)
      rw [List.nil_append] at heq
      by_cases hnil : line = []
      · rw [← heq, hnil]
        exact isInert_of_blank (by simp)
      · rw [← heq]
        exact h line (by rw [Text.lines_of_not_mem hline hnil]; exact List.mem_singleton_self _)
  | line line rest hline ih =>
      rw [Text.lines_append_newline hline] at h
      have hfirst := isInert_of_dropReturn (h _ List.mem_cons_self)
      have hrest := ih fun l hl => h l (List.mem_cons_of_mem _ hl)
      intro above below heq hstarts
      by_cases hnil : above = []
      · rw [hnil, List.nil_append] at heq
        rw [← heq]
        exact hfirst.append (isInert_cons (by decide) (by decide) rest)
      · obtain ⟨before, rfl⟩ := eq_append_newline_of_lineStartsAfter hstarts hnil
        rw [List.append_assoc, List.singleton_append] at heq
        rcases Text.append_newline_cases hline heq.symm with ⟨-, rfl⟩ | ⟨w, -, hmore⟩
        · exact hrest [] below rfl lineStartsAfter_nil
        · exact hrest (w ++ ['\n']) below (by simp [hmore]) (by simp [LineStartsAfter])

theorem DeclaresNothing.append_blanks {text gap : Text} (h : DeclaresNothing text)
    (hgap : ∀ c ∈ gap, isBlank c = true) : DeclaresNothing (text ++ gap) := by
  intro above below heq hstarts
  rcases List.append_eq_append_iff.1 heq with ⟨more, rfl, hbelow⟩ | ⟨more, htext, rfl⟩
  · exact isInert_of_blank fun c hc => hgap c (hbelow ▸ List.mem_append_right _ hc)
  · exact (h above more htext hstarts).append (isInert_of_blank hgap)

/-- A comment behind indentation, with blanks behind it that end a line, is a note. -/
theorem isNote_of_comment {indent comment gap : Text} (hindent : ∀ c ∈ indent, isIndent c = true)
    (hcomment : IsDocComment comment) (hlines : ∀ line ∈ (indent ++ comment).lines, IsInert line)
    (hgap : ∀ c ∈ gap, isBlank c = true) (hlast : gap.getLast? = some '\n') :
    IsNote (indent ++ comment ++ gap) where
  opens := by
    obtain ⟨rest, rfl⟩ := hcomment.opens
    exact ⟨indent, "**".toList ++ rest ++ gap, hindent, by simp [openingLine]⟩
  ends := by
    have hne : gap ≠ [] := by
      rintro rfl
      simp at hlast
    rw [List.getLast?_append_of_ne_nil _ hne, hlast]
  plain := hcomment.endsPlain hgap indent
  declaresNothing := (declaresNothing_of_lines hlines).append_blanks hgap

/-! ## Lines of groups -/

theorem isInert_of_startsToken {token : Text} (h : startsToken token = true) : IsInert token := by
  cases token with
  | nil => exact isInert_of_blank (by simp)
  | cons c token =>
      have hc : c = '&' ∨ c = '.' ∨ c = '$' ∨ c = '{' := by
        by_contra hnot
        simp only [not_or] at hnot
        obtain ⟨hand, hdot, hdollar, hbrace⟩ := hnot
        simp [startsToken, startsVariable, startsBraced, Text.after?, Ne.symm hand, Ne.symm hdot,
          hdollar, hbrace] at h
      rcases hc with rfl | rfl | rfl | rfl <;> exact isInert_cons (by decide) (by decide) token

theorem isInert_alignLine {line : Text} (h : IsInert line) (width : Nat) :
    IsInert (alignLine width line) := by
  cases hsplit : splitToken? line with
  | none => rwa [alignLine_eq_self width hsplit]
  | some pair =>
      obtain ⟨front, token⟩ := pair
      obtain ⟨blanks, -, -, rfl⟩ := exists_blanks_of_splitTokenFrom? hsplit
      rw [List.append_assoc] at h
      rw [alignLine_of_splitToken? width hsplit]
      refine (h.of_append.append (isInert_of_blank fun c hc => ?_)).append ?_
      · rw [List.eq_of_mem_replicate hc]
        rfl
      · exact isInert_of_startsToken (startsToken_of_splitTokenFrom? hsplit).1

theorem isInert_tagLine (tag body : Text) : IsInert (tagLine tag body) :=
  isInert_star _

/-- The lines of a block are its delimiters, separators, and the lines of its groups. -/
theorem TagGroups.mem_lines_assemble {g : TagGroups} {order : GroupOrder}
    (hg : ∀ key, ∀ line ∈ g.lines key, '\n' ∉ line ∧ line.getLast? ≠ some '\r') {line : Text}
    (h : line ∈ (g.assemble order).lines) :
    line ∈ [openingLine, separatorLine, closingLine] ∨ ∃ key, line ∈ g.lines key := by
  have hbody : ∀ line ∈ spaceOut false false (g.bodyLines order),
      line = separatorLine ∨ ∃ key, line ∈ g.lines key := fun line hline =>
    (mem_of_mem_spaceOut hline).elim Or.inl mem_bodyLines
  have hclean : ∀ line ∈ spaceOut false false (g.bodyLines order), line.getLast? ≠ some '\r' := by
    intro line hline
    rcases hbody line hline with rfl | ⟨key, hline⟩
    · decide
    · exact (hg key line hline).2
  rw [lines_assemble order fun key line hline => (hg key line hline).1,
    Text.map_dropReturn_eq_self hclean, List.cons_append, List.mem_cons, List.mem_append,
    List.mem_singleton] at h
  rcases h with rfl | hline | rfl
  · simp
  · rcases hbody line hline with rfl | hkey
    · simp
    · exact Or.inr hkey
  · simp

theorem isInert_of_mem_lines_assemble {g : TagGroups} {order : GroupOrder}
    (hg : ∀ key, ∀ line ∈ g.lines key,
      '\n' ∉ line ∧ line.getLast? ≠ some '\r' ∧ IsInert line) {line : Text}
    (h : line ∈ (g.assemble order).lines) : IsInert line := by
  rcases TagGroups.mem_lines_assemble
    (fun key line hline => ⟨(hg key line hline).1, (hg key line hline).2.1⟩) h with
    hfixed | ⟨key, hline⟩
  · simp only [List.mem_cons, List.not_mem_nil, or_false] at hfixed
    rcases hfixed with rfl | rfl | rfl
    · exact isInert_cons (by decide) (by decide) _
    · exact isInert_star []
    · exact isInert_star _
  · exact (hg key line hline).2.2

/-! ## Class blocks -/

namespace ClassBlock

/-- A typed block that is one comment and declares nothing: no delimiter stands in a line that is
kept or in what is added, and no line of the comment starts like a declaration. -/
structure IsOneComment (b : ClassBlock) : Prop extends IsTypedBlock b where
  inert : ∀ line ∈ (b.existing.getD []).lines, IsInert line
  kept_whole : ∀ line ∈ (b.existing.getD []).lines, ∀ kept ∈ classify line,
    ¬ HoldsDelimiter kept.2
  mixins_whole : ∀ target ∈ b.mixins, ¬ HoldsDelimiter target
  description_whole : ¬ HoldsDelimiter b.placeholder

namespace IsOneComment

variable {b : ClassBlock} (h : b.IsOneComment)
include h

/-- The facts of a typed block are plain. -/
theorem isPlainFact {facts : List PropertyFact} (hfacts : b.discovery = .discovered facts)
    {fact : PropertyFact} (hfact : fact ∈ facts) : IsPlainFact fact := by
  rcases h.properties with ⟨reason, hnone⟩ | ⟨facts', hfacts', hplain, -⟩
  · rw [hnone] at hfacts
    contradiction
  · obtain rfl : facts' = facts := Discovery.discovered.inj (hfacts'.symm.trans hfacts)
    exact hplain fact hfact

theorem not_holdsDelimiter {key line : Text} (hline : line ∈ b.groups.lines key) :
    ¬ HoldsDelimiter line := by
  have hbraced : ∀ {tag name : Text}, '/' ∉ tag → '/' ∉ name →
      ¬ HoldsDelimiter (tagLine tag (braced name)) := fun htag hname => by
    rw [holdsDelimiter_tagLine_iff htag]
    exact not_holdsDelimiter_of_slash_not_mem (by simp [braced, hname])
  refine forall_mem_groups (P := fun line => ¬ HoldsDelimiter line) (fun width line hnot => ?_)
    (fun key line hold => ?_) (fun facts hfacts fact hfact => ?_) (hbraced (by decide) ?_)
    (hbraced (by decide) ?_) (fun target htarget => ?_) (fun _ => ?_) hline
  · rwa [holdsDelimiter_alignLine_iff]
  · obtain ⟨source, hsource, hclass⟩ := TagGroups.mem_lines_ofBlock.1 hold
    exact h.kept_whole source hsource _ hclass
  · have hplain := h.isPlainFact hfacts hfact
    rw [PropertyFact.render, hplain.sourceLine_eq, Option.getD_none,
      holdsDelimiter_tagLine_iff (by decide)]
    refine not_holdsDelimiter_of_slash_not_mem fun hmem => ?_
    simp only [List.mem_append, List.mem_cons] at hmem
    rcases hmem with hmem | hmem | hmem | hmem
    · exact absurd (hplain.type _ hmem) (by decide)
    · exact absurd hmem (by decide)
    · exact absurd hmem (by decide)
    · exact absurd (isIdentifierChar_of_mem hplain.name _ hmem) (by decide)
  · exact fun hmem => absurd (isIdentifierChar_of_mem h.name _ hmem) (by decide)
  · exact fun hmem => absurd (h.home _ hmem) (by decide)
  · rw [holdsDelimiter_tagLine_iff (by decide)]
    exact h.mixins_whole target htarget
  · rw [show " * ".toList = " *".toList ++ [' '] from rfl, List.append_assoc,
      List.singleton_append, holdsDelimiter_append_cons (by decide)]
    exact not_or.2 ⟨by decide, h.description_whole⟩

theorem isInert {key line : Text} (hline : line ∈ b.groups.lines key) : IsInert line := by
  refine forall_mem_groups (P := IsInert) (fun width line hinert => isInert_alignLine hinert width)
    (fun key line hold => ?_) (fun facts hfacts fact hfact => ?_) (isInert_tagLine _ _)
    (isInert_tagLine _ _) (fun target htarget => isInert_tagLine _ _) (fun _ => isInert_star _) hline
  · obtain ⟨source, hsource, hclass⟩ := TagGroups.mem_lines_ofBlock.1 hold
    rcases kept_cases hclass with rfl | ⟨remark, rfl, -⟩
    · exact h.inert _ hsource
    · exact isInert_star _
  · rw [PropertyFact.render, (h.isPlainFact hfacts hfact).sourceLine_eq, Option.getD_none]
    exact isInert_tagLine _ _

theorem isDocComment : IsDocComment b.render := by
  have hblank : ∀ c ∈ [' '], isBlank c = true := by
    intro c hc
    rw [List.mem_singleton.1 hc]
    rfl
  refine (isDocComment_joinLines_iff hblank _).2 fun line hline => ?_
  rcases mem_of_mem_spaceOut hline with rfl | hline
  · decide
  · rcases TagGroups.mem_bodyLines hline with rfl | ⟨key, hline⟩
    · decide
    · exact h.not_holdsDelimiter hline

/-- With the line ending of its file and blanks behind it, the rendered block is a note. -/
theorem isNote {newline gap : Text} (hnewline : newline = ['\n'] ∨ newline = ['\r', '\n'])
    (hgap : ∀ c ∈ gap, isBlank c = true) (hlast : gap.getLast? = some '\n') :
    IsDocComment (b.render.withNewlines newline) ∧
      IsNote (b.render.withNewlines newline ++ gap) := by
  have hends : newline ∈ lineEnds := by
    rcases hnewline with rfl | rfl <;> decide
  obtain ⟨hne, hblank, -⟩ := of_mem_lineEnds hends
  have hcomment := h.isDocComment.withNewlines hne hblank
  have hlines : ∀ line ∈ Text.lines ([] ++ b.render.withNewlines newline), IsInert line := by
    rw [List.nil_append, h.isStable.lines_withNewlines hnewline]
    intro line hline
    refine isInert_of_mem_lines_assemble (fun key line hline => ?_) hline
    exact ⟨(h.isStable.allReadBack key line hline).newline_not_mem,
      h.isStable.getLast?_ne_return hline, h.isInert hline⟩
  have hnote := isNote_of_comment (by simp) hcomment hlines hgap hlast
  rw [List.nil_append] at hnote
  exact ⟨hcomment, hnote⟩

end IsOneComment

end ClassBlock

/-! ## Method blocks -/

namespace Signature

variable {m : Signature} {imports : ImportTable}

/-- A written type that leaves a block one comment: no delimiter stands in it, and it breaks no
line. -/
structure IsWholeType (type : Text) : Prop where
  no_delimiter : ¬ HoldsDelimiter type
  newline_not_mem : '\n' ∉ type
  last_ne_return : type.getLast? ≠ some '\r'

instance : DecidablePred IsWholeType := fun type =>
  decidable_of_iff (¬ HoldsDelimiter type ∧ '\n' ∉ type ∧ type.getLast? ≠ some '\r')
    ⟨fun h => ⟨h.1, h.2.1, h.2.2⟩, fun h => ⟨h.no_delimiter, h.newline_not_mem, h.last_ne_return⟩⟩

section

variable (hnames : ∀ p ∈ m.parameters, Text.isIdentifier p.name = true)
  (htypes : ∀ type ∈ m.writtenTypes imports, IsWholeType type)
include hnames htypes

theorem isWholeLine_of_mem_groups {key line : Text} (h : line ∈ (m.groups imports).lines key) :
    IsWholeLine line ∧ IsInert line := by
  rcases mem_groups_iff.1 h with ⟨-, haligned⟩ | ⟨-, type, htype, rfl⟩
  · obtain ⟨width, l, hl, rfl⟩ := mem_align haligned
    obtain ⟨p, hp, rfl⟩ := List.mem_map.1 hl
    have hname : ∀ c ∈ p.name, isBlank c = false := fun c hc =>
      isBlank_of_isIdentifierChar (isIdentifierChar_of_mem (hnames p hp) c hc)
    have htype : '\n' ∉ (p.type.map imports.collapse).getD "mixed".toList := by
      cases htype : p.type with
      | none =>
          rw [Option.map_none, Option.getD_none]
          decide
      | some type =>
          refine (htypes _ (List.mem_map_of_mem (List.mem_append_left _ ?_))).newline_not_mem
          exact List.mem_filterMap.2 ⟨p, hp, htype⟩
    exact ⟨(isWholeLine_parameterLine htype hname).alignLine width,
      isInert_alignLine (isInert_tagLine _ _) width⟩
  · have hwhole := htypes _ (List.mem_map_of_mem (List.mem_append_right _
      (Option.mem_toList.2 htype)))
    exact ⟨isWholeLine_tagLine (by decide) hwhole.newline_not_mem hwhole.last_ne_return,
      isInert_tagLine _ _⟩

/-- The lines of a block, and that no carriage return stands in front of their ends. -/
theorem lines_of_block? {className block : Text}
    (hblock : m.block? className imports = some block) :
    (∀ line ∈ block.lines, IsInert line) ∧ ¬ ['\r', '\n'] <:+: block := by
  have hgroups : ∀ key, ∀ line ∈ (m.groups imports).lines key, IsWholeLine line ∧ IsInert line :=
    fun key line hline => isWholeLine_of_mem_groups hnames htypes hline
  obtain ⟨lines, hlines⟩ : ∃ lines, ((m.groups imports).assemble methodOrder).lines = lines :=
    ⟨_, rfl⟩
  have hinert : ∀ line ∈ lines, IsInert line := fun line hline =>
    isInert_of_mem_lines_assemble (fun key line hline =>
      have hline := hgroups key line hline
      ⟨hline.1.newline_not_mem, hline.1.last_ne_return, hline.2⟩) (hlines ▸ hline)
  have hwhole : ∀ line ∈ lines, IsWholeLine line := fun line hline => by
    rcases TagGroups.mem_lines_assemble (fun key line hline =>
      have hline := (hgroups key line hline).1
      ⟨hline.newline_not_mem, hline.last_ne_return⟩) (hlines ▸ hline) with hfixed | ⟨key, hline⟩
    · exact isWholeLine_of_mem_fixed hfixed
    · exact (hgroups key line hline).1
  have hne : lines ≠ [] := by
    obtain ⟨inner, hinner, -⟩ := (m.groups imports).exists_lines_assemble methodOrder
    rw [← hlines, hinner]
    simp
  rw [block?] at hblock
  split at hblock
  · rw [hlines] at hblock
    obtain rfl := Option.some.inj hblock
    constructor
    · rw [lines_joinLines_indented m hne hwhole]
      intro line hline
      obtain ⟨l, hl, rfl⟩ := List.mem_map.1 hline
      exact (isInert_of_blank m.isBlank_of_mem_indent).append (hinert l hl)
    · refine Text.not_infix_joinLines fun line hline => ?_
      obtain ⟨l, hl, rfl⟩ := List.mem_map.1 hline
      have hindent : '\n' ∉ m.indent := fun hmem =>
        absurd (List.mem_takeWhile_imp hmem) (by decide)
      obtain ⟨hnil, hnewline, hlast⟩ := hwhole l hl
      refine ⟨by simp [hindent, hnewline], ?_⟩
      rwa [List.getLast?_append_of_ne_nil _ hnil]
  · contradiction

/-- With the line ending of its file, the block of a method is a note: its indentation, a doc
comment and a line end. -/
theorem exists_isNote_of_block? {className block newline : Text}
    (hblock : m.block? className imports = some block)
    (hnewline : newline = ['\n'] ∨ newline = ['\r', '\n']) :
    ∃ comment, block.withNewlines newline ++ newline = m.indent ++ comment ++ newline ∧
      IsDocComment comment ∧ IsNote (block.withNewlines newline ++ newline) := by
  obtain ⟨hlines, hpair⟩ := lines_of_block? hnames htypes hblock
  obtain ⟨comment, rfl, hcomment⟩ := exists_comment_of_block? hnames hblock
  have hends : newline ∈ lineEnds := by
    rcases hnewline with rfl | rfl <;> decide
  obtain ⟨hne, hblank, hlast⟩ := of_mem_lineEnds hends
  have hindent : ∀ c ∈ m.indent, isIndent c = true := fun c hc => List.mem_takeWhile_imp hc
  have hnot : '\n' ∉ m.indent := fun hmem => absurd (hindent _ hmem) (by decide)
  have hdoc := (hcomment.2 fun type htype => (htypes type htype).no_delimiter).withNewlines hne
    hblank
  have hparts : Text.withNewlines (m.indent ++ comment) newline =
      m.indent ++ comment.withNewlines newline := by
    rw [Text.withNewlines_append, Text.withNewlines_eq_self hnot]
  have hsame : Text.lines (m.indent ++ comment.withNewlines newline) =
      Text.lines (m.indent ++ comment) := by
    rw [← hparts]
    rcases hnewline with rfl | rfl
    · rw [Text.withNewlines_newline]
    · exact Text.lines_withNewlines_return hpair
  rw [hparts]
  exact ⟨_, rfl, hdoc, isNote_of_comment hindent hdoc (hsame ▸ hlines) hblank hlast⟩

end

end Signature

end PhpDoc
