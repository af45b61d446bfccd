import Mathlib
import PhpDoc.Proofs.MergedNotes

/-!
# Where the anchor of a class stands in an annotated text

An anchor that stands at a line start of an annotated text stands in the text.  It does not start
inside a note, for a note declares nothing and does not end in an attribute line; and no note stands
in it, for none of its lines opens a comment.  So if the anchor of a class has one place in the
source, the new class block with the anchor below it has one place in the merged source.
-/

namespace PhpDoc

/-! ## Class heads -/

/-- A word starts the head, no slash stands in it, and no blank ends it. -/
structure IsPlainHead (head : Text) : Prop where
  starts : ∃ c ∈ head.head?, c.isLower = true
  slash_not_mem : '/' ∉ head
  ends : ∃ c ∈ head.getLast?, isBlank c = false

theorem IsPlainHead.ne_nil {head : Text} (h : IsPlainHead head) : head ≠ [] := by
  rintro rfl
  obtain ⟨c, hc, -⟩ := h.starts
  contradiction

theorem IsClassHead.isPlainHead {name head : Text} (h : IsClassHead name head) :
    IsPlainHead head := by
  have hslash : ∀ {blanks : Text}, (∀ c ∈ blanks, isBlank c = true) → '/' ∉ blanks :=
    fun hblanks hmem => absurd (hblanks _ hmem) (by decide)
  induction h with
  | @plain blanks hne hblanks hname =>
      have hchars := isIdentifierChar_of_mem hname
      refine ⟨⟨'c', rfl, by decide⟩, ?_, ?_⟩
      · simp only [List.mem_append, not_or]
        exact ⟨⟨by decide, hslash hblanks⟩, fun hmem => absurd (hchars _ hmem) (by decide)⟩
      · have hne' := ne_nil_of_isIdentifier hname
        refine ⟨name.getLast hne', ?_, isBlank_of_isIdentifierChar (hchars _ (List.getLast_mem hne'))⟩
        rw [List.getLast?_append_of_ne_nil _ hne', List.getLast?_eq_some_getLast hne']
        rfl
  | @modified modifier blanks head hmodifier hne hblanks _ ih =>
      obtain ⟨c, word, rfl, hc, hword⟩ : ∃ c word, modifier = c :: word ∧ c.isLower = true ∧
          '/' ∉ c :: word := by
        simp only [classModifiers, List.mem_cons, List.not_mem_nil, or_false] at hmodifier
        rcases hmodifier with rfl | rfl | rfl <;> exact ⟨_, _, rfl, by decide, by decide⟩
      refine ⟨⟨c, rfl, hc⟩, ?_, ?_⟩
      · rw [List.mem_append, List.mem_append, not_or, not_or]
        exact ⟨⟨hword, hslash hblanks⟩, ih.slash_not_mem⟩
      · rw [List.getLast?_append_of_ne_nil _ ih.ne_nil]
        exact ih.ends

/-! ## Lines of an anchor -/

theorem exists_firstMark {text : Text} (h : ∃ c ∈ text.getLast?, isBlank c = false) :
    ∃ c ∈ text, firstMark text = some c := by
  obtain ⟨c, hc, hblank⟩ := h
  obtain ⟨blanks, hblanks, htext⟩ := Text.exists_blanks_append_trimStart text
  cases htrim : text.trimStart with
  | nil =>
      rw [htrim, List.append_nil] at htext
      rw [hblanks c (htext ▸ List.mem_of_mem_getLast? hc)] at hblank
      contradiction
  | cons d rest =>
      refine ⟨d, ?_, by rw [firstMark, htrim, List.head?_cons]⟩
      rw [htext, htrim]
      exact List.mem_append_right _ List.mem_cons_self

theorem IsNote.firstMark_append {note : Text} (h : IsNote note) (rest : Text) :
    firstMark (note ++ rest) = some '/' := by
  obtain ⟨indent, more, hindent, rfl⟩ := h.opens
  rw [List.append_assoc, List.cons_append]
  exact firstMark_indent_append hindent (by decide)

section

variable {attributes head : Text} (hattributes : AttributeLines attributes)
  (hhead : IsPlainHead head)
include hattributes hhead

/-- No line of an anchor opens a comment. -/
theorem exists_firstMark_of_anchor {front rest : Text} (h : attributes ++ head = front ++ rest)
    (hfront : LineStartsAfter front) (hne : rest ≠ []) :
    ∃ c, firstMark rest = some c ∧ c ≠ '/' := by
  rcases List.append_eq_append_iff.1 h with ⟨inner, -, hinner⟩ | ⟨lines, hlines, rfl⟩
  · have hends := hhead.ends
    rw [hinner, List.getLast?_append_of_ne_nil _ hne] at hends
    obtain ⟨c, hc, hmark⟩ := exists_firstMark hends
    refine ⟨c, hmark, ?_⟩
    rintro rfl
    exact hhead.slash_not_mem (hinner ▸ List.mem_append_right _ hc)
  · rw [hlines] at hattributes
    cases (hattributes.of_append hfront).2 with
    | nil =>
        obtain ⟨c, hc, hmark⟩ := exists_firstMark hhead.ends
        exact ⟨c, hmark, fun hslash => hhead.slash_not_mem (hslash ▸ hc)⟩
    | @cons line more _ hline _ =>
        refine ⟨'#', ?_, by decide⟩
        rw [List.append_assoc]
        exact firstMark_append (firstMark_of_isAttributeLine_append hline) _

/-- An anchor does not start inside a note. -/
theorem IsNote.append_ne_anchor {note front back : Text} (h : IsNote note)
    (hnote : note = front ++ back) (hne : back ≠ []) (hfront : LineStartsAfter front)
    (text rest : Text) : back ++ text ≠ attributes ++ (head ++ rest) := by
  intro heq
  have hlast : back.getLast? = some '\n' := by
    rw [← h.ends, hnote, List.getLast?_append_of_ne_nil _ hne]
  -- the note does not end in attribute lines
  have hplain : ¬ AttributeLines back := by
    intro hlines
    obtain ⟨more, line, rfl, hmore, hline, hattribute⟩ := hlines.exists_concat hne
    have hstarts := hmore.startsLine_reverse (startsLine_reverse_iff.2 hfront)
    rw [h.plain _ line (by rw [hnote, ← List.append_assoc]) hline hstarts] at hattribute
    contradiction
  rcases List.append_eq_append_iff.1 heq with ⟨lines, rfl, -⟩ | ⟨inner, rfl, hinner⟩
  · refine hplain (hattributes.of_append fun c hc => ?_).1
    exact (Option.some.inj (hlast.symm.trans hc)).symm
  · cases inner with
    | nil =>
        rw [List.append_nil] at hplain
        exact hplain hattributes
    | cons c inner =>
        -- the head would be declared in the note
        obtain ⟨d, hd, hlower⟩ := hhead.starts
        obtain ⟨word, rfl⟩ := List.head?_eq_some_iff.1 hd
        rw [List.cons_append, List.cons_append, List.cons.injEq] at hinner
        obtain ⟨rfl, -⟩ := hinner
        have hstarts : LineStartsAfter (front ++ attributes) :=
          startsLine_reverse_iff.1 (hattributes.startsLine_reverse (startsLine_reverse_iff.2 hfront))
        have hinert := h.declaresNothing (front ++ attributes) (d :: inner)
          (by rw [hnote, List.append_assoc]) hstarts d
        have hindent : ¬ isIndent d = true := fun hindent => by
          have hblank := isBlank_of_isIndent hindent
          rw [isBlank_of_isLower hlower] at hblank
          contradiction
        rw [List.dropWhile_cons_of_neg hindent] at hinert
        rw [hinert rfl] at hlower
        contradiction

end

/-! ## Anchors in annotated texts -/

section

variable {notes : Nat → Text} {base above text : Text}

/-- Where an annotated text can be divided: inside a note, or behind it. -/
theorem exists_of_annotated_eq_append {offset : Nat} {front rest : Text}
    (h : annotated notes offset text = front ++ rest) (hne : rest ≠ []) :
    ∃ above below before after, text = above ++ below ∧ below ≠ [] ∧
      notes (offset + above.length) = before ++ after ∧
      front = annotated notes offset above ++ before ∧
      rest = after ++ annotatedTail notes (offset + above.length) below := by
  induction text generalizing offset front with
  | nil =>
      rw [annotated, eq_comm, List.append_eq_nil_iff] at h
      exact absurd h.2 hne
  | cons c text ih =>
      rw [annotated] at h
      rcases List.append_eq_append_iff.1 h with ⟨more, rfl, hmore⟩ | ⟨after, hnote, rfl⟩
      · cases more with
        | nil =>
            exact ⟨[], c :: text, notes offset, [], rfl, by simp, by simp, by simp [annotated],
              hmore.symm⟩
        | cons d more =>
            rw [List.cons_append, List.cons.injEq] at hmore
            obtain ⟨rfl, hmore⟩ := hmore
            obtain ⟨above, below, before, after, rfl, hbelow, hnote, rfl, rfl⟩ := ih hmore
            have hoffset : offset + 1 + above.length = offset + (c :: above).length := by
              rw [List.length_cons]
              omega
            rw [hoffset] at hnote ⊢
            exact ⟨c :: above, below, before, after, rfl, hbelow, hnote, by simp [annotated], rfl⟩
      · exact ⟨[], c :: text, front, after, rfl, by simp, hnote, by simp [annotated], rfl⟩

/-- No note stands inside a line. -/
theorem exists_of_annotatedTail_eq_line {line rest : Text} (hnotes : AreNotes notes base)
    (hbase : base = above ++ text) (hline : '\n' ∉ line)
    (h : annotatedTail notes above.length text = line ++ '\n' :: rest) :
    ∃ below, text = line ++ '\n' :: below ∧
      rest = annotated notes (above ++ (line ++ ['\n'])).length below ∧
      ∀ j, above.length < j → j < (above ++ (line ++ ['\n'])).length → notes j = [] := by
  induction line generalizing above text with
  | nil =>
      cases text with
      | nil => simp [annotatedTail] at h
      | cons c text =>
          rw [annotatedTail, List.nil_append, List.cons.injEq] at h
          obtain ⟨rfl, rfl⟩ := h
          exact ⟨text, rfl, by simp, fun j hj hj' => by simp at hj'; omega⟩
  | cons d line ih =>
      cases text with
      | nil => simp [annotatedTail] at h
      | cons c text =>
          rw [annotatedTail, List.cons_append, List.cons.injEq] at h
          obtain ⟨rfl, h⟩ := h
          have hbase' : base = (above ++ [c]) ++ text := by rw [hbase, List.append_cons]
          have hlength : (above ++ [c]).length = above.length + 1 := by simp
          have hnil : notes (above ++ [c]).length = [] := by
            by_contra hnote
            have hstarts := hnotes.starts _ _ hbase' hnote
            exact hline (by rw [hstarts c (by simp)]; exact List.mem_cons_self)
          have hne : text ≠ [] := by
            rintro rfl
            simp [annotated] at h
          rw [← hlength, annotated_of_ne_nil _ _ hne, hnil, List.nil_append] at h
          obtain ⟨below, rfl, hrest, hclear⟩ :=
            ih hbase' (fun hmem => hline (List.mem_cons_of_mem _ hmem)) h
          have hsame : above ++ [c] ++ (line ++ ['\n']) = above ++ (c :: line ++ ['\n']) := by simp
          rw [hsame] at hrest hclear
          refine ⟨below, rfl, hrest, fun j hj hj' => ?_⟩
          rcases Nat.eq_or_lt_of_le hj with heq | hlt
          · rw [← heq, ← hnil, hlength]
          · exact hclear j (by omega) hj'

/-- No note stands in an anchor. -/
theorem exists_of_annotatedTail_eq_anchor {attributes head rest : Text}
    (hattributes : AttributeLines attributes) (hhead : IsPlainHead head)
    (hnotes : AreNotes notes base) (hbase : base = above ++ text)
    (h : annotatedTail notes above.length text = attributes ++ (head ++ rest)) :
    ∃ below, text = attributes ++ head ++ below ∧
      rest = annotated notes (above ++ (attributes ++ head)).length below ∧
      ∀ j, above.length < j → j ≤ (above ++ (attributes ++ head)).length → notes j = [] := by
  induction hattributes generalizing above text with
  | nil => exact exists_of_annotatedTail_eq hnotes hbase h hhead.slash_not_mem hhead.ends
  | @cons line more hline _ hmore ih =>
      rw [List.append_assoc, List.cons_append] at h
      obtain ⟨text, rfl, hrest, hclear⟩ := exists_of_annotatedTail_eq_line hnotes hbase hline h
      have hbase' : base = (above ++ (line ++ ['\n'])) ++ text := by simp [hbase]
      have hne : text ≠ [] := by
        rintro rfl
        simp [annotated, hhead.ne_nil] at hrest
      -- a note would open a comment
      have hnil : notes (above ++ (line ++ ['\n'])).length = [] := by
        by_contra hnote
        rw [annotated_of_ne_nil _ _ hne] at hrest
        have hslash := (hnotes.isNote _ hnote).firstMark_append
          (annotatedTail notes (above ++ (line ++ ['\n'])).length text)
        obtain ⟨c, hc, hmark⟩ := exists_firstMark_of_anchor hmore hhead (List.nil_append _).symm
          lineStartsAfter_nil (by simp [hhead.ne_nil])
        rw [← hrest, ← List.append_assoc, PhpDoc.firstMark_append hc] at hslash
        exact hmark (Option.some.inj hslash)
      rw [annotated_of_ne_nil _ _ hne, hnil, List.nil_append] at hrest
      obtain ⟨below, rfl, hbelow, hclear'⟩ := ih hbase' hrest.symm
      have hsame : above ++ (line ++ ['\n']) ++ (more ++ head) =
          above ++ (line ++ '\n' :: more ++ head) := by simp
      rw [hsame] at hbelow hclear'
      refine ⟨below, by simp, hbelow, fun j hj hj' => ?_⟩
      rcases Nat.lt_trichotomy j (above ++ (line ++ ['\n'])).length with hlt | rfl | hgt
      · exact hclear j hj hlt
      · exact hnil
      · exact hclear' j hgt hj'

/-- An anchor at a line start of an annotated text is one of the text. -/
theorem exists_above_of_anchor {attributes head front rest : Text}
    (hattributes : AttributeLines attributes) (hhead : IsPlainHead head)
    (hnotes : AreNotes notes base)
    (h : annotated notes 0 base = front ++ (attributes ++ head) ++ rest)
    (hfront : LineStartsAfter front) :
    ∃ above below, base = above ++ (attributes ++ head ++ below) ∧
      front = annotatedAbove notes above ∧
      rest = annotated notes (above ++ (attributes ++ head)).length below ∧
      ∀ j, above.length < j → j ≤ (above ++ (attributes ++ head)).length → notes j = [] := by
  rw [List.append_assoc, List.append_assoc] at h
  obtain ⟨above, text, before, after, hbase, hne, hnote, rfl, hrest⟩ :=
    exists_of_annotated_eq_append h (by simp [hhead.ne_nil])
  rw [Nat.zero_add] at hnote hrest
  by_cases hafter : after = []
  · rw [hafter, List.nil_append] at hrest
    obtain ⟨below, rfl, hbelow, hclear⟩ :=
      exists_of_annotatedTail_eq_anchor hattributes hhead hnotes hbase hrest.symm
    exact ⟨above, below, hbase, by rw [annotatedAbove, hnote, hafter, List.append_nil], hbelow, hclear⟩
  · have hnote' := hnotes.isNote above.length (by simp [hnote, hafter])
    have hstarts : LineStartsAfter before := by
      by_cases hnil : before = []
      · rw [hnil]
        exact lineStartsAfter_nil
      · exact (lineStartsAfter_append_iff _ hnil).1 hfront
    exact absurd hrest.symm (hnote'.append_ne_anchor hattributes hhead hnote hafter hstarts _ _)

theorem endsName_annotated {offset : Nat} (h : notes offset = []) (text : Text) :
    endsName (annotated notes offset text) = endsName text := by
  cases text with
  | nil => rfl
  | cons c text => rw [annotated, h, List.nil_append, endsName, endsName, List.head?_cons,
      List.head?_cons]

end

/-! ## The new class block -/

theorem prefix_of_prefix_append_cons {text front rest : Text} {c : Char}
    (h : text <+: front ++ c :: rest) (hc : c ∉ text) : text <+: front := by
  rcases Nat.lt_or_ge front.length text.length with hlt | hle
  · have hover : front ++ [c] <+: text :=
      List.prefix_of_prefix_length_le ⟨rest, by simp⟩ h (by simpa using hlt)
    exact absurd (hover.subset (by simp)) hc
  · exact List.prefix_of_prefix_length_le h (List.prefix_append _ _) hle

/-- Inside a doc comment with blanks behind it no other one opens. -/
theorem IsDocComment.not_opens_inside {comment front inner : Text} (h : IsDocComment comment)
    (hcomment : comment = front ++ inner) (hfront : front ≠ []) {c : Char}
    (hblank : isBlank c = true) (rest : Text) : ¬ openingLine <+: inner ++ c :: rest := by
  intro hopens
  obtain ⟨tail, rfl⟩ := prefix_of_prefix_append_cons hopens (not_mem_openingLine_of_blank hblank)
  exact hfront (h.opens_once front tail (by rw [hcomment, List.append_assoc]))

/-- A doc comment with an anchor below it does not start over at a line start. -/
theorem not_overlapsAtLineStart_of_comment {comment gap attributes head : Text}
    (hcomment : IsDocComment comment) (hne : gap ≠ []) (hgap : ∀ c ∈ gap, isBlank c = true)
    (hattributes : AttributeLines attributes) (hhead : IsPlainHead head) :
    ¬ OverlapsAtLineStart (comment ++ gap ++ (attributes ++ head)) := by
  intro hself
  obtain ⟨before, rest, hparts, hbefore, hstarts, hrest, hover⟩ := exists_of_overlapsAtLineStart hself
  rw [List.append_assoc] at hparts hover
  have hopens : openingLine <+: comment ++ (gap ++ (attributes ++ head)) :=
    hcomment.opens.trans (List.prefix_append _ _)
  obtain ⟨more, rfl⟩ : ∃ more, rest = '/' :: more := by
    obtain ⟨c, more, rfl⟩ := List.exists_cons_of_ne_nil hrest
    obtain ⟨tail, htail⟩ := hopens
    rw [← htail] at hover
    obtain rfl : c = '/' := (List.cons_prefix_cons.1 hover).1
    exact ⟨more, rfl⟩
  -- a line of the anchor opens no comment
  have hanchor : ∀ inner, attributes ++ head = inner ++ '/' :: more → ¬ LineStartsAfter inner := by
    intro inner hinner hline
    obtain ⟨c, hc, hmark⟩ := exists_firstMark_of_anchor hattributes hhead hinner hline (by simp)
    rw [firstMark, Text.trimStart_cons_of_not_blank (by decide)] at hc
    exact hmark (Option.some.inj hc).symm
  have hslash : '/' ∉ gap := fun hmem => absurd (hgap _ hmem) (by decide)
  rcases List.append_eq_append_iff.1 hparts with ⟨inner, rfl, hinner⟩ | ⟨inner, hinner, htail⟩
  · rcases List.append_eq_append_iff.1 hinner with ⟨lines, rfl, hlines⟩ | ⟨blanks, rfl, hblanks⟩
    · refine hanchor lines hlines ?_
      by_cases hnil : lines = []
      · rw [hnil]
        exact lineStartsAfter_nil
      · rw [← List.append_assoc, lineStartsAfter_append_iff _ hnil] at hstarts
        exact hstarts
    · cases blanks with
      | nil => exact hanchor [] hblanks.symm lineStartsAfter_nil
      | cons c blanks =>
          obtain ⟨rfl, -⟩ := List.cons.inj hblanks
          exact hslash (by simp)
  · obtain ⟨b, blanks, rfl⟩ := List.exists_cons_of_ne_nil hne
    cases inner with
    | nil =>
        obtain ⟨rfl, -⟩ := List.cons.inj htail
        exact hslash List.mem_cons_self
    | cons c inner =>
        have hlength : openingLine.length ≤ ('/' :: more).length := by
          have hpos := List.length_pos_of_ne_nil hhead.ne_nil
          rw [htail, show openingLine.length = 3 from rfl]
          simp only [List.length_append, List.length_cons]
          omega
        have hagain := List.prefix_of_prefix_length_le hopens hover hlength
        rw [htail] at hagain
        exact hcomment.not_opens_inside hinner hbefore (hgap b List.mem_cons_self) _ hagain

namespace ClassDecl

variable {decl : ClassDecl} {path source text block front rest : Text}

theorem exists_isPlainHead (h : read path source = .ok decl) :
    ∃ attributes head, decl.anchor = attributes ++ head ∧ AttributeLines attributes ∧
      IsPlainHead head := by
  obtain ⟨_, attributes, head, _, hstands⟩ := exists_stands_of_read h
  exact ⟨attributes, head, hstands.anchor_eq, hstands.areAttributes.lines,
    hstands.isClassHead.isPlainHead⟩

section

variable (h : decl.AreMerged block source text front rest)
  (hread : read path source = .ok decl)
  (honly : places source decl.anchor = {decl.offset + decl.heading.length})
include h hread

/-- The anchor stands behind the new block. -/
theorem AreMerged.text_eq_append : text = annotated (decl.newNotes block) 0 front ++
    decl.replacement block ++
      annotated (decl.newNotes block) (front ++ decl.anchor).length rest := by
  have hne := anchor_ne_nil hread
  have hclear := h.clear
  rw [← h.length_eq] at hclear
  rw [h.text_eq, annotated_append, Nat.zero_add, annotated_of_ne_nil _ front.length (by simp [hne]),
    annotatedTail_append hne hclear, newNotes, if_pos h.length_eq, replacement, List.length_append]
  simp

theorem AreMerged.endsName_rest :
    endsName (annotated (decl.newNotes block) (front ++ decl.anchor).length rest) = true := by
  rw [endsName_annotated _ rest, h.ends]
  by_contra hnote
  -- a note starts a line, and the anchor does not end one
  have hstarts := h.revision.after.starts (front ++ decl.anchor) rest (by simp) hnote
  obtain ⟨attributes, head, hanchor, -, hhead⟩ := exists_isPlainHead hread
  rw [hanchor, ← List.append_assoc, lineStartsAfter_append_iff _ hhead.ne_nil] at hstarts
  obtain ⟨c, hc, hblank⟩ := hhead.ends
  rw [hstarts c hc] at hblank
  contradiction

include honly

/-- An anchor that has one place in the source has one in the merged source. -/
theorem AreMerged.above_eq {above below : Text} (htext : text = above ++ decl.anchor ++ below)
    (hstarts : LineStartsAfter above) (hends : endsName below = true) :
    above = annotatedAbove (decl.newNotes block) front := by
  have hne := anchor_ne_nil hread
  obtain ⟨attributes, head, hanchor, hattributes, hhead⟩ := exists_isPlainHead hread
  have hparts : annotated (decl.newNotes block) 0 (front ++ (decl.anchor ++ rest)) =
      above ++ (attributes ++ head) ++ below := by
    rw [← h.text_eq, ← hanchor, htext]
  obtain ⟨upper, lower, hbase, rfl, rfl, hclear⟩ :=
    exists_above_of_anchor hattributes hhead h.revision.after hparts hstarts
  rw [← hanchor] at hbase hclear hends
  rw [endsName_annotated (hclear _ (by simp [List.length_pos_of_ne_nil hne]) le_rfl)] at hends
  -- it stands at the same place of the source
  have hclear' : ∀ j, upper.length < j → j ≤ (upper ++ decl.anchor).length →
      decl.oldNotes j = [] := fun j hj hj' => h.revision.places j (hclear j hj hj')
  have hsource : source = annotatedAbove decl.oldNotes upper ++ decl.anchor ++
      annotated decl.oldNotes (upper ++ decl.anchor).length lower := by
    rw [h.source_eq, hbase, annotated_eq_above_append _ _ (by simp [hne]), annotatedTail_append hne,
      List.length_append, List.append_assoc]
    intro j hj hj'
    exact hclear' j hj (by rw [List.length_append]; omega)
  have hplace : (annotatedAbove decl.oldNotes upper).length ∈ places source decl.anchor := by
    refine (mem_places hne).2 ((isPlace_iff hne).2 ⟨_, _, hsource, rfl, ?_, ?_⟩)
    · rw [lineStartsAfter_annotatedAbove_iff h.revision.before hbase]
      exact (lineStartsAfter_annotatedAbove_iff h.revision.after hbase).1 hstarts
    · rwa [endsName_annotated (hclear' _ (by simp [List.length_pos_of_ne_nil hne]) le_rfl)]
  rw [honly, Finset.mem_singleton] at hplace
  have hfront : (annotatedAbove decl.oldNotes front).length =
      decl.offset + decl.heading.length := by
    have hheading := annotatedAbove_oldNotes_append h.length_eq []
    rw [List.append_nil, List.append_nil] at hheading
    rw [hheading, List.length_append, h.length_eq]
  rw [eq_of_length_annotatedAbove_eq decl.oldNotes hbase rfl (hplace.trans hfront.symm)]

/-- The new class block stands at one place of the merged source. -/
theorem AreMerged.exists_anchoredOccurrences_eq (hcomment : IsDocComment (decl.withNewlines block)) :
    ∃ offset, anchoredOccurrences text (decl.replacement block) = [offset] := by
  obtain ⟨attributes, head, hanchor, hattributes, hhead⟩ := exists_isPlainHead hread
  obtain ⟨hblank, hlast⟩ := separator_spec hread
  have hsep : decl.separator ≠ [] := by
    intro hnil
    rw [hnil] at hlast
    contradiction
  have hself : ¬ OverlapsAtLineStart (decl.replacement block) := by
    rw [replacement, hanchor]
    exact not_overlapsAtLineStart_of_comment hcomment hsep hblank hattributes hhead
  have hne : decl.replacement block ≠ [] := by simp [replacement, hsep]
  refine ⟨(annotated (decl.newNotes block) 0 front).length, ?_⟩
  have hplaces : places text (decl.replacement block) =
      {(annotated (decl.newNotes block) 0 front).length} := by
    ext offset
    rw [mem_places hne, isPlace_iff hne, Finset.mem_singleton]
    constructor
    · rintro ⟨above, below, htext, rfl, hstarts, hends⟩
      have hline : LineStartsAfter (above ++ (decl.withNewlines block ++ decl.separator)) := by
        intro c hc
        rw [← List.append_assoc, List.getLast?_append_of_ne_nil _ hsep, hlast] at hc
        exact (Option.some.inj hc).symm
      have habove := h.above_eq hread honly (by rw [htext, replacement]; simp) hline hends
      rw [annotatedAbove, newNotes, if_pos h.length_eq] at habove
      rw [List.append_cancel_right habove]
    · rintro rfl
      refine ⟨_, _, h.text_eq_append hread, rfl, ?_, h.endsName_rest hread⟩
      rw [LineStartsAfter, getLast?_annotated]
      exact h.starts
  rw [anchoredOccurrences_eq_sort hne hself, hplaces, Finset.sort_singleton]

end

end ClassDecl

end PhpDoc
