import Mathlib
import PhpDoc.Proofs.BlockNotes
import PhpDoc.Proofs.FixedPoint
import PhpDoc.Proofs.Places
import PhpDoc.Proofs.Slices

/-!
# A merged source is its source with other notes

Take the doc comment of its class out of a source.  The source is what is left with one note, the
comment; the merged source is the same text with the new class block and all method blocks as notes.
So what a scan finds in the merged source is known as soon as every declaration stays whole: no
block may be put inside one.
-/

namespace PhpDoc

theorem insertedFrom_eq_annotated (additions : List (Nat × Text)) (offset : Nat) (text : Text) :
    insertedFrom additions offset text = annotated (additionsAt additions) offset text := by
  induction text generalizing offset with
  | nil => rfl
  | cons c text ih => rw [insertedFrom, annotated, ih]

theorem annotated_congr {notes notes' : Nat → Text} {offset shift : Nat} {text : Text}
    (h : ∀ j, offset ≤ j → j < offset + text.length → notes j = notes' (j + shift)) :
    annotated notes offset text = annotated notes' (offset + shift) text := by
  induction text generalizing offset with
  | nil => rfl
  | cons c text ih =>
      rw [List.length_cons] at h
      have hnext : offset + shift + 1 = offset + 1 + shift := by omega
      rw [annotated, annotated, h offset le_rfl (by omega), hnext,
        ih fun j hj hj' => h j (by omega) (by omega)]

theorem exists_of_additionsAt_ne_nil {additions : List (Nat × Text)} {offset : Nat}
    (h : additionsAt additions offset ≠ []) : ∃ text, (offset, text) ∈ additions := by
  by_contra hnone
  rw [additionsAt, List.flatMap_eq_nil_iff.2] at h
  · exact h rfl
  · rintro ⟨o, text⟩ hmem
    obtain ⟨hmem, ho⟩ := List.mem_filter.1 hmem
    rw [beq_iff_eq] at ho
    exact absurd ⟨text, ho ▸ hmem⟩ hnone

theorem additionsAt_of_mem {additions : List (Nat × Text)}
    (horder : additions.Pairwise fun a b => a.1 < b.1) {offset : Nat} {text : Text}
    (h : (offset, text) ∈ additions) : additionsAt additions offset = text := by
  induction additions with
  | nil => contradiction
  | cons addition additions ih =>
      obtain ⟨hfirst, horder⟩ := List.pairwise_cons.1 horder
      rcases List.mem_cons.1 h with rfl | h
      · have hlater : additions.filter (fun addition => addition.1 == offset) = [] := by
          refine List.filter_eq_nil_iff.2 fun b hb hoffset => ?_
          have hlt := hfirst b hb
          rw [beq_iff_eq] at hoffset
          dsimp only at hlt
          omega
        rw [additionsAt, List.filter_cons_of_pos (by simp), hlater]
        simp
      · have hne : addition.1 ≠ offset := (hfirst _ h).ne
        rw [additionsAt, List.filter_cons_of_neg (by simpa using hne)]
        exact ih horder h

namespace ClassDecl

/-! ## The notes of a source and of the merged one -/

/-- The doc comment of the class, with what separates it from the anchor. -/
def heading (decl : ClassDecl) : Text :=
  match decl.doc with
  | some doc => doc ++ decl.separator
  | none => []

theorem previous_eq_heading_append (decl : ClassDecl) :
    decl.previous = decl.heading ++ decl.anchor := by
  rw [previous, heading]
  cases decl.doc <;> rfl

/-- The only note of the source, in front of the anchor. -/
def oldNotes (decl : ClassDecl) (offset : Nat) : Text :=
  if offset = decl.offset then decl.heading else []

/-- The notes of the merged source, given the rendered class block. -/
def newNotes (decl : ClassDecl) (block : Text) (offset : Nat) : Text :=
  if offset = decl.offset then decl.withNewlines block ++ decl.separator
  else additionsAt decl.additions
    (if offset < decl.offset then offset else offset + decl.heading.length)

variable {decl : ClassDecl} {path source block front rest : Text}

theorem mem_additions {o : Nat} {text : Text} :
    (o, text) ∈ decl.additions ↔ ∃ m ∈ decl.methods, decl.addition? m = some (o, text) := by
  rw [additions, List.mem_filterMap]

theorem addition?_eq_some_iff {m : Method} {o : Nat} {text : Text} :
    decl.addition? m = some (o, text) ↔ o = m.offset ∧
      ∃ methodBlock, m.signature.block? decl.name decl.imports = some methodBlock ∧
        text = decl.withNewlines methodBlock ++ decl.newline := by
  rw [addition?, Option.map_eq_some_iff]
  constructor
  · rintro ⟨methodBlock, hblock, heq⟩
    obtain ⟨rfl, rfl⟩ := Prod.mk.inj heq
    exact ⟨rfl, methodBlock, hblock, rfl⟩
  · rintro ⟨rfl, methodBlock, hblock, rfl⟩
    exact ⟨methodBlock, hblock, rfl⟩

theorem pairwise_additions (h : read path source = .ok decl) :
    decl.additions.Pairwise fun a b => a.1 < b.1 := by
  rw [additions, List.pairwise_filterMap]
  refine (pairwise_methods h).imp_of_mem fun {m n} hm _ hle a ha b hb => ?_
  obtain ⟨above, below, hstands⟩ := exists_stands_of_mem_methods h m hm
  have hpos := List.length_pos_of_ne_nil hstands.isAnchor.ne_nil
  obtain ⟨ha, -⟩ := addition?_eq_some_iff.1 ha
  obtain ⟨hb, -⟩ := addition?_eq_some_iff.1 hb
  omega

/-- No method gets a block inside the class anchor. -/
theorem newNotes_of_inside
    (hapart : ∀ m ∈ decl.methods, (decl.addition? m).isSome → m.IsApart front decl.previous)
    (hlength : front.length = decl.offset) {j : Nat} (hj : decl.offset < j)
    (hj' : j < decl.offset + decl.anchor.length) : decl.newNotes block j = [] := by
  rw [newNotes, if_neg (by omega), if_neg (by omega)]
  by_contra hne
  obtain ⟨text, hmem⟩ := exists_of_additionsAt_ne_nil hne
  obtain ⟨m, hm, hadd⟩ := mem_additions.1 hmem
  obtain ⟨hoffset, -⟩ := addition?_eq_some_iff.1 hadd
  have hapart := hapart m hm (by rw [hadd]; rfl)
  rw [Method.IsApart, previous_eq_heading_append, List.length_append] at hapart
  omega

/-! ## The source -/

theorem oldNotes_of_ne {j : Nat} (h : j ≠ decl.offset) : decl.oldNotes j = [] :=
  if_neg h

theorem annotated_oldNotes_of_le {above : Text} (h : above.length ≤ decl.offset) :
    annotated decl.oldNotes 0 above = above := by
  have hclear := @annotated_append_of_clear decl.oldNotes 0 above
    (fun j _ hj => oldNotes_of_ne (by omega)) []
  simpa [annotated] using hclear

theorem annotatedAbove_oldNotes_append (hlength : front.length = decl.offset) (more : Text) :
    annotatedAbove decl.oldNotes (front ++ more) = front ++ decl.heading ++ more := by
  rw [annotatedAbove_append_of_clear fun j hj _ => oldNotes_of_ne (by omega), annotatedAbove,
    annotated_oldNotes_of_le hlength.le, oldNotes, if_pos hlength]

theorem annotated_oldNotes (hlength : front.length = decl.offset) {more : Text} (hmore : more ≠ []) :
    annotated decl.oldNotes 0 (front ++ more) = front ++ decl.heading ++ more := by
  have hclear : ∀ j, front.length < j → j < front.length + more.length → decl.oldNotes j = [] :=
    fun j hj _ => oldNotes_of_ne (by omega)
  have htail := annotatedTail_append hmore hclear []
  rw [List.append_nil, annotated, List.append_nil] at htail
  rw [annotated_append, annotated_oldNotes_of_le hlength.le, Nat.zero_add,
    annotated_of_ne_nil _ _ hmore, htail, oldNotes, if_pos hlength, List.append_assoc]

/-- The merged source: every note in front of its place. -/
theorem woven_eq_annotated
    (hapart : ∀ m ∈ decl.methods, (decl.addition? m).isSome → m.IsApart front decl.previous)
    (hlength : front.length = decl.offset) (hanchor : decl.anchor ≠ []) :
    woven decl.additions front decl.previous (decl.replacement block) rest =
      annotated (decl.newNotes block) 0 (front ++ (decl.anchor ++ rest)) := by
  have hclear : ∀ j, front.length < j → j < front.length + decl.anchor.length →
      decl.newNotes block j = [] := fun j hj hj' =>
    newNotes_of_inside hapart hlength (by omega) (by omega)
  have hfront : annotated (decl.newNotes block) 0 front =
      annotated (additionsAt decl.additions) 0 front := by
    refine @annotated_congr _ _ 0 0 _ fun j _ hj => ?_
    rw [newNotes, if_neg (by omega), if_pos (by omega), Nat.add_zero]
  have hrest : annotated (decl.newNotes block) (front.length + decl.anchor.length) rest =
      annotated (additionsAt decl.additions) (front.length + decl.previous.length) rest := by
    have hshift : front.length + decl.previous.length =
        front.length + decl.anchor.length + decl.heading.length := by
      rw [previous_eq_heading_append, List.length_append]
      omega
    have hpos := List.length_pos_of_ne_nil hanchor
    rw [hshift]
    refine annotated_congr fun j hj _ => ?_
    rw [newNotes, if_neg (by omega), if_neg (by omega)]
  have hne : decl.anchor ++ rest ≠ [] := by simp [hanchor]
  rw [woven, insertedFrom_eq_annotated, insertedFrom_eq_annotated, annotated_append, Nat.zero_add,
    hfront, annotated_of_ne_nil _ front.length hne, annotatedTail_append hanchor hclear, hrest,
    newNotes, if_pos hlength, replacement]
  simp

section

variable {above below : Text} (hbase : front ++ (decl.anchor ++ rest) = above ++ below)
  (hlength : front.length = decl.offset)
include hbase hlength

theorem length_annotatedAbove_oldNotes : (annotatedAbove decl.oldNotes above).length =
    if above.length < decl.offset then above.length else above.length + decl.heading.length := by
  split
  · next hlt =>
      rw [annotatedAbove, annotated_oldNotes_of_le hlt.le, oldNotes_of_ne hlt.ne, List.append_nil]
  · next hnot =>
      obtain ⟨more, rfl⟩ : front <+: above :=
        List.prefix_of_prefix_length_le ⟨_, rfl⟩ ⟨below, hbase.symm⟩ (by omega)
      rw [annotatedAbove_oldNotes_append hlength]
      simp only [List.length_append]
      omega

/-- Away from the class, the new notes are the blocks of methods. -/
theorem newNotes_of_ne (hne : above.length ≠ decl.offset) :
    decl.newNotes block above.length =
      additionsAt decl.additions (annotatedAbove decl.oldNotes above).length := by
  rw [newNotes, if_neg hne, length_annotatedAbove_oldNotes hbase hlength]

theorem exists_addition_of_newNotes_ne_nil (hne : above.length ≠ decl.offset)
    (hnote : decl.newNotes block above.length ≠ []) : ∃ m ∈ decl.methods, ∃ text,
      decl.addition? m = some ((annotatedAbove decl.oldNotes above).length, text) := by
  rw [newNotes_of_ne hbase hlength hne] at hnote
  obtain ⟨text, hmem⟩ := exists_of_additionsAt_ne_nil hnote
  obtain ⟨m, hm, hadd⟩ := mem_additions.1 hmem
  exact ⟨m, hm, text, hadd⟩

end

/-! ## The notes are notes -/

theorem separator_spec (h : read path source = .ok decl) :
    (∀ c ∈ decl.separator, isBlank c = true) ∧ decl.separator.getLast? = some '\n' := by
  cases hdoc : decl.doc with
  | none =>
      rw [separator_of_no_doc h hdoc]
      rcases newline_cases h with hnewline | hnewline <;> rw [hnewline]
      · exact ⟨List.all_eq_true.1 (by decide), rfl⟩
      · exact ⟨List.all_eq_true.1 (by decide), rfl⟩
  | some doc =>
      obtain ⟨hne, hblanks⟩ := separator_of_doc h hdoc
      obtain ⟨above, attributes, head, after, hstands⟩ := exists_stands_of_read h
      obtain ⟨-, -, before, hbefore, -⟩ := hstands.doc_eq doc hdoc
      have hstarts := hstands.areAttributes.starts
      rw [hbefore, lineStartsAfter_append_iff _ hne] at hstarts
      obtain ⟨blanks, hblanks'⟩ := eq_append_newline_of_lineStartsAfter hstarts hne
      exact ⟨hblanks, by rw [hblanks', List.getLast?_concat]⟩

theorem lineStartsAfter_heading (h : read path source = .ok decl) (hfront : LineStartsAfter front) :
    LineStartsAfter (front ++ decl.heading) := by
  rw [heading]
  cases hdoc : decl.doc with
  | none => rwa [List.append_nil]
  | some doc =>
      have hlast := (separator_spec h).2
      intro c hc
      rw [← List.append_assoc, List.getLast?_append, hlast] at hc
      exact (Option.some.inj hc).symm

theorem isNote_heading (h : read path source = .ok decl)
    (hinert : ∀ line ∈ (decl.doc.getD []).lines, IsInert line) (hne : decl.heading ≠ []) :
    IsNote decl.heading := by
  cases hdoc : decl.doc with
  | none => exact absurd (by rw [heading, hdoc]) hne
  | some doc =>
      obtain ⟨hblanks, hlast⟩ := separator_spec h
      have hlines : ∀ line ∈ Text.lines ([] ++ doc), IsInert line := by
        rw [hdoc] at hinert
        exact hinert
      have hnote := isNote_of_comment (by simp) (isDocComment_of_read h hdoc) hlines hblanks hlast
      rwa [heading, hdoc]

theorem areNotes_oldNotes (h : read path source = .ok decl)
    (hinert : ∀ line ∈ (decl.doc.getD []).lines, IsInert line)
    (hlength : front.length = decl.offset) (hstarts : LineStartsAfter front) :
    AreNotes decl.oldNotes (front ++ (decl.anchor ++ rest)) where
  isNote := by
    intro j hnote
    by_cases hj : j = decl.offset
    · rw [oldNotes, if_pos hj] at hnote ⊢
      exact isNote_heading h hinert hnote
    · exact absurd (oldNotes_of_ne hj) hnote
  starts := by
    intro above below hbase hnote
    have hj : above.length = decl.offset := by
      by_contra hne
      exact hnote (oldNotes_of_ne hne)
    obtain rfl : front = above := List.append_inj_left hbase (by omega)
    exact hstarts

/-! ## Where blocks go -/

/-- From where to where in the source a block takes a place: the class block that of the old
heading, a method block none. -/
def changes (decl : ClassDecl) : List (Nat × Nat) :=
  (decl.offset, decl.offset + decl.heading.length) ::
    decl.additions.map fun addition => (addition.1, addition.1)

/-- No block goes in between the two offsets of the source. -/
def Leaves (decl : ClassDecl) (start stop : Nat) : Prop :=
  ∀ change ∈ decl.changes, change.2 ≤ start ∨ stop ≤ change.1

instance (decl : ClassDecl) (start stop : Nat) : Decidable (decl.Leaves start stop) :=
  inferInstanceAs (Decidable (∀ change ∈ decl.changes, change.2 ≤ start ∨ stop ≤ change.1))

theorem noteFree_of_leaves {start stop : Nat} (h : decl.Leaves start stop)
    (hlength : front.length = decl.offset) :
    NoteFree decl.oldNotes (decl.newNotes block) (front ++ (decl.anchor ++ rest)) start stop := by
  intro above below hbase _ hnote
  by_cases hne : above.length = decl.offset
  · obtain rfl : front = above := List.append_inj_left hbase (by omega)
    have hclass := h _ List.mem_cons_self
    rw [annotatedAbove, annotated_oldNotes_of_le hlength.le, oldNotes, if_pos hlength,
      List.length_append, hlength]
    exact hclass
  · obtain ⟨m, hm, text, hadd⟩ := exists_addition_of_newNotes_ne_nil hbase hlength hne hnote
    have hmethod := h _ (List.mem_cons_of_mem _ (List.mem_map_of_mem (mem_additions.2 ⟨m, hm, hadd⟩)))
    have hsame : (annotatedAbove decl.oldNotes above).length =
        (annotated decl.oldNotes 0 above).length := by
      rw [annotatedAbove, oldNotes_of_ne hne, List.append_nil]
    rw [← hsame]
    exact hmethod

/-! ## A source and the merged one -/

/-- Both sources as annotations of one text: the anchor of the class between `front` and `rest`. -/
structure AreMerged (decl : ClassDecl) (block source text front rest : Text) : Prop where
  length_eq : front.length = decl.offset
  starts : LineStartsAfter front
  ends : endsName rest = true
  source_eq : source = annotated decl.oldNotes 0 (front ++ (decl.anchor ++ rest))
  text_eq : text = annotated (decl.newNotes block) 0 (front ++ (decl.anchor ++ rest))
  clear : ∀ j, decl.offset < j → j < decl.offset + decl.anchor.length → decl.newNotes block j = []
  revision : IsRevision decl.oldNotes (decl.newNotes block) (front ++ (decl.anchor ++ rest))

theorem anchor_ne_nil (h : read path source = .ok decl) : decl.anchor ≠ [] := by
  obtain ⟨home, head, -, hhead, rfl⟩ := exists_heads_of_read h
  obtain ⟨hne, before, hahead⟩ := exists_front_of_readHead? hhead.read_eq
  rw [anchor_ofHead, Found.text_eq hahead]
  simp [hne]

theorem AreMerged.take_eq {text : Text} (h : decl.AreMerged block source text front rest)
    (hread : read path source = .ok decl) : source.take decl.offset = front := by
  rw [h.source_eq, annotated_oldNotes h.length_eq (by simp [anchor_ne_nil hread]), ← h.length_eq,
    List.append_assoc, List.take_left]

theorem isRevision_newNotes (h : read path source = .ok decl)
    (hsource : source = annotated decl.oldNotes 0 (front ++ (decl.anchor ++ rest)))
    (hlength : front.length = decl.offset)
    (hstarts : LineStartsAfter front)
    (hinert : ∀ line ∈ (decl.doc.getD []).lines, IsInert line)
    (hblock : IsNote (decl.withNewlines block ++ decl.separator))
    (htypes : ∀ m ∈ decl.methods, (decl.addition? m).isSome →
      ∀ type ∈ m.signature.writtenTypes decl.imports, Signature.IsWholeType type) :
    IsRevision decl.oldNotes (decl.newNotes block) (front ++ (decl.anchor ++ rest)) := by
  have hold : AreNotes decl.oldNotes (front ++ (decl.anchor ++ rest)) :=
    areNotes_oldNotes h hinert hlength hstarts
  refine ⟨hold, ⟨fun j hnote => ?_, fun above below hbase hnote => ?_⟩, fun j hnil => ?_⟩
  · rw [newNotes] at hnote ⊢
    split at hnote
    · next hj => rwa [if_pos hj]
    · next hj =>
        rw [if_neg hj]
        obtain ⟨text, hmem⟩ := exists_of_additionsAt_ne_nil hnote
        rw [additionsAt_of_mem (pairwise_additions h) hmem]
        obtain ⟨m, hm, hadd⟩ := mem_additions.1 hmem
        obtain ⟨-, methodBlock, hmethod, rfl⟩ := addition?_eq_some_iff.1 hadd
        obtain ⟨-, -, -, hisNote⟩ := Signature.exists_isNote_of_block?
          (isIdentifier_of_mem_parameters h hm) (htypes m hm (by rw [hadd]; rfl)) hmethod
          (newline_cases h)
        exact hisNote
  · by_cases hne : above.length = decl.offset
    · obtain rfl : front = above := List.append_inj_left hbase (by omega)
      exact hstarts
    · obtain ⟨m, hm, text, hadd⟩ := exists_addition_of_newNotes_ne_nil hbase hlength hne hnote
      obtain ⟨hoffset, -⟩ := addition?_eq_some_iff.1 hadd
      obtain ⟨before, after, hm⟩ := exists_stands_of_mem_methods h m hm
      -- the method was read at this place
      have hsame : annotatedAbove decl.oldNotes above = before := by
        have hparts : annotatedAbove decl.oldNotes above ++
            annotated decl.oldNotes above.length below = before ++ (m.anchor ++ after) := by
          rw [annotatedAbove, oldNotes_of_ne hne, List.append_nil, ← List.append_assoc,
            ← hm.source_eq, hsource, hbase, annotated_append, Nat.zero_add]
        exact List.append_inj_left hparts (hoffset.trans hm.length_eq.symm)
      rw [← lineStartsAfter_annotatedAbove_iff hold hbase, hsame]
      exact hm.starts
  · by_cases hj : j = decl.offset
    · rw [newNotes, if_pos hj] at hnil
      rw [hnil] at hblock
      exact absurd hblock.ends (by simp)
    · exact oldNotes_of_ne hj

/-- A merge that succeeds, of a source whose anchor stands at one place, gives such a pair. -/
theorem exists_areMerged {b : ClassBlock} {text : Text} (h : read path source = .ok decl)
    (hsplice : decl.spliceBlocks source b = .ok text)
    (honly : places source decl.anchor = {decl.offset + decl.heading.length})
    (hapart : ∀ m ∈ decl.methods, (decl.addition? m).isSome →
      m.IsApart (source.take decl.offset) decl.previous)
    (hinert : ∀ line ∈ (decl.doc.getD []).lines, IsInert line)
    (hblock : IsNote (decl.withNewlines b.render ++ decl.separator))
    (htypes : ∀ m ∈ decl.methods, (decl.addition? m).isSome →
      ∀ type ∈ m.signature.writtenTypes decl.imports, Signature.IsWholeType type) :
    ∃ front rest, decl.AreMerged b.render source text front rest := by
  obtain ⟨front, rest, hsource, hplace, hmethods⟩ := spliceBlocks_eq_ok hsplice
  have hanchor := anchor_ne_nil h
  obtain ⟨front', rest', hsource', hsame, hstarts, hends⟩ :=
    exists_of_mem_anchoredOccurrences (hplace ▸ List.mem_singleton_self _)
  rw [hsource, List.append_assoc, List.append_assoc] at hsource'
  obtain ⟨rfl, hrest⟩ := List.append_inj hsource' hsame
  obtain rfl := List.append_cancel_left hrest
  -- the anchor stands behind the heading, and that is its only place
  have hparts : source = front ++ decl.heading ++ decl.anchor ++ rest := by
    rw [hsource, previous_eq_heading_append]
    simp
  have hmem : (front ++ decl.heading).length ∈ places source decl.anchor :=
    (mem_places hanchor).2 ((isPlace_iff hanchor).2
      ⟨_, rest, hparts, rfl, lineStartsAfter_heading h hstarts, hends⟩)
  rw [honly, Finset.mem_singleton, List.length_append] at hmem
  have hlength : front.length = decl.offset := by omega
  have htake : source.take decl.offset = front := by
    rw [hsource, List.append_assoc, ← hlength, List.take_left]
  rw [htake] at hapart
  have hannotated : source = annotated decl.oldNotes 0 (front ++ (decl.anchor ++ rest)) := by
    rw [annotated_oldNotes hlength (by simp [hanchor]), hparts]
    simp
  refine ⟨front, rest, hlength, hstarts, hends, hannotated, ?_,
    fun j hj hj' => newNotes_of_inside hapart hlength hj hj',
    isRevision_newNotes h hannotated hlength hstarts hinert hblock htypes⟩
  have hempty : front ++ decl.replacement b.render ++ rest =
      woven [] front decl.previous (decl.replacement b.render) rest := by
    rw [woven, insertedFrom_of_lt (by simp), insertedFrom_of_lt (by simp)]
  rw [hempty] at hmethods
  rw [foldlM_spliceMethod_woven (exists_stands_of_mem_methods h) (pairwise_methods h) hsource hstarts
    (not_lineStartsAfter_previous h) hapart (by simp) hmethods, List.nil_append]
  exact woven_eq_annotated hapart hlength hanchor

end ClassDecl

end PhpDoc
