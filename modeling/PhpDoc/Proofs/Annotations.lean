import Mathlib
import PhpDoc.Proofs.Anchors
import PhpDoc.Proofs.ReaderReach

/-!
# Scanning a text with notes in it

A note is made of whole lines that open a comment and declare nothing.  Notes may be put in at the
starts of lines.  Two sources that come from one text by putting in notes, different ones but at the
same places, declare the same things: as long as no declaration runs over such a place, a scan finds
the same in both, at places that correspond.

The proof goes through the text once, with both sources in step.  At a place with a note the scans
pass over it; at a line start of the text both readers agree, since what they read ends before the
next note; and inside what was read there is no note.
-/

namespace PhpDoc

/-! ## Notes -/

/-- The text with a note before some of its characters.  The first character of the text stands at
`offset`. -/
def annotated (notes : Nat → Text) : (offset : Nat) → Text → Text
  | _, [] => []
  | offset, c :: text => notes offset ++ c :: annotated notes (offset + 1) text

/-- The text with its notes, without the one in front. -/
def annotatedTail (notes : Nat → Text) (offset : Nat) : Text → Text
  | [] => []
  | c :: text => c :: annotated notes (offset + 1) text

/-- What precedes the text at an offset: the annotated text before it, and the note in front of
it. -/
def annotatedAbove (notes : Nat → Text) (above : Text) : Text :=
  annotated notes 0 above ++ notes above.length

/-- At no line start of the text something is declared. -/
def DeclaresNothing (text : Text) : Prop :=
  ∀ above below, text = above ++ below → LineStartsAfter above → IsInert below

/-- Whole lines that open a comment and declare nothing, the last one no attribute line. -/
structure IsNote (note : Text) : Prop where
  opens : ∃ indent more, (∀ c ∈ indent, isIndent c = true) ∧ note = indent ++ '/' :: more
  ends : note.getLast? = some '\n'
  plain : EndsPlain note
  declaresNothing : DeclaresNothing note

/-- Notes that stand at line starts of the text. -/
structure AreNotes (notes : Nat → Text) (base : Text) : Prop where
  isNote : ∀ offset, notes offset ≠ [] → IsNote (notes offset)
  starts : ∀ above below, base = above ++ below → notes above.length ≠ [] → LineStartsAfter above

section

variable {notes : Nat → Text}

theorem annotated_append (notes : Nat → Text) (offset : Nat) (front rest : Text) :
    annotated notes offset (front ++ rest) =
      annotated notes offset front ++ annotated notes (offset + front.length) rest := by
  induction front generalizing offset with
  | nil => rfl
  | cons c front ih =>
      rw [List.cons_append, annotated, annotated, ih, List.length_cons]
      simp [Nat.add_assoc, Nat.add_comm 1]

theorem annotated_of_ne_nil (notes : Nat → Text) (offset : Nat) {text : Text} (h : text ≠ []) :
    annotated notes offset text = notes offset ++ annotatedTail notes offset text := by
  obtain ⟨c, text, rfl⟩ := List.exists_cons_of_ne_nil h
  rfl

theorem annotated_eq_nil_iff (notes : Nat → Text) (offset : Nat) {text : Text} :
    annotated notes offset text = [] ↔ text = [] := by
  cases text <;> simp [annotated]

theorem annotatedTail_eq_nil_iff (notes : Nat → Text) (offset : Nat) {text : Text} :
    annotatedTail notes offset text = [] ↔ text = [] := by
  cases text <;> simp [annotatedTail]

/-- Where no note stands between them, characters stay together. -/
theorem annotatedTail_append {offset : Nat} {front : Text} (hne : front ≠ [])
    (h : ∀ j, offset < j → j < offset + front.length → notes j = []) (rest : Text) :
    annotatedTail notes offset (front ++ rest) =
      front ++ annotated notes (offset + front.length) rest := by
  induction front generalizing offset with
  | nil => contradiction
  | cons c front ih =>
      rw [List.cons_append, annotatedTail]
      by_cases hfront : front = []
      · simp [hfront]
      · have hnext : notes (offset + 1) = [] := by
          have hpos := List.length_pos_of_ne_nil hfront
          exact h (offset + 1) (by omega) (by simp only [List.length_cons]; omega)
        rw [annotated_of_ne_nil _ _ (by simp [hfront]), hnext, List.nil_append, ih hfront]
        · simp [Nat.add_assoc, Nat.add_comm 1]
        · intro j hj hj'
          exact h j (by omega) (by simp only [List.length_cons]; omega)

theorem annotated_append_of_clear {offset : Nat} {front : Text}
    (h : ∀ j, offset ≤ j → j < offset + front.length → notes j = []) (rest : Text) :
    annotated notes offset (front ++ rest) =
      front ++ annotated notes (offset + front.length) rest := by
  by_cases hfront : front = []
  · simp [hfront]
  · have hnil : notes offset = [] :=
      h offset le_rfl (by have := List.length_pos_of_ne_nil hfront; omega)
    rw [annotated_of_ne_nil _ _ (by simp [hfront]), hnil, List.nil_append]
    exact annotatedTail_append hfront (fun j hj hj' => h j hj.le hj') rest

/-- An annotated text is divided at an offset of the text, behind the note there. -/
theorem annotated_eq_above_append (notes : Nat → Text) (above : Text) {text : Text}
    (h : text ≠ []) :
    annotated notes 0 (above ++ text) =
      annotatedAbove notes above ++ annotatedTail notes above.length text := by
  rw [annotated_append, Nat.zero_add, annotated_of_ne_nil _ _ h, annotatedAbove, List.append_assoc]

theorem annotated_concat (notes : Nat → Text) (above : Text) (c : Char) :
    annotated notes 0 (above ++ [c]) = annotatedAbove notes above ++ [c] := by
  rw [annotated_append, Nat.zero_add, annotated, annotatedAbove, List.append_assoc]
  rfl

theorem annotatedAbove_append_of_clear {above front : Text}
    (h : ∀ j, above.length < j → j ≤ (above ++ front).length → notes j = []) :
    annotatedAbove notes (above ++ front) = annotatedAbove notes above ++ front := by
  by_cases hfront : front = []
  · simp [hfront]
  · have hpos := List.length_pos_of_ne_nil hfront
    have hlength : (above ++ front).length = above.length + front.length := List.length_append
    have htail := annotatedTail_append hfront (fun j hj hj' => h j hj (by omega)) []
    rw [List.append_nil, annotated, List.append_nil] at htail
    rw [annotatedAbove, h _ (by omega) le_rfl, List.append_nil, annotated_append, Nat.zero_add,
      annotated_of_ne_nil _ _ hfront, htail, annotatedAbove, List.append_assoc]

theorem getLast?_annotated (notes : Nat → Text) (offset : Nat) (text : Text) :
    (annotated notes offset text).getLast? = text.getLast? := by
  rcases List.eq_nil_or_concat text with rfl | ⟨front, c, rfl⟩
  · rfl
  · rw [List.concat_eq_append, annotated_append, annotated, annotated, ← List.append_assoc]
    simp

/-- A line starts in the annotated text where one starts in the text. -/
theorem lineStartsAfter_annotatedAbove_iff {base above below : Text} (hnotes : AreNotes notes base)
    (hbase : base = above ++ below) :
    LineStartsAfter (annotatedAbove notes above) ↔ LineStartsAfter above := by
  by_cases hnil : notes above.length = []
  · rw [annotatedAbove, hnil, List.append_nil, LineStartsAfter, getLast?_annotated]
    rfl
  · refine ⟨fun _ => hnotes.starts above below hbase hnil, fun _ => ?_⟩
    rw [annotatedAbove, lineStartsAfter_append_iff _ hnil]
    intro c hc
    rw [(hnotes.isNote _ hnil).ends] at hc
    exact (Option.some.inj hc).symm

theorem isBlank_of_isIndent {c : Char} (h : isIndent c = true) : isBlank c = true := by
  rw [isIndent, Bool.or_eq_true, beq_iff_eq, beq_iff_eq] at h
  rcases h with rfl | rfl <;> decide

/-- A text without a slash that runs on into a note ends in the blanks in front of its slash. -/
theorem IsNote.isBlank_of_append_eq {note text front rest : Text} {c : Char} (h : IsNote note)
    (heq : note ++ text = front ++ rest) (hslash : '/' ∉ front) (hc : c ∈ front.getLast?) :
    isBlank c = true := by
  obtain ⟨indent, more, hindent, rfl⟩ := h.opens
  rw [List.append_assoc, List.cons_append] at heq
  have hfront : front <+: indent := by
    rcases List.append_eq_append_iff.1 heq with ⟨between, rfl, hbetween⟩ | ⟨between, rfl, -⟩
    · cases between with
      | nil => simp
      | cons d between =>
          obtain ⟨rfl, -⟩ := List.cons.inj hbetween
          simp at hslash
    · exact List.prefix_append _ _
  exact isBlank_of_isIndent (hindent c (hfront.subset (List.mem_of_mem_getLast? hc)))

/-- What a reader takes from an annotated text has no note in it, so it stands in the text. -/
theorem exists_of_annotatedTail_eq {base above text front rest : Text}
    (hnotes : AreNotes notes base) (hbase : base = above ++ text)
    (h : annotatedTail notes above.length text = front ++ rest) (hslash : '/' ∉ front)
    (hlast : ∃ c ∈ front.getLast?, isBlank c = false) :
    ∃ below, text = front ++ below ∧ rest = annotated notes (above ++ front).length below ∧
      ∀ j, above.length < j → j ≤ (above ++ front).length → notes j = [] := by
  induction front generalizing above text with
  | nil =>
      obtain ⟨c, hc, -⟩ := hlast
      contradiction
  | cons d front ih =>
      obtain ⟨c, hc, hblank⟩ := hlast
      cases text with
      | nil => simp [annotatedTail] at h
      | cons d' text =>
          rw [annotatedTail, List.cons_append, List.cons.injEq] at h
          obtain ⟨rfl, h⟩ := h
          have hbase' : base = (above ++ [d']) ++ text := by rw [hbase, List.append_cons]
          have hlength : (above ++ [d']).length = above.length + 1 := by simp
          have hlength' : ∀ more : Text, (above ++ [d'] ++ more).length =
              (above ++ d' :: more).length := by simp
          by_cases hfront : front = []
          · subst hfront
            refine ⟨text, rfl, by rw [hlength]; exact h.symm, fun j hj hj' => ?_⟩
            obtain rfl : j = (above ++ [d']).length := by omega
            -- a note would start a line behind the last character, which is not blank
            by_contra hne
            have hstarts := hnotes.starts _ _ hbase' hne
            obtain rfl : d' = c := Option.some.inj hc
            have hnewline := hstarts d' (by simp)
            rw [hnewline] at hblank
            contradiction
          · have hc' : c ∈ front.getLast? := by
              rwa [← List.singleton_append, List.getLast?_append_of_ne_nil _ hfront] at hc
            have hne : text ≠ [] := by
              rintro rfl
              have hnil : front ++ rest = [] := h.symm
              exact hfront (List.append_eq_nil_iff.1 hnil).1
            rw [← hlength, annotated_of_ne_nil _ _ hne] at h
            by_cases hnil : notes (above ++ [d']).length = []
            · rw [hnil, List.nil_append] at h
              obtain ⟨below, htext, hrest, hinside⟩ := ih hbase' h
                (fun hmem => hslash (List.mem_cons_of_mem _ hmem)) ⟨c, hc', hblank⟩
              rw [hlength'] at hrest hinside
              refine ⟨below, by rw [htext, List.cons_append], hrest, fun j hj hj' => ?_⟩
              rcases Nat.eq_or_lt_of_le hj with heq | hlt
              · rw [← heq, ← hnil, hlength]
              · exact hinside j (by omega) hj'
            · exact absurd ((hnotes.isNote _ hnil).isBlank_of_append_eq h
                (fun hmem => hslash (List.mem_cons_of_mem _ hmem)) hc') (by simp [hblank])

end

/-! ## Order -/

section

variable {base above text above' text' : Text} (notes : Nat → Text)

theorem length_annotated_le_above (above : Text) :
    (annotated notes 0 above).length ≤ (annotatedAbove notes above).length := by
  rw [annotatedAbove, List.length_append]
  exact Nat.le_add_right _ _

/-- A later offset of the text is a later one of the annotated text, even in front of its note. -/
theorem length_annotatedAbove_lt (hbase : base = above ++ text) (hbase' : base = above' ++ text')
    (h : above.length < above'.length) :
    (annotatedAbove notes above).length < (annotated notes 0 above').length := by
  have hprefix : above <+: above' :=
    List.prefix_of_prefix_length_le ⟨text, hbase.symm⟩ ⟨text', hbase'.symm⟩ h.le
  obtain ⟨more, rfl⟩ := hprefix
  have hmore : more ≠ [] := by
    rintro rfl
    simp at h
  obtain ⟨c, more, rfl⟩ := List.exists_cons_of_ne_nil hmore
  rw [annotated_append, annotated, annotatedAbove, Nat.zero_add]
  simp only [List.length_append, List.length_cons]
  omega

theorem length_annotatedAbove_lt_iff (hbase : base = above ++ text)
    (hbase' : base = above' ++ text') :
    (annotatedAbove notes above).length < (annotatedAbove notes above').length ↔
      above.length < above'.length := by
  constructor
  · intro h
    by_contra hnot
    rcases Nat.eq_or_lt_of_le (Nat.le_of_not_lt hnot) with heq | hlt
    · rw [List.append_inj_left (hbase'.symm.trans hbase) heq] at h
      omega
    · have hless := length_annotatedAbove_lt notes hbase' hbase hlt
      have hle := length_annotated_le_above notes above
      omega
  · intro h
    exact (length_annotatedAbove_lt notes hbase hbase' h).trans_le
      (length_annotated_le_above notes above')

theorem eq_of_length_annotatedAbove_eq (hbase : base = above ++ text)
    (hbase' : base = above' ++ text')
    (h : (annotatedAbove notes above).length = (annotatedAbove notes above').length) :
    above = above' := by
  have hless := length_annotatedAbove_lt_iff notes hbase hbase'
  have hmore := length_annotatedAbove_lt_iff notes hbase' hbase
  exact List.append_inj_left (hbase.symm.trans hbase') (by omega)

end

/-! ## Two annotations of one text -/

/-- The second annotation has notes where the first one has some, and perhaps elsewhere. -/
structure IsRevision (notes notes' : Nat → Text) (base : Text) : Prop where
  before : AreNotes notes base
  after : AreNotes notes' base
  places : ∀ j, notes' j = [] → notes j = []

/-- No note of the second annotation belongs between the two offsets of the first annotated text. -/
def NoteFree (notes notes' : Nat → Text) (base : Text) (start stop : Nat) : Prop :=
  ∀ above below, base = above ++ below → below ≠ [] → notes' above.length ≠ [] →
    (annotatedAbove notes above).length ≤ start ∨ stop ≤ (annotated notes 0 above).length

section

variable {notes notes' : Nat → Text} {base above text : Text} {start stop : Nat}

theorem NoteFree.mono (h : NoteFree notes notes' base start stop) {stop' : Nat} (hle : stop' ≤ stop) :
    NoteFree notes notes' base start stop' := fun above below hbase hne hnote =>
  (h above below hbase hne hnote).imp_right hle.trans

/-- What stands between two such offsets stands in the text, without notes. -/
theorem NoteFree.exists_append (h : NoteFree notes notes' base start stop)
    (hplaces : ∀ j, notes' j = [] → notes j = []) {inner rest : Text}
    (hbase : base = above ++ text) (hstart : start < (annotated notes 0 above).length)
    (hstop : stop = (annotated notes 0 above).length + inner.length)
    (htext : annotated notes above.length text = inner ++ rest) :
    ∃ below, text = inner ++ below ∧ rest = annotated notes (above ++ inner).length below ∧
      ∀ j, above.length ≤ j → j < (above ++ inner).length → notes' j = [] := by
  induction inner generalizing above text with
  | nil =>
      refine ⟨text, rfl, by rw [List.append_nil]; exact htext.symm, fun j hj hj' => ?_⟩
      rw [List.append_nil] at hj'
      omega
  | cons c inner ih =>
      cases text with
      | nil => simp [annotated] at htext
      | cons d text =>
          -- a note here would belong between the offsets
          have hnil : notes' above.length = [] := by
            by_contra hnote
            rcases h above (d :: text) hbase (List.cons_ne_nil _ _) hnote with hle | hle
            · rw [annotatedAbove, List.length_append] at hle
              omega
            · rw [hstop, List.length_cons] at hle
              omega
          rw [annotated, hplaces _ hnil, List.nil_append, List.cons_append, List.cons.injEq] at htext
          obtain ⟨rfl, htext⟩ := htext
          have hlength : (annotated notes 0 (above ++ [d])).length =
              (annotated notes 0 above).length + 1 := by
            rw [annotated_append, Nat.zero_add, annotated, hplaces _ hnil, List.length_append]
            rfl
          have hnext : (above ++ [d]).length = above.length + 1 := by simp
          rw [List.length_cons] at hstop
          have hbase' : base = (above ++ [d]) ++ text := by rw [hbase, List.append_cons]
          obtain ⟨below, rfl, hrest, hclear⟩ := ih hbase' (by omega) (by omega)
            (by rw [hnext]; exact htext)
          rw [List.append_assoc, List.singleton_append] at hrest hclear
          refine ⟨below, rfl, hrest, fun j hj hj' => ?_⟩
          rcases Nat.eq_or_lt_of_le hj with heq | hlt
          · rw [← heq, hnil]
          · exact hclear j (by omega) hj'

/-- The same for what stands directly above an offset. -/
theorem NoteFree.exists_append_above (h : NoteFree notes notes' base start stop)
    (hplaces : ∀ j, notes' j = [] → notes j = []) {before inner : Text}
    (hbase : base = above ++ text) (hne : text ≠ []) (hstart : start = before.length)
    (hstop : (annotatedAbove notes above).length < stop)
    (habove : annotatedAbove notes above = before ++ inner) :
    ∃ front, above = front ++ inner ∧ annotatedAbove notes front = before ∧
      ∀ j, front.length < j → j ≤ above.length → notes' j = [] := by
  induction inner using List.reverseRecOn generalizing above text with
  | nil => exact ⟨above, by simp, by simpa using habove, by omega⟩
  | append_singleton inner c ih =>
      rw [← List.append_assoc] at habove
      have hle := length_annotated_le_above notes above
      -- a note here would belong between the offsets
      have hnil : notes' above.length = [] := by
        by_contra hnote
        rcases h above text hbase hne hnote with hbefore | hafter
        · rw [habove, hstart, List.length_append, List.length_append, List.length_singleton] at hbefore
          omega
        · omega
      rcases List.eq_nil_or_concat above with rfl | ⟨above, d, rfl⟩
      · rw [annotatedAbove, hplaces _ hnil] at habove
        simp [annotated] at habove
      · rw [List.concat_eq_append] at *
        rw [annotatedAbove, hplaces _ hnil, List.append_nil, annotated_concat] at habove hstop
        obtain ⟨hbefore, hlast⟩ := List.append_inj' habove rfl
        obtain rfl : d = c := List.singleton_inj.1 hlast
        rw [List.length_append] at hstop
        have hbase' : base = above ++ ([d] ++ text) := by rw [hbase, List.append_assoc]
        obtain ⟨front, rfl, hfront, hclear⟩ := ih hbase' (by simp) (by omega) hbefore
        refine ⟨front, by rw [List.append_assoc], hfront, fun j hj hj' => ?_⟩
        rcases Nat.eq_or_lt_of_le hj' with heq | hlt
        · rw [heq, hnil]
        · rw [List.length_append, List.length_singleton] at hlt
          exact hclear j hj (by omega)

end

/-! ## Line endings -/

theorem not_infix_iff_isChain {text : Text} :
    ¬ ['\r', '\n'] <:+: text ↔ text.IsChain fun c d => c = '\r' → d ≠ '\n' := by
  rw [List.isChain_iff_forall_rel_of_append_cons_cons]
  constructor
  · rintro h c d front rest heq rfl rfl
    exact h ⟨front, rest, by simp [heq]⟩
  · rintro h ⟨front, rest, heq⟩
    rw [List.append_assoc] at heq
    exact h heq.symm rfl rfl

theorem not_infix_append {front rest : Text} (hfront : ¬ ['\r', '\n'] <:+: front)
    (hrest : ¬ ['\r', '\n'] <:+: rest) (hlast : front.getLast? ≠ some '\r') :
    ¬ ['\r', '\n'] <:+: front ++ rest := by
  rw [not_infix_iff_isChain] at hfront hrest ⊢
  refine List.isChain_append.2 ⟨hfront, hrest, ?_⟩
  rintro c hc d - rfl
  exact absurd hc hlast

/-- Notes without carriage returns in front of line feeds bring none into the text. -/
theorem IsRevision.not_infix_annotated {notes notes' : Nat → Text} {base : Text}
    (h : IsRevision notes notes' base) (hnotes : ∀ j, ¬ ['\r', '\n'] <:+: notes' j) {offset : Nat}
    {text : Text} (htext : ¬ ['\r', '\n'] <:+: annotated notes offset text) :
    ¬ ['\r', '\n'] <:+: annotated notes' offset text := by
  rw [not_infix_iff_isChain] at htext ⊢
  induction text generalizing offset with
  | nil => exact List.isChain_nil
  | cons c text ih =>
      rw [annotated, List.isChain_append, List.isChain_cons] at htext ⊢
      obtain ⟨-, ⟨hnext, htext⟩, -⟩ := htext
      refine ⟨not_infix_iff_isChain.1 (hnotes offset), ⟨fun d hd => ?_, ih htext⟩, fun d hd e _ => ?_⟩
      · cases text with
        | nil => contradiction
        | cons e text =>
            by_cases hnil : notes' (offset + 1) = []
            · refine hnext d ?_
              rw [annotated, hnil] at hd
              rw [annotated, h.places _ hnil]
              exact hd
            · -- a note starts with indentation or a slash
              obtain ⟨indent, more, hindent, hnote⟩ := (h.after.isNote _ hnil).opens
              rw [annotated, hnote] at hd
              rintro - rfl
              cases indent with
              | nil => simp at hd
              | cons b indent =>
                  obtain rfl : b = '\n' := by simpa using hd
                  exact absurd (hindent _ List.mem_cons_self) (by decide)
      · have hnil : notes' offset ≠ [] := by
          intro hnil
          rw [hnil] at hd
          contradiction
        rw [(h.after.isNote _ hnil).ends] at hd
        obtain rfl : '\n' = d := Option.some.inj hd
        intro hreturn
        contradiction

/-! ## Readers on annotated texts -/

variable {α : Type} {read : Text → Option (α × Text)}

/-- Below `above` the same is read from both annotated texts: nothing, or a text in which no note
stands. -/
inductive ReadsAlike (read : Text → Option (α × Text)) (notes notes' : Nat → Text)
    (above text : Text) : Prop
  | none : read (annotatedTail notes above.length text) = none →
      read (annotatedTail notes' above.length text) = none → ReadsAlike read notes notes' above text
  | some {front below : Text} {value : α} : text = front ++ below → front ≠ [] →
      read (annotatedTail notes above.length text) =
        some (value, annotated notes (above ++ front).length below) →
      read (annotatedTail notes' above.length text) =
        some (value, annotated notes' (above ++ front).length below) →
      (∀ j, above.length < j → j < (above ++ front).length → notes' j = []) →
      ReadsAlike read notes notes' above text

section

variable {notes notes' : Nat → Text} {base above text : Text}

/-- What is read from an annotated text stands in the text, and is read with other notes unless one
of them stands in it. -/
theorem IsNearsighted.exists_of_read (hread : IsNearsighted read) (hnotes : AreNotes notes base)
    (hnotes' : AreNotes notes' base) (hbase : base = above ++ text) {value : α} {rest : Text}
    (h : read (annotatedTail notes above.length text) = some (value, rest)) :
    ∃ front below, text = front ++ below ∧ front ≠ [] ∧
      rest = annotated notes (above ++ front).length below ∧
      (∀ j, above.length < j → j < (above ++ front).length → notes j = []) ∧
      ((∀ j, above.length < j → j < (above ++ front).length → notes' j = []) →
        read (annotatedTail notes' above.length text) =
          some (value, annotated notes' (above ++ front).length below)) := by
  obtain ⟨front, htext, hslash, hlast⟩ := hread.takes h
  obtain ⟨below, rfl, rfl, hinside⟩ := exists_of_annotatedTail_eq hnotes hbase htext hslash hlast
  obtain ⟨c, hc, hblank⟩ := hlast
  have hne : front ≠ [] := by
    rintro rfl
    contradiction
  refine ⟨front, below, rfl, hne, rfl, fun j hj hj' => hinside j hj hj'.le, fun hclear => ?_⟩
  have hlength : above.length + front.length = (above ++ front).length := List.length_append.symm
  rw [htext] at h
  rw [annotatedTail_append hne (by rwa [hlength]), hlength]
  cases below with
  | nil => exact h
  | cons d below =>
      -- no note stands behind the last character either, for it does not end a line
      have hend : ∀ {notes : Nat → Text}, AreNotes notes base →
          notes (above ++ front).length = [] := by
        intro notes hnotes
        by_contra hnote
        have hstarts := hnotes.starts (above ++ front) (d :: below) (by simp [hbase]) hnote
        rw [lineStartsAfter_append_iff _ hne] at hstarts
        rw [hstarts c hc] at hblank
        contradiction
      rw [annotated, hend hnotes, List.nil_append] at h
      rw [annotated, hend hnotes', List.nil_append]
      exact hread.append_cons h _

/-- A nearsighted reader reads alike where no note belongs into what it reads. -/
theorem IsNearsighted.readsAlike (hread : IsNearsighted read) (h : IsRevision notes notes' base)
    (hbase : base = above ++ text)
    (hfree : ∀ value rest, read (annotatedTail notes above.length text) = some (value, rest) →
      NoteFree notes notes' base (annotatedAbove notes above).length
        ((annotated notes 0 base).length - rest.length)) :
    ReadsAlike read notes notes' above text := by
  cases hfound : read (annotatedTail notes above.length text) with
  | some found =>
      obtain ⟨value, rest⟩ := found
      obtain ⟨front, below, htext, hne, rfl, -, hother⟩ :=
        hread.exists_of_read h.before h.after hbase hfound
      have hwhole : base = (above ++ front) ++ below := by rw [hbase, htext, List.append_assoc]
      have hstop : (annotated notes 0 base).length -
          (annotated notes (above ++ front).length below).length =
            (annotated notes 0 (above ++ front)).length := by
        rw [hwhole, annotated_append, List.length_append, Nat.zero_add, Nat.add_sub_cancel]
      have hclear : ∀ j, above.length < j → j < (above ++ front).length → notes' j = [] := by
        intro j hj hj'
        by_contra hnote
        have hsplit : base = base.take j ++ base.drop j := (List.take_append_drop j base).symm
        have hinside : (base.take j).length = j := by
          rw [List.length_take, hwhole, List.length_append]
          omega
        have hmore : base.drop j ≠ [] := by
          rw [Ne, List.drop_eq_nil_iff, hwhole, List.length_append]
          omega
        have hends := hfree value _ hfound _ _ hsplit hmore (by rwa [hinside])
        rw [hstop] at hends
        have hstart := length_annotatedAbove_lt notes hbase hsplit (by omega)
        have hstop := length_annotatedAbove_lt notes hsplit hwhole (by omega)
        have hle := length_annotated_le_above notes (base.take j)
        omega
      exact .some htext hne hfound (hother hclear) hclear
  | none =>
      cases hfound' : read (annotatedTail notes' above.length text) with
      | none => exact .none hfound hfound'
      | some found =>
          obtain ⟨value, rest⟩ := found
          obtain ⟨front, below, -, -, -, hinside, hother⟩ :=
            hread.exists_of_read h.after h.before hbase hfound'
          rw [hother fun j hj hj' => h.places j (hinside j hj hj')] at hfound
          contradiction

/-- What was opened is read alike where no note belongs in front of its end. -/
theorem IsClosedBy.exists_of_noteFree {after : Text → Text} (hread : IsClosedBy read after)
    (h : IsRevision notes notes' base) (hbase : base = above ++ text) {start : Nat}
    (hstart : start < (annotated notes 0 above).length)
    (hfree : NoteFree notes notes' base start ((annotated notes 0 base).length -
      (after (annotated notes above.length text)).length)) :
    ∃ front below, text = front ++ below ∧
      (∀ j, above.length ≤ j → j < (above ++ front).length → notes' j = []) ∧
      ∃ value? : Option α,
        read (annotated notes above.length text) =
          value?.map (·, annotated notes (above ++ front).length below) ∧
        read (annotated notes' above.length text) =
          value?.map (·, annotated notes' (above ++ front).length below) := by
  obtain ⟨front, hfront⟩ := hread.suffix (annotated notes above.length text)
  have hstop : (annotated notes 0 base).length -
      (after (annotated notes above.length text)).length =
        (annotated notes 0 above).length + front.length := by
    have hlength := congrArg List.length hfront
    rw [List.length_append] at hlength
    rw [hbase, annotated_append, List.length_append, Nat.zero_add]
    omega
  obtain ⟨below, rfl, hrest, hclear⟩ :=
    hfree.exists_append h.places hbase hstart hstop hfront.symm
  have hafter : after (front ++ annotated notes (above ++ front).length below) =
      annotated notes (above ++ front).length below := by rw [← hrest, hfront]
  have hnil : annotated notes (above ++ front).length below = [] →
      annotated notes' (above ++ front).length below = [] := by
    rw [annotated_eq_nil_iff, annotated_eq_nil_iff]
    exact id
  have hlength : (above ++ front).length = above.length + front.length := List.length_append
  refine ⟨front, below, rfl, hclear,
    (read (front ++ annotated notes (above ++ front).length below)).map Prod.fst, ?_, ?_⟩
  · rw [← hfront, hrest, Option.map_map]
    exact hread.append hafter id
  · rw [annotated_append_of_clear (by rwa [← hlength]), ← hlength, Option.map_map]
    exact hread.append hafter hnil

/-- A returned type that is read in the second annotated text is read in the first one. -/
theorem returnType?_ne_none (h : IsRevision notes notes' base) (hbase : base = above ++ text)
    (htype : returnType? (annotated notes' above.length text) ≠ none) :
    returnType? (annotated notes above.length text) ≠ none := by
  obtain ⟨front, rest, htext, hslash, hlast, hreads⟩ := exists_front_of_returnType? htype
  have hne : text ≠ [] := by
    rintro rfl
    exact htype rfl
  rw [annotated_of_ne_nil _ _ hne] at htext
  by_cases hnil : notes' above.length = []
  · rw [hnil, List.nil_append] at htext
    obtain ⟨below, rfl, -, hclear⟩ := exists_of_annotatedTail_eq h.after hbase htext hslash hlast
    rw [List.length_append] at hclear
    rw [annotated_append_of_clear]
    · exact hreads _
    · intro j hj hj'
      rcases Nat.eq_or_lt_of_le hj with heq | hlt
      · rw [← heq, h.places _ hnil]
      · exact h.places j (hclear j hlt hj'.le)
  · obtain ⟨c, hc, hblank⟩ := hlast
    rw [(h.after.isNote _ hnil).isBlank_of_append_eq htext hslash hc] at hblank
    contradiction

/-- An override is read alike where no note belongs in front of the end of its value. -/
theorem readsAlike_readOverride? {name : Text} (hname : Text.isIdentifier name = true)
    (h : IsRevision notes notes' base) (hbase : base = above ++ text)
    (hfree : ∀ opened, readOpening? name (annotatedTail notes above.length text) =
        some ((), opened) →
      NoteFree notes notes' base (annotatedAbove notes above).length
        ((annotated notes 0 base).length - (afterValue opened).length)) :
    ReadsAlike (readOverride? name) notes notes' above text := by
  have hopening := (isNearsighted_readOpening? hname).readsAlike h hbase fun _ opened hopened =>
    (hfree opened hopened).mono (Nat.sub_le_sub_left (afterValue_suffix opened).length_le _)
  cases hopening with
  | none hold hnew =>
      exact .none (by rw [readOverride?_eq, hold]; rfl) (by rw [readOverride?_eq, hnew]; rfl)
  | @some front below value htext hne hold hnew hclear =>
      have hwhole : base = (above ++ front) ++ below := by rw [hbase, htext, List.append_assoc]
      have hstart := length_annotatedAbove_lt notes hbase hwhole
        (by simp [List.length_pos_of_ne_nil hne])
      obtain ⟨inner, below, rfl, hinner, value?, hvalue, hvalue'⟩ :=
        isClosedBy_quotedValue?.exists_of_noteFree h hwhole hstart (hfree _ hold)
      have htext' : text = (front ++ inner) ++ below := by rw [htext, List.append_assoc]
      have hassoc : above ++ front ++ inner = above ++ (front ++ inner) := List.append_assoc ..
      have hread : readOverride? name (annotatedTail notes above.length text) =
          value?.map (·, annotated notes (above ++ (front ++ inner)).length below) := by
        rw [readOverride?_eq, hold, ← hassoc]
        exact hvalue
      have hread' : readOverride? name (annotatedTail notes' above.length text) =
          value?.map (·, annotated notes' (above ++ (front ++ inner)).length below) := by
        rw [readOverride?_eq, hnew, ← hassoc]
        exact hvalue'
      cases value? with
      | none => exact .none hread hread'
      | some value =>
          refine .some htext' (by simp [hne]) hread hread' fun j hj hj' => ?_
          rcases Nat.lt_or_ge j (above ++ front).length with hlt | hge
          · exact hclear j hj hlt
          · exact hinner j hge (by rwa [hassoc])

end

/-! ## Scanning -/

/-- A scan passes over whole lines that declare nothing. -/
theorem scanFrom_append_of_inert (hread : IsLineReader read) {note : Text} (offset : Nat)
    {behind : Text} (text : Text)
    (h : ∀ front c back, note = front ++ c :: back → startsLine (front.reverse ++ behind) = true →
      IsInert (c :: back ++ text)) :
    scanFrom read offset behind 0 (note ++ text) =
      scanFrom read (offset + note.length) (note.reverse ++ behind) 0 text := by
  induction note generalizing offset behind with
  | nil => rfl
  | cons c note ih =>
      have hnone : (if startsLine behind then read (c :: (note ++ text)) else none) = none := by
        split
        · next hstarts =>
            cases hvalue : read (c :: (note ++ text)) with
            | none => rfl
            | some found =>
                obtain ⟨d, hd, hlower⟩ := hread.starts hvalue
                have hinert := h [] c note rfl hstarts d hd
                rw [hlower] at hinert
                contradiction
        · rfl
      rw [List.cons_append, scanFrom, hnone]
      refine (ih (offset + 1) fun front d back heq hstarts => ?_).trans ?_
      · refine h (c :: front) d back (by rw [heq]; rfl) ?_
        simpa using hstarts
      · rw [List.length_cons, List.reverse_cons, List.append_assoc, Nat.add_assoc,
          Nat.add_comm 1 note.length]
        rfl

theorem IsNote.isInert_append {note front back : Text} {c : Char} (h : IsNote note)
    (hnote : note = front ++ c :: back) (hstarts : LineStartsAfter front) (text : Text) :
    IsInert (c :: back ++ text) := by
  have hinert := h.declaresNothing front (c :: back) hnote hstarts
  have hlast : '\n' ∈ c :: back := by
    have hend := h.ends
    rw [hnote, List.getLast?_append_of_ne_nil _ (List.cons_ne_nil _ _)] at hend
    exact List.mem_of_mem_getLast? hend
  have hne : (c :: back).dropWhile isIndent ≠ [] := by
    rw [Ne, List.dropWhile_eq_nil_iff]
    intro hindent
    exact absurd (hindent _ hlast) (by decide)
  intro d hd
  rw [List.dropWhile_append, if_neg (by simpa using hne), List.head?_append_of_ne_nil _ hne] at hd
  exact hinert d hd

/-- A scan of an annotated text passes over the note at the place where it goes on. -/
theorem scanFrom_annotated_of_ne_nil (hread : IsLineReader read) {notes : Nat → Text}
    {base above text : Text} (hnotes : AreNotes notes base) (hne : text ≠ []) :
    scanFrom read (annotated notes 0 above).length (annotated notes 0 above).reverse 0
        (annotated notes above.length text) =
      scanFrom read (annotatedAbove notes above).length (annotatedAbove notes above).reverse 0
        (annotatedTail notes above.length text) := by
  rw [annotated_of_ne_nil _ _ hne, scanFrom_append_of_inert hread, annotatedAbove,
    List.length_append, List.reverse_append]
  intro front c back hnote hstarts
  have hnil : notes above.length ≠ [] := by simp [hnote]
  refine (hnotes.isNote _ hnil).isInert_append hnote ?_ _
  rw [← List.reverse_append, startsLine_reverse_iff] at hstarts
  by_cases hfront : front = []
  · rw [hfront]
    exact lineStartsAfter_nil
  · exact (lineStartsAfter_append_iff _ hfront).1 hstarts

/-- What a scan of an annotated text finds from an offset of the text on.  `skip` characters of the
text belong to the last thing read. -/
def scanAnnotated (read : Text → Option (α × Text)) (notes : Nat → Text) (above : Text)
    (skip : Nat) (text : Text) : List (Found α) :=
  scanFrom read (annotated notes 0 above).length (annotated notes 0 above).reverse skip
    (annotated notes above.length text)

/-- What was read from a text: `text`, between `above` and `below`. -/
structure Cut (α : Type) where
  above : Text
  text : Text
  below : Text
  value : α

namespace Cut

variable (cut : Cut α) (notes : Nat → Text)

/-- The same thing as it is found in the annotated text. -/
def found : Found α where
  start := (annotatedAbove notes cut.above).length
  behind := (annotatedAbove notes cut.above).reverse
  ahead := annotatedTail notes cut.above.length (cut.text ++ cut.below)
  rest := annotated notes (cut.above ++ cut.text).length cut.below
  value := cut.value

/-- The cut is one of the text, starts a line, and no note stands in it. -/
structure IsIn (base : Text) : Prop where
  base_eq : base = cut.above ++ (cut.text ++ cut.below)
  ne_nil : cut.text ≠ []
  starts : LineStartsAfter cut.above
  clear : ∀ j, cut.above.length < j → j < (cut.above ++ cut.text).length → notes j = []

end Cut

section

variable {notes : Nat → Text} {base above text : Text} {c : Char}

theorem scanAnnotated_succ (hnil : notes above.length = []) (skip : Nat) :
    scanAnnotated read notes above (skip + 1) (c :: text) =
      scanAnnotated read notes (above ++ [c]) skip text := by
  rw [scanAnnotated, annotated, hnil, List.nil_append, scanFrom, scanAnnotated, annotated_concat,
    annotatedAbove, hnil, List.append_nil]
  simp

/-- A scan goes on behind a character at which nothing is read. -/
theorem scanAnnotated_of_read_eq_none (hread : IsLineReader read) (hnotes : AreNotes notes base)
    (hbase : base = above ++ c :: text)
    (h : LineStartsAfter above → read (annotatedTail notes above.length (c :: text)) = none) :
    scanAnnotated read notes above 0 (c :: text) =
      scanAnnotated read notes (above ++ [c]) 0 text := by
  have hnone : (if startsLine (annotatedAbove notes above).reverse then
      read (c :: annotated notes (above.length + 1) text) else none) = none := by
    split
    · next hstarts =>
        rw [startsLine_reverse_iff, lineStartsAfter_annotatedAbove_iff hnotes hbase] at hstarts
        exact h hstarts
    · rfl
  rw [scanAnnotated, scanFrom_annotated_of_ne_nil hread hnotes (List.cons_ne_nil _ _),
    annotatedTail, scanFrom, hnone, scanAnnotated, annotated_concat]
  simp

/-- A scan finds what is read and goes on inside it. -/
theorem scanAnnotated_of_read_eq_some (hread : IsLineReader read) (hnotes : AreNotes notes base)
    {front below : Text} {value : α} (hbase : base = above ++ c :: (front ++ below))
    (hstarts : LineStartsAfter above)
    (h : read (annotatedTail notes above.length (c :: (front ++ below))) =
      some (value, annotated notes (above ++ c :: front).length below))
    (hclear : ∀ j, above.length < j → j < (above ++ c :: front).length → notes j = []) :
    scanAnnotated read notes above 0 (c :: (front ++ below)) =
      (⟨above, c :: front, below, value⟩ : Cut α).found notes ::
        scanAnnotated read notes (above ++ [c]) front.length (front ++ below) := by
  have hline : startsLine (annotatedAbove notes above).reverse = true := by
    rwa [startsLine_reverse_iff, lineStartsAfter_annotatedAbove_iff hnotes hbase]
  have htail : c :: annotated notes (above.length + 1) (front ++ below) =
      c :: front ++ annotated notes (above ++ c :: front).length below := by
    rw [List.length_append]
    exact annotatedTail_append (List.cons_ne_nil _ _) (by rwa [← List.length_append]) below
  have hlength : (c :: annotated notes (above.length + 1) (front ++ below)).length -
      (annotated notes (above ++ c :: front).length below).length - 1 = front.length := by
    rw [htail, List.length_append, Nat.add_sub_cancel, List.length_cons, Nat.add_sub_cancel]
  rw [annotatedTail] at h
  rw [scanAnnotated, scanFrom_annotated_of_ne_nil hread hnotes (List.cons_ne_nil _ _),
    annotatedTail, scanFrom, if_pos hline, h]
  simp only [Found.length, hlength]
  rw [scanAnnotated, annotated_concat, Cut.found]
  simp [annotatedTail]

end

/-- Two annotations of a text, and a reader that reads alike from both at every line start, find the
same things. -/
theorem exists_cuts_scanAnnotated (hread : IsLineReader read) {notes notes' : Nat → Text}
    {base : Text} (h : IsRevision notes notes' base)
    (halike : ∀ above text, base = above ++ text → LineStartsAfter above →
      ReadsAlike read notes notes' above text) {above text : Text} (skip : Nat)
    (hbase : base = above ++ text)
    (hskip : ∀ j, above.length ≤ j → j < above.length + skip → notes' j = []) :
    ∃ cuts : List (Cut α), (∀ cut ∈ cuts, cut.IsIn notes' base) ∧
      scanAnnotated read notes above skip text = cuts.map (·.found notes) ∧
      scanAnnotated read notes' above skip text = cuts.map (·.found notes') := by
  induction text generalizing above skip with
  | nil => exact ⟨[], by simp, by simp [scanAnnotated, annotated, scanFrom]⟩
  | cons c text ih =>
      have hbase' : base = (above ++ [c]) ++ text := by simp [hbase]
      have hlength : (above ++ [c]).length = above.length + 1 := by simp
      cases skip with
      | succ skip =>
          have hnil := hskip above.length le_rfl (by omega)
          rw [scanAnnotated_succ (h.places _ hnil), scanAnnotated_succ hnil]
          exact ih skip hbase' fun j hj hj' => hskip j (by omega) (by omega)
      | zero =>
          -- nothing is read here: both scans go on behind the character
          have hnone : (LineStartsAfter above →
                read (annotatedTail notes above.length (c :: text)) = none ∧
                read (annotatedTail notes' above.length (c :: text)) = none) →
              ∃ cuts : List (Cut α), (∀ cut ∈ cuts, cut.IsIn notes' base) ∧
                scanAnnotated read notes above 0 (c :: text) = cuts.map (·.found notes) ∧
                scanAnnotated read notes' above 0 (c :: text) = cuts.map (·.found notes') := by
            intro hnone
            rw [scanAnnotated_of_read_eq_none hread h.before hbase fun hstarts => (hnone hstarts).1,
              scanAnnotated_of_read_eq_none hread h.after hbase fun hstarts => (hnone hstarts).2]
            exact ih 0 hbase' (by omega)
          by_cases hstarts : LineStartsAfter above
          · cases halike above (c :: text) hbase hstarts with
            | none hold hnew => exact hnone fun _ => ⟨hold, hnew⟩
            | @some front below value htext hne hold hnew hclear =>
                obtain ⟨d, front, rfl⟩ := List.exists_cons_of_ne_nil hne
                rw [List.cons_append, List.cons.injEq] at htext
                obtain ⟨rfl, rfl⟩ := htext
                obtain ⟨cuts, hcuts, hscan, hscan'⟩ := ih front.length hbase' fun j hj hj' =>
                  hclear j (by omega) (by simp only [List.length_append, List.length_cons]; omega)
                refine ⟨⟨above, c :: front, below, value⟩ :: cuts, ?_, ?_, ?_⟩
                · rintro cut (_ | ⟨_, hcut⟩)
                  · exact ⟨hbase, hne, hstarts, hclear⟩
                  · exact hcuts cut hcut
                · rw [scanAnnotated_of_read_eq_some hread h.before hbase hstarts hold
                    fun j hj hj' => h.places j (hclear j hj hj'), hscan, List.map_cons]
                · rw [scanAnnotated_of_read_eq_some hread h.after hbase hstarts hnew hclear, hscan',
                    List.map_cons]
          · exact hnone fun h => absurd h hstarts

/-- **Scans agree.**  Two annotations of a text, and a reader that reads alike from both at every
line start: a scan finds the same cuts of the text in both. -/
theorem exists_cuts (hread : IsLineReader read) {notes notes' : Nat → Text} {base : Text}
    (h : IsRevision notes notes' base)
    (halike : ∀ above text, base = above ++ text → LineStartsAfter above →
      ReadsAlike read notes notes' above text) :
    ∃ cuts : List (Cut α), (∀ cut ∈ cuts, cut.IsIn notes' base) ∧
      scan read (annotated notes 0 base) = cuts.map (·.found notes) ∧
      scan read (annotated notes' 0 base) = cuts.map (·.found notes') :=
  exists_cuts_scanAnnotated hread h halike 0 (List.nil_append base).symm (by simp)

/-! ## What is read off the cuts -/

section

variable {notes : Nat → Text} {base : Text}

theorem Cut.IsIn.ahead_found {cut : Cut α} (h : cut.IsIn notes base) :
    (cut.found notes).ahead = cut.text ++ (cut.found notes).rest := by
  have hclear := h.clear
  rw [List.length_append] at hclear
  rw [Cut.found]
  dsimp only
  rw [annotatedTail_append h.ne_nil hclear, List.length_append]

/-- What was found ends behind its start. -/
theorem Cut.IsIn.length_above_lt {cut : Cut α} (h : cut.IsIn notes base) :
    (annotatedAbove notes cut.above).length <
      (annotated notes 0 base).length - (cut.found notes).rest.length := by
  have hparts : annotated notes 0 base =
      annotatedAbove notes cut.above ++ (cut.text ++ (cut.found notes).rest) := by
    rw [← h.ahead_found, h.base_eq]
    exact annotated_eq_above_append _ _ (by simp [h.ne_nil])
  have hpos := List.length_pos_of_ne_nil h.ne_nil
  rw [hparts]
  simp only [List.length_append]
  omega

theorem Cut.IsIn.of_revision {notes' : Nat → Text} {cut : Cut α} (h : cut.IsIn notes' base)
    (hrevision : IsRevision notes notes' base) : cut.IsIn notes base :=
  { h with clear := fun j hj hj' => hrevision.places j (h.clear j hj hj') }

/-- The name of the type at a place does not depend on the notes. -/
theorem scopeAt_map_found {cuts : List (Cut Text)} {above below : Text}
    (hcuts : ∀ cut ∈ cuts, base = cut.above ++ (cut.text ++ cut.below))
    (hbase : base = above ++ below) :
    scopeAt (cuts.map (·.found notes)) (annotatedAbove notes above).length =
      (((cuts.takeWhile fun cut => cut.above.length < above.length).getLast?).map Cut.value).getD
        [] := by
  have hsame : ∀ cut ∈ cuts,
      decide ((cut.found notes).start < (annotatedAbove notes above).length) =
        decide (cut.above.length < above.length) := fun cut hcut => by
    rw [decide_eq_decide]
    exact length_annotatedAbove_lt_iff notes (hcuts cut hcut) hbase
  rw [scopeAt, List.takeWhile_map, ← takeWhile_congr hsame, List.getLast?_map, Option.map_map]
  rfl

end

end PhpDoc
