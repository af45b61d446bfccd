import Mathlib
import PhpDoc.Proofs.Declared
import PhpDoc.Proofs.Survival
import PhpDoc.Sync.Merge

/-!
# When a class block is one comment

A rendered class block opens with its first line and closes with its last one.  It is one comment
when no line in between holds a closing delimiter.  The only line of a doc comment that does is its
last one, and grouping drops it when nothing but stars stands beside the delimiter.  A last line
with text is kept as it is, delimiter included, unless the merge of its group drops it; then the
block closes early.
-/

namespace PhpDoc

/-! ## The lines of a doc comment -/

theorem slash_mem_of_isInfix_commentEnd {line : Text} (h : commentEnd <:+: line) : '/' ∈ line :=
  h.subset (by decide)

/-- The text before the closing delimiter of a doc comment holds none. -/
theorem IsDocComment.not_infix_of_append {doc front rest : Text} (h : IsDocComment doc)
    (heq : doc = front ++ rest) (hne : rest ≠ []) : ¬ commentEnd <:+: front := by
  rintro ⟨u, v, rfl⟩
  have hnil := h.closes_once u (v ++ rest) (by rw [heq]; simp)
  exact hne (List.append_eq_nil_iff.1 hnil).2

theorem commentEnd_infix_star_append_iff (remark : Text) :
    commentEnd <:+: " * ".toList ++ remark ↔ commentEnd <:+: remark := by
  have hstar : ¬ commentEnd <:+: " *".toList := by decide
  have hspace : " * ".toList = " *".toList ++ [' '] := rfl
  rw [hspace, List.append_assoc, List.singleton_append, Text.infix_append_cons_iff (by decide)]
  simp only [hstar, false_or]

/-- What is kept of the only line of a doc comment is the text beside its delimiters. -/
theorem IsDocComment.not_infix_of_classify {doc key kept : Text} (h : IsDocComment doc)
    (hclass : classify doc = some (key, kept)) : ¬ commentEnd <:+: kept := by
  obtain ⟨rest, hrest⟩ := h.opens
  have hkey : keyword? doc = none := by
    rw [← hrest]
    rfl
  have hopen : Text.after? openingLine doc.trim = some rest := by
    rw [h.trim_eq, Text.after?_eq_some_iff, hrest]
  simp only [classify, hkey, hopen, Option.map_eq_some_iff, Prod.mk.injEq] at hclass
  obtain ⟨remark, hremark, -, rfl⟩ := hclass
  rw [openingRemark?] at hremark
  split at hremark
  · contradiction
  · obtain rfl := Option.some.inj hremark
    rw [commentEnd_infix_star_append_iff]
    intro hends
    -- a delimiter left of the dropped ones would be a second one
    obtain ⟨n, hn⟩ := Text.exists_dropEndPairs_append '*' '/' (Text.trim rest)
    obtain ⟨u, v, huv⟩ := hends.trans (Text.trimEnd_isPrefix _).isInfix
    obtain ⟨p, q, hpq⟩ := Text.trim_isInfix rest
    have hdoc : doc = openingLine ++ p ++ u ++ commentEnd ++
        (v ++ (List.replicate n ['*', '/']).flatten ++ q) := by
      rw [← hrest, ← hpq, hn, ← huv]
      simp
    have hnil := h.closes_once _ _ hdoc
    have hv : v = [] := (List.append_eq_nil_iff.1 (List.append_eq_nil_iff.1 hnil).1).1
    rw [hv, List.append_nil] at huv
    exact Text.not_suffix_dropEndPairs '*' '/' (Text.trim rest) ⟨u, huv⟩

theorem exists_last_newline {text : Text} (h : '\n' ∈ text) :
    ∃ front last : Text, text = front ++ '\n' :: last ∧ '\n' ∉ last := by
  obtain ⟨last, front, heq, hlast⟩ := List.eq_append_cons_of_mem (List.mem_reverse.2 h)
  refine ⟨front.reverse, last.reverse, ?_, by simpa using hlast⟩
  rw [← List.reverse_reverse text, heq]
  simp

/-- The last line of a doc comment is the only one that holds the closing delimiter; when another
line precedes it, it does not open a comment. -/
theorem IsDocComment.exists_lines {doc : Text} (h : IsDocComment doc) :
    ∃ earlier last, doc.lines = earlier ++ [last] ∧ commentEnd <:+ last ∧
      (∀ line ∈ earlier, ¬ commentEnd <:+: line) ∧ (last = doc ∨ ¬ openingLine <:+: last) := by
  by_cases hnewline : '\n' ∈ doc
  · obtain ⟨front, last, heq, hlast⟩ := exists_last_newline hnewline
    have hcloses : commentEnd <:+ last := by
      have hsuffix : '\n' :: last <:+ doc := ⟨front, heq.symm⟩
      rcases Nat.lt_or_ge last.length commentEnd.length with hlt | hle
      · have hshort := List.suffix_of_suffix_length_le hsuffix h.closes (by simpa using hlt)
        exact absurd (hshort.subset List.mem_cons_self) (by decide)
      · exact List.suffix_of_suffix_length_le h.closes
          ((List.suffix_cons _ _).trans hsuffix) hle
    have hne : last ≠ [] := fun hnil => by simp [hnil, commentEnd] at hcloses
    have hsplit : doc = front ++ ['\n'] ++ last := by simp [heq]
    refine ⟨Text.lines (front ++ ['\n']), last, ?_, hcloses, fun line hline hends => ?_,
      Or.inr ?_⟩
    · rw [heq, Text.lines_append_newline_append, Text.lines_of_not_mem hlast hne]
    · exact h.not_infix_of_append hsplit hne
        (hends.trans (Text.isInfix_of_mem_lines hline))
    · rintro ⟨u, v, huv⟩
      have hnil := h.opens_once (front ++ '\n' :: u) v (by rw [heq, ← huv]; simp)
      simp at hnil
  · exact ⟨[], doc, Text.lines_of_not_mem hnewline h.ne_nil, h.closes, by simp, Or.inl rfl⟩

/-- The text ends in the line `last`, and of what is kept of its lines only that whole line holds a
closing delimiter. -/
structure ClosesIn (doc : Text) (earlier : List Text) (last : Text) : Prop where
  lines_eq : doc.lines = earlier ++ [last]
  earlier : ∀ line ∈ earlier, ∀ key kept, classify line = some (key, kept) →
    ¬ commentEnd <:+: kept
  last : ∀ key kept, classify last = some (key, kept) → (commentEnd <:+: kept ↔ kept = last)

theorem eq_of_classify {line key kept : Text} (h : classify line = some (key, kept))
    (hopen : ¬ openingLine <:+: line) : kept = line := by
  have hnone : Text.after? openingLine line.trim = none := by
    rw [Text.after?_eq_none_iff]
    exact fun hstart => hopen (hstart.isInfix.trans (Text.trim_isInfix line))
  cases hkey : keyword? line with
  | some k =>
      rw [classify_of_keyword? hkey, Option.some.injEq, Prod.mk.injEq] at h
      exact h.2.symm
  | none =>
      simp only [classify, hkey, hnone] at h
      split at h
      · contradiction
      · simp only [Option.some.injEq, Prod.mk.injEq] at h
        exact h.2.symm

theorem IsDocComment.exists_closesIn {doc : Text} (h : IsDocComment doc) :
    ∃ earlier last, ClosesIn doc earlier last := by
  obtain ⟨earlier, last, hlines, hcloses, hearlier, hlast⟩ := h.exists_lines
  refine ⟨earlier, last, hlines, fun line hline key kept hclass => ?_,
    fun key kept hclass => ⟨fun hends => ?_, fun heq => heq ▸ hcloses.isInfix⟩⟩
  · rcases kept_cases hclass with rfl | ⟨remark, rfl, -, -, hremark⟩
    · exact hearlier kept hline
    · rw [commentEnd_infix_star_append_iff]
      exact fun hends => hearlier line hline (hends.trans hremark)
  · rcases hlast with rfl | hopen
    · exact absurd hends (h.not_infix_of_classify hclass)
    · exact eq_of_classify hclass hopen

/-! ## The shape of a block -/

/-- The text is one comment: it opens at its start, and the only closing delimiter ends it. -/
structure IsSingleComment (block : Text) : Prop where
  opens : openingLine <+: block
  closes : commentEnd <:+ block
  closes_once : ∀ front rest, block = front ++ commentEnd ++ rest → rest = []

theorem mem_spaceOut {started due : Bool} {lines : List Text} {line : Text}
    (hline : line ≠ separatorLine) (h : line ∈ lines) : line ∈ spaceOut started due lines := by
  induction lines generalizing started due with
  | nil => simp at h
  | cons next rest ih =>
      rw [spaceOut]
      rcases List.mem_cons.1 h with rfl | h
      · rw [if_neg hline]
        split <;> simp
      · split
        · exact ih h
        · split <;> simp [ih h]

namespace TagGroups

theorem mem_bodyLines_of_mem_lines {g : TagGroups} (order : GroupOrder) {key line : Text}
    (hline : line ≠ separatorLine) (h : line ∈ g.lines key) : line ∈ g.bodyLines order := by
  let f : Text → Option Text := fun l => if l = line then some l else none
  have hf : f separatorLine = none := if_neg (Ne.symm hline)
  have hmem : line ∈ (g.bodyLines order).filterMap f := by
    rw [filterMap_bodyLines f hf, List.mem_flatMap]
    exact ⟨key, mem_writtenKeys_of_mem_lines order h, List.mem_filterMap.2 ⟨line, h, if_pos rfl⟩⟩
  obtain ⟨l, hl, hfl⟩ := List.mem_filterMap.1 hmem
  by_cases heq : l = line
  · exact heq ▸ hl
  · simp [f, heq] at hfl

/-- Between the first and the last line of a block, what separators do not have stands in a line of
a group. -/
theorem exists_mem_spaceOut_iff {p : Text → Prop} (hseparator : ¬ p separatorLine) (g : TagGroups)
    (order : GroupOrder) :
    (∃ line ∈ spaceOut false false (g.bodyLines order), p line) ↔
      ∃ key, ∃ line ∈ g.lines key, p line := by
  constructor
  · rintro ⟨line, hline, hp⟩
    rcases mem_of_mem_spaceOut hline with rfl | hline
    · exact absurd hp hseparator
    · rcases mem_bodyLines hline with rfl | ⟨key, hline⟩
      · exact absurd hp hseparator
      · exact ⟨key, line, hline, hp⟩
  · rintro ⟨key, line, hline, hp⟩
    have hne : line ≠ separatorLine := fun heq => hseparator (heq ▸ hp)
    exact ⟨line, mem_spaceOut hne (mem_bodyLines_of_mem_lines order hne hline), hp⟩

theorem isSingleComment_assemble_iff (g : TagGroups) (order : GroupOrder) :
    IsSingleComment (g.assemble order) ↔ ∀ key, ∀ line ∈ g.lines key, ¬ commentEnd <:+: line := by
  -- everything in front of the last line, which is the closing delimiter
  obtain ⟨front, hfront⟩ : ∃ front : Text, front =
      Text.joinLines (openingLine :: spaceOut false false (g.bodyLines order)) := ⟨_, rfl⟩
  have hblock : g.assemble order = front ++ '\n' :: " */".toList := by
    rw [assemble, Text.joinLines_concat (by simp), hfront]
    rfl
  have hinner : commentEnd <:+: front ↔ ∃ key, ∃ line ∈ g.lines key, commentEnd <:+: line := by
    have hopening : ¬ commentEnd <:+: openingLine := by decide
    rw [hfront, Text.infix_joinLines_iff (by decide) (by decide),
      ← exists_mem_spaceOut_iff (by decide) g order]
    simp [hopening]
  constructor
  · intro hsingle key line hline hends
    obtain ⟨u, v, huv⟩ := hinner.2 ⟨key, line, hline, hends⟩
    have hnil := hsingle.closes_once u (v ++ '\n' :: " */".toList) (by rw [hblock, ← huv]; simp)
    simp at hnil
  · intro hlines
    refine ⟨?_, ?_, fun u rest hrest => ?_⟩
    · have hopens : openingLine <+: front := hfront ▸ Text.isPrefix_joinLines_cons _ _
      exact hopens.trans ⟨_, hblock.symm⟩
    · exact ⟨front ++ "\n ".toList, by rw [hblock]; simp [commentEnd]⟩
    · rcases List.eq_nil_or_concat rest with hnil | ⟨before, c, rfl⟩
      · exact hnil
      · -- without its last character the block holds no closing delimiter
        have hparts : front ++ '\n' :: " *".toList = u ++ commentEnd ++ before := by
          have hall :
              (front ++ '\n' :: " *".toList) ++ ['/'] = (u ++ commentEnd ++ before) ++ [c] := by
            simpa [hblock] using hrest
          exact (List.append_inj' hall rfl).1
        have hends : commentEnd <:+: front ++ '\n' :: " *".toList := ⟨u, before, hparts.symm⟩
        rcases (Text.infix_append_cons_iff (by decide)).1 hends with hends | hends
        · obtain ⟨key, line, hline, hends⟩ := hinner.1 hends
          exact absurd hends (hlines key line hline)
        · exact absurd hends (by decide)

end TagGroups

/-! ## What becomes of the closing line -/

namespace ClosesIn

variable {doc last : Text} {earlier : List Text}

theorem lines_ofBlock_eq (h : ClosesIn doc earlier last) (key : Text) :
    (TagGroups.ofBlock doc).lines key =
      linesUnder key (earlier.filterMap classify) ++
        linesUnder key ([last].filterMap classify) := by
  rw [TagGroups.lines_ofBlock, h.lines_eq, List.filterMap_append, linesUnder_append]

theorem not_infix_of_mem_earlier (h : ClosesIn doc earlier last) {key line : Text}
    (hline : line ∈ linesUnder key (earlier.filterMap classify)) : ¬ commentEnd <:+: line := by
  obtain ⟨source, hsource, hclass⟩ := List.mem_filterMap.1 (mem_linesUnder.1 hline)
  exact h.earlier source hsource key line hclass

theorem infix_iff (h : ClosesIn doc earlier last) {key line : Text}
    (hline : line ∈ (TagGroups.ofBlock doc).lines key) :
    commentEnd <:+: line ↔ line = last ∧ classify last = some (key, last) := by
  constructor
  · intro hends
    obtain ⟨source, hsource, hclass⟩ := TagGroups.mem_lines_ofBlock.1 hline
    rw [h.lines_eq, List.mem_append, List.mem_singleton] at hsource
    rcases hsource with hsource | rfl
    · exact absurd hends (h.earlier source hsource key line hclass)
    · obtain rfl := (h.last key line hclass).1 hends
      exact ⟨rfl, hclass⟩
  · rintro ⟨rfl, hclass⟩
    exact (h.last key line hclass).2 rfl

/-- When the closing line is kept under a key, it is the last line there. -/
theorem lines_ofBlock_of_classify (h : ClosesIn doc earlier last) {key : Text}
    (hclass : classify last = some (key, last)) :
    (TagGroups.ofBlock doc).lines key = linesUnder key (earlier.filterMap classify) ++ [last] := by
  rw [h.lines_ofBlock_eq, List.filterMap_cons, hclass]
  simp [linesUnder_singleton]

theorem exists_infix_iff (h : ClosesIn doc earlier last) (key : Text) :
    (∃ line ∈ (TagGroups.ofBlock doc).lines key, commentEnd <:+: line) ↔
      classify last = some (key, last) := by
  constructor
  · rintro ⟨line, hline, hends⟩
    exact ((h.infix_iff hline).1 hends).2
  · intro hclass
    refine ⟨last, ?_, (h.last key last hclass).2 rfl⟩
    rw [h.lines_ofBlock_of_classify hclass]
    simp

/-- The closing line is the first line under a key when no line of the comment precedes it. -/
theorem head?_infix_iff (h : ClosesIn doc earlier last) (key : Text) :
    (∃ line ∈ ((TagGroups.ofBlock doc).lines key).head?, commentEnd <:+: line) ↔
      classify last = some (key, last) ∧ linesUnder key (earlier.filterMap classify) = [] := by
  constructor
  · rintro ⟨line, hline, hends⟩
    obtain ⟨rfl, hclass⟩ := (h.infix_iff (List.mem_of_mem_head? hline)).1 hends
    refine ⟨hclass, ?_⟩
    rw [h.lines_ofBlock_of_classify hclass] at hline
    cases hearlier : linesUnder key (earlier.filterMap classify) with
    | nil => rfl
    | cons first more =>
        obtain rfl : first = line := by simpa [hearlier] using hline
        exact absurd hends (h.not_infix_of_mem_earlier (by rw [hearlier]; exact List.mem_cons_self))
  · rintro ⟨hclass, hearlier⟩
    refine ⟨last, ?_, (h.last key last hclass).2 rfl⟩
    rw [h.lines_ofBlock_of_classify hclass, hearlier]
    rfl

end ClosesIn

theorem commentEnd_infix_alignLine_iff (width : Nat) (line : Text) :
    commentEnd <:+: alignLine width line ↔ commentEnd <:+: line := by
  have hblanks : commentEnd.all (fun c => !isBlank c) = true := by decide
  exact infix_alignLine_iff (by decide)
    (fun c hc => by simpa using List.all_eq_true.1 hblanks c hc) width line

/-- The merge of the properties keeps a closing line that stands after the given lines: it is about
no known property, or it is the first to describe one. -/
def KeepsProperty (facts : List PropertyFact) (earlier : List Text) (last : Text) : Prop :=
  isUndiscovered facts last = true ∨
    ∃ fact ∈ freshFacts [] facts, describe? last = some (fact.type, fact.name) ∧
      ∀ line ∈ earlier, describe? line ≠ describe? last

namespace ClosesIn

variable {doc last : Text} {earlier : List Text} {facts : List PropertyFact}

theorem describes_first_of_mem_factLines (h : ClosesIn doc earlier last)
    (hfacts : ∀ fact ∈ facts, ¬ commentEnd <:+: fact.render)
    (hclass : classify last = some ("@property".toList, last))
    (hline : last ∈ factLines ((TagGroups.ofBlock doc).lines "@property".toList) facts) :
    KeepsProperty facts (linesUnder "@property".toList (earlier.filterMap classify)) last := by
  obtain ⟨fact, hfact, heq⟩ := List.mem_map.1 hline
  rw [h.lines_ofBlock_of_classify hclass, factLine, List.find?_append] at heq
  have hends : commentEnd <:+: last := (h.last _ _ hclass).2 rfl
  cases hearlier : (linesUnder "@property".toList (earlier.filterMap classify)).find?
      (fun line => describe? line == some (fact.type, fact.name)) with
  | some line =>
      rw [hearlier, Option.some_or, Option.getD_some] at heq
      subst heq
      exact absurd hends (h.not_infix_of_mem_earlier (List.mem_of_find?_eq_some hearlier))
  | none =>
      by_cases hdescribe : describe? last = some (fact.type, fact.name)
      · refine Or.inr ⟨fact, hfact, hdescribe, fun line hmem => ?_⟩
        simpa [hdescribe] using List.find?_eq_none.1 hearlier line hmem
      · -- no existing line describes the fact, so its own line is written
        rw [hearlier, Option.none_or] at heq
        have hrender : fact.render = last := by simpa [hdescribe] using heq
        exact absurd (hrender ▸ hends) (hfacts fact (mem_of_mem_freshFacts hfact))

theorem mem_factLines_of_describes_first (h : ClosesIn doc earlier last)
    (hclass : classify last = some ("@property".toList, last)) {fact : PropertyFact}
    (hfact : fact ∈ freshFacts [] facts) (hdescribe : describe? last = some (fact.type, fact.name))
    (hfirst : ∀ line ∈ linesUnder "@property".toList (earlier.filterMap classify),
      describe? line ≠ describe? last) :
    last ∈ factLines ((TagGroups.ofBlock doc).lines "@property".toList) facts := by
  refine List.mem_map.2 ⟨fact, hfact, ?_⟩
  have hnone : (linesUnder "@property".toList (earlier.filterMap classify)).find?
      (fun line => describe? line == some (fact.type, fact.name)) = none := by
    rw [List.find?_eq_none]
    intro line hline
    simpa [hdescribe] using hfirst line hline
  rw [factLine, h.lines_ofBlock_of_classify hclass, List.find?_append, hnone]
  simp [hdescribe]

/-- The merged properties hold a closing delimiter exactly when they keep the closing line. -/
theorem exists_infix_reconcile_iff (h : ClosesIn doc earlier last)
    (hfacts : ∀ fact ∈ facts, ¬ commentEnd <:+: fact.render) :
    (∃ line ∈ reconcile ((TagGroups.ofBlock doc).lines "@property".toList) (.discovered facts),
      commentEnd <:+: line) ↔
    classify last = some ("@property".toList, last) ∧
      KeepsProperty facts (linesUnder "@property".toList (earlier.filterMap classify)) last := by
  obtain ⟨existing, hexisting⟩ : ∃ existing : List Text,
      existing = (TagGroups.ofBlock doc).lines "@property".toList := ⟨_, rfl⟩
  have hmerged : (∃ line ∈ reconcile existing (.discovered facts), commentEnd <:+: line) ↔
      ∃ line ∈ factLines existing facts ++ keptLines existing facts, commentEnd <:+: line := by
    rw [reconcile, PropertyMerge.finish_foldl_addFact, align]
    simp only [List.mem_map, exists_exists_and_eq_and, commentEnd_infix_alignLine_iff]
  have hkept : ∀ line, line ∈ keptLines existing facts ↔ line ∈ existing ∧
      isUndiscovered facts line = true ∧ line ∉ factLines existing facts := by
    intro line
    simp [keptLines]
  rw [← hexisting, hmerged]
  constructor
  · rintro ⟨line, hline, hends⟩
    rcases List.mem_append.1 hline with hline | hline
    · have hmem : line ∈ existing := by
        obtain ⟨fact, hfact, rfl⟩ := List.mem_map.1 hline
        rcases factLine_cases existing fact with hmem | hrender
        · exact hmem
        · rw [hrender] at hends
          exact absurd hends (hfacts fact (mem_of_mem_freshFacts hfact))
      obtain ⟨rfl, hclass⟩ := (h.infix_iff (hexisting ▸ hmem)).1 hends
      exact ⟨hclass, h.describes_first_of_mem_factLines hfacts hclass (hexisting ▸ hline)⟩
    · obtain ⟨hmem, hundiscovered, -⟩ := (hkept line).1 hline
      obtain ⟨rfl, hclass⟩ := (h.infix_iff (hexisting ▸ hmem)).1 hends
      exact ⟨hclass, Or.inl hundiscovered⟩
  · rintro ⟨hclass, hkeeps⟩
    refine ⟨last, ?_, (h.last _ _ hclass).2 rfl⟩
    rw [List.mem_append, or_iff_not_imp_left]
    intro hnot
    rcases hkeeps with hundiscovered | ⟨fact, hfact, hdescribe, hfirst⟩
    · refine (hkept last).2 ⟨?_, hundiscovered, hnot⟩
      rw [hexisting, h.lines_ofBlock_of_classify hclass]
      simp
    · exact absurd (hexisting ▸ h.mem_factLines_of_describes_first hclass hfact hdescribe hfirst)
        hnot

end ClosesIn

/-! ## Class blocks -/

/-- The last line of a comment is kept under a key: a class or namespace line only when it is the
first, a property line only when the merge keeps it, any other line always. -/
structure KeepsUnder (facts : List PropertyFact) (earlier : List Text) (last key : Text) :
    Prop where
  classify_eq : classify last = some (key, last)
  identity : key = "@class".toList ∨ key = "@namespace".toList →
    linesUnder key (earlier.filterMap classify) = []
  property : key = "@property".toList →
    KeepsProperty facts (linesUnder key (earlier.filterMap classify)) last

/-- The last line of the comment holds text beside the closing delimiter, and is kept as it is. -/
def KeepsClosingLine (facts : List PropertyFact) (doc : Text) : Prop :=
  ∃ earlier last key, doc.lines = earlier ++ [last] ∧ KeepsUnder facts earlier last key

namespace ClassBlock

variable {b : ClassBlock} {doc last : Text} {earlier : List Text} {facts : List PropertyFact}

theorem infix_identityLine_iff (h : ClosesIn doc earlier last)
    (hexisting : b.existingGroups = .ofBlock doc) {tag name : Text}
    (htag : '/' ∉ tag) (hname : '/' ∉ name) :
    commentEnd <:+: identityLine b.existingGroups tag name ↔
      classify last = some (tag, last) ∧ linesUnder tag (earlier.filterMap classify) = [] := by
  rw [← h.head?_infix_iff tag, identityLine, hexisting]
  cases hhead : ((TagGroups.ofBlock doc).lines tag).head? with
  | some line => simp
  | none =>
      have hslash : '/' ∉ tagLine tag (braced name) := by simp [tagLine, braced, htag, hname]
      have hnot : ¬ commentEnd <:+: tagLine tag (braced name) := fun hends =>
        hslash (slash_mem_of_isInfix_commentEnd hends)
      simp [hnot]

theorem exists_infix_groups_iff (h : ClosesIn doc earlier last)
    (hexisting : b.existingGroups = .ofBlock doc) (hdesc : b.IsDescribed) (hmixins : b.mixins = [])
    (hname : '/' ∉ b.name) (hhome : '/' ∉ b.home) (hdiscovery : b.discovery = .discovered facts)
    (hfacts : ∀ fact ∈ facts, ¬ commentEnd <:+: fact.render) (key : Text) :
    (∃ line ∈ b.groups.lines key, commentEnd <:+: line) ↔ KeepsUnder facts earlier last key := by
  obtain ⟨width, hclass, hnamespace⟩ := b.exists_lines_groups_identity
  by_cases hkey : key ∈ managedKeys
  · simp only [managedKeys, List.mem_cons, List.not_mem_nil, or_false] at hkey
    rcases hkey with rfl | rfl | rfl | rfl
    · rw [lines_groups_property, hexisting, hdiscovery, h.exists_infix_reconcile_iff hfacts]
      exact ⟨fun hk => ⟨hk.1, fun heq => absurd heq (by decide), fun _ => hk.2⟩,
        fun hk => ⟨hk.classify_eq, hk.property rfl⟩⟩
    · rw [hclass]
      simp only [List.mem_singleton, exists_eq_left, commentEnd_infix_alignLine_iff]
      rw [infix_identityLine_iff h hexisting (by decide) hname]
      exact ⟨fun hk => ⟨hk.1, fun _ => hk.2, fun heq => absurd heq (by decide)⟩,
        fun hk => ⟨hk.classify_eq, hk.identity (Or.inl rfl)⟩⟩
    · rw [hnamespace]
      simp only [List.mem_singleton, exists_eq_left, commentEnd_infix_alignLine_iff]
      rw [infix_identityLine_iff h hexisting (by decide) hhome]
      exact ⟨fun hk => ⟨hk.1, fun _ => hk.2, fun heq => absurd heq (by decide)⟩,
        fun hk => ⟨hk.classify_eq, hk.identity (Or.inr rfl)⟩⟩
    · have hmissing : b.missingMixins = [] := by
        simp [missingMixins, hmixins, MixinRequirement.resolve]
      rw [lines_groups_mixin, hmissing, List.append_nil, hexisting]
      simp only [List.mem_eraseDups]
      rw [h.exists_infix_iff]
      exact ⟨fun hk => ⟨hk, fun heq => absurd heq (by decide), fun heq => absurd heq (by decide)⟩,
        fun hk => hk.classify_eq⟩
  · rw [lines_groups_of_isDescribed hdesc hkey, hexisting, h.exists_infix_iff]
    simp only [managedKeys, List.mem_cons, List.not_mem_nil, or_false, not_or] at hkey
    refine ⟨fun hk => ⟨hk, ?_, fun heq => absurd heq hkey.1⟩, fun hk => hk.classify_eq⟩
    rintro (heq | heq)
    · exact absurd heq hkey.2.1
    · exact absurd heq hkey.2.2.1

end ClassBlock

namespace ClassDecl

theorem slash_not_mem_of_isPathChar {text : Text} (h : ∀ c ∈ text, isPathChar c = true) :
    '/' ∉ text := fun hmem => absurd (h '/' hmem) (by decide)

theorem commentEnd_not_infix_render {fact : PropertyFact} (h : fact.IsDeclared) :
    ¬ commentEnd <:+: fact.render := by
  have hname : '/' ∉ fact.name := fun hmem => absurd (h.name '/' hmem) (by decide)
  have htype : '/' ∉ fact.type := fun hmem => absurd (h.type '/' hmem) (by decide)
  have hslash : '/' ∉ fact.render := by
    simp [PropertyFact.render, h.sourceLine_eq, tagLine, hname, htype]
  exact fun hends => hslash (slash_mem_of_isInfix_commentEnd hends)

/-- **When the block of a plain class is one comment.**  The block of a class that was read with a
doc comment opens once and closes once, except exactly when the last line of that comment holds text
beside its closing delimiter and the block keeps it. -/
theorem isSingleComment_plain_block_iff (path source doc : Text) (decl : ClassDecl)
    (settings : Settings) (hread : read path source = .ok decl) (hdoc : decl.doc = some doc) :
    IsSingleComment (decl.classBlock .plain settings (.discovered decl.properties)).render ↔
      ¬ KeepsClosingLine decl.properties doc := by
  obtain ⟨earlier, last, hcloses⟩ := (isDocComment_of_read hread hdoc).exists_closesIn
  have hname : '/' ∉ decl.name := fun hmem =>
    absurd (isIdentifierChar_of_mem_name hread '/' hmem) (by decide)
  have hhome : '/' ∉ decl.home := slash_not_mem_of_isPathChar (isPathChar_of_mem_home hread)
  have hgroups := ClassBlock.exists_infix_groups_iff
    (b := decl.classBlock .plain settings (.discovered decl.properties)) hcloses
    (by rw [ClassBlock.existingGroups, classBlock, hdoc, Option.getD_some]) (Or.inr rfl) rfl hname
    hhome rfl fun fact hfact =>
      commentEnd_not_infix_render (isDeclared_of_mem_properties hread fact hfact)
  rw [ClassBlock.render, TagGroups.isSingleComment_assemble_iff]
  constructor
  · rintro hlines ⟨earlier', last', key, heq, hkeeps⟩
    obtain ⟨rfl, hlast⟩ := List.append_inj' (hcloses.lines_eq.symm.trans heq) rfl
    obtain rfl := List.singleton_inj.1 hlast
    obtain ⟨line, hline, hends⟩ := (hgroups key).2 hkeeps
    exact hlines key line hline hends
  · intro hnot key line hline hends
    exact hnot ⟨earlier, last, key, hcloses.lines_eq, (hgroups key).1 ⟨line, hline, hends⟩⟩

/-- A comment that names the class once more on its closing line; that line is dropped. -/
def repeatedName : Text :=
  "<?php\nnamespace A;\n/**\n * Foo\n * @class {X}\n * @class {X} */\nclass X\n".toList

theorem isSingleComment_repeatedName : ∃ decl doc,
    read "X.php".toList repeatedName = .ok decl ∧ decl.doc = some doc ∧
    doc.lines.getLast? = some " * @class {X} */".toList ∧ ∀ settings,
      IsSingleComment (decl.classBlock .plain settings (.discovered decl.properties)).render := by
  have hdoc : (read "X.php".toList repeatedName).map ClassDecl.doc =
      .ok (some "/**\n * Foo\n * @class {X}\n * @class {X} */".toList) := by rfl
  cases hread : read "X.php".toList repeatedName with
  | error fault =>
      rw [hread, Except.map] at hdoc
      contradiction
  | ok decl =>
      rw [hread, Except.map, Except.ok.injEq] at hdoc
      refine ⟨decl, _, rfl, hdoc, by decide, fun settings => ?_⟩
      rw [isSingleComment_plain_block_iff _ _ _ _ settings hread hdoc]
      rintro ⟨earlier, last, key, hlines, hkeeps⟩
      have hparts : ["/**".toList, " * Foo".toList, " * @class {X}".toList] ++
          [" * @class {X} */".toList] = earlier ++ [last] := by
        rw [← hlines]
        decide
      obtain ⟨rfl, hlast⟩ := List.append_inj' hparts rfl
      obtain rfl := List.singleton_inj.1 hlast
      have hclass : classify " * @class {X} */".toList =
          some ("@class".toList, " * @class {X} */".toList) := by decide
      have hkey := hclass.symm.trans hkeeps.classify_eq
      rw [Option.some.injEq, Prod.mk.injEq] at hkey
      obtain ⟨rfl, -⟩ := hkey
      exact absurd (hkeeps.identity (Or.inl rfl)) (by decide)

/-- A comment with free text on its closing line. -/
def textOnClosingLine : Text :=
  "<?php\nnamespace A;\n/**\n * Foo */\nclass X\n".toList

/-- The block of that class closes after its first line of text. -/
theorem textOnClosingLine_closes_early : ∃ decl,
    read "X.php".toList textOnClosingLine = .ok decl ∧
    decl.doc = some "/**\n * Foo */".toList ∧ ∀ settings,
      (decl.classBlock .plain settings (.discovered decl.properties)).render =
        "/**\n * Foo */\n *\n * @class     {X}\n * @namespace {A}\n */".toList ∧
      ¬ IsSingleComment
        (decl.classBlock .plain settings (.discovered decl.properties)).render := by
  have hparts : (read "X.php".toList textOnClosingLine).map
      (fun decl => (decl.name, decl.home, decl.doc, decl.properties)) =
      .ok ("X".toList, "A".toList, some "/**\n * Foo */".toList, []) := by rfl
  cases hread : read "X.php".toList textOnClosingLine with
  | error fault =>
      rw [hread, Except.map] at hparts
      contradiction
  | ok decl =>
      rw [hread, Except.map, Except.ok.injEq, Prod.mk.injEq, Prod.mk.injEq, Prod.mk.injEq] at hparts
      obtain ⟨hname, hhome, hdoc, hproperties⟩ := hparts
      refine ⟨decl, rfl, hdoc, fun settings => ?_⟩
      have hrender : (decl.classBlock .plain settings (.discovered decl.properties)).render =
          "/**\n * Foo */\n *\n * @class     {X}\n * @namespace {A}\n */".toList := by
        rw [classBlock, hname, hhome, hdoc, hproperties]
        decide
      refine ⟨hrender, fun hsingle => ?_⟩
      have hrest := hsingle.closes_once "/**\n * Foo ".toList
        "\n *\n * @class     {X}\n * @namespace {A}\n */".toList hrender
      exact absurd hrest (by decide)

end ClassDecl
end PhpDoc
