import Mathlib
import PhpDoc.Proofs.Rerendering

/-!
# How often a required mixin is named

A class block must name each of its required mixins once.  Lines that name a mixin come from three
places: the written `@mixin` lines, of which equal ones are kept once; the required targets, which
are added when no written line names them; and lines of other groups that happen to read as `@mixin`
lines.  A target is named once exactly when these three add up to one.  Two spellings of a target
among the written lines, or a target that is required twice, make it appear twice.
-/

namespace PhpDoc

/-! ## What is read in an assembled block -/

/-- The lines under a key that are read in a line, which need not be a single one. -/
def readUnder (key line : Text) : List Text :=
  linesUnder key ((Text.lines (line ++ ['\n'])).filterMap classify)

theorem readUnder_of_not_mem {line : Text} (h : '\n' ∉ line) (key : Text) :
    readUnder key line = linesUnder key (classify (Text.dropReturn line)).toList := by
  rw [readUnder, Text.lines_append_newline h]
  cases hclass : classify (Text.dropReturn line) <;> simp [hclass, Text.lines]

theorem readUnder_of_readsBack {key line : Text} (h : ReadsBack key line) (k : Text) :
    readUnder k line = if key = k then [Text.dropReturn line] else [] := by
  rw [readUnder_of_not_mem h.newline_not_mem, h.classify_eq]
  exact linesUnder_singleton k key _

theorem Text.lines_joinLines_concat (front : List Text) (last : Text) :
    lines (joinLines (front ++ [last])) =
      (front.flatMap fun line => lines (line ++ ['\n'])) ++ lines last := by
  induction front with
  | nil => simp
  | cons line front ih =>
      rw [List.cons_append, joinLines_cons (by simp), lines_append_newline_append, ih,
        List.flatMap_cons, List.append_assoc]

namespace TagGroups

/-- What is read under a key in an assembled block, whatever its lines are: each line of each
written key is read for itself. -/
theorem lines_ofBlock_assemble_eq (g : TagGroups) (order : GroupOrder) (key : Text) :
    (ofBlock (g.assemble order)).lines key =
      (g.writtenKeys order).flatMap fun k => (g.lines k).flatMap (readUnder key) := by
  have hseparator : readUnder key separatorLine = [] := by
    rw [readUnder_of_not_mem (by decide)]
    rfl
  -- separators read as nothing, so a reader that skips them reads the same
  let read : Text → Option (List Text) := fun line =>
    if line = separatorLine then none else some (readUnder key line)
  have hread : ∀ ls : List Text, ls.flatMap (readUnder key) = (ls.filterMap read).flatMap id := by
    intro ls
    induction ls with
    | nil => rfl
    | cons line ls ih =>
        by_cases hline : line = separatorLine
        · simp [read, hline, hseparator, ih]
        · simp [read, hline, ih]
  have hclosing : linesUnder key ((Text.lines closingLine).filterMap classify) = [] := rfl
  have hopening : readUnder key openingLine = [] := rfl
  have hunder : ∀ ls : List Text,
      linesUnder key ((ls.flatMap fun line => Text.lines (line ++ ['\n'])).filterMap classify) =
        ls.flatMap (readUnder key) := by
    intro ls
    induction ls with
    | nil => rfl
    | cons line ls ih =>
        rw [List.flatMap_cons, List.filterMap_append, linesUnder_append, ih, List.flatMap_cons]
        rfl
  rw [lines_ofBlock, assemble, Text.lines_joinLines_concat, List.filterMap_append,
    linesUnder_append, hclosing, List.append_nil, hunder, List.flatMap_cons, hopening,
    List.nil_append, hread, filterMap_spaceOut read (if_pos rfl),
    filterMap_bodyLines read (if_pos rfl), List.flatMap_assoc]
  simp only [← hread]

end TagGroups

/-! ## Lines that name a target -/

/-- The line names the target: behind its keyword stands the same name, up to blanks around it and
backslashes in front of it. -/
def NamesMixin (line target : Text) : Prop :=
  mixinTarget? line = some (normalizeTarget target)

instance (line target : Text) : Decidable (NamesMixin line target) :=
  inferInstanceAs (Decidable (mixinTarget? line = some (normalizeTarget target)))

/-- Exactly one of the lines names the target. -/
def IsNamedOnce (lines : List Text) (target : Text) : Prop :=
  lines.countP (fun line => NamesMixin line target) = 1

theorem Text.trim_append_of_blank {blanks : Text} (h : ∀ c ∈ blanks, isBlank c = true)
    (text : Text) : trim (text ++ blanks) = trim text := by
  obtain ⟨front, hfront, htext⟩ := exists_blanks_append_trimStart text
  cases hstart : trimStart text with
  | nil =>
      rw [hstart, List.append_nil] at htext
      have hall : ∀ c ∈ text ++ blanks, isBlank c = true := by
        intro c hc
        rcases List.mem_append.1 hc with hc | hc
        · exact hfront c (htext ▸ hc)
        · exact h c hc
      rw [(trim_eq_nil_iff _).2 hall, (trim_eq_nil_iff _).2 fun c hc =>
        hall c (List.mem_append_left _ hc)]
  | cons c rest =>
      have hc := isBlank_eq_false_of_trimStart_eq_cons hstart
      rw [trim, trim, htext, List.append_assoc, trimStart_append_of_blank hfront,
        trimStart_append_of_blank hfront, hstart, List.cons_append,
        trimStart_cons_of_not_blank hc, trimStart_cons_of_not_blank hc, ← List.cons_append,
        trimEnd_append_of_blank h]

/-- What a line under the keyword names stands behind the keyword. -/
theorem TagParts.mixinTarget?_eq {line : Text} (parts : TagParts "@mixin".toList line) :
    mixinTarget? line = some (normalizeTarget parts.body) := by
  have hfront : ∀ c ∈ "@mixin".toList, c ∉ parts.indent ++ '*' :: parts.gap := by
    intro c hc hmem
    have hmark : isBlank c = false ∧ c ≠ '*' := by
      have hall : "@mixin".toList.all (fun c => !isBlank c && c != '*') = true := by decide
      simpa using List.all_eq_true.1 hall c hc
    rcases List.mem_append.1 hmem with hmem | hmem
    · exact absurd (hmark.1.symm.trans (parts.indent_blank c hmem)) (by decide)
    · rcases List.mem_cons.1 hmem with rfl | hmem
      · exact hmark.2 rfl
      · exact absurd (hmark.1.symm.trans (parts.gap_blank c hmem)) (by decide)
  have hline : line = (parts.indent ++ '*' :: parts.gap) ++ ("@mixin".toList ++ parts.body) :=
    parts.line_eq.trans (by simp)
  have hcut : Text.cut? "@mixin".toList line = some (parts.indent ++ '*' :: parts.gap, parts.body) :=
    calc Text.cut? "@mixin".toList line
      _ = Text.cut? "@mixin".toList
            ((parts.indent ++ '*' :: parts.gap) ++ ("@mixin".toList ++ parts.body)) :=
          congrArg _ hline
      _ = some ((parts.indent ++ '*' :: parts.gap) ++ [], parts.body) := by
          rw [Text.cut?_append_of_disjoint (by decide) hfront]
          rfl
      _ = some (parts.indent ++ '*' :: parts.gap, parts.body) := by rw [List.append_nil]
  rw [mixinTarget?, hcut]
  rfl

/-- A carriage return at the end of a mixin line does not matter. -/
theorem mixinTarget?_dropReturn {line : Text} (h : keyword? line = some "@mixin".toList) :
    mixinTarget? (Text.dropReturn line) = mixinTarget? line := by
  rcases Text.dropReturn_cases line with ⟨-, hsame⟩ | hreturn
  · rw [hsame]
  · obtain ⟨parts⟩ := nonempty_tagParts (keyword?_dropReturn line ▸ h)
    have hbody : (parts.body ++ ['\r']).head?.all isBlank = true := by
      have hblank := parts.body_blank
      cases hbody : parts.body with
      | nil => rfl
      | cons c body => simpa [hbody] using hblank
    have hline : line = parts.front ++ (parts.body ++ ['\r']) := by
      rw [← List.append_assoc, ← parts.eq_front_append, ← hreturn]
    have htarget : mixinTarget? line = some (normalizeTarget (parts.body ++ ['\r'])) :=
      (congrArg _ hline).trans (parts.withBody _ hbody).mixinTarget?_eq
    have hblank : ∀ c ∈ ['\r'], isBlank c = true := by simp [isBlank]
    rw [parts.mixinTarget?_eq, htarget, normalizeTarget, normalizeTarget,
      Text.trim_append_of_blank hblank]

namespace ClassBlock

variable {b : ClassBlock} {target : Text}

/-! ## Where the lines come from -/

/-- The lines that are read as `@mixin` lines in the finished block although they were written under
another key. -/
def strayMixins (b : ClassBlock) : List Text :=
  ((b.groups.writtenKeys classOrder).filter (· != "@mixin".toList)).flatMap fun key =>
    (b.groups.lines key).flatMap (readUnder "@mixin".toList)

/-- What is read as a mixin was written as one, or strayed from another group. -/
theorem countP_lines_render (h : ∀ target ∈ b.mixins, '\n' ∉ target) (target : Text) :
    ((TagGroups.ofBlock b.render).lines "@mixin".toList).countP (fun line => NamesMixin line target) =
      (b.groups.lines "@mixin".toList).countP (fun line => NamesMixin line target) +
        b.strayMixins.countP fun line => NamesMixin line target := by
  have hnodup := b.groups.nodup_writtenKeys nodup_classOrder
  have hkey : "@mixin".toList ∈ b.groups.writtenKeys classOrder :=
    List.mem_append_left _ (by decide)
  have hperm : (b.groups.writtenKeys classOrder).Perm ("@mixin".toList ::
      (b.groups.writtenKeys classOrder).filter (· != "@mixin".toList)) := by
    rw [← hnodup.erase_eq_filter]
    exact List.perm_cons_erase hkey
  have hown : (b.groups.lines "@mixin".toList).flatMap (readUnder "@mixin".toList) =
      (b.groups.lines "@mixin".toList).map Text.dropReturn := by
    rw [List.map_eq_flatMap]
    refine List.flatMap_congr fun line hline => ?_
    rw [readUnder_of_readsBack (readsBack_of_mem_mixin h line hline), if_pos rfl]
  rw [render, TagGroups.lines_ofBlock_assemble_eq, (hperm.flatMap_right _).countP_eq,
    List.flatMap_cons, List.countP_append, hown, List.countP_map, strayMixins]
  refine congrArg (· + _) (List.countP_congr fun line hline => ?_)
  have hback := readsBack_of_mem_mixin h line hline
  have hkeyword : keyword? line = some "@mixin".toList := by
    rw [← keyword?_dropReturn]
    exact keyword?_of_classify hback.classify_eq (by decide)
  rw [Function.comp_apply, decide_eq_true_eq, decide_eq_true_eq, NamesMixin, NamesMixin,
    mixinTarget?_dropReturn hkeyword]

/-- How often a target is required, whatever its spelling. -/
def copies (b : ClassBlock) (target : Text) : Nat :=
  b.mixins.countP fun other => normalizeTarget other = normalizeTarget target

/-- The written lines that name a target, each once. -/
def namings (b : ClassBlock) (target : Text) : Nat :=
  (b.existingGroups.lines "@mixin".toList).eraseDups.countP fun line => NamesMixin line target

theorem namings_eq_zero_iff :
    b.namings target = 0 ↔
      ∀ line ∈ b.existingGroups.lines "@mixin".toList, ¬ NamesMixin line target := by
  simp [namings, List.countP_eq_zero]

/-- A target is added as often as it is required, but only when no written line names it. -/
theorem countP_missingMixins (b : ClassBlock) (target : Text) :
    b.missingMixins.countP (fun line => NamesMixin line target) =
      if b.namings target = 0 then b.copies target else 0 := by
  have hnamed : (namedTargets (b.existingGroups.lines "@mixin".toList).eraseDups).contains
      (normalizeTarget target) = true ↔ b.namings target ≠ 0 := by
    rw [Ne, namings_eq_zero_iff]
    simp [namedTargets, NamesMixin]
  have hline : ∀ other, NamesMixin (tagLine "@mixin".toList other) target ↔
      normalizeTarget other = normalizeTarget target := by
    intro other
    rw [NamesMixin, mixinTarget?_tagLine, Option.some.injEq]
  rw [missingMixins_eq, List.countP_map, List.countP_filter, copies]
  split_ifs with hzero
  · refine List.countP_congr fun other _ => ?_
    simp only [Function.comp_apply, hline, Bool.and_eq_true, decide_eq_true_eq, Bool.not_eq_true']
    refine ⟨And.left, fun heq => ⟨heq, ?_⟩⟩
    rw [heq]
    exact Bool.eq_false_iff.2 fun hcontains => hnamed.1 hcontains hzero
  · rw [List.countP_eq_zero]
    intro other _
    simp only [Function.comp_apply, hline, Bool.and_eq_true, decide_eq_true_eq, Bool.not_eq_true',
      not_and]
    intro heq
    rw [heq, hnamed.2 hzero]
    decide

/-- A target has one naming at most exactly when all written lines that name it are equal. -/
theorem namings_le_one_iff :
    b.namings target ≤ 1 ↔ ∀ line ∈ b.existingGroups.lines "@mixin".toList,
      ∀ other ∈ b.existingGroups.lines "@mixin".toList,
        NamesMixin line target → NamesMixin other target → line = other := by
  have hnodup : ((b.existingGroups.lines "@mixin".toList).eraseDups.filter
      fun line => NamesMixin line target).Nodup := (nodup_eraseDups _).filter _
  have hmem : ∀ line, line ∈ (b.existingGroups.lines "@mixin".toList).eraseDups.filter
      (fun line => NamesMixin line target) ↔
      line ∈ b.existingGroups.lines "@mixin".toList ∧ NamesMixin line target := by
    simp [List.mem_eraseDups]
  rw [namings, List.countP_eq_length_filter, ← List.toFinset_card_of_nodup hnodup,
    Finset.card_le_one]
  simp only [List.mem_toFinset, hmem, and_imp]
  exact ⟨fun h line hline other hother hnames => h line hline hnames other hother,
    fun h line hline hnames other hother => h line hline other hother hnames⟩

/-! ## Stray lines -/

/-- A line that starts with a star is never an opening line. -/
theorem key_of_classify_star {rest key kept : Text}
    (h : classify (" *".toList ++ rest) = some (key, kept)) :
    keyword? (" *".toList ++ rest) = some key ∨ key = commentKey := by
  cases hkey : keyword? (" *".toList ++ rest) with
  | some k =>
      rw [classify_of_keyword? hkey, Option.some.injEq, Prod.mk.injEq] at h
      exact Or.inl (congrArg some h.1)
  | none =>
      have hopen : Text.after? openingLine (Text.trim (" *".toList ++ rest)) = none := by
        rw [Text.after?_eq_none_iff]
        intro hprefix
        have hstar : openingLine <+: '*' :: rest :=
          hprefix.trans (Text.trimEnd_isPrefix ('*' :: rest))
        simp [openingLine] at hstar
      simp only [classify, hkey, hopen] at h
      split at h
      · contradiction
      · simp only [Option.some.injEq, Prod.mk.injEq] at h
        exact Or.inr h.1.symm

/-- The block has a description, or its placeholder is one line that is no `@mixin` line. -/
def IsDescribedPlainly (b : ClassBlock) : Prop :=
  b.IsDescribed ∨ '\n' ∉ b.placeholder ∧
    keyword? (" * ".toList ++ b.placeholder) ≠ some "@mixin".toList

theorem readUnder_placeholder (h : '\n' ∉ b.placeholder)
    (hkey : keyword? (" * ".toList ++ b.placeholder) ≠ some "@mixin".toList) :
    readUnder "@mixin".toList (" * ".toList ++ b.placeholder) = [] := by
  have hnewline : '\n' ∉ " * ".toList ++ b.placeholder := by simp [h]
  have hdrop : Text.dropReturn (" * ".toList ++ b.placeholder) =
      " *".toList ++ Text.dropReturn (' ' :: b.placeholder) := by
    change Text.dropReturn (' ' :: '*' :: ' ' :: b.placeholder) = _
    rw [Text.dropReturn_cons (by simp), Text.dropReturn_cons (by simp)]
    rfl
  rw [readUnder_of_not_mem hnewline]
  cases hclass : classify (Text.dropReturn (" * ".toList ++ b.placeholder)) with
  | none => rfl
  | some pair =>
      obtain ⟨key, kept⟩ := pair
      have hother : key ≠ "@mixin".toList := by
        rintro rfl
        rw [hdrop] at hclass
        rcases key_of_classify_star hclass with hkeyword | hcomment
        · rw [← hdrop, keyword?_dropReturn] at hkeyword
          exact hkey hkeyword
        · exact absurd hcomment (by decide)
      rw [Option.toList_some, linesUnder_singleton, if_neg hother]

/-- No line strays when everything that is written into the block stays on its line. -/
theorem strayMixins_eq_nil (h : b.IsOneLined) (hdesc : b.IsDescribedPlainly) :
    b.strayMixins = [] := by
  rw [strayMixins, List.flatMap_eq_nil_iff]
  intro key hkey
  have hother : key ≠ "@mixin".toList := by simpa using (List.mem_filter.1 hkey).2
  rw [List.flatMap_eq_nil_iff]
  intro line hline
  by_cases hcomment : key = commentKey
  · by_cases hdescribed : b.IsDescribed
    · rw [hcomment] at hline
      rw [readUnder_of_readsBack (readsBack_comment_of_isDescribed h hdescribed line hline),
        if_neg (by decide)]
    · obtain ⟨hnewline, hplain⟩ := hdesc.resolve_left hdescribed
      rw [hcomment, lines_groups_comment, described_eq_set hdescribed, TagGroups.lines_set_self,
        List.mem_singleton] at hline
      rw [hline]
      exact readUnder_placeholder hnewline hplain
  · rw [readUnder_of_readsBack (readsBack_of_mem_groups h hcomment hline), if_neg hother]

/-! ## Once -/

/-- A required mixin is named once in the finished block exactly when no line of another group names
it, no two different written lines name it, and it is required once unless a written line names it.
No line of another group names it when all that is written into the block stays on its line. -/
theorem isNamedOnce_render_iff (b : ClassBlock) (h : ∀ target ∈ b.mixins, '\n' ∉ target)
    (target : Text) (htarget : target ∈ b.mixins) :
    (IsNamedOnce ((TagGroups.ofBlock b.render).lines "@mixin".toList) target ↔
      (∀ line ∈ b.strayMixins, ¬ NamesMixin line target) ∧
      (∀ line ∈ b.existingGroups.lines "@mixin".toList,
        ∀ other ∈ b.existingGroups.lines "@mixin".toList,
          NamesMixin line target → NamesMixin other target → line = other) ∧
      ((∀ line ∈ b.existingGroups.lines "@mixin".toList, ¬ NamesMixin line target) →
        b.copies target = 1)) ∧
    (b.IsOneLined → b.IsDescribedPlainly → b.strayMixins = []) := by
  refine ⟨?_, strayMixins_eq_nil⟩
  have hrequired : 0 < b.copies target := List.countP_pos_iff.2 ⟨target, htarget, by simp⟩
  have hstray : (∀ line ∈ b.strayMixins, ¬ NamesMixin line target) ↔
      b.strayMixins.countP (fun line => NamesMixin line target) = 0 := by
    simp [List.countP_eq_zero]
  rw [IsNamedOnce, countP_lines_render h, lines_groups_mixin, List.countP_append,
    countP_missingMixins, ← namings, hstray, ← namings_le_one_iff, ← namings_eq_zero_iff]
  split_ifs with hzero <;> omega

/-- One of the two required mixins is written twice in the same words, and without the backslash
that the requirement has; the other is not written. -/
theorem sampleBlock_isNamedOnce :
    (∀ target ∈ sampleBlock.mixins, '\n' ∉ target) ∧
      sampleBlock.existingGroups.lines "@mixin".toList =
        [" * @mixin M".toList, " * @mixin M".toList] ∧
      IsNamedOnce ((TagGroups.ofBlock sampleBlock.render).lines "@mixin".toList) "\\M".toList ∧
      IsNamedOnce ((TagGroups.ofBlock sampleBlock.render).lines "@mixin".toList) "N".toList := by
  have htargets : ∀ target ∈ sampleBlock.mixins, '\n' ∉ target := by decide
  have hlines : sampleBlock.existingGroups.lines "@mixin".toList =
      [" * @mixin M".toList, " * @mixin M".toList] := by decide +kernel
  have hplain : sampleBlock.IsDescribedPlainly := Or.inl (Or.inr rfl)
  have hm := isNamedOnce_render_iff sampleBlock htargets "\\M".toList (by decide)
  have hn := isNamedOnce_render_iff sampleBlock htargets "N".toList (by decide)
  have hstray := hm.2 sampleBlock_isOneLined hplain
  rw [hlines, hstray] at hm hn
  exact ⟨htargets, hlines, hm.1.2 ⟨by simp, by decide, by decide⟩,
    hn.1.2 ⟨by simp, by decide, by decide⟩⟩

/-- A block without doc comment, for which a mixin is required twice. -/
def requiredTwice : ClassBlock where
  name := "X".toList
  home := "A".toList
  existing := none
  discovery := .discovered []
  mixins := ["Foo".toList, "Foo".toList]
  placeholder := []

/-- Its finished block names the mixin twice. -/
theorem requiredTwice_named_twice :
    (∀ target ∈ requiredTwice.mixins, '\n' ∉ target ∧ target.trim ≠ []) ∧
      requiredTwice.render =
        ("/**\n * @class     \x7bX\x7d\n * @namespace \x7bA\x7d\n *\n * @mixin Foo\n" ++
          " * @mixin Foo\n */").toList ∧
      ∃ target ∈ requiredTwice.mixins,
        ¬ IsNamedOnce ((TagGroups.ofBlock requiredTwice.render).lines "@mixin".toList) target := by
  have hlines : (TagGroups.ofBlock requiredTwice.render).lines "@mixin".toList =
      [" * @mixin Foo".toList, " * @mixin Foo".toList] := by decide +kernel
  refine ⟨by decide, by decide +kernel, "Foo".toList, by decide, ?_⟩
  rw [hlines, IsNamedOnce]
  decide

end ClassBlock

end PhpDoc
