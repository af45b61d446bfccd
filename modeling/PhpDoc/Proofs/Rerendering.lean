import Mathlib
import PhpDoc.Proofs.PropertyLines
import PhpDoc.Proofs.Survival
import PhpDoc.Source.Declarations

/-!
# Rendering a rendered block

A class block that was rendered once is rendered the same way again, if its property lines are typed
and its mixins, its description and its facts are what they claim to be.  Reading the rendered block
gives its groups back, and each step that completes the groups finds nothing left to do: properties
are merged, a description is there, the pair of class and namespace is aligned, and every mixin is
named.
-/

namespace PhpDoc

namespace ClassBlock

/-! ## Mixins -/

theorem mixinTarget?_tagLine (target : Text) :
    mixinTarget? (tagLine "@mixin".toList target) = some (normalizeTarget target) := by
  have hcut : Text.cut? "@mixin".toList (tagLine "@mixin".toList target) =
      some (" * ".toList, ' ' :: target) := rfl
  rw [mixinTarget?, hcut]
  rfl

/-- The targets that the lines of a block name. -/
def namedTargets (lines : List Text) : List Text :=
  lines.filterMap mixinTarget?

theorem missingMixins_eq (b : ClassBlock) :
    b.missingMixins = (b.mixins.filter fun target =>
      !(namedTargets (b.existingGroups.lines "@mixin".toList).eraseDups).contains
        (normalizeTarget target)).map (tagLine "@mixin".toList) := by
  rw [missingMixins, MixinRequirement.resolve, List.filter_map, List.map_map]
  rfl

theorem mem_missingMixins_iff {b : ClassBlock} {line : Text} :
    line ∈ b.missingMixins ↔ ∃ target ∈ b.mixins,
      normalizeTarget target ∉ namedTargets (b.existingGroups.lines "@mixin".toList).eraseDups ∧
      tagLine "@mixin".toList target = line := by
  rw [missingMixins_eq, List.mem_map]
  simp only [List.mem_filter, Bool.not_eq_true', ← Bool.not_eq_true, List.contains_iff_mem,
    and_assoc]

theorem nodup_eraseDups (lines : List Text) : lines.eraseDups.Nodup := by
  induction hlength : lines.length using Nat.strong_induction_on generalizing lines with
  | _ n ih =>
      cases lines with
      | nil => simp
      | cons line lines =>
          have hshorter : (lines.filter fun l => !l == line).length < n := by
            rw [← hlength, List.length_cons]
            exact Nat.lt_succ_of_le (List.length_filter_le _ _)
          rw [List.eraseDups_cons, List.nodup_cons, List.mem_eraseDups, List.mem_filter]
          exact ⟨fun hmem => by simp at hmem, ih _ hshorter _ rfl⟩

theorem tagLine_injective (tag : Text) : Function.Injective (tagLine tag) := by
  intro body body' h
  exact (List.cons.inj (List.append_cancel_left h)).2

/-- Mixin lines do not repeat. -/
theorem nodup_lines_groups_mixin {b : ClassBlock} (h : (b.mixins.map normalizeTarget).Nodup) :
    (b.groups.lines "@mixin".toList).Nodup := by
  rw [lines_groups_mixin, List.nodup_append]
  refine ⟨nodup_eraseDups _, ?_, ?_⟩
  · rw [missingMixins_eq]
    exact (h.of_map.filter _).map (tagLine_injective _)
  · rintro line hold _ hmissing rfl
    obtain ⟨target, -, hnot, rfl⟩ := mem_missingMixins_iff.1 hmissing
    exact hnot (List.mem_filterMap.2 ⟨_, hold, mixinTarget?_tagLine target⟩)

/-- A finished block names every mixin. -/
theorem normalizeTarget_mem_groups (b : ClassBlock) {target : Text} (h : target ∈ b.mixins) :
    normalizeTarget target ∈ namedTargets (b.groups.lines "@mixin".toList) := by
  rw [lines_groups_mixin, namedTargets, List.filterMap_append, List.mem_append]
  by_cases hnamed : normalizeTarget target ∈
      namedTargets (b.existingGroups.lines "@mixin".toList).eraseDups
  · exact Or.inl hnamed
  · refine Or.inr (List.mem_filterMap.2 ⟨tagLine "@mixin".toList target, ?_, ?_⟩)
    · exact mem_missingMixins_iff.2 ⟨target, h, hnamed, rfl⟩
    · exact mixinTarget?_tagLine target

/-! ## Descriptions -/

/-- A text that may stand as a description: one line with something in it that is no tag. -/
structure IsDescription (text : Text) : Prop where
  newline_not_mem : '\n' ∉ text
  last_ne_return : text.getLast? ≠ some '\r'
  not_blank : Text.trimEnd text ≠ []
  no_tag : (Text.trimStart text).head? ≠ some '@'

theorem keyword?_of_isDescription {text : Text} (h : IsDescription text) :
    keyword? (" * ".toList ++ text) = none := by
  have hstar : Text.after? ['*'] (Text.trimStart (" * ".toList ++ text)) = some (' ' :: text) := rfl
  have hblanks : Text.afterBlanks? (' ' :: text) = some (Text.trimStart text) := rfl
  rw [keyword?, hstar]
  simp only [Option.bind_eq_bind, Option.bind_some, hblanks]
  split
  · next c rest heq => exact absurd (by rw [heq]; rfl) h.no_tag
  · rfl

theorem getLast?_description {text : Text} (h : IsDescription text) :
    (" * ".toList ++ text).getLast? ≠ some '\r' := by
  have hne : text ≠ [] := by
    rintro rfl
    exact h.not_blank rfl
  rw [List.getLast?_append_of_ne_nil _ hne]
  exact h.last_ne_return

theorem readsBack_description {text : Text} (h : IsDescription text) :
    ReadsBack commentKey (" * ".toList ++ text) := by
  refine ⟨by simp [h.newline_not_mem], ?_⟩
  rw [Text.dropReturn_eq_self (getLast?_description h)]
  exact classify_remark h.not_blank (keyword?_of_isDescription h)

/-! ## All lines of a block -/

/-- A property of lines that alignment keeps holds for all lines of a finished block if it holds for
those that stand there and for those that may be added. -/
theorem forall_mem_groups {b : ClassBlock} {P : Text → Prop}
    (halign : ∀ width line, P line → P (alignLine width line))
    (hexisting : ∀ key, ∀ line ∈ b.existingGroups.lines key, P line)
    (hfacts : ∀ facts, b.discovery = .discovered facts → ∀ fact ∈ facts, P fact.render)
    (hname : P (tagLine "@class".toList (braced b.name)))
    (hhome : P (tagLine "@namespace".toList (braced b.home)))
    (hmixins : ∀ target ∈ b.mixins, P (tagLine "@mixin".toList target))
    (hplaceholder : b.placeholder ≠ [] → P (" * ".toList ++ b.placeholder)) {key line : Text}
    (hline : line ∈ b.groups.lines key) : P line := by
  have hidentity : ∀ {tag name : Text}, P (tagLine tag (braced name)) →
      P (identityLine b.existingGroups tag name) := by
    intro tag name hname
    rw [identityLine]
    cases hhead : (b.existingGroups.lines tag).head? with
    | some line => exact hexisting tag line (List.mem_of_mem_head? hhead)
    | none => exact hname
  by_cases hkey : key ∈ managedKeys
  · obtain ⟨width, hclass, hnamespace⟩ := b.exists_lines_groups_identity
    simp only [managedKeys, List.mem_cons, List.not_mem_nil, or_false] at hkey
    rcases hkey with rfl | rfl | rfl | rfl
    · rw [lines_groups_property] at hline
      rcases mem_reconcile hline with hold | ⟨facts, width, l, hdiscovery, rfl, hl⟩
      · exact hexisting _ line hold
      · refine halign width l ?_
        rcases hl with hold | ⟨fact, hfact, rfl⟩
        · exact hexisting _ l hold
        · exact hfacts facts hdiscovery fact hfact
    · rw [hclass, List.mem_singleton] at hline
      exact hline ▸ halign width _ (hidentity hname)
    · rw [hnamespace, List.mem_singleton] at hline
      exact hline ▸ halign width _ (hidentity hhome)
    · rw [lines_groups_mixin, List.mem_append, List.mem_eraseDups] at hline
      rcases hline with hold | hnew
      · exact hexisting _ line hold
      · obtain ⟨target, htarget, rfl⟩ := mem_missingMixins hnew
        exact hmixins target htarget
  · by_cases hdesc : b.IsDescribed
    · rw [lines_groups_of_isDescribed hdesc hkey] at hline
      exact hexisting key line hline
    · by_cases hcomment : key = commentKey
      · rw [hcomment, lines_groups_comment, described_eq_set hdesc, TagGroups.lines_set_self,
          List.mem_singleton] at hline
        exact hline ▸ hplaceholder fun hnone => hdesc (Or.inr hnone)
      · rw [b.lines_groups_of_not_managed hkey hcomment] at hline
        exact hexisting key line hline

/-! ## Stable blocks -/

/-- What a class block needs to be rendered the same way twice. -/
structure IsStable (b : ClassBlock) : Prop where
  existing : ∀ line ∈ (b.existing.getD []).lines, line.getLast? ≠ some '\r'
  name : '\n' ∉ b.name
  home : '\n' ∉ b.home
  properties : ∀ facts, b.discovery = .discovered facts →
    AreTyped (b.existingGroups.lines "@property".toList) ∧ ∀ fact ∈ facts, fact.IsTyped
  mixins : ∀ target ∈ b.mixins, '\n' ∉ target ∧ target.getLast? ≠ some '\r'
  distinct : (b.mixins.map normalizeTarget).Nodup
  description : b.placeholder = [] ∨ IsDescription b.placeholder

theorem IsStable.isOneLined {b : ClassBlock} (h : b.IsStable) : b.IsOneLined where
  existing := h.existing
  name := h.name
  home := h.home
  facts := by
    intro facts hfacts fact hfact
    have htyped := (h.properties facts hfacts).2 fact hfact
    refine ⟨htyped.sourceLine_eq, fun hmem => ?_, fun hmem => ?_⟩
    · exact absurd (htyped.type.not_blank _ hmem) (by decide)
    · exact absurd (isIdentifierChar_of_mem htyped.name _ hmem) (by decide)
  mixins := fun target htarget => (h.mixins target htarget).1

theorem IsStable.lines_comment_cases {b : ClassBlock} (h : b.IsStable) :
    b.groups.lines commentKey = b.existingGroups.lines commentKey ∨
      b.groups.lines commentKey = [" * ".toList ++ b.placeholder] ∧ IsDescription b.placeholder := by
  by_cases hdesc : b.IsDescribed
  · exact Or.inl (lines_groups_of_isDescribed hdesc (by decide))
  · refine Or.inr ⟨?_, h.description.resolve_left fun hnone => hdesc (Or.inr hnone)⟩
    rw [lines_groups_comment, described_eq_set hdesc, TagGroups.lines_set_self]

theorem IsStable.allReadBack {b : ClassBlock} (h : b.IsStable) : b.groups.AllReadBack := by
  refine allReadBack_groups h.isOneLined fun line hline => ?_
  rcases h.lines_comment_cases with hold | ⟨hnew, hdescription⟩
  · rw [hold] at hline
    exact TagGroups.allReadBack_ofBlock h.existing commentKey line hline
  · rw [hnew, List.mem_singleton] at hline
    rw [hline]
    exact readsBack_description hdescription

theorem getLast?_tagLine {tag body : Text} (hbody : body.getLast? ≠ some '\r') :
    (tagLine tag body).getLast? ≠ some '\r' := by
  have hspace : ([' '] ++ body).getLast? ≠ some '\r' := by
    cases body with
    | nil => decide
    | cons c body => rwa [List.getLast?_append_of_ne_nil _ (List.cons_ne_nil _ _)]
  have hline : tagLine tag body = (" * ".toList ++ tag) ++ ([' '] ++ body) := by simp [tagLine]
  rw [hline, List.getLast?_append_of_ne_nil _ (by simp)]
  exact hspace

theorem getLast?_render {fact : PropertyFact} (h : fact.IsTyped) :
    fact.render.getLast? ≠ some '\r' := by
  rw [PropertyFact.render, h.sourceLine_eq, Option.getD_none]
  have hne : fact.name ≠ [] := by
    intro hnil
    have hname := h.name
    rw [hnil] at hname
    contradiction
  refine getLast?_tagLine fun hlast => ?_
  rw [List.getLast?_append_of_ne_nil _ (List.cons_ne_nil _ _)] at hlast
  have hmem : '\r' ∈ fact.name := by
    have hsplit : ' ' :: '$' :: fact.name = [' ', '$'] ++ fact.name := rfl
    rw [hsplit, List.getLast?_append_of_ne_nil _ hne] at hlast
    exact List.mem_of_mem_getLast? hlast
  exact absurd (isIdentifierChar_of_mem h.name _ hmem) (by decide)

/-- No line of a stable block ends in a carriage return. -/
theorem IsStable.getLast?_ne_return {b : ClassBlock} (h : b.IsStable) {key line : Text}
    (hline : line ∈ b.groups.lines key) : line.getLast? ≠ some '\r' := by
  have hbraced : ∀ name : Text, (braced name).getLast? ≠ some '\r' := fun name => by
    rw [braced, List.getLast?_concat]
    decide
  refine forall_mem_groups (P := fun line => line.getLast? ≠ some '\r') (fun width line hlast => ?_)
    (fun key line hold => getLast?_ne_return_of_mem_existing h.existing hold)
    (fun facts hfacts fact hfact => getLast?_render ((h.properties facts hfacts).2 fact hfact))
    (getLast?_tagLine (hbraced _)) (getLast?_tagLine (hbraced _))
    (fun target htarget => getLast?_tagLine (h.mixins target htarget).2)
    (fun hplaceholder => getLast?_description (h.description.resolve_left hplaceholder)) hline
  rwa [getLast?_alignLine]

/-! ## Rendering again -/

/-- The block whose existing comment is the rendered one. -/
def again (b : ClassBlock) (newline : Text) : ClassBlock :=
  { b with existing := some (b.render.withNewlines newline) }

/-- A stable block has no carriage return in front of a line feed. -/
theorem IsStable.not_infix_render {b : ClassBlock} (h : b.IsStable) :
    ¬ ['\r', '\n'] <:+: b.render := by
  rw [render, TagGroups.assemble]
  refine Text.not_infix_joinLines fun line hline => ?_
  simp only [List.cons_append, List.mem_cons, List.mem_append, List.not_mem_nil, or_false] at hline
  rcases hline with rfl | hline | rfl
  · decide
  · rcases mem_of_mem_spaceOut hline with rfl | hline
    · decide
    · rcases TagGroups.mem_bodyLines hline with rfl | ⟨key, hline⟩
      · decide
      · exact ⟨(h.allReadBack key line hline).newline_not_mem, h.getLast?_ne_return hline⟩
  · decide

theorem IsStable.lines_withNewlines {b : ClassBlock} (h : b.IsStable) {newline : Text}
    (hnewline : newline = ['\n'] ∨ newline = ['\r', '\n']) :
    (b.render.withNewlines newline).lines = b.render.lines := by
  rcases hnewline with rfl | rfl
  · rw [Text.withNewlines_newline]
  · exact Text.lines_withNewlines_return h.not_infix_render

theorem IsStable.existingGroups_again {b : ClassBlock} (h : b.IsStable) {newline : Text}
    (hnewline : newline = ['\n'] ∨ newline = ['\r', '\n']) :
    (b.again newline).existingGroups = TagGroups.ofBlock b.render := by
  rw [existingGroups, again, Option.getD_some, TagGroups.ofBlock_eq_ofPairs,
    h.lines_withNewlines hnewline, ← TagGroups.ofBlock_eq_ofPairs]

theorem IsStable.lines_existingGroups_again {b : ClassBlock} (h : b.IsStable) {newline : Text}
    (hnewline : newline = ['\n'] ∨ newline = ['\r', '\n']) (key : Text) :
    (b.again newline).existingGroups.lines key = b.groups.lines key := by
  rw [h.existingGroups_again hnewline, lines_ofBlock_render h.allReadBack]
  exact Text.map_dropReturn_eq_self fun line hline => h.getLast?_ne_return hline

theorem IsStable.isDescribed_again {b : ClassBlock} (h : b.IsStable) {newline : Text}
    (hnewline : newline = ['\n'] ∨ newline = ['\r', '\n']) : (b.again newline).IsDescribed := by
  by_cases hdesc : b.IsDescribed
  · rcases hdesc with hhas | hnone
    · refine Or.inl ?_
      rw [TagGroups.has_iff] at hhas ⊢
      rwa [h.lines_existingGroups_again hnewline,
        lines_groups_of_isDescribed (Or.inl (TagGroups.has_iff _ _ |>.2 hhas)) (by decide)]
    · exact Or.inr hnone
  · refine Or.inl ?_
    rw [TagGroups.has_iff, h.lines_existingGroups_again hnewline, lines_groups_comment,
      described_eq_set hdesc, TagGroups.lines_set_self]
    exact List.cons_ne_nil _ _

/-- The rendered pair of class and namespace lines is its own pair. -/
theorem IsStable.identityPair_again {b : ClassBlock} (h : b.IsStable) {newline : Text}
    (hnewline : newline = ['\n'] ∨ newline = ['\r', '\n']) :
    (b.again newline).identityPair = align b.identityPair none := by
  have hclass : ∀ name, identityLine (b.again newline).existingGroups "@class".toList name =
      ((align b.identityPair none).take 1).head?.getD (tagLine "@class".toList (braced name)) := by
    intro name
    rw [identityLine, h.lines_existingGroups_again hnewline, b.lines_groups_identity.1]
  have hnamespace : ∀ name,
      identityLine (b.again newline).existingGroups "@namespace".toList name =
        ((align b.identityPair none).drop 1).head?.getD
          (tagLine "@namespace".toList (braced name)) := by
    intro name
    rw [identityLine, h.lines_existingGroups_again hnewline, b.lines_groups_identity.2]
  rw [identityPair, hclass, hnamespace]
  rfl

theorem IsStable.missingMixins_again {b : ClassBlock} (h : b.IsStable) {newline : Text}
    (hnewline : newline = ['\n'] ∨ newline = ['\r', '\n']) :
    (b.again newline).missingMixins = [] := by
  refine List.eq_nil_iff_forall_not_mem.2 fun line hline => ?_
  obtain ⟨target, htarget, hnot, -⟩ := mem_missingMixins_iff.1 hline
  rw [h.lines_existingGroups_again hnewline,
    eraseDups_eq_self (nodup_lines_groups_mixin h.distinct)] at hnot
  exact hnot (b.normalizeTarget_mem_groups htarget)

/-- Completing the groups of a rendered block changes none of them. -/
theorem IsStable.lines_groups_again {b : ClassBlock} (h : b.IsStable) {newline : Text}
    (hnewline : newline = ['\n'] ∨ newline = ['\r', '\n']) (key : Text) :
    (b.again newline).groups.lines key = b.groups.lines key := by
  have hread := h.lines_existingGroups_again hnewline
  by_cases hkey : key ∈ managedKeys
  · simp only [managedKeys, List.mem_cons, List.not_mem_nil, or_false] at hkey
    rcases hkey with rfl | rfl | rfl | rfl
    · rw [lines_groups_property, hread, lines_groups_property]
      change reconcile (reconcile _ b.discovery) b.discovery = _
      cases hdiscovery : b.discovery with
      | unavailable reason => rfl
      | discovered facts =>
          obtain ⟨hexisting, hfacts⟩ := h.properties facts hdiscovery
          exact reconcile_reconcile hexisting hfacts
    · rw [(b.again newline).lines_groups_identity.1, h.identityPair_again hnewline, align_align,
        b.lines_groups_identity.1]
    · rw [(b.again newline).lines_groups_identity.2, h.identityPair_again hnewline, align_align,
        b.lines_groups_identity.2]
    · rw [lines_groups_mixin, hread, h.missingMixins_again hnewline, List.append_nil,
        eraseDups_eq_self (nodup_lines_groups_mixin h.distinct)]
  · rw [lines_groups_of_isDescribed (h.isDescribed_again hnewline) hkey, hread]

/-- A stable block is rendered the same way again. -/
theorem IsStable.render_again {b : ClassBlock} (h : b.IsStable) {newline : Text}
    (hnewline : newline = ['\n'] ∨ newline = ['\r', '\n']) :
    (b.again newline).render = b.render := by
  refine TagGroups.assemble_congr (h.lines_groups_again hnewline) ?_
  rw [unordered_groups, unordered_groups, h.existingGroups_again hnewline,
    unordered_ofBlock_render h.allReadBack]

/-! ## Typed blocks -/

/-- Each line gives a type and a name, and no name is given twice. -/
def GiveNames (lines : List Text) : Prop :=
  ∃ given : List (Text × Text),
    List.Forall₂ (fun line pair => IsTypedLine pair.1 pair.2 line) lines given ∧
      (given.map Prod.snd).Nodup

theorem areTyped_of_giveNames {lines : List Text} (h : GiveNames lines) : AreTyped lines := by
  obtain ⟨given, hgiven, hnodup⟩ := h
  have hnames : lines.map describedName? = (given.map Prod.snd).map some := by
    clear hnodup
    induction hgiven with
    | nil => rfl
    | cons hline _ ih =>
        rw [List.map_cons, ih, describedName?, hline.describe?_eq]
        rfl
  refine ⟨fun line hline => ?_, ?_⟩
  · clear hnodup hnames
    induction hgiven with
    | nil => simp at hline
    | cons hfirst _ ih =>
        rcases List.mem_cons.1 hline with rfl | hline
        · exact ⟨_, _, hfirst⟩
        · exact ih hline
  · rw [hnames]
    exact hnodup.map (Option.some_injective _)

/-- What a source of facts or a class declares about a property: an identifier, and a type in the
characters of types. -/
structure IsPlainFact (fact : PropertyFact) : Prop where
  sourceLine_eq : fact.sourceLine = none
  name : Text.isIdentifier fact.name = true
  type_ne_nil : fact.type ≠ []
  type : ∀ c ∈ fact.type, isPropertyTypeChar c = true

theorem isBlank_of_isPropertyTypeChar {c : Char} (h : isPropertyTypeChar c = true) :
    isBlank c = false := by
  simp only [isPropertyTypeChar, isPathChar, Bool.or_eq_true, beq_iff_eq] at h
  rcases h with (((h | rfl) | rfl) | rfl) | rfl
  · exact isBlank_of_isIdentifierChar h
  all_goals rfl

theorem isTyped_of_isPlainFact {fact : PropertyFact} (h : IsPlainFact fact) : fact.IsTyped where
  sourceLine_eq := h.sourceLine_eq
  name := h.name
  type := {
    ne_nil := h.type_ne_nil
    not_blank := fun c hc => isBlank_of_isPropertyTypeChar (h.type c hc)
    no_sigil := fun hmem => absurd (h.type _ hmem) (by decide)
    no_brace := fun hhead => absurd (h.type _ (List.mem_of_mem_head? hhead)) (by decide) }

/-- A block of a class whose property lines are typed.  Nothing that is added to it breaks a line: a
line feed does, and so does a carriage return that the end of the line follows. -/
structure IsTypedBlock (b : ClassBlock) : Prop where
  existing : ∀ line ∈ (b.existing.getD []).lines, line.getLast? ≠ some '\r'
  name : Text.isIdentifier b.name = true
  home : ∀ c ∈ b.home, isPathChar c = true
  properties : (∃ reason, b.discovery = .unavailable reason) ∨
    ∃ facts, b.discovery = .discovered facts ∧ (∀ fact ∈ facts, IsPlainFact fact) ∧
      GiveNames ((TagGroups.ofBlock (b.existing.getD [])).lines "@property".toList)
  mixins : ∀ target ∈ b.mixins, '\n' ∉ target ∧ target.getLast? ≠ some '\r'
  distinct : (b.mixins.map normalizeTarget).Nodup
  description : b.placeholder = [] ∨ IsDescription b.placeholder

theorem IsTypedBlock.isStable {b : ClassBlock} (h : b.IsTypedBlock) : b.IsStable where
  existing := h.existing
  name := fun hmem => absurd (isIdentifierChar_of_mem h.name _ hmem) (by decide)
  home := fun hmem => absurd (h.home _ hmem) (by decide)
  properties := by
    intro facts hfacts
    rcases h.properties with ⟨reason, hnone⟩ | ⟨facts', hfacts', hplain, hgive⟩
    · rw [hnone] at hfacts
      contradiction
    · obtain rfl : facts' = facts := Discovery.discovered.inj (hfacts'.symm.trans hfacts)
      exact ⟨areTyped_of_giveNames hgive, fun fact hfact =>
        isTyped_of_isPlainFact (hplain fact hfact)⟩
  mixins := h.mixins
  distinct := h.distinct
  description := h.description

/-- Rendering a typed block reaches a fixed point in one step. -/
theorem render_existing_render (b : ClassBlock) (h : b.IsTypedBlock) :
    ({ b with existing := some b.render } : ClassBlock).render = b.render := by
  have hagain := h.isStable.render_again (Or.inl rfl)
  rwa [again, Text.withNewlines_newline] at hagain

/-- A comment with a noted line of another type, a line of the right type and a line about something
that was not found, before tags that the block does not manage. -/
def typedBlock : ClassBlock where
  name := "User".toList
  home := "App\\Models".toList
  existing := some ("/**\n * @property int $id the key\n * @property ?string $name\n" ++
    " * @property array<int> $tags\n * @see B\n * @mixin M\n * @see A\n */").toList
  discovery := .discovered [{ name := "id".toList, type := "string".toList },
    { name := "email".toList, type := "string|null".toList },
    { name := "name".toList, type := "?string".toList }]
  mixins := ["\\M".toList, "N".toList]
  placeholder := "Describe the class".toList

theorem typedBlock_giveNames :
    GiveNames ((TagGroups.ofBlock (typedBlock.existing.getD [])).lines "@property".toList) := by
  have hlines : (TagGroups.ofBlock (typedBlock.existing.getD [])).lines "@property".toList =
      [tagLine "@property".toList ("int".toList ++ ' ' :: '$' :: ("id".toList ++ " the key".toList)),
        tagLine "@property".toList ("?string".toList ++ ' ' :: '$' :: ("name".toList ++ [])),
        tagLine "@property".toList ("array<int>".toList ++ ' ' :: '$' :: ("tags".toList ++ []))] := by
    decide +kernel
  rw [hlines]
  refine ⟨[("int".toList, "id".toList), ("?string".toList, "name".toList),
    ("array<int>".toList, "tags".toList)],
    .cons ?_ (.cons ?_ (.cons ?_ .nil)), by decide⟩
  · refine isTypedLine_tagLine (by decide) (by decide) ?_
    rintro c ⟨⟩
    rfl
  · exact isTypedLine_tagLine (by decide) (by decide) nofun
  · exact isTypedLine_tagLine (by decide) (by decide) nofun

theorem typedBlock_isTypedBlock : typedBlock.IsTypedBlock where
  existing := by decide +kernel
  name := by decide
  home := List.all_eq_true.1 (by decide)
  properties := by
    refine Or.inr ⟨_, rfl, fun fact hfact => ?_, typedBlock_giveNames⟩
    simp only [List.mem_cons, List.not_mem_nil, or_false] at hfact
    rcases hfact with rfl | rfl | rfl <;>
      exact ⟨rfl, by decide, by decide, List.all_eq_true.1 (by decide)⟩
  mixins := by decide
  distinct := by decide
  description := Or.inr ⟨by decide, by decide, by decide, by decide⟩

theorem typedBlock_render_existing_render :
    typedBlock.IsTypedBlock ∧ typedBlock.existing ≠ some typedBlock.render ∧
      ({ typedBlock with existing := some typedBlock.render } : ClassBlock).render =
        typedBlock.render :=
  ⟨typedBlock_isTypedBlock, by decide +kernel,
    render_existing_render typedBlock typedBlock_isTypedBlock⟩

end ClassBlock

end PhpDoc
