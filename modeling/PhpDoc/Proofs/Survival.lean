import Mathlib
import PhpDoc.Block.ClassBlock
import PhpDoc.Proofs.Reconciliation
import PhpDoc.Proofs.Regrouping

/-!
# What survives the rendering of a class block

A class block manages four groups: properties, the class, its namespace, and mixins.  Everything
else in the existing comment is written by people, and reading the rendered block gives it back line
by line.  Of the managed groups, mixin lines stay in front of the added ones, and property lines
stay when no facts are known.

The argument has two halves.  The groups of the finished block agree with those of the existing one
outside the managed keys; and every line of the finished groups is read back under its key.
-/

namespace PhpDoc

/-! ## The managed keys -/

/-- The keys that a class block manages. -/
def managedKeys : List Text :=
  ["@property".toList, "@class".toList, "@namespace".toList, "@mixin".toList]

theorem isKeyword_class : IsKeyword "@class".toList :=
  @IsKeyword.intro 'c' "lass".toList (by decide) (List.all_eq_true.1 (by decide))

theorem isKeyword_namespace : IsKeyword "@namespace".toList :=
  @IsKeyword.intro 'n' "amespace".toList (by decide) (List.all_eq_true.1 (by decide))

theorem isKeyword_mixin : IsKeyword "@mixin".toList :=
  @IsKeyword.intro 'm' "ixin".toList (by decide) (List.all_eq_true.1 (by decide))

theorem nodup_classOrder : (classOrder.map Prod.fst).Nodup := by decide

/-- A line of a block that stands under a keyword carries it. -/
theorem keyword?_of_classify {line key kept : Text} (h : classify line = some (key, kept))
    (hkey : key ≠ commentKey) : keyword? kept = some key := by
  have hkept := classify_kept h
  cases hk : keyword? kept with
  | some k =>
      rw [classify_of_keyword? hk, Option.some.injEq, Prod.mk.injEq] at hkept
      rw [hkept.1]
  | none =>
      exfalso
      rcases kept_cases h with rfl | ⟨remark, rfl, hne, hlast, -⟩
      · simp only [classify, hk] at hkept
        split at hkept
        · next rest _ =>
            simp only [Option.map_eq_some_iff, Prod.mk.injEq] at hkept
            obtain ⟨remark, -, hcomment, hremark⟩ := hkept
            rw [hremark, hk, Option.getD_none] at hcomment
            exact hkey hcomment.symm
        · split at hkept
          · contradiction
          · simp only [Option.some.injEq, Prod.mk.injEq] at hkept
            exact hkey hkept.1.symm
      · rw [classify_remark (by rwa [Text.trimEnd_eq_self hlast]) hk, Option.some.injEq,
          Prod.mk.injEq] at hkept
        exact hkey hkept.1.symm

theorem keyword?_of_mem_lines {block key line : Text} (hkey : key ≠ commentKey)
    (h : line ∈ (TagGroups.ofBlock block).lines key) : keyword? line = some key := by
  obtain ⟨source, -, hclass⟩ := TagGroups.mem_lines_ofBlock.1 h
  exact keyword?_of_classify hclass hkey

theorem newline_not_mem_of_mem_lines {block key line : Text}
    (h : line ∈ (TagGroups.ofBlock block).lines key) : '\n' ∉ line := by
  obtain ⟨source, hsource, hclass⟩ := TagGroups.mem_lines_ofBlock.1 h
  exact newline_not_mem_of_classify (Text.newline_not_mem_of_mem_lines hsource) hclass

theorem TagGroups.unordered_set (g : TagGroups) {order : GroupOrder} {key : Text}
    (hkey : key ∈ order.map Prod.fst) (lines : List Text) :
    (g.set key lines).unordered order = g.unordered order := by
  rw [unordered, unordered, keys_set]
  split_ifs with h
  · rfl
  · have hdrop : [key].filter (fun k => !(order.map Prod.fst).contains k) = [] := by
      have hin : (order.map Prod.fst).contains key = true := List.contains_iff_mem.2 hkey
      simp only [List.filter_cons, hin, Bool.not_true, Bool.false_eq_true, if_false,
        List.filter_nil]
    rw [List.filter_append, hdrop, List.append_nil]

theorem distinctLines_eq_eraseDups (lines : List Text) : distinctLines lines = lines.eraseDups := by
  have hstep : (fun (kept : List Text) (line : Text) =>
      if kept.contains line then kept else kept ++ [line]) =
      fun kept line => if true && !kept.contains line then kept ++ [line] else kept := by
    funext kept line
    cases kept.contains line <;> rfl
  rw [distinctLines, hstep, PropertyMerge.foldl_addNew_eq (fun _ => true)]
  simp

/-! ## The groups of a finished block -/

namespace ClassBlock

/-- The groups of the existing comment. -/
def existingGroups (b : ClassBlock) : TagGroups :=
  .ofBlock (b.existing.getD [])

/-- The block has free text, or asks for none. -/
def IsDescribed (b : ClassBlock) : Prop :=
  b.existingGroups.has commentKey = true ∨ b.placeholder = []

/-- The groups with merged properties and a description. -/
def described (b : ClassBlock) : TagGroups :=
  b.withDescription (b.withProperties b.existingGroups)

theorem has_withProperties (b : ClassBlock) :
    (b.withProperties b.existingGroups).has commentKey = b.existingGroups.has commentKey := by
  rw [TagGroups.has, withProperties, TagGroups.lines_set_of_ne _ (by decide), TagGroups.has]

theorem described_eq {b : ClassBlock} (h : b.IsDescribed) :
    b.described = b.withProperties b.existingGroups := by
  rw [described, withDescription, has_withProperties, if_pos]
  rcases h with h | h
  · simp [h]
  · simp [h]

theorem described_eq_set {b : ClassBlock} (h : ¬ b.IsDescribed) :
    b.described = (b.withProperties b.existingGroups).set commentKey
      [" * ".toList ++ b.placeholder] := by
  rw [IsDescribed, not_or] at h
  rw [described, withDescription, has_withProperties, if_neg (by simpa using h)]

theorem lines_described (b : ClassBlock) {key : Text} (hkey : key ≠ commentKey) :
    b.described.lines key = (b.withProperties b.existingGroups).lines key := by
  by_cases h : b.IsDescribed
  · rw [described_eq h]
  · rw [described_eq_set h, TagGroups.lines_set_of_ne _ hkey]

theorem unordered_described (b : ClassBlock) :
    b.described.unordered classOrder = b.existingGroups.unordered classOrder := by
  by_cases h : b.IsDescribed
  · rw [described_eq h, withProperties, TagGroups.unordered_set _ (by decide)]
  · rw [described_eq_set h, TagGroups.unordered_set _ (by decide), withProperties,
      TagGroups.unordered_set _ (by decide)]

/-- The groups before the mixins are added. -/
def identified (b : ClassBlock) : TagGroups :=
  b.withIdentity b.described

theorem groups_eq (b : ClassBlock) : b.groups = b.withMixins b.identified := rfl

theorem lines_identified_of_other (b : ClassBlock) {key : Text} (hclass : key ≠ "@class".toList)
    (hnamespace : key ≠ "@namespace".toList) :
    b.identified.lines key = b.described.lines key := by
  rw [identified, withIdentity, TagGroups.lines_set_of_ne _ hnamespace,
    TagGroups.lines_set_of_ne _ hclass]

theorem lines_groups_comment (b : ClassBlock) :
    b.groups.lines commentKey = b.described.lines commentKey := by
  rw [groups_eq, withMixins, TagGroups.lines_set_of_ne _ (by decide),
    b.lines_identified_of_other (by decide) (by decide)]

theorem lines_groups_of_not_managed (b : ClassBlock) {key : Text} (hkey : key ∉ managedKeys)
    (hcomment : key ≠ commentKey) : b.groups.lines key = b.existingGroups.lines key := by
  simp only [managedKeys, List.mem_cons, List.not_mem_nil, or_false, not_or] at hkey
  rw [groups_eq, withMixins, TagGroups.lines_set_of_ne _ hkey.2.2.2,
    b.lines_identified_of_other hkey.2.1 hkey.2.2.1, b.lines_described hcomment, withProperties,
    TagGroups.lines_set_of_ne _ hkey.1]

/-- Outside the managed keys a described block keeps its lines. -/
theorem lines_groups_of_isDescribed {b : ClassBlock} (h : b.IsDescribed) {key : Text}
    (hkey : key ∉ managedKeys) : b.groups.lines key = b.existingGroups.lines key := by
  by_cases hcomment : key = commentKey
  · rw [hcomment, lines_groups_comment, described_eq h, withProperties,
      TagGroups.lines_set_of_ne _ (by decide)]
  · exact b.lines_groups_of_not_managed hkey hcomment

theorem lines_groups_property (b : ClassBlock) :
    b.groups.lines "@property".toList =
      reconcile (b.existingGroups.lines "@property".toList) b.discovery := by
  rw [groups_eq, withMixins, TagGroups.lines_set_of_ne _ (by decide),
    b.lines_identified_of_other (by decide) (by decide), b.lines_described (by decide),
    withProperties, TagGroups.lines_set_self]

/-- The line of the class and the line of its namespace, before they are aligned. -/
def identityPair (b : ClassBlock) : List Text :=
  [identityLine b.existingGroups "@class".toList b.name,
    identityLine b.existingGroups "@namespace".toList b.home]

theorem identityLine_described (b : ClassBlock) {tag : Text} (htag : tag ≠ "@property".toList)
    (hcomment : tag ≠ commentKey) (name : Text) :
    identityLine b.described tag name = identityLine b.existingGroups tag name := by
  rw [identityLine, b.lines_described hcomment, withProperties,
    TagGroups.lines_set_of_ne _ htag, identityLine]

theorem lines_groups_identity (b : ClassBlock) :
    b.groups.lines "@class".toList = (align b.identityPair none).take 1 ∧
      b.groups.lines "@namespace".toList = (align b.identityPair none).drop 1 := by
  rw [groups_eq, withMixins, TagGroups.lines_set_of_ne _ (by decide),
    TagGroups.lines_set_of_ne _ (by decide), identified, withIdentity,
    TagGroups.lines_set_of_ne _ (by decide), TagGroups.lines_set_self, TagGroups.lines_set_self,
    b.identityLine_described (by decide) (by decide),
    b.identityLine_described (by decide) (by decide)]
  exact ⟨rfl, rfl⟩

/-- The lines of the class and of its namespace share a column. -/
theorem exists_lines_groups_identity (b : ClassBlock) :
    ∃ width,
      b.groups.lines "@class".toList =
        [alignLine width (identityLine b.existingGroups "@class".toList b.name)] ∧
      b.groups.lines "@namespace".toList =
        [alignLine width (identityLine b.existingGroups "@namespace".toList b.home)] := by
  rw [b.lines_groups_identity.1, b.lines_groups_identity.2]
  exact ⟨_, rfl, rfl⟩

/-- The lines of the mixins that the block lacks. -/
def missingMixins (b : ClassBlock) : List Text :=
  ((MixinRequirement.resolve b.mixins (b.existingGroups.lines "@mixin".toList).eraseDups).filter
    fun r => !r.present).map fun r => tagLine "@mixin".toList r.target

theorem lines_groups_mixin (b : ClassBlock) :
    b.groups.lines "@mixin".toList =
      (b.existingGroups.lines "@mixin".toList).eraseDups ++ b.missingMixins := by
  rw [groups_eq, withMixins, TagGroups.lines_set_self, distinctLines_eq_eraseDups,
    b.lines_identified_of_other (by decide) (by decide), b.lines_described (by decide),
    withProperties, TagGroups.lines_set_of_ne _ (by decide)]
  rfl

theorem mem_missingMixins {b : ClassBlock} {line : Text} (h : line ∈ b.missingMixins) :
    ∃ target ∈ b.mixins, line = tagLine "@mixin".toList target := by
  obtain ⟨r, hr, rfl⟩ := List.mem_map.1 h
  obtain ⟨target, htarget, rfl⟩ := List.mem_map.1 (List.mem_filter.1 hr).1
  exact ⟨target, htarget, rfl⟩

theorem unordered_groups (b : ClassBlock) :
    b.groups.unordered classOrder = b.existingGroups.unordered classOrder := by
  rw [groups_eq, withMixins, TagGroups.unordered_set _ (by decide), identified, withIdentity,
    TagGroups.unordered_set _ (by decide), TagGroups.unordered_set _ (by decide),
    unordered_described]

/-! ## Every line is read back -/

/-- The parts of a class block that are written into its lines hold no line feed, and the facts
carry no line of their own. -/
structure IsOneLined (b : ClassBlock) : Prop where
  existing : ∀ line ∈ (b.existing.getD []).lines, line.getLast? ≠ some '\r'
  name : '\n' ∉ b.name
  home : '\n' ∉ b.home
  facts : ∀ facts, b.discovery = .discovered facts → ∀ fact ∈ facts,
    fact.sourceLine = none ∧ '\n' ∉ fact.type ∧ '\n' ∉ fact.name
  mixins : ∀ target ∈ b.mixins, '\n' ∉ target

theorem newline_not_mem_tagLine {tag body : Text} (htag : '\n' ∉ tag) (hbody : '\n' ∉ body) :
    '\n' ∉ tagLine tag body := by
  simp [tagLine, htag, hbody]

theorem readsBack_reconcile {b : ClassBlock} (h : b.IsOneLined) :
    ∀ line ∈ reconcile (b.existingGroups.lines "@property".toList) b.discovery,
      ReadsBack "@property".toList line := by
  intro line hline
  have hexisting : ∀ l ∈ b.existingGroups.lines "@property".toList,
      '\n' ∉ l ∧ keyword? l = some "@property".toList := fun l hl =>
    ⟨newline_not_mem_of_mem_lines hl, keyword?_of_mem_lines (by decide) hl⟩
  rcases mem_reconcile hline with hold | ⟨facts, width, l, hdisc, rfl, hl⟩
  · exact readsBack_of_keyword? (hexisting line hold).1 (hexisting line hold).2
  · have hkey : '\n' ∉ l ∧ keyword? l = some "@property".toList := by
      rcases hl with hl | ⟨fact, hfact, rfl⟩
      · exact hexisting l hl
      · obtain ⟨hsource, htype, hname⟩ := h.facts facts hdisc fact hfact
        rw [PropertyFact.render, hsource, Option.getD_none]
        refine ⟨newline_not_mem_tagLine (by decide) ?_,
          (tagLineParts isKeyword_property _).keyword?_eq⟩
        simp [htype, hname]
    exact readsBack_of_keyword? (newline_not_mem_alignLine hkey.1 width)
      (keyword?_alignLine hkey.2 width)

theorem identityLine_spec {g : TagGroups} {tag name : Text} (htag : IsKeyword tag)
    (hnewline : '\n' ∉ tag) (hname : '\n' ∉ name)
    (hlines : ∀ line ∈ g.lines tag, '\n' ∉ line ∧ keyword? line = some tag) :
    '\n' ∉ identityLine g tag name ∧ keyword? (identityLine g tag name) = some tag := by
  rw [identityLine]
  cases hhead : (g.lines tag).head? with
  | some line => exact hlines line (List.mem_of_mem_head? hhead)
  | none =>
      refine ⟨newline_not_mem_tagLine hnewline ?_, (tagLineParts htag _).keyword?_eq⟩
      simp [braced, hname]

theorem readsBack_alignLine_identityLine (b : ClassBlock) {tag name : Text} (htag : IsKeyword tag)
    (hnewline : '\n' ∉ tag) (hcomment : tag ≠ commentKey) (hname : '\n' ∉ name) (width : Nat) :
    ReadsBack tag (alignLine width (identityLine b.existingGroups tag name)) := by
  obtain ⟨hline, hkey⟩ := identityLine_spec htag hnewline hname fun line hline =>
    ⟨newline_not_mem_of_mem_lines hline, keyword?_of_mem_lines hcomment hline⟩
  exact readsBack_of_keyword? (newline_not_mem_alignLine hline width)
    (keyword?_alignLine hkey width)

theorem readsBack_of_mem_mixin {b : ClassBlock} (h : ∀ target ∈ b.mixins, '\n' ∉ target) :
    ∀ line ∈ b.groups.lines "@mixin".toList, ReadsBack "@mixin".toList line := by
  intro line hline
  rw [lines_groups_mixin, List.mem_append, List.mem_eraseDups] at hline
  rcases hline with hold | hnew
  · exact readsBack_of_keyword? (newline_not_mem_of_mem_lines hold)
      (keyword?_of_mem_lines (by decide) hold)
  · obtain ⟨target, htarget, rfl⟩ := mem_missingMixins hnew
    exact readsBack_of_keyword? (newline_not_mem_tagLine (by decide) (h target htarget))
      (tagLineParts isKeyword_mixin _).keyword?_eq

/-- Every line of a finished block that belongs to a tag is read back. -/
theorem readsBack_of_mem_groups {b : ClassBlock} (h : b.IsOneLined) {key line : Text}
    (hcomment : key ≠ commentKey) (hline : line ∈ b.groups.lines key) : ReadsBack key line := by
  have hexisting : b.existingGroups.AllReadBack := TagGroups.allReadBack_ofBlock h.existing
  obtain ⟨width, hclass, hnamespace⟩ := b.exists_lines_groups_identity
  by_cases hkey : key ∈ managedKeys
  · simp only [managedKeys, List.mem_cons, List.not_mem_nil, or_false] at hkey
    rcases hkey with rfl | rfl | rfl | rfl
    · rw [lines_groups_property] at hline
      exact readsBack_reconcile h line hline
    · rw [hclass, List.mem_singleton] at hline
      rw [hline]
      exact b.readsBack_alignLine_identityLine isKeyword_class (by decide) (by decide) h.name width
    · rw [hnamespace, List.mem_singleton] at hline
      rw [hline]
      exact b.readsBack_alignLine_identityLine isKeyword_namespace (by decide) (by decide) h.home
        width
    · exact readsBack_of_mem_mixin h.mixins line hline
  · rw [b.lines_groups_of_not_managed hkey hcomment] at hline
    exact hexisting key line hline

/-- Every line of a finished block is read back, if its description is. -/
theorem allReadBack_groups {b : ClassBlock} (h : b.IsOneLined)
    (hcomment : ∀ line ∈ b.groups.lines commentKey, ReadsBack commentKey line) :
    b.groups.AllReadBack := by
  intro key line hline
  by_cases hdescription : key = commentKey
  · rw [hdescription] at hline ⊢
    exact hcomment line hline
  · exact readsBack_of_mem_groups h hdescription hline

theorem readsBack_comment_of_isDescribed {b : ClassBlock} (h : b.IsOneLined)
    (hdesc : b.IsDescribed) :
    ∀ line ∈ b.groups.lines commentKey, ReadsBack commentKey line := by
  rw [lines_groups_of_isDescribed hdesc (by decide)]
  exact TagGroups.allReadBack_ofBlock h.existing commentKey

/-! ## Survival -/

/-- Lines of the existing comment end in no carriage return, so none is lost in writing. -/
theorem getLast?_ne_return_of_mem_existing {b : ClassBlock}
    (h : ∀ line ∈ (b.existing.getD []).lines, line.getLast? ≠ some '\r') {key line : Text}
    (hline : line ∈ b.existingGroups.lines key) : line.getLast? ≠ some '\r' :=
  TagGroups.getLast?_ne_return_of_mem_lines h hline

theorem map_dropReturn_existing {b : ClassBlock} (h : b.IsOneLined) {key : Text}
    {lines : List Text} (hlines : ∀ line ∈ lines, line ∈ b.existingGroups.lines key) :
    lines.map Text.dropReturn = lines :=
  Text.map_dropReturn_eq_self fun line hline =>
    getLast?_ne_return_of_mem_existing h.existing (hlines line hline)

theorem lines_ofBlock_render {b : ClassBlock} (h : b.groups.AllReadBack) (key : Text) :
    (TagGroups.ofBlock b.render).lines key = (b.groups.lines key).map Text.dropReturn :=
  TagGroups.lines_ofBlock_assemble h nodup_classOrder key

/-- The keys that the class order does not name come back in their order of first appearance. -/
theorem unordered_ofBlock_render {b : ClassBlock} (h : b.groups.AllReadBack) :
    (TagGroups.ofBlock b.render).unordered classOrder = b.existingGroups.unordered classOrder := by
  rw [render, TagGroups.unordered_ofBlock_assemble h nodup_classOrder, unordered_groups]
  refine List.filter_eq_self.2 fun key hkey => ?_
  obtain ⟨hmem, hnot⟩ := List.mem_filter.1 hkey
  have hnamed : key ∉ commentKey :: managedKeys := by
    intro hnamed
    have hin : key ∈ classOrder.map Prod.fst := hnamed
    rw [List.contains_iff_mem.2 hin] at hnot
    contradiction
  rw [List.mem_cons, not_or] at hnamed
  rw [TagGroups.has, b.lines_groups_of_not_managed hnamed.2 hnamed.1]
  exact TagGroups.has_of_mem_keys_ofBlock hmem

/-- **What people wrote survives rendering.**  Reading the rendered block gives back, line by line,
the free text and every tag that the block does not manage, with the tags in their order of first
appearance; the distinct mixin lines come first among the mixins, and whatever follows them is a
required mixin; and without facts the property lines stay as they are. -/
theorem written_content_survives (b : ClassBlock) (h : b.IsOneLined) (hdesc : b.IsDescribed) :
    (∀ key ∉ managedKeys,
      (TagGroups.ofBlock b.render).lines key = b.existingGroups.lines key) ∧
    (TagGroups.ofBlock b.render).unordered classOrder = b.existingGroups.unordered classOrder ∧
    (∃ added : List Text,
      (TagGroups.ofBlock b.render).lines "@mixin".toList =
        (b.existingGroups.lines "@mixin".toList).eraseDups ++ added ∧
      ∀ line ∈ added, ∃ target ∈ b.mixins,
        line = Text.dropReturn (tagLine "@mixin".toList target)) ∧
    ∀ reason, b.discovery = .unavailable reason →
      (TagGroups.ofBlock b.render).lines "@property".toList =
        b.existingGroups.lines "@property".toList := by
  have hback := allReadBack_groups h (readsBack_comment_of_isDescribed h hdesc)
  refine ⟨fun key hkey => ?_, unordered_ofBlock_render hback, ?_, fun reason hreason => ?_⟩
  · rw [lines_ofBlock_render hback, lines_groups_of_isDescribed hdesc hkey]
    exact map_dropReturn_existing h fun _ hline => hline
  · refine ⟨b.missingMixins.map Text.dropReturn, ?_, fun line hline => ?_⟩
    · rw [lines_ofBlock_render hback, lines_groups_mixin, List.map_append,
        map_dropReturn_existing h fun _ hline => List.mem_eraseDups.1 hline]
    · obtain ⟨l, hl, rfl⟩ := List.mem_map.1 hline
      obtain ⟨target, htarget, rfl⟩ := mem_missingMixins hl
      exact ⟨target, htarget, rfl⟩
  · rw [lines_ofBlock_render hback, lines_groups_property, hreason, reconcile]
    exact map_dropReturn_existing h fun _ hline => hline

/-- A comment with text and a tag on its opening line, a repeated mixin, and tags that the block
does not manage between those that it does. -/
def sampleBlock : ClassBlock where
  name := "User".toList
  home := "App".toList
  existing := some ("/** The user. \n * @see B\n * @mixin M\n * @property $x\n *  more\n" ++
    " * @see A\n * @mixin M\n * @class{User}\n */").toList
  discovery := .discovered [{ name := "id".toList, type := "int".toList }]
  mixins := ["N".toList, "\\M".toList]
  placeholder := []

theorem sampleBlock_isOneLined : sampleBlock.IsOneLined where
  existing := by decide
  name := by decide
  home := by decide
  facts := by
    rintro facts ⟨⟩
    decide
  mixins := by decide

theorem sampleBlock_content_survives :
    sampleBlock.IsOneLined ∧ sampleBlock.IsDescribed ∧
      (TagGroups.ofBlock sampleBlock.render).lines commentKey =
        [" * The user.".toList, " *  more".toList, " * @class{User}".toList] ∧
      (TagGroups.ofBlock sampleBlock.render).lines "@see".toList =
        [" * @see B".toList, " * @see A".toList] ∧
      ∃ added : List Text, (TagGroups.ofBlock sampleBlock.render).lines "@mixin".toList =
        " * @mixin M".toList :: added := by
  obtain ⟨hlines, -, ⟨added, hmixin, -⟩, -⟩ :=
    written_content_survives sampleBlock sampleBlock_isOneLined (Or.inr rfl)
  refine ⟨sampleBlock_isOneLined, Or.inr rfl, (hlines commentKey (by decide)).trans (by decide),
    (hlines "@see".toList (by decide)).trans (by decide), added, hmixin.trans ?_⟩
  have hdups : (sampleBlock.existingGroups.lines "@mixin".toList).eraseDups =
      [" * @mixin M".toList] := by decide
  rw [hdups, List.singleton_append]

end ClassBlock
end PhpDoc
