import Mathlib
import PhpDoc.Proofs.NameResolution

/-!
# Group clauses

A `use` statement can import several names of one namespace at once: the namespace, and in braces
the names with commas between them.  The reader of such a clause cuts off the braces and gives each
name its namespace back.  So a group clause imports what one clause for each of its names imports,
and where the clause is for functions or constants, nothing.
-/

namespace PhpDoc

/-- What a `use` statement is for. -/
inductive ImportedKind where
  | classes
  | functions
  | constants
deriving DecidableEq

/-- The keyword of a kind and the blank behind it; classes have none. -/
def ImportedKind.keyword : ImportedKind → Text
  | classes => []
  | functions => "function ".toList
  | constants => "const ".toList

/-- What stands before the names of a group clause. -/
structure GroupStem where
  kind : ImportedKind
  /-- Whether the path starts with a backslash. -/
  rooted : Bool
  path : Text
  isQualifiedName : IsQualifiedName path

/-- A name between the commas of a group clause, with the blanks around it. -/
structure GroupItem where
  text : Text
  comma_not_mem : ',' ∉ text
  left_not_mem : '{' ∉ text
  right_not_mem : '}' ∉ text

namespace GroupStem

/-- The path of the namespace as it is written. -/
def writtenPath (stem : GroupStem) : Text :=
  (if stem.rooted then ['\\'] else []) ++ stem.path

/-- What stands before the backslash of the group. -/
def text (stem : GroupStem) : Text :=
  stem.kind.keyword ++ stem.writtenPath

/-- The group clause. -/
def group (stem : GroupStem) (items : List GroupItem) : Text :=
  stem.text ++ '\\' :: '{' :: (List.intercalate [','] (items.map GroupItem.text) ++ ['}'])

/-- The clause for one name. -/
def single (stem : GroupStem) (name : Text) : Text :=
  stem.text ++ '\\' :: name

end GroupStem

/-- The names of a group clause, without the blanks around them; a blank item is none. -/
def groupNames (items : List GroupItem) : List Text :=
  (items.map fun item => Text.trim item.text).filter fun name => !name.isEmpty

/-! ## Texts of clauses -/

theorem ImportedKind.brace_not_mem_keyword (kind : ImportedKind) : '{' ∉ kind.keyword := by
  cases kind <;> decide

theorem IsQualifiedName.exists_concat {name : Text} (h : IsQualifiedName name) :
    ∃ front c, name = front ++ [c] ∧ isIdentifierChar c = true := by
  induction h with
  | @single name hname =>
      rcases List.eq_nil_or_concat name with hnil | ⟨front, c, rfl⟩
      · exact absurd hnil (ne_nil_of_isIdentifier hname)
      · exact ⟨front, c, by simp, isIdentifierChar_of_mem hname c (by simp)⟩
  | @qualified head rest _ _ ih =>
      obtain ⟨front, c, rfl, hc⟩ := ih
      exact ⟨head ++ '\\' :: front, c, by simp, hc⟩

theorem Text.dropEndWhile_concat {c : Char} {text : Text} (h : text.getLast? ≠ some c) :
    dropEndWhile (· == c) (text ++ [c]) = text := by
  rcases List.eq_nil_or_concat text with rfl | ⟨front, d, rfl⟩
  · simp [dropEndWhile]
  · have hd : d ≠ c := by simpa using h
    simp [dropEndWhile, hd]

namespace GroupStem

variable (stem : GroupStem)

theorem isPathChar_of_mem_writtenPath : ∀ c ∈ stem.writtenPath, isPathChar c = true := by
  intro c hc
  rcases List.mem_append.1 hc with hc | hc
  · cases hrooted : stem.rooted with
    | false => simp [hrooted] at hc
    | true =>
        obtain rfl : c = '\\' := by simpa [hrooted] using hc
        rfl
  · exact stem.isQualifiedName.isPathChar_of_mem c hc

theorem brace_not_mem_text : '{' ∉ stem.text := by
  intro hmem
  rcases List.mem_append.1 hmem with hmem | hmem
  · exact stem.kind.brace_not_mem_keyword hmem
  · exact absurd (stem.isPathChar_of_mem_writtenPath _ hmem) (by decide)

theorem isBlank_of_mem_head?_text : ∀ c ∈ stem.text.head?, isBlank c = false := by
  intro c hc
  rw [text] at hc
  cases hkind : stem.kind with
  | classes =>
      rw [hkind] at hc
      exact isBlank_of_isPathChar
        (stem.isPathChar_of_mem_writtenPath c (List.mem_of_mem_head? hc))
  | functions =>
      rw [hkind] at hc
      obtain rfl : 'f' = c := Option.some.inj hc
      rfl
  | constants =>
      rw [hkind] at hc
      obtain rfl : 'c' = c := Option.some.inj hc
      rfl

theorem exists_concat_text : ∃ front c, stem.text = front ++ [c] ∧ isIdentifierChar c = true := by
  obtain ⟨front, c, hpath, hc⟩ := stem.isQualifiedName.exists_concat
  exact ⟨stem.kind.keyword ++ (if stem.rooted then ['\\'] else []) ++ front, c,
    by simp [text, writtenPath, hpath], hc⟩

theorem getLast?_text_ne : stem.text.getLast? ≠ some '\\' := by
  obtain ⟨front, c, htext, hc⟩ := stem.exists_concat_text
  rw [htext, List.getLast?_concat]
  rintro ⟨⟩
  exact absurd hc (by decide)

/-- A clause that starts with the stem is trimmed, unless a blank ends it. -/
theorem trim_text_append {rest : Text} (hne : rest ≠ [])
    (hrest : ∀ c ∈ rest.getLast?, isBlank c = false) :
    Text.trim (stem.text ++ rest) = stem.text ++ rest := by
  have htext : stem.text ≠ [] := by
    obtain ⟨front, c, htext, -⟩ := stem.exists_concat_text
    simp [htext]
  refine Text.trim_eq_self (fun c hc => ?_) fun c hc => ?_
  · rw [List.head?_append_of_ne_nil _ htext] at hc
    exact stem.isBlank_of_mem_head?_text c hc
  · rw [List.getLast?_append_of_ne_nil _ hne] at hc
    exact hrest c hc

/-- A clause is read as one for functions or constants exactly when it is one. -/
theorem startsWithKeyword_iff (rest : Text) :
    ("function ".toList.isPrefixOf (stem.text ++ '\\' :: rest) ||
      "const ".toList.isPrefixOf (stem.text ++ '\\' :: rest)) = true ↔ stem.kind ≠ .classes := by
  rw [Bool.or_eq_true, List.isPrefixOf_iff_prefix, List.isPrefixOf_iff_prefix,
    Text.isPrefix_append_cons_iff (by decide), Text.isPrefix_append_cons_iff (by decide), text]
  cases hkind : stem.kind with
  | classes =>
      -- the keywords end in a blank, and the path has none
      have hnone : ∀ keyword : Text, ' ' ∈ keyword → ¬ keyword <+: stem.writtenPath :=
        fun keyword hblank hstarts =>
          absurd (stem.isPathChar_of_mem_writtenPath _ (hstarts.subset hblank)) (by decide)
      refine iff_of_false ?_ (by simp)
      exact not_or.2 ⟨hnone _ (by decide), hnone _ (by decide)⟩
  | functions => exact iff_of_true (Or.inl (List.prefix_append _ _)) (by decide)
  | constants => exact iff_of_true (Or.inr (List.prefix_append _ _)) (by decide)

end GroupStem

/-- No brace stands between the braces of a group. -/
theorem brace_not_mem_names (items : List GroupItem) :
    '}' ∉ List.intercalate [','] (items.map GroupItem.text) := by
  induction items with
  | nil => simp [List.intercalate]
  | cons item more ih =>
      cases more with
      | nil => simpa [List.intercalate] using item.right_not_mem
      | cons next more =>
          rw [List.map_cons] at ih
          rw [List.map_cons, List.map_cons, List.intercalate_cons_cons]
          simp only [List.mem_append, List.mem_singleton, not_or]
          exact ⟨⟨item.right_not_mem, by decide⟩, ih⟩

/-- The names of a group are the trimmed pieces between its commas that are not blank. -/
theorem filter_pieces_names (items : List GroupItem) :
    ((Text.pieces ',' (List.intercalate [','] (items.map GroupItem.text))).map Text.trim).filter
      (fun name => !name.isEmpty) = groupNames items := by
  rcases items with _ | ⟨item, more⟩
  · rfl
  · rw [Text.pieces_intercalate (by simp), groupNames, List.map_map]
    · rfl
    · intro text htext
      obtain ⟨other, -, rfl⟩ := List.mem_map.1 htext
      exact other.comma_not_mem

/-! ## Clauses for single names -/

namespace ImportTable

theorem foldl_addUse (t : ImportTable) (clauses : List Text) :
    clauses.foldl addUse t =
      { t with imports := t.imports ++
          (clauses.flatMap fun clause => singleClauses clause.trim).filterMap single? } := by
  induction clauses generalizing t with
  | nil => simp
  | cons clause clauses ih => simp [ih, addUse]

variable (stem : GroupStem)

theorem singleClauses_single {name : Text} (hname : '{' ∉ name) :
    singleClauses (stem.single name) =
      if stem.kind = .classes then [stem.single name] else [] := by
  have hcut : Text.cut? ['{'] (stem.text ++ '\\' :: name) = none := by
    rw [Text.cut?_eq_none_iff, List.singleton_infix_iff]
    simp [stem.brace_not_mem_text, hname]
  rw [singleClauses, GroupStem.single]
  simp only [stem.startsWithKeyword_iff, hcut]
  by_cases hkind : stem.kind = .classes
  · rw [if_neg (not_not.2 hkind), if_pos hkind]
  · rw [if_pos hkind, if_neg hkind]

/-- The braces are cut off, and the names are what stands between the commas. -/
theorem singleClauses_group (items : List GroupItem) :
    singleClauses (stem.group items) =
      if stem.kind = .classes then (groupNames items).map stem.single else [] := by
  let names := List.intercalate [','] (items.map GroupItem.text)
  have hcut : Text.cut? ['{'] (stem.group items) = some (stem.text ++ ['\\'], names ++ ['}']) := by
    have hfront : '{' ∉ stem.text ++ ['\\'] := by simp [stem.brace_not_mem_text]
    have hgroup : stem.group items = stem.text ++ ['\\'] ++ '{' :: (names ++ ['}']) := by
      simp [GroupStem.group, names]
    rw [hgroup, Text.cut?_append_of_disjoint (by simp) (by simpa using hfront)]
    simp [Text.cut?, Text.after?]
  have hstem : Text.dropEndWhile (· == '\\') (Text.trim (stem.text ++ ['\\'])) = stem.text := by
    rw [stem.trim_text_append (by simp) (by rintro c ⟨⟩; rfl),
      Text.dropEndWhile_concat stem.getLast?_text_ne]
  have hnames : Text.dropEndWhile (· == '}') (names ++ ['}']) = names :=
    Text.dropEndWhile_concat fun hlast => brace_not_mem_names items (List.mem_of_getLast? hlast)
  rw [singleClauses, hcut]
  simp only [hstem, hnames, names, filter_pieces_names]
  rw [GroupStem.group]
  simp only [stem.startsWithKeyword_iff]
  by_cases hkind : stem.kind = .classes
  · rw [if_neg (not_not.2 hkind), if_pos hkind]
    rfl
  · rw [if_pos hkind, if_neg hkind]

/-- A name of a group is not blank, no blank ends it, and no brace stands in it. -/
theorem of_mem_groupNames {items : List GroupItem} {name : Text} (h : name ∈ groupNames items) :
    name ≠ [] ∧ (∀ c ∈ name.getLast?, isBlank c = false) ∧ '{' ∉ name := by
  obtain ⟨hmem, hne⟩ := List.mem_filter.1 h
  obtain ⟨item, -, rfl⟩ := List.mem_map.1 hmem
  refine ⟨by simpa using hne, fun c hc => ?_, fun hbrace => ?_⟩
  · exact Text.isBlank_eq_false_of_mem_getLast?_trimEnd hc
  · exact item.left_not_mem ((Text.trim_isInfix _).subset hbrace)

theorem trim_group (items : List GroupItem) :
    Text.trim (stem.group items) = stem.group items := by
  refine stem.trim_text_append (by simp) fun c hc => ?_
  rw [← List.cons_append, ← List.cons_append, List.getLast?_concat] at hc
  obtain rfl := Option.some.inj hc
  rfl

/-- A group clause stands for the clauses of its names. -/
theorem singleClauses_trim_group (items : List GroupItem) :
    singleClauses (Text.trim (stem.group items)) =
      ((groupNames items).map stem.single).flatMap fun clause => singleClauses clause.trim := by
  have hsingle : ∀ name ∈ groupNames items, singleClauses (Text.trim (stem.single name)) =
      if stem.kind = .classes then [stem.single name] else [] := by
    intro name hname
    obtain ⟨hne, hlast, hbrace⟩ := of_mem_groupNames hname
    have htrim : Text.trim (stem.single name) = stem.single name :=
      stem.trim_text_append (by simp) fun c hc => by
        rw [List.getLast?_cons_of_ne_nil hne] at hc
        exact hlast c hc
    rw [htrim, singleClauses_single stem hbrace]
  rw [trim_group, singleClauses_group, List.flatMap_map, List.flatMap_congr hsingle]
  split
  · exact List.map_eq_flatMap
  · simp

/-! ## What an item imports -/

/-- The import that an item writes: a name below the path, under its last segment or under another
name. -/
inductive WritesImport (path : Text) : Text → Import → Prop
  | plain {name : Text} : IsQualifiedName name →
      WritesImport path name ⟨path ++ '\\' :: name, lastSegment name⟩
  | renamed {name short : Text} : IsQualifiedName name → Text.isIdentifier short = true →
      WritesImport path (name ++ " as ".toList ++ short) ⟨path ++ '\\' :: name, short⟩

theorem exists_cutLast?_backslash (front name : Text) :
    ∃ before, Text.cutLast? ['\\'] (front ++ '\\' :: name) = some (before, lastSegment name) := by
  induction front with
  | nil =>
      rw [List.nil_append, Text.cutLast?, lastSegment]
      cases Text.cutLast? ['\\'] name with
      | none => exact ⟨[], rfl⟩
      | some found => exact ⟨'\\' :: found.1, rfl⟩
  | cons c front ih =>
      obtain ⟨before, hbefore⟩ := ih
      exact ⟨c :: before, by rw [List.cons_append, Text.cutLast?, hbefore]⟩

theorem lastSegment_append (front name : Text) :
    lastSegment (front ++ '\\' :: name) = lastSegment name := by
  obtain ⟨before, hbefore⟩ := exists_cutLast?_backslash front name
  rw [lastSegment, hbefore]
  rfl

theorem lastSegment_ne_nil {name : Text} (h : IsQualifiedName name) : lastSegment name ≠ [] := by
  induction h with
  | @single name hname =>
      have hnot : '\\' ∉ name := fun hmem =>
        absurd (isIdentifierChar_of_mem hname _ hmem) (by decide)
      have hdisjoint : ∀ c ∈ ['\\'], c ∉ name := by simpa using hnot
      have hcut := Text.cutLast?_append_of_disjoint (List.cons_ne_nil _ _) hdisjoint []
      rw [List.append_nil] at hcut
      rw [lastSegment, hcut]
      exact ne_nil_of_isIdentifier hname
  | qualified _ _ ih => rwa [lastSegment_append]

theorem dropWhile_single (hkind : stem.kind = .classes) (name : Text) :
    (stem.single name).dropWhile (· == '\\') = stem.path ++ '\\' :: name := by
  obtain ⟨c, rest, hpath, hc⟩ := stem.isQualifiedName.exists_cons
  have htext : stem.text = stem.writtenPath := by
    rw [GroupStem.text, hkind]
    rfl
  rw [GroupStem.single, htext, GroupStem.writtenPath, hpath]
  cases stem.rooted <;> simp [hc]

theorem isPathChar_of_mem_single (hkind : stem.kind = .classes) {name : Text}
    (hname : IsQualifiedName name) : ∀ c ∈ stem.single name, isPathChar c = true := by
  intro c hc
  rw [GroupStem.single, GroupStem.text, hkind] at hc
  rcases List.mem_append.1 hc with hc | hc
  · exact stem.isPathChar_of_mem_writtenPath c hc
  · rcases List.mem_cons.1 hc with rfl | hc
    · rfl
    · exact hname.isPathChar_of_mem c hc

/-- A clause for one name below the path of a stem for classes imports that name. -/
theorem single?_single {name : Text} {i : Import} (hkind : stem.kind = .classes)
    (h : WritesImport stem.path name i) : single? (stem.single name) = some i := by
  have htrim : ∀ {text : Text}, (∀ c ∈ text, isPathChar c = true) → Text.trim text = text :=
    fun htext =>
      Text.trim_eq_self (fun c hc => isBlank_of_isPathChar (htext c (List.mem_of_mem_head? hc)))
        fun c hc => isBlank_of_isPathChar (htext c (List.mem_of_getLast? hc))
  have hblank : ∀ {text : Text}, (∀ c ∈ text, isPathChar c = true) → ' ' ∉ text :=
    fun htext hmem => absurd (htext _ hmem) (by decide)
  cases h with
  | @plain name hname =>
      have hclause := isPathChar_of_mem_single stem hkind hname
      have hcut : Text.cut? " as ".toList (stem.single name) = none := by
        rw [Text.cut?_eq_none_iff]
        exact fun hoccurs => hblank hclause (hoccurs.subset (by decide))
      rw [single?, hcut]
      simp only [htrim hclause, dropWhile_single stem hkind]
      rw [GroupStem.single, lastSegment_append]
      simp [lastSegment_ne_nil hname]
  | @renamed name short hname hshort =>
      have hclause := isPathChar_of_mem_single stem hkind hname
      have hpath : ∀ c ∈ short, isPathChar c = true := fun c hc => by
        rw [isPathChar, isIdentifierChar_of_mem hshort c hc, Bool.true_or]
      have hcut : Text.cut? " as ".toList (stem.single (name ++ " as ".toList ++ short)) =
          some (stem.single name, short) := by
        have hsingle : stem.single (name ++ " as ".toList ++ short) =
            stem.single name ++ (" as ".toList ++ short) := by
          simp [GroupStem.single]
        have hfound : Text.cut? " as ".toList (" as ".toList ++ short) = some ([], short) := rfl
        have hfirst : " as ".toList = ' ' :: "as ".toList := rfl
        rw [hsingle, hfirst, Text.cut?_append_of_not_mem (hblank hclause), ← hfirst, hfound]
        simp
      rw [single?, hcut]
      simp only [htrim hclause, htrim hpath, dropWhile_single stem hkind]
      simp [ne_nil_of_isIdentifier hshort]

theorem filterMap_single? (hkind : stem.kind = .classes) {names : List Text} {imports : List Import}
    (h : List.Forall₂ (WritesImport stem.path) names imports) :
    (names.map stem.single).filterMap single? = imports := by
  induction h with
  | nil => rfl
  | cons hname _ ih =>
      rw [List.map_cons, List.filterMap_cons, single?_single stem hkind hname, ih]

/-- **A group clause equals its expansion.**  It leaves the same table as the clauses for its names
one after the other, so that every type is collapsed alike.  A clause for classes whose items write
imports adds these imports. -/
theorem addUse_group_eq_expansion (t : ImportTable) (items : List GroupItem) :
    t.addUse (stem.group items) = ((groupNames items).map stem.single).foldl addUse t ∧
    (∀ type, (t.addUse (stem.group items)).collapse type =
      (((groupNames items).map stem.single).foldl addUse t).collapse type) ∧
    (stem.kind = .classes → ∀ imports,
      List.Forall₂ (WritesImport stem.path) (groupNames items) imports →
        (t.addUse (stem.group items)).imports = t.imports ++ imports) := by
  have hsame : t.addUse (stem.group items) =
      ((groupNames items).map stem.single).foldl addUse t := by
    rw [foldl_addUse, addUse, singleClauses_trim_group]
  refine ⟨hsame, fun type => by rw [hsame], fun hkind imports himports => ?_⟩
  rw [addUse, trim_group, singleClauses_group, if_pos hkind,
    filterMap_single? stem hkind himports]

/-- Three items, one of them blank and one under another name. -/
def modelItems : List GroupItem :=
  [⟨"User".toList, by decide, by decide, by decide⟩,
    ⟨" Post as Article".toList, by decide, by decide, by decide⟩,
    ⟨"\n".toList, by decide, by decide, by decide⟩]

/-- The namespace of models, written from the top. -/
def modelStem : GroupStem where
  kind := .classes
  rooted := true
  path := "App\\Models".toList
  isQualifiedName := @IsQualifiedName.qualified "App".toList _ (by decide) (.single (by decide))

theorem modelItems_addUse_group :
    modelStem.group modelItems = "\\App\\Models\\\x7bUser, Post as Article,\n\x7d".toList ∧
    empty.addUse (modelStem.group modelItems) =
      (empty.addUse "\\App\\Models\\User".toList).addUse
        "\\App\\Models\\Post as Article".toList ∧
    (empty.addUse (modelStem.group modelItems)).imports =
      [⟨"App\\Models\\User".toList, "User".toList⟩,
        ⟨"App\\Models\\Post".toList, "Article".toList⟩] := by
  have hitems : List.Forall₂ (WritesImport modelStem.path) (groupNames modelItems)
      [⟨"App\\Models\\User".toList, "User".toList⟩,
        ⟨"App\\Models\\Post".toList, "Article".toList⟩] :=
    .cons (.plain (.single (by decide)))
      (.cons (@WritesImport.renamed _ "Post".toList _ (.single (by decide)) (by decide)) .nil)
  obtain ⟨hsame, -, himports⟩ := addUse_group_eq_expansion modelStem empty modelItems
  exact ⟨by decide, hsame, himports rfl _ hitems⟩

end ImportTable
end PhpDoc
