import Mathlib
import PhpDoc.Source.ImportTable
import PhpDoc.Proofs.Reading

/-!
# What a shortened name stands for

A class name in a file stands for a fully qualified name: behind a leading backslash for the rest of
it, under an imported name for what was imported, and otherwise for a name in the namespace of the
file.  Collapsing a fully qualified name chooses a shorter name for it, and the shorter name should
stand for the same class.

What an import shortens it also gives back.  A class of the file's own namespace loses the namespace
even when an import has taken its short name for another class; there, and only there, the short
name stands for something else.
-/

namespace PhpDoc

/-- Identifiers joined by backslashes. -/
inductive IsQualifiedName : Text → Prop
  | single {name : Text} : Text.isIdentifier name = true → IsQualifiedName name
  | qualified {head rest : Text} : Text.isIdentifier head = true → IsQualifiedName rest →
      IsQualifiedName (head ++ '\\' :: rest)

namespace IsQualifiedName

variable {name : Text}

theorem isPathChar_of_mem (h : IsQualifiedName name) : ∀ c ∈ name, isPathChar c = true := by
  have hidentifier : ∀ {word : Text}, Text.isIdentifier word = true →
      ∀ c ∈ word, isPathChar c = true := by
    intro word hword c hc
    rw [isPathChar, isIdentifierChar_of_mem hword c hc, Bool.true_or]
  induction h with
  | single hname => exact hidentifier hname
  | qualified hhead _ ih =>
      intro c hc
      rcases List.mem_append.1 hc with hc | hc
      · exact hidentifier hhead c hc
      · rcases List.mem_cons.1 hc with rfl | hc
        · rfl
        · exact ih c hc

theorem exists_cons (h : IsQualifiedName name) : ∃ c rest, name = c :: rest ∧ c ≠ '\\' := by
  have hidentifier : ∀ {word : Text}, Text.isIdentifier word = true →
      ∃ c rest, word = c :: rest ∧ c ≠ '\\' := by
    intro word hword
    obtain ⟨c, rest, rfl⟩ := List.exists_cons_of_ne_nil (ne_nil_of_isIdentifier hword)
    refine ⟨c, rest, rfl, ?_⟩
    rintro rfl
    exact absurd (isIdentifierStart_of_isIdentifier hword).1 (by decide)
  cases h with
  | single hname => exact hidentifier hname
  | qualified hhead _ =>
      obtain ⟨c, rest, rfl, hc⟩ := hidentifier hhead
      exact ⟨c, _, rfl, hc⟩

end IsQualifiedName

theorem isBlank_of_isPathChar {c : Char} (h : isPathChar c = true) : isBlank c = false := by
  rcases Bool.or_eq_true_iff.1 h with hc | hc
  · exact isBlank_of_isIdentifierChar hc
  · rw [eq_of_beq hc]
    rfl

/-- What may follow an imported name in a longer one: nothing, or a backslash and more. -/
def IsTrailing (tail : Text) : Prop :=
  ∀ c ∈ tail.head?, c = '\\'

/-- The name is what the import imports, or lies below it. -/
def Import.Provides (i : Import) (name : Text) : Prop :=
  ∃ tail, name = i.fullName ++ tail ∧ IsTrailing tail

namespace ImportTable

/-! ## Collapsing one name -/

theorem typeParts_of_not_separator {name : Text} (h : ∀ c ∈ name, isTypeSeparator c = false) :
    typeParts name = (name, []) := by
  induction name with
  | nil => rfl
  | cons c name ih =>
      rw [typeParts, ih fun d hd => h d (List.mem_cons_of_mem _ hd), h c List.mem_cons_self]
      rfl

theorem isTypeSeparator_of_isPathChar {c : Char} (h : isPathChar c = true) :
    isTypeSeparator c = false := by
  rw [isTypeSeparator]
  simp only [Bool.or_eq_false_iff, beq_eq_false_iff_ne]
  refine ⟨⟨⟨?_, ?_⟩, ?_⟩, ?_⟩ <;> rintro rfl <;> exact absurd h (by decide)

/-- A text without separators is collapsed as one name. -/
theorem collapseParts_of_not_separator (t : ImportTable) {name : Text}
    (h : ∀ c ∈ name, isTypeSeparator c = false) : t.collapseParts name = t.collapseName name := by
  rw [collapseParts, typeParts_of_not_separator h, List.flatMap_nil, List.append_nil]

/-- A type that is one name is collapsed as that name. -/
theorem collapse_of_isPathChar (t : ImportTable) {name : Text}
    (h : ∀ c ∈ name, isPathChar c = true) : t.collapse name = t.collapseName name := by
  have htrim : name.trim = name :=
    Text.trim_eq_self (fun c hc => isBlank_of_isPathChar (h c (List.mem_of_mem_head? hc)))
      fun c hc => isBlank_of_isPathChar (h c (List.mem_of_getLast? hc))
  rw [collapse, htrim]
  split
  · exact absurd (h '?' List.mem_cons_self) (by decide)
  · exact t.collapseParts_of_not_separator fun c hc => isTypeSeparator_of_isPathChar (h c hc)

theorem below?_eq_some_iff {head name rest : Text} :
    below? head name = some rest ↔ name = head ++ '\\' :: rest := by
  rw [below?, Option.bind_eq_some_iff]
  constructor
  · rintro ⟨tail, hhead, htail⟩
    rw [Text.after?_eq_some_iff] at hhead htail
    rw [hhead, htail]
    rfl
  · intro h
    exact ⟨'\\' :: rest, (Text.after?_eq_some_iff _ _ _).2 h, (Text.after?_eq_some_iff _ _ _).2 rfl⟩

theorem shorten?_eq_some_iff {bare short : Text} {i : Import} :
    shorten? bare i = some short ↔
      ∃ tail, bare = i.fullName ++ tail ∧ IsTrailing tail ∧ short = i.localName ++ tail := by
  rw [shorten?]
  split
  · next heq =>
      rw [Option.some.injEq]
      constructor
      · rintro rfl
        exact ⟨[], by simpa using heq, by simp [IsTrailing], by simp⟩
      · rintro ⟨tail, htail, -, rfl⟩
        obtain rfl : tail = [] := by simpa [heq] using htail
        simp
  · next hne =>
      rw [Option.map_eq_some_iff]
      constructor
      · rintro ⟨rest, hrest, rfl⟩
        exact ⟨'\\' :: rest, below?_eq_some_iff.1 hrest, by simp [IsTrailing], rfl⟩
      · rintro ⟨tail, rfl, htail, rfl⟩
        cases tail with
        | nil => simp at hne
        | cons c rest =>
            obtain rfl : c = '\\' := htail c rfl
            exact ⟨rest, below?_eq_some_iff.2 rfl, rfl⟩

theorem shorten?_eq_none_iff {bare : Text} {i : Import} :
    shorten? bare i = none ↔ ¬ i.Provides bare := by
  rw [Option.eq_none_iff_forall_ne_some]
  constructor
  · rintro hnone ⟨tail, htail, htrailing⟩
    exact hnone _ (shorten?_eq_some_iff.2 ⟨tail, htail, htrailing, rfl⟩)
  · rintro hprovides short hshort
    obtain ⟨tail, htail, htrailing, -⟩ := shorten?_eq_some_iff.1 hshort
    exact hprovides ⟨tail, htail, htrailing⟩

theorem neighbour?_eq_some_iff {t : ImportTable} {bare rest : Text} :
    t.neighbour? bare = some rest ↔
      t.home ≠ [] ∧ bare = t.home ++ '\\' :: rest ∧ '\\' ∉ rest := by
  rw [neighbour?]
  split
  · next hhome => simp [List.isEmpty_iff.1 hhome]
  · next hhome =>
      rw [Option.filter_eq_some_iff, below?_eq_some_iff]
      simp [List.isEmpty_iff.not.1 hhome]

theorem collapse_of_isQualifiedName (t : ImportTable) {name : Text} (h : IsQualifiedName name) :
    t.collapse ('\\' :: name) =
      ((t.imports.findSome? (shorten? name)).or (t.neighbour? name)).getD ('\\' :: name) := by
  obtain ⟨c, rest, hname, hc⟩ := h.exists_cons
  have hbare : ('\\' :: name).dropWhile (· == '\\') = name := by
    simp [hname, hc]
  have hpath : ∀ d ∈ '\\' :: name, isPathChar d = true := by
    intro d hd
    rcases List.mem_cons.1 hd with rfl | hd
    · rfl
    · exact h.isPathChar_of_mem d hd
  rw [collapse_of_isPathChar t hpath, collapseName, hbare, if_neg (by simp [hname])]

/-! ## Resolving a name -/

/-- The fully qualified name, without its leading backslash, that a class name stands for. -/
def resolve (t : ImportTable) : Text → Text
  | '\\' :: rest => rest
  | name =>
    match t.imports.find? fun i => i.localName = name.takeWhile (· != '\\') with
    | some i => i.fullName ++ name.dropWhile (· != '\\')
    | none => if t.home.isEmpty then name else t.home ++ '\\' :: name

theorem resolve_backslash (t : ImportTable) (rest : Text) : t.resolve ('\\' :: rest) = rest := by
  rw [resolve]

theorem resolve_of_head? (t : ImportTable) {name : Text} (h : name.head? ≠ some '\\') :
    t.resolve name =
      match t.imports.find? fun i => i.localName = name.takeWhile (· != '\\') with
      | some i => i.fullName ++ name.dropWhile (· != '\\')
      | none => if t.home.isEmpty then name else t.home ++ '\\' :: name := by
  rw [resolve]
  rintro rest rfl
  exact h rfl

/-- The names that the imports have in the file are distinct identifiers. -/
structure HasDistinctNames (t : ImportTable) : Prop where
  isIdentifier : ∀ i ∈ t.imports, Text.isIdentifier i.localName = true
  nodup : (t.imports.map Import.localName).Nodup

theorem HasDistinctNames.backslash_not_mem {t : ImportTable} (h : t.HasDistinctNames)
    {i : Import} (hi : i ∈ t.imports) : '\\' ∉ i.localName := fun hmem =>
  absurd (isIdentifierChar_of_mem (h.isIdentifier i hi) '\\' hmem) (by decide)

theorem HasDistinctNames.find?_eq {t : ImportTable} (h : t.HasDistinctNames) {i : Import}
    (hi : i ∈ t.imports) : t.imports.find? (fun j => j.localName = i.localName) = some i := by
  cases hfound : t.imports.find? fun j => j.localName = i.localName with
  | none => simpa using List.find?_eq_none.1 hfound i hi
  | some j =>
      have heq : j.localName = i.localName := by simpa using List.find?_some hfound
      rw [List.inj_on_of_nodup_map h.nodup (List.mem_of_find?_eq_some hfound) hi heq]

/-- An imported name, and what lies below it, stands for what was imported. -/
theorem HasDistinctNames.resolve_append {t : ImportTable} (h : t.HasDistinctNames) {i : Import}
    (hi : i ∈ t.imports) {tail : Text} (htail : IsTrailing tail) :
    t.resolve (i.localName ++ tail) = i.fullName ++ tail := by
  have hrun : ∀ c ∈ i.localName, (c != '\\') = true := by
    intro c hc
    rw [bne_iff_ne]
    rintro rfl
    exact h.backslash_not_mem hi hc
  have hstop : ∀ c ∈ tail.head?, (c != '\\') = false := fun c hc => by simp [htail c hc]
  have hhead : (i.localName ++ tail).head? ≠ some '\\' := by
    obtain ⟨c, rest, hname⟩ :=
      List.exists_cons_of_ne_nil (ne_nil_of_isIdentifier (h.isIdentifier i hi))
    intro hc
    rw [hname, List.cons_append, List.head?_cons, Option.some.injEq] at hc
    exact h.backslash_not_mem hi (by simp [hname, hc])
  rw [t.resolve_of_head? hhead, Text.takeWhile_append_stop hrun hstop,
    Text.dropWhile_append_stop hrun hstop, h.find?_eq hi]

/-- A name without a backslash that no import has stands for a class of the file's namespace. -/
theorem resolve_of_not_imported {t : ImportTable} {name : Text} (hhome : t.home ≠ [])
    (hname : '\\' ∉ name) (himports : ∀ i ∈ t.imports, i.localName ≠ name) :
    t.resolve name = t.home ++ '\\' :: name := by
  have hhead : name.head? ≠ some '\\' := fun hc => hname (List.mem_of_mem_head? hc)
  have hall : name.takeWhile (· != '\\') = name :=
    List.takeWhile_eq_self_iff.2 fun c hc => by
      rw [bne_iff_ne]
      rintro rfl
      exact hname hc
  have hnone : t.imports.find? (fun i => i.localName = name) = none :=
    List.find?_eq_none.2 fun i hi => by simpa using himports i hi
  rw [t.resolve_of_head? hhead, hall, hnone]
  simp [hhome]

/-! ## Names that keep their meaning -/

/-- No import provides the class, it stands directly in the namespace of the file, and an import has
taken its short name for another class. -/
structure IsCaptured (t : ImportTable) (name : Text) : Prop where
  home_ne_nil : t.home ≠ []
  not_provided : ∀ i ∈ t.imports, ¬ i.Provides name
  taken : ∃ i ∈ t.imports, name = t.home ++ '\\' :: i.localName

/-- **When collapsing keeps the meaning of a name.**  The short form of a fully qualified name stands
for the same class, except exactly when the class stands directly in the namespace of the file,
while no import provides it and one has taken its short name. -/
theorem resolve_collapse_iff (t : ImportTable) (name : Text) (ht : t.HasDistinctNames)
    (hname : IsQualifiedName name) :
    t.resolve (t.collapse ('\\' :: name)) = name ↔ ¬ t.IsCaptured name := by
  rw [t.collapse_of_isQualifiedName hname]
  -- the rules in their order: an import, the namespace of the file, and neither
  cases hfound : t.imports.findSome? (shorten? name) with
  | some short =>
      obtain ⟨i, hi, hshort⟩ := List.exists_of_findSome?_eq_some hfound
      obtain ⟨tail, htail, htrailing, rfl⟩ := shorten?_eq_some_iff.1 hshort
      rw [Option.some_or, Option.getD_some, ht.resolve_append hi htrailing, ← htail]
      exact iff_of_true rfl fun hcaptured => hcaptured.not_provided i hi ⟨tail, htail, htrailing⟩
  | none =>
      have hnone : ∀ i ∈ t.imports, ¬ i.Provides name := fun i hi =>
        shorten?_eq_none_iff.1 (List.findSome?_eq_none_iff.1 hfound i hi)
      rw [Option.none_or]
      cases hneighbour : t.neighbour? name with
      | none =>
          rw [Option.getD_none, resolve_backslash]
          refine iff_of_true rfl fun hcaptured => ?_
          -- a captured name would have lost its namespace
          obtain ⟨i, hi, heq⟩ := hcaptured.taken
          have hsome := neighbour?_eq_some_iff.2
            ⟨hcaptured.home_ne_nil, heq, ht.backslash_not_mem hi⟩
          rw [hneighbour] at hsome
          contradiction
      | some rest =>
          obtain ⟨hhome, heq, hrest⟩ := neighbour?_eq_some_iff.1 hneighbour
          rw [Option.getD_some]
          by_cases htaken : ∃ i ∈ t.imports, i.localName = rest
          · -- the short name stands for what the import imports, which is another class
            obtain ⟨i, hi, rfl⟩ := htaken
            have hend : IsTrailing [] := by simp [IsTrailing]
            have hresolve : t.resolve i.localName = i.fullName := by
              simpa using ht.resolve_append hi hend
            rw [hresolve]
            refine iff_of_false (fun hfull => ?_) (not_not.2 ⟨hhome, hnone, i, hi, heq⟩)
            exact hnone i hi ⟨[], by simp [hfull], hend⟩
          · have hfree : ∀ i ∈ t.imports, i.localName ≠ rest := fun i hi hlocal =>
              htaken ⟨i, hi, hlocal⟩
            rw [resolve_of_not_imported hhome hrest hfree]
            refine iff_of_true heq.symm fun hcaptured => ?_
            obtain ⟨i, hi, heq'⟩ := hcaptured.taken
            have hlocal : rest = i.localName := by
              simpa using heq.symm.trans heq'
            exact hfree i hi hlocal.symm

/-- A file that imports a class under its own name, another one and a namespace under new names. -/
def controllerImports : ImportTable :=
  ((ofNamespace "App\\Http".toList).addUse
    "App\\Models\\\x7bUser, Post as Article\x7d".toList).addUse "Illuminate\\Http as Web".toList

theorem controllerImports_resolve_collapse :
    controllerImports.HasDistinctNames ∧ IsQualifiedName "App\\Http\\Kernel".toList ∧
      controllerImports.collapse "\\App\\Http\\Kernel".toList = "Kernel".toList ∧
      controllerImports.resolve "Kernel".toList = "App\\Http\\Kernel".toList := by
  have hdistinct : controllerImports.HasDistinctNames := ⟨by decide, by decide⟩
  have hname : IsQualifiedName "App\\Http\\Kernel".toList :=
    @IsQualifiedName.qualified "App".toList _ (by decide)
      (@IsQualifiedName.qualified "Http".toList _ (by decide) (.single (by decide)))
  have hcollapse : controllerImports.collapse "\\App\\Http\\Kernel".toList = "Kernel".toList := by
    decide
  have hfree : ¬ controllerImports.IsCaptured "App\\Http\\Kernel".toList := by
    intro hcaptured
    obtain ⟨i, hi, heq⟩ := hcaptured.taken
    have hnone : ∀ i ∈ controllerImports.imports,
        "App\\Http\\Kernel".toList ≠ controllerImports.home ++ '\\' :: i.localName := by decide
    exact hnone i hi heq
  refine ⟨hdistinct, hname, hcollapse, ?_⟩
  rw [← hcollapse]
  exact (resolve_collapse_iff _ _ hdistinct hname).2 hfree

/-- A file of the namespace `A` that imports a class `Foo` of another one. -/
def shadowedImports : ImportTable :=
  (ofNamespace "A".toList).addUse "B\\Foo".toList

/-- There the class `Foo` of the file's own namespace gets the name of the imported one. -/
theorem shadowedImports_collapse_changes_meaning :
    shadowedImports.HasDistinctNames ∧ IsQualifiedName "A\\Foo".toList ∧
      shadowedImports.collapse "\\A\\Foo".toList = "Foo".toList ∧
      shadowedImports.resolve (shadowedImports.collapse "\\A\\Foo".toList) = "B\\Foo".toList ∧
      shadowedImports.resolve (shadowedImports.collapse "\\A\\Foo".toList) ≠ "A\\Foo".toList :=
  ⟨⟨by decide, by decide⟩, @IsQualifiedName.qualified "A".toList _ (by decide) (.single (by decide)),
    by decide, by decide, by decide⟩

end ImportTable
end PhpDoc
