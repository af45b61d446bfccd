import Mathlib
import PhpDoc.Source.Declarations
import PhpDoc.Source.LineScan
import PhpDoc.Proofs.Reading

/-!
# Where a scan finds things

A found thing stands at a line start of the source, its reader accepts the text from there on, and
the things found do not overlap.  The second half says what each reader of declarations gives: the
characters of names and types, and that only indentation precedes the first letter.
-/

namespace PhpDoc

variable {α : Type} {read : Text → Option (α × Text)}

/-! ## Places -/

/-- The thing was read at a line start of the source. -/
structure Found.StandsIn (f : Found α) (read : Text → Option (α × Text)) (source : Text) :
    Prop where
  source_eq : source = f.behind.reverse ++ f.ahead
  start_eq : f.start = f.behind.length
  startsLine : startsLine f.behind = true
  read_eq : read f.ahead = some (f.value, f.rest)

theorem standsIn_of_mem_scanFrom {offset skip : Nat} {behind text : Text} {f : Found α}
    (hoffset : offset = behind.length) (h : f ∈ scanFrom read offset behind skip text) :
    f.StandsIn read (behind.reverse ++ text) ∧ offset + skip ≤ f.start := by
  induction text generalizing offset skip behind with
  | nil => simp [scanFrom] at h
  | cons c text ih =>
      have hsource : behind.reverse ++ c :: text = (c :: behind).reverse ++ text := by simp
      have hnext : offset + 1 = (c :: behind).length := by simp [hoffset]
      rw [hsource]
      cases skip with
      | succ skip =>
          rw [scanFrom] at h
          obtain ⟨hstands, hle⟩ := ih hnext h
          exact ⟨hstands, by omega⟩
      | zero =>
          rw [scanFrom] at h
          split at h
          · next value rest hread =>
              split at hread
              · next hline =>
                  rcases List.mem_cons.1 h with rfl | h
                  · exact ⟨⟨hsource.symm, hoffset, hline, hread⟩, le_rfl⟩
                  · obtain ⟨hstands, hle⟩ := ih hnext h
                    exact ⟨hstands, by omega⟩
              · contradiction
          · obtain ⟨hstands, hle⟩ := ih hnext h
            exact ⟨hstands, by omega⟩

theorem standsIn_of_mem_scan {source : Text} {f : Found α} (h : f ∈ scan read source) :
    f.StandsIn read source := by
  have hfrom := @standsIn_of_mem_scanFrom α read 0 0 [] source f rfl h
  exact hfrom.1

theorem standsIn_of_scanFirst? {source : Text} {f : Found α} (h : scanFirst? read source = some f) :
    f.StandsIn read source :=
  standsIn_of_mem_scan (List.mem_of_mem_head? h)

theorem pairwise_scanFrom (offset skip : Nat) (behind text : Text)
    (hoffset : offset = behind.length) :
    (scanFrom read offset behind skip text).Pairwise fun f g =>
      f.start < g.start ∧ f.start + f.length ≤ g.start := by
  induction text generalizing offset skip behind with
  | nil => simp [scanFrom]
  | cons c text ih =>
      have hnext : offset + 1 = (c :: behind).length := by simp [hoffset]
      cases skip with
      | succ skip =>
          rw [scanFrom]
          exact ih (offset + 1) skip (c :: behind) hnext
      | zero =>
          rw [scanFrom]
          split
          · refine List.pairwise_cons.2 ⟨fun g hg => ?_, ih _ _ _ hnext⟩
            have hle := (standsIn_of_mem_scanFrom hnext hg).2
            dsimp only
            omega
          · exact ih _ _ _ hnext

/-- Things are found from left to right, each after what was read for the one before it. -/
theorem pairwise_scan (read : Text → Option (α × Text)) (source : Text) :
    (scan read source).Pairwise fun f g => f.start < g.start ∧ f.start + f.length ≤ g.start :=
  pairwise_scanFrom 0 0 [] source rfl

theorem Found.text_eq {f : Found α} {front : Text} (h : f.ahead = front ++ f.rest) :
    f.text = front := by
  rw [Found.text, Found.length, h, List.length_append, Nat.add_sub_cancel, List.take_left]

theorem takeWhile_congr {β : Type} {p q : β → Bool} {l : List β} (h : ∀ b ∈ l, p b = q b) :
    l.takeWhile p = l.takeWhile q := by
  induction l with
  | nil => rfl
  | cons b l ih =>
      rw [List.takeWhile_cons, List.takeWhile_cons, h b List.mem_cons_self,
        ih fun c hc => h c (List.mem_cons_of_mem _ hc)]

/-! ## Names and types -/

/-- The name in a type head is an identifier. -/
theorem isIdentifierChar_of_readHead? {keywords : List Text} {text name rest : Text}
    (h : readHead? keywords text = some (name, rest)) :
    ∀ c ∈ name, isIdentifierChar c = true := by
  simp only [readHead?, Option.bind_eq_bind, Option.bind_eq_some_iff, Prod.exists] at h
  obtain ⟨_, after, -, name', rest', hname, h⟩ := h
  split at h
  · contradiction
  · simp only [Option.some.injEq, Prod.mk.injEq] at h
    obtain ⟨rfl, rfl⟩ := h
    exact isIdentifierChar_of_mem (identifier?_eq_some_iff.1 hname).2.1

theorem isPathChar_of_readNamespace? {text name rest : Text}
    (h : readNamespace? text = some (name, rest)) : ∀ c ∈ name, isPathChar c = true := by
  simp only [readNamespace?, Option.bind_eq_bind, Option.bind_eq_some_iff, Prod.exists,
    Option.pure_def, Option.some.injEq, Prod.mk.injEq] at h
  obtain ⟨_, -, _, -, name', _, hname, _, -, rfl, -⟩ := h
  exact (run?_eq_some_iff.1 hname).2.2.1

theorem isPropertyTypeChar_of_readPropertyType {text type rest : Text}
    (h : readPropertyType text = (some type, rest)) :
    ∀ c ∈ type, isPropertyTypeChar c = true := by
  rw [readPropertyType] at h
  split at h
  · next type' rest' hrun =>
      simp only [Option.bind_eq_some_iff, Option.map_eq_some_iff, Prod.exists,
        Prod.mk.injEq] at hrun
      obtain ⟨type'', after, hrun, _, -, rfl, rfl⟩ := hrun
      simp only [Prod.mk.injEq, Option.some.injEq] at h
      obtain ⟨rfl, rfl⟩ := h
      exact (run?_eq_some_iff.1 hrun).2.2.1
  · simp at h

theorem readProperty?_eq_some {text rest : Text} {head : PropertyHead}
    (h : readProperty? text = some (head, rest)) :
    (∀ c ∈ head.name, isIdentifierChar c = true) ∧
      ∀ type, head.type = some type → ∀ c ∈ type, isPropertyTypeChar c = true := by
  simp only [readProperty?, Option.bind_eq_bind, Option.bind_eq_some_iff, Prod.exists,
    Option.pure_def] at h
  obtain ⟨_, after, -, h⟩ := h
  split at h
  · simp at h
  · simp only [Option.bind_eq_some_iff, Prod.exists, Option.some.injEq, Prod.mk.injEq] at h
    obtain ⟨_, -, name, _, hname, rfl, -⟩ := h
    exact ⟨isIdentifierChar_of_mem (identifier?_eq_some_iff.1 hname).2.1, fun type htype =>
      isPropertyTypeChar_of_readPropertyType (Prod.ext htype rfl)⟩

/-! ## Keywords -/

theorem keywordThenBlanks?_eq_some {keywords : List Text} {text keyword rest : Text}
    (h : keywordThenBlanks? keywords text = some (keyword, rest)) :
    keyword ∈ keywords ∧ ∃ blanks : Text, blanks ≠ [] ∧ (∀ c ∈ blanks, isBlank c = true) ∧
      text = keyword ++ blanks ++ rest := by
  obtain ⟨k, hk, hfound⟩ := List.exists_of_findSome?_eq_some h
  simp only [Option.map_eq_some_iff, Option.bind_eq_some_iff, Prod.mk.injEq] at hfound
  obtain ⟨rest', ⟨after, hafter, hblanks⟩, rfl, rfl⟩ := hfound
  refine ⟨hk, ?_⟩
  rw [Text.after?_eq_some_iff] at hafter
  obtain ⟨blanks, hne, hblank, rfl, -⟩ := afterBlanks?_eq_some_iff.1 hblanks
  exact ⟨blanks, hne, hblank, by rw [hafter, List.append_assoc]⟩

/-- Modifiers are read off the front of a text, and the first of them starts it. -/
theorem takeModifiers_spec (allowed : List Text) (fuel text : Text) :
    (takeModifiers allowed fuel text).2 <:+ text ∧
      ((takeModifiers allowed fuel text).2 = text ∨ ∃ keyword ∈ allowed, keyword <+: text) := by
  induction fuel generalizing text with
  | nil => exact ⟨List.suffix_rfl, Or.inl rfl⟩
  | cons _ fuel ih =>
      rw [takeModifiers]
      split
      · next modifier rest hkeyword =>
          obtain ⟨hmem, blanks, -, -, htext⟩ := keywordThenBlanks?_eq_some hkeyword
          have hrest : rest <:+ text := ⟨modifier ++ blanks, htext.symm⟩
          refine ⟨(ih rest).1.trans hrest, Or.inr ⟨modifier, hmem, blanks ++ rest, ?_⟩⟩
          rw [htext, List.append_assoc]
      · exact ⟨List.suffix_rfl, Or.inl rfl⟩

/-- Every keyword of a method head is made of small letters. -/
theorem isLower_of_mem_methodKeywords :
    ∀ keyword ∈ "function".toList :: methodModifiers, keyword ≠ [] ∧
      keyword.all Char.isLower = true := by
  decide

/-- A method head starts with a keyword, behind nothing but indentation. -/
theorem exists_keyword_of_readMethod? {text rest : Text} {head : MethodHead}
    (h : readMethod? text = some (head, rest)) :
    ∃ keyword ∈ "function".toList :: methodModifiers,
      text.takeWhile isIndent ++ keyword <+: text := by
  simp only [readMethod?, Option.bind_eq_bind, Option.bind_eq_some_iff] at h
  obtain ⟨after, hafter, -⟩ := h
  obtain ⟨keyword, hkeyword, hstarts⟩ : ∃ keyword ∈ "function".toList :: methodModifiers,
      keyword <+: text.dropWhile isIndent := by
    rcases (takeModifiers_spec methodModifiers (text.dropWhile isIndent)
      (text.dropWhile isIndent)).2 with hnone | ⟨keyword, hmem, hstarts⟩
    · rw [readModifiers, hnone, Text.after?_eq_some_iff] at hafter
      exact ⟨_, List.mem_cons_self, after, hafter.symm⟩
    · exact ⟨keyword, List.mem_cons_of_mem _ hmem, hstarts⟩
  obtain ⟨more, hmore⟩ := hstarts
  refine ⟨keyword, hkeyword, more, ?_⟩
  rw [List.append_assoc, hmore, List.takeWhile_append_dropWhile]

/-- A type head ends with the name. -/
theorem exists_front_of_readHead? {keywords : List Text} {text name rest : Text}
    (h : readHead? keywords text = some (name, rest)) :
    name ≠ [] ∧ ∃ front, text = front ++ name ++ rest := by
  simp only [readHead?, Option.bind_eq_bind, Option.bind_eq_some_iff, Prod.exists] at h
  obtain ⟨keyword, after, hkeyword, name', rest', hname, h⟩ := h
  split at h
  · contradiction
  · simp only [Option.some.injEq, Prod.mk.injEq] at h
    obtain ⟨rfl, rfl⟩ := h
    obtain ⟨hafter, hident, -⟩ := identifier?_eq_some_iff.1 hname
    obtain ⟨-, blanks, -, -, hmodified⟩ := keywordThenBlanks?_eq_some hkeyword
    obtain ⟨front, hfront⟩ := (takeModifiers_spec classModifiers text text).1
    refine ⟨ne_nil_of_isIdentifier hident, front ++ keyword ++ blanks, ?_⟩
    rw [← hfront, ← readModifiers, hmodified, hafter]
    simp

end PhpDoc
