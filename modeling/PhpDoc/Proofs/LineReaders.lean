import Mathlib
import PhpDoc.Source.Declarations
import PhpDoc.Proofs.Occurrences
import PhpDoc.Proofs.Scanning

/-!
# Lines and what is declared on them

Declarations start lines, and every reader of declarations starts with a keyword in small letters
behind indentation.  So a line that starts otherwise declares nothing, whatever follows it.
-/

namespace PhpDoc

variable {α : Type} {read : Text → Option (α × Text)}

theorem eq_nil_of_lineStartsAfter {front : Text} (h : LineStartsAfter front) (hnot : '\n' ∉ front) :
    front = [] := by
  by_contra hne
  obtain ⟨before, rfl⟩ := eq_append_newline_of_lineStartsAfter h hne
  simp at hnot

/-! ## Lines that declare nothing -/

/-- Behind indentation, the line does not start with a small letter. -/
def IsInert (line : Text) : Prop :=
  ∀ c ∈ (line.dropWhile isIndent).head?, c.isLower = false

instance : DecidablePred IsInert := fun line =>
  Option.decidableForallMem (line.dropWhile isIndent).head?

/-! ## Readers -/

/-- What a reader of declarations has to do with lines: behind indentation, what it reads starts
with a small letter, and what it leaves is the end of the text, though never all of it. -/
structure IsLineReader (read : Text → Option (α × Text)) : Prop where
  starts : ∀ {text value rest}, read text = some (value, rest) →
    ∃ c ∈ (text.dropWhile isIndent).head?, c.isLower = true
  leaves : ∀ {text value rest}, read text = some (value, rest) →
    rest <:+ text ∧ rest.length < text.length

/-! ## The readers of declarations -/

/-- A keyword: small letters, at least one. -/
def IsWord (word : Text) : Prop :=
  word ≠ [] ∧ word.all Char.isLower = true

instance : DecidablePred IsWord :=
  fun word => inferInstanceAs (Decidable (word ≠ [] ∧ word.all Char.isLower = true))

theorem IsWord.exists_isLower {word text : Text} (h : IsWord word) (hstarts : word <+: text) :
    ∃ c ∈ text.head?, c.isLower = true := by
  obtain ⟨c, more, rfl⟩ := List.exists_cons_of_ne_nil h.1
  obtain ⟨rest, rfl⟩ := hstarts
  exact ⟨c, rfl, List.all_eq_true.1 h.2 c List.mem_cons_self⟩

theorem dropWhile_isIndent_eq_self {text : Text} (h : ∃ c ∈ text.head?, c.isLower = true) :
    text.dropWhile isIndent = text := by
  obtain ⟨c, hc, hlower⟩ := h
  cases text with
  | nil => rfl
  | cons d text =>
      obtain rfl : d = c := Option.some.inj hc
      have hindent : isIndent d = false := by
        by_contra hnot
        rw [Bool.not_eq_false, isIndent, Bool.or_eq_true, beq_iff_eq, beq_iff_eq] at hnot
        rcases hnot with rfl | rfl <;> simp at hlower
      simp [hindent]

theorem exists_isLower_of_readModifiers {allowed : List Text} {text : Text}
    (hallowed : ∀ word ∈ allowed, IsWord word)
    (h : ∃ c ∈ (readModifiers allowed text).2.head?, c.isLower = true) :
    ∃ c ∈ text.head?, c.isLower = true := by
  rcases (takeModifiers_spec allowed text text).2 with hnone | ⟨word, hmem, hstarts⟩
  · rw [readModifiers, hnone] at h
    exact h
  · exact (hallowed word hmem).exists_isLower hstarts

theorem readModifiers_suffix (allowed : List Text) (text : Text) :
    (readModifiers allowed text).2 <:+ text :=
  (takeModifiers_spec allowed text text).1

theorem suffix_of_after? {head text rest : Text} (h : Text.after? head text = some rest) :
    rest <:+ text :=
  ⟨head, ((Text.after?_eq_some_iff _ _ _).1 h).symm⟩

theorem suffix_of_afterBlanks? {text rest : Text} (h : text.afterBlanks? = some rest) :
    rest <:+ text := by
  obtain ⟨blanks, -, -, rfl, -⟩ := afterBlanks?_eq_some_iff.1 h
  exact List.suffix_append _ _

theorem suffix_of_run? {p : Char → Bool} {text value rest : Text}
    (h : text.run? p = some (value, rest)) : rest <:+ text :=
  ⟨value, (run?_eq_some_iff.1 h).1.symm⟩

theorem leaves_of_after? {head text rest text' : Text} (h : Text.after? head text = some rest)
    (hne : head ≠ []) (htext : text <:+ text') :
    rest <:+ text' ∧ rest.length < text'.length := by
  refine ⟨(suffix_of_after? h).trans htext, lt_of_lt_of_le ?_ htext.length_le⟩
  rw [(Text.after?_eq_some_iff _ _ _).1 h, List.length_append]
  exact Nat.lt_add_of_pos_left (List.length_pos_of_ne_nil hne)

theorem leaves_of_identifier? {text name rest text' : Text}
    (h : text.identifier? = some (name, rest)) (htext : text <:+ text') :
    rest <:+ text' ∧ rest.length < text'.length := by
  obtain ⟨heq, hname, -⟩ := identifier?_eq_some_iff.1 h
  refine ⟨List.IsSuffix.trans ⟨name, heq.symm⟩ htext, lt_of_lt_of_le ?_ htext.length_le⟩
  rw [heq, List.length_append]
  exact Nat.lt_add_of_pos_left (List.length_pos_of_ne_nil (ne_nil_of_isIdentifier hname))

theorem trimStart_suffix (text : Text) : Text.trimStart text <:+ text :=
  List.dropWhile_suffix _

theorem suffix_getD {text rest : Text} {found : Option Text}
    (h : ∀ after ∈ found, after <:+ text) (hrest : rest <:+ text) : found.getD rest <:+ text := by
  cases found with
  | none => exact hrest
  | some after => exact h after rfl

theorem isLineReader_readNamespace? : IsLineReader readNamespace? := by
  refine ⟨fun {text value rest} h => ?_, fun {text value rest} h => ?_⟩ <;>
    simp only [readNamespace?, Option.bind_eq_bind, Option.bind_eq_some_iff, Prod.exists,
      Option.pure_def, Option.some.injEq, Prod.mk.injEq] at h <;>
    obtain ⟨after, hafter, blanks, hblanks, name, next, hrun, last, hlast, rfl, rfl⟩ := h
  · have hstarts : ∃ c ∈ text.head?, c.isLower = true :=
      IsWord.exists_isLower (by decide) ⟨after, ((Text.after?_eq_some_iff _ _ _).1 hafter).symm⟩
    rwa [dropWhile_isIndent_eq_self hstarts]
  · exact leaves_of_after? hlast (by simp) <| (trimStart_suffix _).trans <|
      (suffix_of_run? hrun).trans <| (suffix_of_afterBlanks? hblanks).trans <|
      suffix_of_after? hafter

theorem readHead?_spec {keywords : List Text} {text name rest : Text}
    (hkeywords : ∀ word ∈ keywords, IsWord word)
    (h : readHead? keywords text = some (name, rest)) :
    (∃ c ∈ text.head?, c.isLower = true) ∧ rest <:+ text ∧ rest.length < text.length := by
  simp only [readHead?, Option.bind_eq_bind, Option.bind_eq_some_iff, Prod.exists] at h
  obtain ⟨keyword, after, hkeyword, name', rest', hname, h⟩ := h
  obtain ⟨hmem, blanks, -, -, hafter⟩ := keywordThenBlanks?_eq_some hkeyword
  have hclass : ∀ word ∈ classModifiers, IsWord word := by decide
  refine ⟨exists_isLower_of_readModifiers hclass ((hkeywords keyword hmem).exists_isLower
    ⟨blanks ++ after, by rw [hafter, List.append_assoc]⟩), ?_⟩
  have hrest : rest = rest' := by
    split at h
    · contradiction
    · exact ((Prod.mk.injEq _ _ _ _ ▸ Option.some.inj h : name' = name ∧ rest' = rest).2).symm
  rw [hrest]
  have hsuffix : after <:+ (readModifiers classModifiers text).2 :=
    ⟨keyword ++ blanks, hafter.symm⟩
  exact leaves_of_identifier? hname <| hsuffix.trans <| readModifiers_suffix _ _

theorem isLineReader_readClassHead? : IsLineReader readClassHead? := by
  have hkeywords : ∀ word ∈ ["class".toList], IsWord word := by decide
  refine ⟨fun h => ?_, fun h => (readHead?_spec hkeywords h).2⟩
  have hstarts := (readHead?_spec hkeywords h).1
  rwa [dropWhile_isIndent_eq_self hstarts]

theorem isLineReader_readTypeHead? : IsLineReader readTypeHead? := by
  have hkeywords : ∀ word ∈ ["class".toList, "trait".toList, "interface".toList, "enum".toList],
      IsWord word := by decide
  refine ⟨fun h => (readHead?_spec hkeywords h).1, fun h => ?_⟩
  obtain ⟨-, hsuffix, hlength⟩ := readHead?_spec hkeywords h
  exact ⟨hsuffix.trans (List.dropWhile_suffix _),
    lt_of_lt_of_le hlength (List.dropWhile_suffix _).length_le⟩

theorem readPropertyType_suffix (text : Text) : (readPropertyType text).2 <:+ text := by
  rw [readPropertyType]
  split
  · next type rest hrun =>
      simp only [Option.bind_eq_some_iff, Option.map_eq_some_iff, Prod.exists,
        Prod.mk.injEq] at hrun
      obtain ⟨type', after, hrun, rest', hblanks, rfl, rfl⟩ := hrun
      exact (suffix_of_afterBlanks? hblanks).trans (suffix_of_run? hrun)
  · exact List.suffix_rfl

theorem isWord_of_mem_propertyModifiers : ∀ word ∈ propertyModifiers, IsWord word := by decide

theorem isLineReader_readProperty? : IsLineReader readProperty? := by
  refine ⟨fun {text value rest} h => ?_, fun {text value rest} h => ?_⟩ <;>
    simp only [readProperty?, Option.bind_eq_bind, Option.bind_eq_some_iff, Prod.exists,
      Option.pure_def] at h <;>
    obtain ⟨indent, after, hindent, h⟩ := h
  · obtain ⟨rfl, -, hblank, hstop⟩ := run?_eq_some_iff.1 hindent
    rw [Text.dropWhile_append_stop hblank hstop]
    split at h
    · simp at h
    · next hmodifiers =>
        -- a modifier was read, and it stands at the start
        rcases htake : readModifiers propertyModifiers after with ⟨modifiers, next⟩
        cases modifiers with
        | nil => simp [htake] at hmodifiers
        | cons modifier modifiers =>
            cases after with
            | nil => simp [readModifiers, takeModifiers] at htake
            | cons c after =>
                rw [readModifiers, takeModifiers] at htake
                split at htake
                · next word rest' hkeyword =>
                    obtain ⟨hmem, blanks, -, -, htext⟩ := keywordThenBlanks?_eq_some hkeyword
                    exact (isWord_of_mem_propertyModifiers word hmem).exists_isLower
                      ⟨blanks ++ rest', by rw [htext, List.append_assoc]⟩
                · simp at htake
  · split at h
    · simp at h
    · simp only [Option.bind_eq_some_iff, Prod.exists, Option.some.injEq, Prod.mk.injEq] at h
      obtain ⟨next, hdollar, name, last, hname, -, rfl⟩ := h
      exact leaves_of_identifier? hname <| (suffix_of_after? hdollar).trans <|
        (readPropertyType_suffix _).trans <| (readModifiers_suffix _ _).trans <|
        suffix_of_run? hindent

theorem isLineReader_readMethod? : IsLineReader readMethod? := by
  refine ⟨fun {text value rest} h => ?_, fun {text value rest} h => ?_⟩
  · obtain ⟨keyword, hkeyword, more, hmore⟩ := exists_keyword_of_readMethod? h
    have hdrop : text.dropWhile isIndent = keyword ++ more := by
      rw [List.append_assoc] at hmore
      exact List.append_cancel_left
        ((List.takeWhile_append_dropWhile (p := isIndent) (l := text)).trans hmore.symm)
    rw [hdrop]
    exact IsWord.exists_isLower (isLower_of_mem_methodKeywords keyword hkeyword)
      (List.prefix_append _ _)
  · simp only [readMethod?, Option.bind_eq_bind, Option.bind_eq_some_iff, Prod.exists,
      Option.pure_def, Option.some.injEq, Prod.mk.injEq] at h
    obtain ⟨after, hafter, blanks, hblanks, name, next, hname, last, hparen, -, rfl⟩ := h
    have hnext : next <:+ _ := (leaves_of_identifier? hname List.suffix_rfl).1
    exact leaves_of_after? hparen (by simp) <| (trimStart_suffix _).trans <|
      hnext.trans <| (trimStart_suffix _).trans <|
      (suffix_getD (fun _ h => suffix_of_after? h) List.suffix_rfl).trans <|
      (suffix_of_afterBlanks? hblanks).trans <| (suffix_of_after? hafter).trans <|
      (readModifiers_suffix _ _).trans <| List.dropWhile_suffix _

theorem leaves_of_afterQuote? {text rest text' : Text} (h : afterQuote? text = some rest)
    (htext : text <:+ text') : rest <:+ text' ∧ rest.length < text'.length := by
  cases text with
  | nil => simp [afterQuote?] at h
  | cons c text =>
      rw [afterQuote?] at h
      split at h
      · obtain rfl := Option.some.inj h
        exact ⟨(List.suffix_cons _ _).trans htext, lt_of_lt_of_le (by simp) htext.length_le⟩
      · contradiction

theorem isLineReader_readOverride? (name : Text) : IsLineReader (readOverride? name) := by
  refine ⟨fun {text value rest} h => ?_, fun {text value rest} h => ?_⟩ <;>
    simp only [readOverride?, Option.bind_eq_bind, Option.bind_eq_some_iff, Prod.exists,
      Option.pure_def, Option.some.injEq, Prod.mk.injEq] at h <;>
    obtain ⟨after, hafter, blanks, hblanks, dollar, hdollar, equals, hequals, opened, hopened,
      value', closing, hvalue, last, hclosing, -, rfl⟩ := h
  · exact IsWord.exists_isLower (by decide)
      ⟨after, ((Text.after?_eq_some_iff _ _ _).1 hafter).symm⟩
  · refine leaves_of_afterQuote? hclosing <| (suffix_of_run? hvalue).trans <|
      (leaves_of_afterQuote? hopened List.suffix_rfl).1.trans <| (trimStart_suffix _).trans <|
      (suffix_of_after? hequals).trans <| (trimStart_suffix _).trans <|
      (suffix_of_after? hdollar).trans <| (suffix_getD ?_ List.suffix_rfl).trans <|
      (suffix_of_afterBlanks? hblanks).trans <| (suffix_of_after? hafter).trans <|
      List.dropWhile_suffix _
    intro string hstring
    obtain ⟨after', hafter', hblanks'⟩ := Option.bind_eq_some_iff.1 hstring
    exact (suffix_of_afterBlanks? hblanks').trans <| (suffix_of_after? hafter').trans <|
      suffix_getD (fun _ h => suffix_of_after? h) List.suffix_rfl

end PhpDoc
