import Mathlib
import PhpDoc.Proofs.Balance
import PhpDoc.Proofs.LineReaders

/-!
# How far readers look

A reader of declarations takes the front of a text and decides by what it takes and the character
after that.  What comes later does not matter, so a declaration is read the same way wherever the
text around it goes on differently.  No slash stands in what is read, and no blank ends it: a
declaration cannot run on into a comment.

A reader tries one thing after the other, and a failed try may have looked further ahead than what is
read in the end.  The tries are for modifiers, which end at a blank, so the word in front of that
blank decides them all.
-/

namespace PhpDoc

/-! ## Texts that lead to one another -/

/-- The text goes on to its end `rest` without the character. -/
def LeadsTo (stop : Char) (text rest : Text) : Prop :=
  ∃ front, text = front ++ rest ∧ stop ∉ front

namespace LeadsTo

variable {stop : Char} {text next rest : Text}

theorem refl (text : Text) : LeadsTo stop text text :=
  ⟨[], rfl, by simp⟩

theorem trans (h : LeadsTo stop text next) (h' : LeadsTo stop next rest) :
    LeadsTo stop text rest := by
  obtain ⟨front, rfl, hfront⟩ := h
  obtain ⟨front', rfl, hfront'⟩ := h'
  exact ⟨front ++ front', by rw [List.append_assoc], by simp [hfront, hfront']⟩

theorem of_append {front : Text} {p : Char → Bool} (h : ∀ c ∈ front, p c = true)
    (hstop : p stop = false) (rest : Text) : LeadsTo stop (front ++ rest) rest :=
  ⟨front, rfl, fun hmem => absurd ((h stop hmem).symm.trans hstop) (by decide)⟩

theorem dropWhile {p : Char → Bool} (hstop : p stop = false) (text : Text) :
    LeadsTo stop text (text.dropWhile p) := by
  have hleads : LeadsTo stop (text.takeWhile p ++ text.dropWhile p) (text.dropWhile p) :=
    of_append (fun c hc => List.mem_takeWhile_imp hc) hstop _
  rwa [List.takeWhile_append_dropWhile] at hleads

theorem trimStart (hstop : isBlank stop = false) (text : Text) :
    LeadsTo stop text text.trimStart :=
  dropWhile hstop text

theorem of_after? {word : Text} (h : Text.after? word text = some rest) (hword : stop ∉ word) :
    LeadsTo stop text rest :=
  ⟨word, (Text.after?_eq_some_iff _ _ _).1 h, hword⟩

theorem of_afterBlanks? (h : text.afterBlanks? = some rest) (hstop : isBlank stop = false) :
    LeadsTo stop text rest := by
  obtain ⟨blanks, -, hblanks, rfl, -⟩ := afterBlanks?_eq_some_iff.1 h
  exact of_append hblanks hstop rest

theorem of_run? {p : Char → Bool} {value : Text} (h : text.run? p = some (value, rest))
    (hstop : p stop = false) : LeadsTo stop text rest := by
  obtain ⟨rfl, -, hvalue, -⟩ := run?_eq_some_iff.1 h
  exact of_append hvalue hstop rest

theorem of_identifier? {name : Text} (h : text.identifier? = some (name, rest))
    (hstop : isIdentifierChar stop = false) : LeadsTo stop text rest := by
  obtain ⟨rfl, hname, -⟩ := identifier?_eq_some_iff.1 h
  exact of_append (isIdentifierChar_of_mem hname) hstop rest

theorem of_keywordThenBlanks? {keywords : List Text} {keyword : Text}
    (h : keywordThenBlanks? keywords text = some (keyword, rest))
    (hkeywords : ∀ word ∈ keywords, stop ∉ word) (hstop : isBlank stop = false) :
    LeadsTo stop text rest := by
  obtain ⟨hmem, blanks, -, hblanks, rfl⟩ := keywordThenBlanks?_eq_some h
  have hword : LeadsTo stop (keyword ++ blanks ++ rest) (blanks ++ rest) :=
    ⟨keyword, List.append_assoc _ _ _, hkeywords keyword hmem⟩
  exact hword.trans (of_append hblanks hstop rest)

theorem takeModifiers {allowed : List Text} (hallowed : ∀ word ∈ allowed, stop ∉ word)
    (hstop : isBlank stop = false) (fuel text : Text) :
    LeadsTo stop text (PhpDoc.takeModifiers allowed fuel text).2 := by
  induction fuel generalizing text with
  | nil => exact refl text
  | cons _ fuel ih =>
      rw [PhpDoc.takeModifiers]
      split
      · next modifier rest hkeyword =>
          exact (of_keywordThenBlanks? hkeyword hallowed hstop).trans (ih rest)
      · exact refl text

/-- An optional word is passed or not. -/
theorem after?_getD {word : Text} (hword : stop ∉ word) (text : Text) :
    LeadsTo stop text ((Text.after? word text).getD text) := by
  cases h : Text.after? word text with
  | none => exact refl text
  | some rest => exact of_after? h hword

end LeadsTo

/-! ## Steps of readers -/

section Steps

variable {front front' rest : Text} {c : Char}

theorem head?_append_cons (front rest rest' : Text) (c : Char) :
    (front ++ c :: rest').head? = (front ++ c :: rest).head? := by
  simp [List.head?_append]

theorem after?_append_cons {word : Text}
    (h : Text.after? word (front ++ c :: rest) = some (front' ++ c :: rest)) (rest' : Text) :
    Text.after? word (front ++ c :: rest') = some (front' ++ c :: rest') := by
  rw [Text.after?_eq_some_iff, ← List.append_assoc, List.append_cancel_right_eq] at h
  rw [Text.after?_eq_some_iff, h, List.append_assoc]

theorem dropWhile_append_cons {p : Char → Bool}
    (h : (front ++ c :: rest).dropWhile p = front' ++ c :: rest) (rest' : Text) :
    (front ++ c :: rest').dropWhile p = front' ++ c :: rest' := by
  have hparts := List.takeWhile_append_dropWhile (p := p) (l := front ++ c :: rest)
  have hstop := List.head?_dropWhile_not p (front ++ c :: rest)
  rw [h, ← List.append_assoc, List.append_cancel_right_eq] at hparts
  rw [h] at hstop
  rw [← hparts, List.append_assoc]
  refine Text.dropWhile_append_stop (fun d hd => List.mem_takeWhile_imp hd) fun d hd => ?_
  rw [head?_append_cons front' rest, Option.mem_def] at hd
  simpa [hd] using hstop

theorem afterBlanks?_append_cons
    (h : (front ++ c :: rest).afterBlanks? = some (front' ++ c :: rest)) (rest' : Text) :
    (front ++ c :: rest').afterBlanks? = some (front' ++ c :: rest') := by
  obtain ⟨blanks, hne, hblanks, heq, hstop⟩ := afterBlanks?_eq_some_iff.1 h
  rw [← List.append_assoc, List.append_cancel_right_eq] at heq
  rw [head?_append_cons front' rest' rest] at hstop
  exact afterBlanks?_eq_some_iff.2 ⟨blanks, hne, hblanks, by rw [heq, List.append_assoc], hstop⟩

theorem run?_append_cons {p : Char → Bool} {value : Text}
    (h : (front ++ c :: rest).run? p = some (value, front' ++ c :: rest)) (rest' : Text) :
    (front ++ c :: rest').run? p = some (value, front' ++ c :: rest') := by
  obtain ⟨heq, hne, hvalue, hstop⟩ := run?_eq_some_iff.1 h
  rw [← List.append_assoc, List.append_cancel_right_eq] at heq
  rw [head?_append_cons front' rest' rest] at hstop
  exact run?_eq_some_iff.2 ⟨by rw [heq, List.append_assoc], hne, hvalue, hstop⟩

theorem identifier?_append_cons {name : Text}
    (h : (front ++ c :: rest).identifier? = some (name, front' ++ c :: rest)) (rest' : Text) :
    (front ++ c :: rest').identifier? = some (name, front' ++ c :: rest') := by
  obtain ⟨heq, hname, hstop⟩ := identifier?_eq_some_iff.1 h
  rw [← List.append_assoc, List.append_cancel_right_eq] at heq
  rw [head?_append_cons front' rest' rest] at hstop
  exact identifier?_eq_some_iff.2 ⟨by rw [heq, List.append_assoc], hname, hstop⟩

end Steps

/-! ## Modifiers -/

/-- The first word of a text that blanks follow. -/
theorem takeWhile_word {word blanks : Text} (hword : ∀ c ∈ word, isBlank c = false)
    (hne : blanks ≠ []) (hblanks : ∀ c ∈ blanks, isBlank c = true) (rest : Text) :
    (word ++ (blanks ++ rest)).takeWhile (fun c => !isBlank c) = word := by
  obtain ⟨b, blanks, rfl⟩ := List.exists_cons_of_ne_nil hne
  refine Text.takeWhile_append_stop (fun c hc => by rw [hword c hc]; rfl) fun c hc => ?_
  obtain rfl : b = c := Option.some.inj hc
  rw [hblanks b List.mem_cons_self]
  rfl

theorem IsWord.isBlank_of_mem {word : Text} (h : IsWord word) : ∀ c ∈ word, isBlank c = false :=
  fun c hc => isBlank_of_isLower (List.all_eq_true.1 h.2 c hc)

section Modifiers

variable {keywords : List Text} (hkeywords : ∀ word ∈ keywords, IsWord word)
  {front front' rest : Text} {c : Char}
include hkeywords

/-- A keyword that blanks follow is found when it is the first word of the text. -/
theorem keywordThenBlanks?_append {keyword blanks : Text} (hmem : keyword ∈ keywords)
    (hne : blanks ≠ []) (hblanks : ∀ c ∈ blanks, isBlank c = true)
    (hrest : ∀ c ∈ rest.head?, isBlank c = false) :
    keywordThenBlanks? keywords (keyword ++ (blanks ++ rest)) = some (keyword, rest) := by
  have hself : ((Text.after? keyword (keyword ++ (blanks ++ rest))).bind Text.afterBlanks?) =
      some rest := by
    rw [Text.after?_append, Option.bind_some]
    exact afterBlanks?_eq_some_iff.2 ⟨blanks, hne, hblanks, rfl, hrest⟩
  cases hfound : keywordThenBlanks? keywords (keyword ++ (blanks ++ rest)) with
  | none =>
      rw [keywordThenBlanks?, List.findSome?_eq_none_iff] at hfound
      have hnone := hfound keyword hmem
      rw [hself] at hnone
      contradiction
  | some found =>
      -- another keyword would be the first word, too
      obtain ⟨other, rest'⟩ := found
      obtain ⟨k, hk, hfound⟩ := List.exists_of_findSome?_eq_some hfound
      simp only [Option.map_eq_some_iff, Prod.mk.injEq] at hfound
      obtain ⟨after, hafter, rfl, rfl⟩ := hfound
      obtain ⟨more, hmore, hblanks'⟩ := Option.bind_eq_some_iff.1 hafter
      obtain ⟨blanks', hne', hall, rfl, -⟩ := afterBlanks?_eq_some_iff.1 hblanks'
      have hwords := congrArg (List.takeWhile fun c => !isBlank c)
        ((Text.after?_eq_some_iff _ _ _).1 hmore)
      rw [takeWhile_word (hkeywords keyword hmem).isBlank_of_mem hne hblanks,
        takeWhile_word (hkeywords k hk).isBlank_of_mem hne' hall] at hwords
      rw [← hwords, hself] at hafter
      rw [hwords, Option.some.inj hafter]

theorem keywordThenBlanks?_append_cons {keyword : Text}
    (h : keywordThenBlanks? keywords (front ++ c :: rest) = some (keyword, front' ++ c :: rest))
    (rest' : Text) :
    keywordThenBlanks? keywords (front ++ c :: rest') = some (keyword, front' ++ c :: rest') := by
  obtain ⟨k, hk, hfound⟩ := List.exists_of_findSome?_eq_some h
  simp only [Option.map_eq_some_iff, Option.bind_eq_some_iff, Prod.mk.injEq] at hfound
  obtain ⟨after, ⟨more, hmore, hblanks⟩, rfl, rfl⟩ := hfound
  obtain ⟨blanks, hne, hall, rfl, hstop⟩ := afterBlanks?_eq_some_iff.1 hblanks
  rw [Text.after?_eq_some_iff, ← List.append_assoc, ← List.append_assoc,
    List.append_cancel_right_eq] at hmore
  rw [head?_append_cons front' rest' rest] at hstop
  rw [hmore, List.append_assoc, List.append_assoc]
  exact keywordThenBlanks?_append hkeywords hk hne hall hstop

/-- A word and a blank after it in front decide whether there is a keyword, whatever follows. -/
theorem keywordThenBlanks?_eq_none_append_cons {b : Char} (hb : b ∈ front)
    (hblank : isBlank b = true)
    (h : keywordThenBlanks? keywords (front ++ c :: rest) = none) (rest' : Text) :
    keywordThenBlanks? keywords (front ++ c :: rest') = none := by
  obtain ⟨word, d, more, rfl, hword, hd⟩ : ∃ (word : Text) (d : Char) (more : Text),
      front = word ++ d :: more ∧ (∀ c ∈ word, isBlank c = false) ∧ isBlank d = true := by
    cases hdrop : front.dropWhile (fun c => !isBlank c) with
    | nil => simpa [hblank] using List.dropWhile_eq_nil_iff.1 hdrop b hb
    | cons d more =>
        have hstop := List.head?_dropWhile_not (fun c => !isBlank c) front
        refine ⟨front.takeWhile (fun c => !isBlank c), d, more, ?_, fun c hc => ?_, ?_⟩
        · rw [← hdrop, List.takeWhile_append_dropWhile]
        · simpa using List.mem_takeWhile_imp hc
        · simpa [hdrop] using hstop
  cases hfound : keywordThenBlanks? keywords (word ++ d :: more ++ c :: rest') with
  | none => rfl
  | some found =>
      obtain ⟨keyword, after⟩ := found
      obtain ⟨hmem, blanks, hne, hblanks, heq⟩ := keywordThenBlanks?_eq_some hfound
      have hd' : ∀ e ∈ [d], isBlank e = true := fun e he => by rwa [List.mem_singleton.1 he]
      have hwords := congrArg (List.takeWhile fun c => !isBlank c) heq
      rw [List.append_assoc, List.cons_append, ← List.singleton_append,
        takeWhile_word hword (by simp) hd', List.append_assoc,
        takeWhile_word (hkeywords keyword hmem).isBlank_of_mem hne hblanks] at hwords
      rw [keywordThenBlanks?, List.findSome?_eq_none_iff] at h
      have hnone := h keyword hmem
      rw [← hwords, List.append_assoc, Text.after?_append, Option.bind_some, List.cons_append,
        Text.afterBlanks?, if_pos hd] at hnone
      contradiction

theorem takeModifiers_append_cons {modifiers : List Text} (fuel fuel' : Text)
    (hfuel : front.length < fuel'.length)
    (h : takeModifiers keywords fuel (front ++ c :: rest) = (modifiers, front' ++ c :: rest))
    {rest' : Text} (hnone : keywordThenBlanks? keywords (front' ++ c :: rest') = none) :
    takeModifiers keywords fuel' (front ++ c :: rest') = (modifiers, front' ++ c :: rest') := by
  have hstop : ∀ fuel', takeModifiers keywords fuel' (front' ++ c :: rest') =
      ([], front' ++ c :: rest') := by
    intro fuel'
    cases fuel' with
    | nil => rfl
    | cons _ fuel' => rw [takeModifiers, hnone]
  induction fuel generalizing front modifiers fuel' with
  | nil =>
      simp only [takeModifiers, Prod.mk.injEq, List.append_cancel_right_eq] at h
      obtain ⟨rfl, rfl⟩ := h
      exact hstop fuel'
  | cons _ fuel ih =>
      rw [takeModifiers] at h
      split at h
      · next modifier next hkeyword =>
          simp only [Prod.mk.injEq] at h
          obtain ⟨rfl, hlast⟩ := h
          -- the modifiers are read off the front
          obtain ⟨between, rfl⟩ : c :: rest <:+ next := by
            refine List.IsSuffix.trans ⟨front', hlast.symm⟩ ?_
            exact (takeModifiers_spec keywords fuel next).1
          have hnext := keywordThenBlanks?_append_cons hkeywords hkeyword rest'
          obtain ⟨-, blanks, hne, -, hfront⟩ := keywordThenBlanks?_eq_some hnext
          rw [← List.append_assoc, List.append_cancel_right_eq] at hfront
          cases fuel' with
          | nil => contradiction
          | cons _ fuel' =>
              have hshorter : between.length < fuel'.length := by
                have hpos := List.length_pos_of_ne_nil hne
                rw [hfront] at hfuel
                simp only [List.length_append, List.length_cons] at hfuel
                omega
              rw [takeModifiers, hnext]
              dsimp only
              rw [ih fuel' hshorter (Prod.ext rfl hlast)]
      · simp only [Prod.mk.injEq, List.append_cancel_right_eq] at h
        obtain ⟨rfl, rfl⟩ := h
        exact hstop fuel'

theorem readModifiers_append_cons {modifiers : List Text}
    (h : readModifiers keywords (front ++ c :: rest) = (modifiers, front' ++ c :: rest))
    {rest' : Text} (hnone : keywordThenBlanks? keywords (front' ++ c :: rest') = none) :
    readModifiers keywords (front ++ c :: rest') = (modifiers, front' ++ c :: rest') :=
  takeModifiers_append_cons hkeywords _ _ (by simp) h hnone

end Modifiers

theorem keywordThenBlanks?_takeModifiers (keywords : List Text) (fuel text : Text)
    (hfuel : text.length ≤ fuel.length) :
    keywordThenBlanks? keywords (takeModifiers keywords fuel text).2 = none := by
  induction fuel generalizing text with
  | nil =>
      obtain rfl : text = [] := List.eq_nil_of_length_eq_zero (Nat.le_zero.1 hfuel)
      cases hfound : keywordThenBlanks? keywords [] with
      | none => exact hfound
      | some found =>
          obtain ⟨-, blanks, hne, -, heq⟩ := keywordThenBlanks?_eq_some hfound
          simp [hne] at heq
  | cons _ fuel ih =>
      rw [takeModifiers]
      split
      · next modifier rest hkeyword =>
          obtain ⟨-, blanks, hne, -, rfl⟩ := keywordThenBlanks?_eq_some hkeyword
          have hpos := List.length_pos_of_ne_nil hne
          simp only [List.length_append, List.length_cons] at hfuel
          exact ih rest (by omega)
      · assumption

/-- Modifiers are read up to a text that starts with none. -/
theorem keywordThenBlanks?_readModifiers (keywords : List Text) (text : Text) :
    keywordThenBlanks? keywords (readModifiers keywords text).2 = none :=
  keywordThenBlanks?_takeModifiers keywords text text le_rfl

/-! ## Readers -/

/-- What may be read between a text and its end `rest`: no slash stands in it, and no blank ends
it. -/
def IsTaken (text rest : Text) : Prop :=
  ∃ front, text = front ++ rest ∧ '/' ∉ front ∧ ∃ c ∈ front.getLast?, isBlank c = false

theorem LeadsTo.isTaken {text last rest : Text} {c : Char} (h : LeadsTo '/' text (last ++ rest))
    (hlast : '/' ∉ last) (hc : c ∈ last.getLast?) (hblank : isBlank c = false) :
    IsTaken text rest := by
  obtain ⟨front, rfl, hfront⟩ := h
  have hne : last ≠ [] := by
    rintro rfl
    contradiction
  refine ⟨front ++ last, by rw [List.append_assoc], by simp [hfront, hlast], c, ?_, hblank⟩
  rwa [List.getLast?_append_of_ne_nil _ hne]

theorem LeadsTo.isTaken_identifier {text name next rest : Text} (h : LeadsTo '/' text next)
    (hname : next.identifier? = some (name, rest)) : IsTaken text rest := by
  obtain ⟨rfl, hident, -⟩ := identifier?_eq_some_iff.1 hname
  have hchar := isIdentifierChar_of_mem hident
  have hne := ne_nil_of_isIdentifier hident
  refine h.isTaken (fun hmem => absurd (hchar _ hmem) (by decide))
    (List.getLast?_eq_getLast_of_ne_nil hne) ?_
  exact isBlank_of_isIdentifierChar (hchar _ (List.getLast_mem hne))

/-- What a reader reads ends before any comment, and depends on the text it reads and on the
character after that. -/
structure IsNearsighted {α : Type} (read : Text → Option (α × Text)) : Prop where
  takes : ∀ {text value rest}, read text = some (value, rest) → IsTaken text rest
  append_cons : ∀ {front rest value} {c : Char},
    read (front ++ c :: rest) = some (value, c :: rest) →
    ∀ rest', read (front ++ c :: rest') = some (value, c :: rest')

theorem isNearsighted_readNamespace? : IsNearsighted readNamespace? := by
  refine ⟨fun {text value rest} h => ?_, fun {front rest value c} h rest' => ?_⟩ <;>
    simp only [readNamespace?, Option.bind_eq_bind, Option.bind_eq_some_iff, Prod.exists,
      Option.pure_def, Option.some.injEq, Prod.mk.injEq] at h <;>
    obtain ⟨after, hafter, blanks, hblanks, name, next, hrun, last, hlast, rfl, rfl⟩ := h
  · have hleads : LeadsTo '/' text next.trimStart :=
      (LeadsTo.of_after? hafter (by decide)).trans <|
      (LeadsTo.of_afterBlanks? hblanks (by decide)).trans <|
      (LeadsTo.of_run? hrun (by decide)).trans <| LeadsTo.trimStart (by decide) next
    rw [(Text.after?_eq_some_iff _ _ _).1 hlast] at hleads
    exact hleads.isTaken (by decide) rfl (by decide)
  · have htrimmed : c :: rest <:+ next.trimStart := suffix_of_after? hlast
    have hnext := htrimmed.trans (trimStart_suffix next)
    have hnamed := hnext.trans (suffix_of_run? hrun)
    obtain ⟨front₁, rfl⟩ := hnamed.trans (suffix_of_afterBlanks? hblanks)
    obtain ⟨front₂, rfl⟩ := hnamed
    obtain ⟨front₃, rfl⟩ := hnext
    obtain ⟨front₄, htrim⟩ := htrimmed
    rw [← htrim] at hlast
    have hlast' := @after?_append_cons front₄ [] rest c _ hlast rest'
    rw [← dropWhile_append_cons htrim.symm rest'] at hlast'
    simp only [readNamespace?, Option.bind_eq_bind, after?_append_cons hafter rest',
      Option.bind_some, afterBlanks?_append_cons hblanks rest', run?_append_cons hrun rest',
      Text.trimStart, hlast', List.nil_append, Option.pure_def]

/-- A failed try to read a modifier fails again, since a blank of the front comes after the next
word. -/
theorem readHead?_append_cons {keywords : List Text} (hkeywords : ∀ word ∈ keywords, IsWord word)
    {front rest name : Text} {c : Char}
    (h : readHead? keywords (front ++ c :: rest) = some (name, c :: rest)) (rest' : Text) :
    readHead? keywords (front ++ c :: rest') = some (name, c :: rest') := by
  simp only [readHead?, Option.bind_eq_bind, Option.bind_eq_some_iff, Prod.exists] at h
  obtain ⟨keyword, after, hkeyword, name', next, hname, h⟩ := h
  split at h
  · contradiction
  · next hends =>
      simp only [Option.some.injEq, Prod.mk.injEq] at h
      obtain ⟨rfl, rfl⟩ := h
      have hclass : ∀ word ∈ classModifiers, IsWord word := by decide
      have hafter : c :: rest <:+ after := ((leaves_of_identifier? hname) List.suffix_rfl).1
      obtain ⟨-, blanks, hne, hblanks, hmodified⟩ := keywordThenBlanks?_eq_some hkeyword
      obtain ⟨front₂, rfl⟩ := hafter
      rcases hread : readModifiers classModifiers (front ++ c :: rest) with ⟨modifiers, text⟩
      have hnone := keywordThenBlanks?_readModifiers classModifiers (front ++ c :: rest)
      rw [hread] at hkeyword hmodified hnone
      dsimp only at hkeyword hmodified hnone
      rw [← List.append_assoc] at hmodified
      obtain ⟨front₁, rfl⟩ : ∃ front₁, text = front₁ ++ c :: rest := ⟨_, hmodified⟩
      rw [List.append_cancel_right_eq] at hmodified
      obtain ⟨b, blanks, rfl⟩ := List.exists_cons_of_ne_nil hne
      have hb : b ∈ front₁ := by simp [hmodified]
      have hnone' := keywordThenBlanks?_eq_none_append_cons hclass hb
        (hblanks b List.mem_cons_self) hnone rest'
      simp only [readHead?, Option.bind_eq_bind, readModifiers_append_cons hclass hread hnone',
        keywordThenBlanks?_append_cons hkeywords hkeyword rest', Option.bind_some,
        @identifier?_append_cons front₂ [] rest c _ hname rest', List.nil_append,
        List.head?_cons, Option.any_some] at hends ⊢
      exact if_neg hends

theorem isTaken_of_readHead? {keywords : List Text} (hkeywords : ∀ word ∈ keywords, '/' ∉ word)
    {text name rest : Text} (h : readHead? keywords text = some (name, rest)) :
    IsTaken text rest := by
  simp only [readHead?, Option.bind_eq_bind, Option.bind_eq_some_iff, Prod.exists] at h
  obtain ⟨keyword, after, hkeyword, name', next, hname, h⟩ := h
  split at h
  · contradiction
  · simp only [Option.some.injEq, Prod.mk.injEq] at h
    obtain ⟨rfl, rfl⟩ := h
    have hmodifiers : ∀ word ∈ classModifiers, '/' ∉ word := by decide
    have hleads := (LeadsTo.takeModifiers hmodifiers (by decide) text text).trans
      (LeadsTo.of_keywordThenBlanks? hkeyword hkeywords (by decide))
    exact hleads.isTaken_identifier hname

theorem isNearsighted_readClassHead? : IsNearsighted readClassHead? :=
  ⟨isTaken_of_readHead? (by decide), readHead?_append_cons (by decide)⟩

theorem isNearsighted_readTypeHead? : IsNearsighted readTypeHead? := by
  have hkeywords : ∀ word ∈ ["class".toList, "trait".toList, "interface".toList, "enum".toList],
      IsWord word ∧ '/' ∉ word := by decide
  refine ⟨fun {text value rest} h => ?_, fun {front rest value c} h rest' => ?_⟩
  · obtain ⟨front, hfront, hslash, hlast⟩ :=
      isTaken_of_readHead? (fun word hword => (hkeywords word hword).2) h
    obtain ⟨indent, htext, hindent⟩ := LeadsTo.dropWhile (by decide : isIndent '/' = false) text
    refine ⟨indent ++ front, by rw [List.append_assoc, ← hfront, ← htext],
      by simp [hindent, hslash], ?_⟩
    obtain ⟨c, hc, hblank⟩ := hlast
    refine ⟨c, ?_, hblank⟩
    rw [Option.mem_def, List.getLast?_append, Option.mem_def.1 hc]
    rfl
  · obtain ⟨front₁, hfront₁⟩ :=
      (readHead?_spec (fun word hword => (hkeywords word hword).1) h).2.1
    rw [readTypeHead?, ← hfront₁] at h
    rw [readTypeHead?, dropWhile_append_cons hfront₁.symm rest']
    exact readHead?_append_cons (fun word hword => (hkeywords word hword).1) h rest'

theorem readPropertyType_append_cons {front front' rest : Text} {c : Char} {type : Option Text}
    (h : readPropertyType (front ++ c :: rest) = (type, front' ++ c :: rest))
    (hdollar : ∃ more, front' = '$' :: more) (rest' : Text) :
    readPropertyType (front ++ c :: rest') = (type, front' ++ c :: rest') ∧
      (front = front' ∨ ∃ b ∈ front, isBlank b = true) := by
  obtain ⟨more, rfl⟩ := hdollar
  rw [readPropertyType] at h
  split at h
  · next found after hfound =>
      simp only [Option.bind_eq_some_iff, Option.map_eq_some_iff, Prod.exists,
        Prod.mk.injEq] at hfound
      obtain ⟨word, next, hrun, blanks, hblanks, rfl, rfl⟩ := hfound
      simp only [Prod.mk.injEq] at h
      obtain ⟨rfl, rfl⟩ := h
      have hnext : c :: rest <:+ next :=
        (List.suffix_append _ _).trans (suffix_of_afterBlanks? hblanks)
      obtain ⟨front₁, rfl⟩ := hnext
      constructor
      · rw [readPropertyType, run?_append_cons hrun rest', Option.bind_some]
        dsimp only
        rw [afterBlanks?_append_cons hblanks rest']
        rfl
      · obtain ⟨bs, hne, hbs, heq, -⟩ := afterBlanks?_eq_some_iff.1 hblanks
        obtain ⟨htext, -, -, -⟩ := run?_eq_some_iff.1 hrun
        obtain ⟨b, bs, rfl⟩ := List.exists_cons_of_ne_nil hne
        rw [← List.append_assoc, List.append_cancel_right_eq] at heq htext
        exact Or.inr ⟨b, by simp [htext, heq], hbs b List.mem_cons_self⟩
  · simp only [Prod.mk.injEq, List.append_cancel_right_eq] at h
    obtain ⟨rfl, rfl⟩ := h
    exact ⟨rfl, Or.inl rfl⟩

theorem leadsTo_readPropertyType (text : Text) : LeadsTo '/' text (readPropertyType text).2 := by
  rw [readPropertyType]
  split
  · next type rest hfound =>
      simp only [Option.bind_eq_some_iff, Option.map_eq_some_iff, Prod.exists,
        Prod.mk.injEq] at hfound
      obtain ⟨word, next, hrun, after, hblanks, rfl, rfl⟩ := hfound
      exact (LeadsTo.of_run? hrun (by decide)).trans (.of_afterBlanks? hblanks (by decide))
  · exact .refl text

/-- No modifier starts with the mark of a variable. -/
theorem keywordThenBlanks?_dollar (rest : Text) :
    keywordThenBlanks? propertyModifiers ('$' :: rest) = none := by
  cases hfound : keywordThenBlanks? propertyModifiers ('$' :: rest) with
  | none => rfl
  | some found =>
      obtain ⟨hmem, blanks, -, -, heq⟩ := keywordThenBlanks?_eq_some hfound
      have hstarts : found.1 <+: '$' :: rest := ⟨blanks ++ found.2, by rw [heq, List.append_assoc]⟩
      obtain ⟨c, hc, hlower⟩ := (isWord_of_mem_propertyModifiers _ hmem).exists_isLower hstarts
      obtain rfl : '$' = c := Option.some.inj hc
      contradiction

theorem isNearsighted_readProperty? : IsNearsighted readProperty? := by
  refine ⟨fun {text value rest} h => ?_, fun {front rest value c} h rest' => ?_⟩ <;>
    simp only [readProperty?, Option.bind_eq_bind, Option.bind_eq_some_iff, Prod.exists,
      Option.pure_def] at h <;>
    obtain ⟨indent, after, hindent, h⟩ := h <;>
    split at h
  · simp at h
  · simp only [Option.bind_eq_some_iff, Prod.exists, Option.some.injEq, Prod.mk.injEq] at h
    obtain ⟨next, hdollar, name, last, hname, -, rfl⟩ := h
    have hmodifiers : ∀ word ∈ propertyModifiers, '/' ∉ word := by decide
    have hleads : LeadsTo '/' text next :=
      (LeadsTo.of_run? hindent (by decide)).trans <|
      (LeadsTo.takeModifiers hmodifiers (by decide) _ _).trans <|
      (leadsTo_readPropertyType _).trans <| LeadsTo.of_after? hdollar (by decide)
    exact hleads.isTaken_identifier hname
  · simp at h
  · next hsome =>
      simp only [Option.bind_eq_some_iff, Prod.exists, Option.some.injEq, Prod.mk.injEq] at h
      obtain ⟨next, hdollar, name, last, hname, rfl, rfl⟩ := h
      obtain ⟨front₄, rfl⟩ : c :: rest <:+ next := (leaves_of_identifier? hname List.suffix_rfl).1
      rcases hmodifiers : readModifiers propertyModifiers after with ⟨modifiers, typed⟩
      rcases htype : readPropertyType typed with ⟨type, sigil⟩
      have hnone := keywordThenBlanks?_readModifiers propertyModifiers after
      have htyped := readPropertyType_suffix typed
      have hafter := readModifiers_suffix propertyModifiers after
      rw [hmodifiers] at hsome hdollar hnone hafter
      dsimp only at hsome hdollar hnone hafter
      rw [htype] at hdollar htyped
      dsimp only at hdollar htyped
      have hsigil := (Text.after?_eq_some_iff _ _ _).1 hdollar
      obtain rfl : sigil = '$' :: front₄ ++ c :: rest := hsigil
      have hrest : c :: rest <:+ '$' :: front₄ ++ c :: rest := List.suffix_append _ _
      obtain ⟨front₁, rfl⟩ := hrest.trans (htyped.trans hafter)
      obtain ⟨front₂, rfl⟩ := hrest.trans htyped
      obtain ⟨htype', hcases⟩ := readPropertyType_append_cons htype ⟨_, rfl⟩ rest'
      have hnone' : keywordThenBlanks? propertyModifiers (front₂ ++ c :: rest') = none := by
        rcases hcases with rfl | ⟨b, hb, hblank⟩
        · exact keywordThenBlanks?_dollar _
        · exact keywordThenBlanks?_eq_none_append_cons isWord_of_mem_propertyModifiers hb hblank
            hnone rest'
      simp only [readProperty?, Option.bind_eq_bind, run?_append_cons hindent rest',
        Option.bind_some,
        readModifiers_append_cons isWord_of_mem_propertyModifiers hmodifiers hnone',
        htype', after?_append_cons hdollar rest',
        @identifier?_append_cons front₄ [] rest c _ hname rest', List.nil_append, Option.pure_def]
      exact if_neg hsome

theorem optionalChar_append_cons {front front' rest : Text} {c d : Char}
    (h : (Text.after? [d] (front ++ c :: rest)).getD (front ++ c :: rest) = front' ++ c :: rest)
    (rest' : Text) :
    (Text.after? [d] (front ++ c :: rest')).getD (front ++ c :: rest') = front' ++ c :: rest' := by
  cases hafter : Text.after? [d] (front ++ c :: rest) with
  | some more =>
      rw [hafter, Option.getD_some] at h
      rw [h] at hafter
      rw [after?_append_cons hafter rest', Option.getD_some]
  | none =>
      rw [hafter, Option.getD_none, List.append_cancel_right_eq] at h
      have hnone : Text.after? [d] (front ++ c :: rest') = none := by
        rw [Text.after?_eq_none_iff] at hafter ⊢
        rintro ⟨more, hmore⟩
        refine hafter ⟨(front ++ c :: rest).tail, ?_⟩
        have hhead : (front ++ c :: rest).head? = some d := by
          rw [head?_append_cons front rest' rest, ← hmore]
          rfl
        exact List.cons_head?_tail hhead
      rw [hnone, Option.getD_none, h]

/-- Up to its first parenthesis, a method head holds no parenthesis and no slash. -/
theorem leadsTo_of_readMethod? {stop : Char} (hstop : stop = '(' ∨ stop = '/')
    {text rest : Text} {head : MethodHead} (h : readMethod? text = some (head, rest)) :
    LeadsTo stop text ('(' :: rest) := by
  simp only [readMethod?, Option.bind_eq_bind, Option.bind_eq_some_iff, Prod.exists,
    Option.pure_def, Option.some.injEq, Prod.mk.injEq] at h
  obtain ⟨after, hafter, blanks, hblanks, name, next, hname, last, hparen, -, rfl⟩ := h
  have hlast : next.trimStart = '(' :: last := (Text.after?_eq_some_iff _ _ _).1 hparen
  rw [← hlast]
  rcases hstop with rfl | rfl <;>
    exact (LeadsTo.dropWhile (by decide) text).trans <|
      (LeadsTo.takeModifiers (by decide) (by decide) _ _).trans <|
      (LeadsTo.of_after? hafter (by decide)).trans <|
      (LeadsTo.of_afterBlanks? hblanks (by decide)).trans <|
      (LeadsTo.after?_getD (by decide) blanks).trans <|
      (LeadsTo.trimStart (by decide) _).trans <|
      (LeadsTo.of_identifier? hname (by decide)).trans <| LeadsTo.trimStart (by decide) next

theorem isNearsighted_readMethod? : IsNearsighted readMethod? := by
  refine ⟨fun {text value rest} h => ?_, fun {front rest value c} h rest' => ?_⟩
  · have hleads : LeadsTo '/' text (['('] ++ rest) := leadsTo_of_readMethod? (Or.inr rfl) h
    exact hleads.isTaken (by decide) rfl (by decide)
  · simp only [readMethod?, Option.bind_eq_bind, Option.bind_eq_some_iff, Prod.exists,
      Option.pure_def, Option.some.injEq, Prod.mk.injEq] at h
    obtain ⟨after, hafter, blanks, hblanks, name, next, hname, last, hparen, rfl, rfl⟩ := h
    have hmethod : ∀ word ∈ methodModifiers, IsWord word := by decide
    obtain ⟨plain, hplain⟩ : ∃ plain, (Text.after? ['&'] blanks).getD blanks = plain := ⟨_, rfl⟩
    obtain ⟨indented, hindented⟩ : ∃ indented, (front ++ c :: rest).dropWhile isIndent = indented :=
      ⟨_, rfl⟩
    have hnone := keywordThenBlanks?_readModifiers methodModifiers indented
    have hmodified := readModifiers_suffix methodModifiers indented
    rcases hread : readModifiers methodModifiers indented with ⟨modifiers, modified⟩
    have hplainBlanks : plain <:+ blanks := by
      rw [← hplain]
      exact suffix_getD (fun _ h => suffix_of_after? h) List.suffix_rfl
    rw [hindented, hread] at hafter ⊢
    rw [hread] at hnone hmodified
    rw [hplain] at hname
    dsimp only at hafter hnone hmodified ⊢
    -- the text that is left in the end is the end of the text at every step
    have htrimmed : c :: rest <:+ next.trimStart := suffix_of_after? hparen
    have hnext := htrimmed.trans (trimStart_suffix next)
    have hnamed := hnext.trans (leaves_of_identifier? hname List.suffix_rfl).1
    have hplain' := hnamed.trans (trimStart_suffix plain)
    have hblanks' := hplain'.trans hplainBlanks
    have hafter' := hblanks'.trans (suffix_of_afterBlanks? hblanks)
    have hmodified' := hafter'.trans (suffix_of_after? hafter)
    obtain ⟨front₁, rfl⟩ := hmodified'.trans hmodified
    obtain ⟨front₂, rfl⟩ := hmodified'
    obtain ⟨front₃, rfl⟩ := hafter'
    obtain ⟨front₄, rfl⟩ := hblanks'
    obtain ⟨front₅, rfl⟩ := hplain'
    obtain ⟨front₆, hfront₆⟩ := hnamed
    obtain ⟨front₇, rfl⟩ := hnext
    obtain ⟨front₈, hfront₈⟩ := htrimmed
    rw [← hfront₆] at hname
    rw [← hfront₈] at hparen
    obtain ⟨b, hb, hblank⟩ : ∃ b ∈ front₂, isBlank b = true := by
      obtain ⟨bs, hne, hbs, heq, -⟩ := afterBlanks?_eq_some_iff.1 hblanks
      obtain ⟨b, bs, rfl⟩ := List.exists_cons_of_ne_nil hne
      have hword := (Text.after?_eq_some_iff _ _ _).1 hafter
      rw [← List.append_assoc, List.append_cancel_right_eq] at heq hword
      exact ⟨b, by simp [hword, heq], hbs b List.mem_cons_self⟩
    have hnone' := keywordThenBlanks?_eq_none_append_cons hmethod hb hblank hnone rest'
    have hnamed' : Text.trimStart (front₅ ++ c :: rest') = front₆ ++ c :: rest' :=
      dropWhile_append_cons hfront₆.symm rest'
    have hopened' : Text.trimStart (front₇ ++ c :: rest') = front₈ ++ c :: rest' :=
      dropWhile_append_cons hfront₈.symm rest'
    simp only [readMethod?, Option.bind_eq_bind, dropWhile_append_cons hindented rest',
      readModifiers_append_cons hmethod hread hnone', after?_append_cons hafter rest',
      Option.bind_some, afterBlanks?_append_cons hblanks rest',
      optionalChar_append_cons hplain rest', hnamed', identifier?_append_cons hname rest', hopened',
      @after?_append_cons front₈ [] rest c _ hparen rest', List.nil_append, Option.pure_def]

/-! ## Quoted values -/

/-- The start of a protected property with a quoted value, up to its opening quotation mark. -/
def readOpening? (name text : Text) : Option (Unit × Text) := do
  let text ← (← Text.after? "protected".toList (text.dropWhile isIndent)).afterBlanks?
  let text :=
    ((Text.after? "string".toList ((Text.after? ['?'] text).getD text)).bind
      Text.afterBlanks?).getD text
  let text := (← Text.after? ('$' :: name) text).trimStart
  let text := (← Text.after? ['='] text).trimStart
  let text ← afterQuote? text
  return ((), text)

/-- The value up to its closing quotation mark, and what follows that. -/
def quotedValue? (opened : Text) : Option (Text × Text) := do
  let (value, closing) ← opened.run? fun c => !isQuote c
  let rest ← afterQuote? closing
  return (value, rest)

theorem readOverride?_eq (name text : Text) :
    readOverride? name text =
      (readOpening? name text).bind fun opened => quotedValue? opened.2 := by
  simp only [readOverride?, readOpening?, quotedValue?, Option.bind_eq_bind, Option.pure_def,
    Option.bind_assoc, Option.bind_some]

theorem afterQuote?_eq_some_iff {text rest : Text} :
    afterQuote? text = some rest ↔ ∃ q, isQuote q = true ∧ text = q :: rest := by
  cases text with
  | nil => simp [afterQuote?]
  | cons c text =>
      rw [afterQuote?]
      split
      · next hc => simp [hc]
      · next hc =>
          simp only [reduceCtorEq, List.cons.injEq, false_iff, not_exists, not_and]
          rintro q hq rfl
          contradiction

theorem afterQuote?_append_cons {front front' rest : Text} {c : Char}
    (h : afterQuote? (front ++ c :: rest) = some (front' ++ c :: rest)) (rest' : Text) :
    afterQuote? (front ++ c :: rest') = some (front' ++ c :: rest') := by
  obtain ⟨q, hq, heq⟩ := afterQuote?_eq_some_iff.1 h
  rw [← List.cons_append, List.append_cancel_right_eq] at heq
  exact afterQuote?_eq_some_iff.2 ⟨q, hq, by rw [heq, List.cons_append]⟩

/-- The type that may stand before a variable is passed or not. -/
theorem stringType_append_cons {front front' rest : Text} {c : Char}
    (h : ((Text.after? "string".toList ((Text.after? ['?'] (front ++ c :: rest)).getD
      (front ++ c :: rest))).bind Text.afterBlanks?).getD (front ++ c :: rest) = front' ++ c :: rest)
    (hdollar : ∃ more, front' = '$' :: more) (rest' : Text) :
    ((Text.after? "string".toList ((Text.after? ['?'] (front ++ c :: rest')).getD
      (front ++ c :: rest'))).bind Text.afterBlanks?).getD (front ++ c :: rest') =
        front' ++ c :: rest' := by
  obtain ⟨more, rfl⟩ := hdollar
  obtain ⟨plain, hplain⟩ : ∃ plain,
      (Text.after? ['?'] (front ++ c :: rest)).getD (front ++ c :: rest) = plain := ⟨_, rfl⟩
  rw [hplain] at h
  cases htype : (Text.after? "string".toList plain).bind Text.afterBlanks? with
  | none =>
      rw [htype, Option.getD_none, List.append_cancel_right_eq] at h
      rw [h]
      rfl
  | some next =>
      rw [htype, Option.getD_some] at h
      subst h
      obtain ⟨after, hafter, hblanks⟩ := Option.bind_eq_some_iff.1 htype
      have hafter' : c :: rest <:+ after :=
        (List.suffix_append _ _).trans (suffix_of_afterBlanks? hblanks)
      obtain ⟨front₁, rfl⟩ := hafter'.trans (suffix_of_after? hafter)
      obtain ⟨front₂, rfl⟩ := hafter'
      rw [optionalChar_append_cons hplain rest', after?_append_cons hafter rest', Option.bind_some,
        afterBlanks?_append_cons hblanks rest', Option.getD_some]

theorem leadsTo_stringType (text : Text) :
    LeadsTo '/' text (((Text.after? "string".toList ((Text.after? ['?'] text).getD text)).bind
      Text.afterBlanks?).getD text) := by
  cases htype : (Text.after? "string".toList ((Text.after? ['?'] text).getD text)).bind
      Text.afterBlanks? with
  | none => exact .refl text
  | some next =>
      obtain ⟨after, hafter, hblanks⟩ := Option.bind_eq_some_iff.1 htype
      exact (LeadsTo.after?_getD (by decide) text).trans <|
        (LeadsTo.of_after? hafter (by decide)).trans <| .of_afterBlanks? hblanks (by decide)

theorem isNearsighted_readOpening? {name : Text} (hname : Text.isIdentifier name = true) :
    IsNearsighted (readOpening? name) := by
  have hslash : '/' ∉ '$' :: name := by
    rw [List.mem_cons, not_or]
    exact ⟨by decide, fun hmem => absurd (isIdentifierChar_of_mem hname _ hmem) (by decide)⟩
  refine ⟨fun {text value rest} h => ?_, fun {front rest value c} h rest' => ?_⟩ <;>
    simp only [readOpening?, Option.bind_eq_bind, Option.bind_eq_some_iff, Option.pure_def,
      Option.some.injEq, Prod.mk.injEq] at h <;>
    obtain ⟨after, hafter, blanks, hblanks, dollar, hdollar, equals, hequals, last, hquote, -, rfl⟩ := h
  · obtain ⟨q, hq, hopened⟩ := afterQuote?_eq_some_iff.1 hquote
    have hleads : LeadsTo '/' text (equals.trimStart) :=
      (LeadsTo.dropWhile (by decide) text).trans <|
      (LeadsTo.of_after? hafter (by decide)).trans <|
      (LeadsTo.of_afterBlanks? hblanks (by decide)).trans <|
      (leadsTo_stringType blanks).trans <| (LeadsTo.of_after? hdollar hslash).trans <|
      (LeadsTo.trimStart (by decide) dollar).trans <|
      (LeadsTo.of_after? hequals (by decide)).trans <| LeadsTo.trimStart (by decide) equals
    rw [hopened, ← List.singleton_append] at hleads
    rw [isQuote, Bool.or_eq_true, beq_iff_eq, beq_iff_eq] at hq
    refine hleads.isTaken ?_ rfl ?_ <;> rcases hq with rfl | rfl <;> decide
  · obtain ⟨typed, htyped⟩ : ∃ typed,
        ((Text.after? "string".toList ((Text.after? ['?'] blanks).getD blanks)).bind
          Text.afterBlanks?).getD blanks = typed := ⟨_, rfl⟩
    obtain ⟨indented, hindented⟩ : ∃ indented, (front ++ c :: rest).dropWhile isIndent = indented :=
      ⟨_, rfl⟩
    have htypedBlanks : typed <:+ blanks := by
      obtain ⟨passed, hpassed, -⟩ := leadsTo_stringType blanks
      exact ⟨passed, by rw [← htyped, ← hpassed]⟩
    rw [hindented] at hafter
    rw [htyped] at hdollar
    have hopened : c :: rest <:+ equals.trimStart :=
      (leaves_of_afterQuote? hquote List.suffix_rfl).1
    have hequals' := hopened.trans (trimStart_suffix equals)
    have htrimmed := hequals'.trans (suffix_of_after? hequals)
    have hdollar' := htrimmed.trans (trimStart_suffix dollar)
    have hblanks' := (hdollar'.trans (suffix_of_after? hdollar)).trans htypedBlanks
    have hafter' := hblanks'.trans (suffix_of_afterBlanks? hblanks)
    obtain ⟨front₁, rfl⟩ := hafter'.trans (suffix_of_after? hafter)
    obtain ⟨front₂, rfl⟩ := hafter'
    obtain ⟨front₃, rfl⟩ := hblanks'
    obtain ⟨front₅, rfl⟩ := hdollar'
    obtain ⟨front₆, hfront₆⟩ := htrimmed
    obtain ⟨front₇, rfl⟩ := hequals'
    obtain ⟨front₈, hfront₈⟩ := hopened
    have hsigil := (Text.after?_eq_some_iff _ _ _).1 hdollar
    rw [← List.append_assoc] at hsigil
    subst hsigil
    rw [← hfront₆] at hequals
    rw [← hfront₈] at hquote
    have htrimmed' : Text.trimStart (front₅ ++ c :: rest') = front₆ ++ c :: rest' :=
      dropWhile_append_cons hfront₆.symm rest'
    have hopened' : Text.trimStart (front₇ ++ c :: rest') = front₈ ++ c :: rest' :=
      dropWhile_append_cons hfront₈.symm rest'
    have hdollar'' : Text.after? ('$' :: name) ('$' :: name ++ front₅ ++ c :: rest') =
        some (front₅ ++ c :: rest') := by
      rw [List.append_assoc, Text.after?_append]
    simp only [readOpening?, Option.bind_eq_bind, dropWhile_append_cons hindented rest',
      after?_append_cons hafter rest', Option.bind_some, afterBlanks?_append_cons hblanks rest',
      stringType_append_cons htyped ⟨_, rfl⟩ rest', hdollar'', htrimmed',
      after?_append_cons hequals rest', hopened',
      @afterQuote?_append_cons front₈ [] rest c hquote rest', List.nil_append, Option.pure_def]

/-- The reader of what was opened looks no further than its end: `after` gives what follows that,
nothing when it is not closed. -/
structure IsClosedBy {α : Type} (read : Text → Option (α × Text)) (after : Text → Text) : Prop where
  suffix : ∀ opened, after opened <:+ opened
  append : ∀ {front rest rest'}, after (front ++ rest) = rest → (rest = [] → rest' = []) →
    read (front ++ rest') = (read (front ++ rest)).map fun found => (found.1, rest')

/-- What follows the closing mark of a quoted value, nothing when it is not closed. -/
def afterValue (opened : Text) : Text :=
  (afterQuote? (opened.dropWhile fun c => !isQuote c)).getD []

theorem afterValue_suffix (opened : Text) : afterValue opened <:+ opened := by
  rw [afterValue]
  cases hquote : afterQuote? (opened.dropWhile fun c => !isQuote c) with
  | none => exact List.nil_suffix
  | some rest =>
      obtain ⟨q, -, hdrop⟩ := afterQuote?_eq_some_iff.1 hquote
      have hdropped := List.dropWhile_suffix (l := opened) fun c => !isQuote c
      rw [hdrop] at hdropped
      exact (List.suffix_cons q rest).trans hdropped

/-- What follows a parameter list, nothing when it is not closed. -/
def afterList (opened : Text) : Text :=
  ((enclosed? opened).map Prod.snd).getD []

theorem afterList_suffix (opened : Text) : afterList opened <:+ opened := by
  rw [afterList]
  cases hlist : enclosed? opened with
  | none => exact List.nil_suffix
  | some found =>
      obtain ⟨right, -, heq⟩ := exists_right_of_enclosed? hlist
      exact ⟨found.1 ++ [right], by rw [heq]; simp⟩

theorem Reading.enclosed?_append_cons {r : Reading} {depth : Nat} {inner rest : Text} {right : Char}
    (h : r.enclosed? depth (inner ++ right :: rest) = some (inner, rest)) (rest' : Text) :
    r.enclosed? depth (inner ++ right :: rest') = some (inner, rest') := by
  induction inner generalizing r depth with
  | nil =>
      rw [List.nil_append, enclosed?] at h ⊢
      split at h
      · next hcloses => rw [if_pos hcloses]
      · simp only [Option.map_eq_some_iff, Prod.mk.injEq, List.cons_ne_nil, false_and, and_false,
          exists_const] at h
  | cons c inner ih =>
      rw [List.cons_append, enclosed?] at h ⊢
      split at h
      · simp at h
      · next hopen =>
          simp only [Option.map_eq_some_iff, Prod.mk.injEq, List.cons.injEq, true_and,
            Prod.exists] at h
          obtain ⟨inner', rest'', h, rfl, rfl⟩ := h
          rw [if_neg hopen, ih h, Option.map_some]

/-- A parameter list is read the same way whatever follows it. -/
theorem enclosed?_append_of_afterList {front rest rest' : Text}
    (h : afterList (front ++ rest) = rest) (hnil : rest = [] → rest' = []) :
    enclosed? (front ++ rest') = (enclosed? (front ++ rest)).map fun found => (found.1, rest') := by
  rw [afterList] at h
  cases hlist : enclosed? (front ++ rest) with
  | none =>
      rw [hlist] at h
      obtain rfl : [] = rest := h
      rw [hnil rfl, hlist, Option.map_none]
  | some found =>
      obtain ⟨inner, after⟩ := found
      rw [hlist] at h
      obtain rfl : after = rest := h
      obtain ⟨right, -, heq⟩ := exists_right_of_enclosed? hlist
      have hfront : front = inner ++ [right] := by
        rw [List.append_cons, List.append_cancel_right_eq] at heq
        exact heq
      rw [hfront, List.append_assoc, List.singleton_append] at hlist ⊢
      rw [enclosed?, Reading.enclosed?_append_cons hlist, Option.map_some]

theorem quotedValue?_append {value : Text} {q : Char} (hvalue : ∀ c ∈ value, isQuote c = false)
    (hq : isQuote q = true) (rest : Text) :
    quotedValue? (value ++ q :: rest) = if value = [] then none else some (value, rest) := by
  split
  · next hnil =>
      rw [hnil, List.nil_append, quotedValue?, Text.run?, if_neg (by simp [hq])]
      rfl
  · next hne =>
      have hrun : (value ++ q :: rest).run? (fun c => !isQuote c) = some (value, q :: rest) := by
        refine run?_eq_some_iff.2 ⟨rfl, hne, fun c hc => by rw [hvalue c hc]; rfl, fun c hc => ?_⟩
        obtain rfl : q = c := Option.some.inj hc
        rw [hq]
        rfl
      simp only [quotedValue?, hrun, Option.bind_eq_bind, Option.bind_some,
        afterQuote?_eq_some_iff.2 ⟨q, hq, rfl⟩, Option.pure_def]

/-- A quoted value is read the same way whatever follows it. -/
theorem quotedValue?_append_of_afterValue {front rest rest' : Text}
    (h : afterValue (front ++ rest) = rest) (hnil : rest = [] → rest' = []) :
    quotedValue? (front ++ rest') =
      (quotedValue? (front ++ rest)).map fun found => (found.1, rest') := by
  rw [afterValue] at h
  cases hquote : afterQuote? ((front ++ rest).dropWhile fun c => !isQuote c) with
  | none =>
      rw [hquote] at h
      obtain rfl : [] = rest := h
      rw [hnil rfl]
      cases hvalue : quotedValue? (front ++ []) with
      | none => rfl
      | some found =>
          -- a closed value would have been seen
          obtain ⟨value, closing⟩ := found
          simp only [quotedValue?, Option.bind_eq_bind, Option.bind_eq_some_iff, Prod.exists,
            Option.pure_def, Option.some.injEq, Prod.mk.injEq] at hvalue
          obtain ⟨value', next, hrun, last, hlast, -, -⟩ := hvalue
          obtain ⟨heq, -, hall, hstop⟩ := run?_eq_some_iff.1 hrun
          rw [heq, Text.dropWhile_append_stop hall hstop, hlast] at hquote
          contradiction
  | some after =>
      rw [hquote] at h
      obtain rfl : after = rest := h
      obtain ⟨q, hq, hdrop⟩ := afterQuote?_eq_some_iff.1 hquote
      have hparts := List.takeWhile_append_dropWhile (p := fun c => !isQuote c) (l := front ++ after)
      rw [hdrop, List.append_cons, List.append_cancel_right_eq] at hparts
      have hvalue : ∀ c ∈ (front ++ after).takeWhile (fun c => !isQuote c), isQuote c = false := by
        intro c hc
        simpa using List.mem_takeWhile_imp hc
      rw [← hparts, List.append_assoc, List.append_assoc, List.singleton_append,
        List.singleton_append, quotedValue?_append hvalue hq, quotedValue?_append hvalue hq]
      split <;> rfl

theorem isClosedBy_quotedValue? : IsClosedBy quotedValue? afterValue :=
  ⟨afterValue_suffix, quotedValue?_append_of_afterValue⟩

theorem isClosedBy_enclosed? : IsClosedBy enclosed? afterList :=
  ⟨afterList_suffix, enclosed?_append_of_afterList⟩

/-- The characters that decide that a type is returned stand in front of any comment. -/
theorem exists_front_of_returnType? {text : Text} (h : returnType? text ≠ none) :
    ∃ front rest, text = front ++ rest ∧ '/' ∉ front ∧
      (∃ c ∈ front.getLast?, isBlank c = false) ∧
      ∀ rest', returnType? (front ++ rest') ≠ none := by
  obtain ⟨type, htype⟩ := Option.ne_none_iff_exists'.1 h
  obtain ⟨after, hafter, htype⟩ := Option.bind_eq_some_iff.1 htype
  have hcolon := (Text.after?_eq_some_iff _ _ _).1 hafter
  obtain ⟨blanks, hblanks, htext⟩ := Text.exists_blanks_append_trimStart text
  obtain ⟨blanks', hblanks', hafter'⟩ := Text.exists_blanks_append_trimStart after
  rw [hcolon] at htext
  -- a question mark may come first, and one character of the type decides
  obtain ⟨mark, c, more, hmark, hc, hmore⟩ : ∃ (mark : Text) (c : Char) (more : Text),
      (mark = [] ∨ mark = ['?']) ∧ isReturnTypeChar c = true ∧
        after.trimStart = mark ++ c :: more := by
    have hrun : ∀ {text : Text} {found : Text × Text},
        text.run? isReturnTypeChar = some found →
        ∃ c more, isReturnTypeChar c = true ∧ text = c :: more := by
      intro text found hfound
      obtain ⟨heq, hne, hall, -⟩ := run?_eq_some_iff.1 hfound
      obtain ⟨c, value, hvalue⟩ := List.exists_cons_of_ne_nil hne
      rw [hvalue] at heq hall
      exact ⟨c, value ++ found.2, hall c List.mem_cons_self, heq⟩
    dsimp only at htype
    split at htype
    · next rest hrest =>
        obtain ⟨found, hfound, -⟩ := Option.map_eq_some_iff.1 htype
        obtain ⟨c, more, hc, rfl⟩ := hrun hfound
        exact ⟨['?'], c, more, Or.inr rfl, hc, hrest⟩
    · obtain ⟨found, hfound, -⟩ := Option.map_eq_some_iff.1 htype
      obtain ⟨c, more, hc, heq⟩ := hrun hfound
      exact ⟨[], c, more, Or.inl rfl, hc, heq⟩
  have hblank : isBlank c = false := by
    simp only [isReturnTypeChar, isPathChar, Bool.or_eq_true, beq_iff_eq] at hc
    rcases hc with ((((hc | rfl) | rfl) | rfl) | rfl) | rfl
    · exact isBlank_of_isIdentifierChar hc
    all_goals decide
  refine ⟨blanks ++ ':' :: (blanks' ++ mark) ++ [c], more, ?_, ?_, ?_, fun rest' => ?_⟩
  · rw [htext, hafter', hmore]
    simp
  · have hslash : ∀ {bs : Text}, (∀ c ∈ bs, isBlank c = true) → '/' ∉ bs := fun hbs hmem =>
      absurd (hbs _ hmem) (by decide)
    have hc' : '/' ≠ c := by
      rintro rfl
      contradiction
    rcases hmark with rfl | rfl <;> simp [hslash hblanks, hslash hblanks', hc']
  · exact ⟨c, List.getLast?_concat, hblank⟩
  · have hhead : ∀ d ∈ (mark ++ c :: rest').head?, isBlank d = false := by
      intro d hd
      rcases hmark with rfl | rfl <;> obtain rfl := Option.some.inj hd
      · exact hblank
      · decide
    have hstart : Text.trimStart (blanks ++ ':' :: (blanks' ++ mark) ++ [c] ++ rest') =
        ':' :: (blanks' ++ (mark ++ c :: rest')) := by
      have hassoc : blanks ++ ':' :: (blanks' ++ mark) ++ [c] ++ rest' =
          blanks ++ ':' :: (blanks' ++ (mark ++ c :: rest')) := by simp
      rw [hassoc, Text.trimStart_append_of_blank hblanks,
        Text.trimStart_cons_of_not_blank (by decide)]
    have hnext : Text.trimStart (blanks' ++ (mark ++ c :: rest')) = mark ++ c :: rest' := by
      rw [Text.trimStart_append_of_blank hblanks', Text.trimStart_eq_self hhead]
    have hcons : Text.run? isReturnTypeChar (c :: rest') ≠ none := by simp [Text.run?, hc]
    have hcolon' : Text.after? [':'] (':' :: (blanks' ++ (mark ++ c :: rest'))) =
        some (blanks' ++ (mark ++ c :: rest')) := rfl
    simp only [returnType?, hstart, hcolon', Option.bind_eq_bind, Option.bind_some, hnext]
    rcases hmark with rfl | rfl
    · split
      · next heq =>
          obtain ⟨rfl, -⟩ := List.cons.inj heq
          contradiction
      · simpa using hcons
    · simpa using hcons

end PhpDoc
