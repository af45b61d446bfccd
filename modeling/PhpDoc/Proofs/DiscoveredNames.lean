import Mathlib
import PhpDoc.Proofs.PropertyLines

/-!
# One line for each discovered name

A property line declares the name of its first variable behind a blank.  A merge reads lines more
strictly: it wants a type in front of the variable, and a name that does not start with a digit.  An
existing line about a discovered name that the merge does not read stays beside the line of the fact,
so the name is declared twice.

The main statement says that nothing else goes wrong: on plain lines and facts each discovered name is
declared by exactly one line if and only if the merge reads every existing line that declares one, or
writes that very line for a fact.  Lines with a type and names that are identifiers are always read.
-/

namespace PhpDoc

/-! ## The first variable of a line -/

/-- The word behind a sigil at the start of the text. -/
def wordAtSigil? : Text → Option Text
  | '$' :: text => (Text.run? isIdentifierChar text).map Prod.fst
  | _ => none

/-- The name of the first variable behind a blank. -/
def firstVariable? : Text → Option Text
  | [] => none
  | c :: text => (if isBlank c then wordAtSigil? text else none).or (firstVariable? text)

theorem wordAtSigil?_eq_some_iff {text name : Text} :
    wordAtSigil? text = some name ↔ ∃ rest : Text, text = '$' :: (name ++ rest) ∧ name ≠ [] ∧
      (∀ c ∈ name, isIdentifierChar c = true) ∧ ∀ c ∈ rest.head?, isIdentifierChar c = false := by
  constructor
  · intro h
    unfold wordAtSigil? at h
    split at h
    · next word =>
        obtain ⟨⟨value, rest⟩, hrun, rfl⟩ := Option.map_eq_some_iff.1 h
        obtain ⟨rfl, hne, hvalue, hrest⟩ := run?_eq_some_iff.1 hrun
        exact ⟨rest, rfl, hne, hvalue, hrest⟩
    · contradiction
  · rintro ⟨rest, rfl, hne, hname, hrest⟩
    rw [wordAtSigil?, run?_eq_some_iff.2 ⟨rfl, hne, hname, hrest⟩]
    rfl

theorem wordAtSigil?_cons_of_ne {c : Char} (hc : c ≠ '$') (text : Text) :
    wordAtSigil? (c :: text) = none := by
  rw [Option.eq_none_iff_forall_ne_some]
  intro name h
  obtain ⟨rest, hrest, -⟩ := wordAtSigil?_eq_some_iff.1 h
  exact hc (List.cons.inj hrest).1

theorem ne_sigil_of_blank {b : Char} (hb : isBlank b = true) : b ≠ '$' := by
  rintro rfl
  exact absurd hb (by decide)

theorem isIdentifierChar_of_blank {b : Char} (hb : isBlank b = true) :
    isIdentifierChar b = false := by
  by_contra h
  rw [isBlank_of_isIdentifierChar (Bool.eq_true_of_not_eq_false h)] at hb
  contradiction

/-- A blank ends the word behind a sigil. -/
theorem wordAtSigil?_append_blank {b : Char} (hb : isBlank b = true) (text rest : Text) :
    wordAtSigil? (text ++ b :: rest) = wordAtSigil? text := by
  refine Option.ext fun name => ?_
  simp only [wordAtSigil?_eq_some_iff]
  constructor
  · rintro ⟨more, hmore, hne, hname, hends⟩
    cases text with
    | nil => exact absurd (List.cons.inj hmore).1 (ne_sigil_of_blank hb)
    | cons c text =>
        obtain ⟨rfl, htext⟩ := List.cons.inj hmore
        -- the name cannot reach the blank, so it lies within the text
        obtain ⟨word, rfl, hword⟩ | ⟨word, rfl, hword⟩ := List.append_eq_append_iff.1 htext
        · cases word with
          | nil =>
              refine ⟨[], by simp, by simpa using hne, by simpa using hname, by simp⟩
          | cons d word =>
              obtain ⟨rfl, -⟩ := List.cons.inj hword
              have hd := hname b (by simp)
              rw [isIdentifierChar_of_blank hb] at hd
              contradiction
        · refine ⟨word, rfl, hne, hname, fun d hd => ?_⟩
          obtain ⟨tail, rfl⟩ := List.head?_eq_some_iff.1 hd
          exact hends d (by simp [hword])
  · rintro ⟨more, rfl, hne, hname, hends⟩
    refine ⟨more ++ b :: rest, by simp, hne, hname, fun d hd => ?_⟩
    cases more with
    | nil =>
        obtain rfl : b = d := by simpa using hd
        exact isIdentifierChar_of_blank hb
    | cons e more => exact hends d (by simpa using hd)

theorem firstVariable?_append_blank {b : Char} (hb : isBlank b = true) (front rest : Text) :
    firstVariable? (front ++ b :: rest) = (firstVariable? front).or (firstVariable? (b :: rest)) := by
  induction front with
  | nil => rfl
  | cons c front ih =>
      have hcons : firstVariable? (c :: front) =
          (if isBlank c then wordAtSigil? front else none).or (firstVariable? front) := rfl
      rw [List.cons_append, firstVariable?, wordAtSigil?_append_blank hb, ih, hcons,
        Option.or_assoc]

theorem firstVariable?_blanks_append {blanks : Text} (hne : blanks ≠ [])
    (hblanks : ∀ c ∈ blanks, isBlank c = true) (rest : Text) :
    firstVariable? (blanks ++ rest) = (wordAtSigil? rest).or (firstVariable? rest) := by
  induction blanks with
  | nil => exact absurd rfl hne
  | cons b blanks ih =>
      have hb : isBlank b = true := hblanks b List.mem_cons_self
      rw [List.cons_append, firstVariable?, if_pos hb]
      cases blanks with
      | nil => rfl
      | cons b' blanks =>
          have hb' : isBlank b' = true := hblanks b' (by simp)
          rw [ih (List.cons_ne_nil _ _) fun c hc => hblanks c (List.mem_cons_of_mem _ hc),
            List.cons_append, wordAtSigil?_cons_of_ne (ne_sigil_of_blank hb'), Option.none_or]

/-- The first variable stands in the front, or behind the blanks that follow it. -/
theorem firstVariable?_append_blanks_append {blanks : Text} (hne : blanks ≠ [])
    (hblanks : ∀ c ∈ blanks, isBlank c = true) (front rest : Text) :
    firstVariable? (front ++ (blanks ++ rest)) =
      (firstVariable? front).or ((wordAtSigil? rest).or (firstVariable? rest)) := by
  rw [← firstVariable?_blanks_append hne hblanks]
  obtain ⟨b, bs, rfl⟩ := List.exists_cons_of_ne_nil hne
  exact firstVariable?_append_blank (hblanks b List.mem_cons_self) front (bs ++ rest)

theorem firstVariable?_eq_none {text : Text} (h : '$' ∉ text) : firstVariable? text = none := by
  induction text with
  | nil => rfl
  | cons c text ih =>
      rw [List.mem_cons, not_or] at h
      have hword : wordAtSigil? text = none := by
        cases text with
        | nil => rfl
        | cons d text => exact wordAtSigil?_cons_of_ne (fun hd => h.2 (hd ▸ List.mem_cons_self)) text
      rw [firstVariable?, ih h.2, hword]
      simp

/-- Alignment changes no declared name. -/
theorem firstVariable?_alignLine (width : Nat) (line : Text) :
    firstVariable? (alignLine width line) = firstVariable? line := by
  rcases alignLine_cases width line with heq | ⟨front, blanks, token, n, hne, hblanks, hline, heq⟩
  · rw [heq]
  · have hspaces : ∀ c ∈ List.replicate (n + 1) ' ', isBlank c = true := by
      intro c hc
      rw [List.eq_of_mem_replicate hc]
      rfl
    rw [heq, hline, List.append_assoc, List.append_assoc,
      firstVariable?_append_blanks_append List.replicate_succ_ne_nil hspaces,
      firstVariable?_append_blanks_append hne hblanks]

/-! ## The name that a merge reads -/

/-- Without a reference mark, a variable is read if its word is an identifier. -/
theorem variableName?_eq_some_iff {text name : Text} (h : ¬ ['&', '$'] <+: text) :
    variableName? text = some name ↔
      wordAtSigil? text = some name ∧ Text.isIdentifier name = true := by
  constructor
  · intro hname
    simp only [variableName?, Option.bind_eq_bind, Option.bind_eq_some_iff] at hname
    obtain ⟨word, hsigil, ⟨found, rest⟩, hword, hfound⟩ := hname
    obtain rfl := Option.some.inj hfound
    obtain ⟨rfl, hidentifier, hrest⟩ := identifier?_eq_some_iff.1 hword
    rw [Text.after?_eq_some_iff] at hsigil
    have htext : text = '$' :: (found ++ rest) := by
      cases hamp : Text.after? ['&'] text with
      | none => simpa [hamp] using hsigil
      | some tail =>
          rw [hamp, Option.getD_some] at hsigil
          rw [Text.after?_eq_some_iff] at hamp
          exact absurd ⟨found ++ rest, by rw [hamp, hsigil]; rfl⟩ h
    refine ⟨wordAtSigil?_eq_some_iff.2 ⟨rest, htext, ne_nil_of_isIdentifier hidentifier,
      isIdentifierChar_of_mem hidentifier, hrest⟩, hidentifier⟩
  · rintro ⟨hword, hidentifier⟩
    obtain ⟨rest, rfl, -, -, hrest⟩ := wordAtSigil?_eq_some_iff.1 hword
    exact variableName?_sigil hidentifier hrest

/-- The type that is read is followed by blanks and the variable, and does not end in a blank. -/
theorem eq_append_of_typeAndName? {text type name : Text}
    (h : typeAndName? text = some (type, name)) :
    ∃ front c rest, type = front ++ [c] ∧ isBlank c = false ∧ text = front ++ c :: rest ∧
      declaredName? rest = some name := by
  induction text generalizing type with
  | nil => contradiction
  | cons c text ih =>
      rw [typeAndName?_cons] at h
      split at h
      · contradiction
      · split at h
        · next found hfound =>
            obtain ⟨rfl, rfl⟩ := Prod.mk.inj (Option.some.inj h)
            split at hfound
            · contradiction
            · next hc => exact ⟨[], c, text, rfl, by simpa using hc, rfl, hfound⟩
        · obtain ⟨⟨type, found⟩, hmore, heq⟩ := Option.map_eq_some_iff.1 h
          obtain ⟨rfl, rfl⟩ := Prod.mk.inj heq
          obtain ⟨front, d, rest, rfl, hd, rfl, hname⟩ := ih hmore
          exact ⟨c :: front, d, rest, rfl, hd, rfl, hname⟩

/-- A type and a name are read if a variable follows some word within the line. -/
theorem typeAndName?_ne_none {front rest name : Text} {c : Char} (hfront : '\n' ∉ front)
    (hc : isBlank c = false) (hname : declaredName? rest = some name) :
    typeAndName? (front ++ c :: rest) ≠ none := by
  induction front with
  | nil =>
      rw [List.nil_append, typeAndName?_cons, if_neg (ne_newline_of_not_blank hc), hc]
      simp [hname]
  | cons d front ih =>
      rw [List.mem_cons, not_or] at hfront
      rw [List.cons_append, typeAndName?_cons, if_neg (Ne.symm hfront.1)]
      split
      · exact Option.some_ne_none _
      · rw [ne_eq, Option.map_eq_none_iff]
        exact ih hfront.2

/-- What is read behind the keyword: a type with a name, or a name right behind the blanks. -/
theorem exists_of_afterKeyword? {body type name : Text} (h : afterKeyword? body = some (type, name)) :
    ∃ blanks rest, blanks ≠ [] ∧ (∀ c ∈ blanks, isBlank c = true) ∧
      (∀ c ∈ rest.head?, isBlank c = false) ∧ body = blanks ++ rest ∧
      (typeAndName? rest = some (type, name) ∨ variableName? rest = some name) := by
  have hne : body.takeWhile isBlank ≠ [] := by
    intro hnil
    simp [afterKeyword?, hnil] at h
  have hblanks : ∀ c ∈ body.takeWhile isBlank, isBlank c = true :=
    fun c hc => List.mem_takeWhile_imp hc
  have hrest : ∀ c ∈ (body.dropWhile isBlank).head?, isBlank c = false := by
    intro c hc
    simpa [Option.mem_def.1 hc] using List.head?_dropWhile_not isBlank body
  refine ⟨_, _, hne, hblanks, hrest, List.takeWhile_append_dropWhile.symm, ?_⟩
  rw [← List.takeWhile_append_dropWhile (p := isBlank) (l := body),
    afterKeyword?_blanks_append hne hblanks hrest, Option.or_eq_some_iff] at h
  refine h.imp_right ?_
  rintro ⟨-, h⟩
  obtain ⟨b, -, hname⟩ := Option.bind_eq_some_iff.1 h
  obtain ⟨found, hfound, heq⟩ := Option.map_eq_some_iff.1 hname
  rw [hfound, (Prod.mk.inj heq).2]

/-- Wherever a type and a name are read, a variable follows some word. -/
theorem exists_variable_of_describe? {text type name : Text}
    (h : describe? text = some (type, name)) :
    ∃ front c rest, text = front ++ c :: rest ∧ isBlank c = false ∧
      declaredName? rest = some name := by
  induction text with
  | nil => contradiction
  | cons d text ih =>
      rw [describe?, Option.or_eq_some_iff] at h
      rcases h with h | ⟨-, h⟩
      · obtain ⟨body, hbody, hread⟩ := Option.bind_eq_some_iff.1 h
        rw [Text.after?_eq_some_iff] at hbody
        obtain ⟨blanks, rest, hne, hblanks, hrest, rfl, hname | hname⟩ :=
          exists_of_afterKeyword? hread
        · obtain ⟨front, c, tail, -, hc, rfl, htail⟩ := eq_append_of_typeAndName? hname
          exact ⟨"@property".toList ++ blanks ++ front, c, tail, by simp [hbody], hc, htail⟩
        · -- the last letter of the keyword is the word in front of the variable
          refine ⟨"@propert".toList, 'y', blanks ++ rest, hbody, by decide, ?_⟩
          rw [declaredName?_blanks_append hne hblanks hrest, hname]
      · obtain ⟨front, c, rest, rfl, hc, hname⟩ := ih h
        exact ⟨d :: front, c, rest, rfl, hc, hname⟩

/-- Nothing follows the keyword of a line, or blanks do. -/
theorem TagParts.body_cases {key line : Text} (parts : TagParts key line) :
    parts.body = [] ∨ ∃ blanks rest : Text, blanks ≠ [] ∧ (∀ c ∈ blanks, isBlank c = true) ∧
      (∀ c ∈ rest.head?, isBlank c = false) ∧ parts.body = blanks ++ rest := by
  have hblank := parts.body_blank
  cases hbody : parts.body with
  | nil => exact Or.inl rfl
  | cons b body =>
      rw [hbody, List.head?_cons, Option.all_some] at hblank
      have hafter : Text.afterBlanks? (b :: body) = some (Text.trimStart body) := by
        rw [Text.afterBlanks?, if_pos hblank]
      obtain ⟨blanks, hne, hblanks, hsplit, hrest⟩ := afterBlanks?_eq_some_iff.1 hafter
      exact Or.inr ⟨blanks, _, hne, hblanks, hrest, hsplit⟩

/-- A property line of one line is read behind its keyword: what could be read later, can be read
there with a longer type. -/
theorem TagParts.describe?_eq_afterKeyword? {line : Text} (parts : TagParts "@property".toList line)
    (hline : '\n' ∉ line) : describe? line = afterKeyword? parts.body := by
  rw [parts.describe?_eq_or]
  cases hkeyword : afterKeyword? parts.body with
  | some read => rfl
  | none =>
      rw [Option.none_or, Option.eq_none_iff_forall_ne_some]
      rintro ⟨type, name⟩ hlater
      rcases parts.body_cases with hempty | ⟨blanks, rest, hne, hblanks, hrest, hbody⟩
      · rw [hempty] at hlater
        contradiction
      · have hat : '@' ∉ blanks := fun hmem => absurd (hblanks _ hmem) (by decide)
        rw [hbody, describe?_append_of_not_mem hat] at hlater
        rw [hbody, afterKeyword?_blanks_append hne hblanks hrest, Option.or_eq_none_iff] at hkeyword
        obtain ⟨front, c, tail, rfl, hc, hname⟩ := exists_variable_of_describe? hlater
        refine typeAndName?_ne_none (fun hmem => hline ?_) hc hname hkeyword.1
        rw [parts.eq_front_append, hbody]
        simp [hmem]

theorem TagParts.sigil_not_mem_front {line : Text} (parts : TagParts "@property".toList line) :
    '$' ∉ parts.front := by
  intro hmem
  rcases List.mem_append.1 hmem with hmem | hmem
  · exact absurd (parts.indent_blank _ hmem) (by decide)
  · rcases List.mem_cons.1 hmem with heq | hmem
    · exact absurd heq (by decide)
    · rcases List.mem_append.1 hmem with hmem | hmem
      · exact absurd (parts.gap_blank _ hmem) (by decide)
      · exact absurd hmem (by decide)

/-- The first variable of a property line stands behind its keyword. -/
theorem TagParts.firstVariable?_eq {line blanks rest : Text}
    (parts : TagParts "@property".toList line) (hne : blanks ≠ [])
    (hblanks : ∀ c ∈ blanks, isBlank c = true) (hbody : parts.body = blanks ++ rest) :
    firstVariable? line = (wordAtSigil? rest).or (firstVariable? rest) := by
  rw [parts.eq_front_append, hbody, firstVariable?_append_blanks_append hne hblanks,
    firstVariable?_eq_none parts.sigil_not_mem_front, Option.none_or]

/-- The name that is read from a line with a plain type is the one that the line declares. -/
theorem firstVariable?_of_describe? {line type name : Text}
    (hkey : keyword? line = some "@property".toList) (hline : '\n' ∉ line)
    (hvalue : ¬ ['&', '$'] <:+: line) (htype : firstVariable? (' ' :: type) = none)
    (h : describe? line = some (type, name)) : firstVariable? line = some name := by
  obtain ⟨parts⟩ := nonempty_tagParts hkey
  rw [parts.describe?_eq_afterKeyword? hline] at h
  obtain ⟨blanks, rest, hne, hblanks, -, hbody, hname⟩ := exists_of_afterKeyword? h
  rw [parts.firstVariable?_eq hne hblanks hbody]
  have hrest : rest <:+ line :=
    ⟨parts.front ++ blanks, by rw [List.append_assoc, ← hbody, ← parts.eq_front_append]⟩
  have hword : ∀ {text : Text}, text <:+ line → variableName? text = some name →
      wordAtSigil? text = some name := by
    intro text htext hvariable
    have hmark : ¬ ['&', '$'] <+: text := fun hstart =>
      hvalue (hstart.isInfix.trans htext.isInfix)
    exact ((variableName?_eq_some_iff hmark).1 hvariable).1
  rcases hname with hname | hname
  · obtain ⟨front, c, tail, rfl, -, rfl, htail⟩ := eq_append_of_typeAndName? hname
    obtain ⟨word, hafter, hvariable⟩ := Option.bind_eq_some_iff.1 htail
    obtain ⟨spacing, hspacing, hspacingBlank, rfl, -⟩ := afterBlanks?_eq_some_iff.1 hafter
    have hword' : wordAtSigil? word = some name := by
      refine hword (List.IsSuffix.trans ⟨front ++ c :: spacing, ?_⟩ hrest) hvariable
      simp
    -- the type has no variable, so the first one is behind the spacing
    have htype' : (wordAtSigil? (front ++ [c])).or (firstVariable? (front ++ [c])) = none :=
      (firstVariable?_blanks_append (List.cons_ne_nil ' ' []) (by simp [isBlank]) _).symm.trans htype
    rw [Option.or_eq_none_iff] at htype'
    obtain ⟨b, bs, rfl⟩ := List.exists_cons_of_ne_nil hspacing
    have hsplit : front ++ c :: (b :: bs ++ word) = (front ++ [c]) ++ (b :: bs ++ word) := by simp
    rw [hsplit, firstVariable?_append_blanks_append hspacing hspacingBlank, htype'.2,
      List.cons_append, wordAtSigil?_append_blank (hspacingBlank b List.mem_cons_self), htype'.1,
      hword']
    rfl
  · rw [hword hrest hname]
    rfl

/-! ## Lines with a type -/

/-- Whether something else than a variable follows the keyword of a property line. -/
def givesType (line : Text) : Bool :=
  (Text.cut? "@property".toList line).all fun (_, body) => body.trimStart.head? != some '$'

theorem TagParts.cut?_eq {line : Text} (parts : TagParts "@property".toList line) :
    Text.cut? "@property".toList line = some (parts.indent ++ '*' :: parts.gap, parts.body) := by
  have hkeyword : ∀ c ∈ "@property".toList, isBlank c ≠ true ∧ c ≠ '*' := by simp [isBlank]
  have hfront : ∀ c ∈ "@property".toList, c ∉ parts.indent ++ '*' :: parts.gap := by
    intro c hc hmem
    obtain ⟨hblank, hstar⟩ := hkeyword c hc
    rcases List.mem_append.1 hmem with hmem | hmem
    · exact hblank (parts.indent_blank c hmem)
    · rcases List.mem_cons.1 hmem with heq | hmem
      · exact hstar heq
      · exact hblank (parts.gap_blank c hmem)
  have hline : line = (parts.indent ++ '*' :: parts.gap) ++ ("@property".toList ++ parts.body) := by
    conv_lhs => rw [parts.line_eq]
    rw [List.append_assoc, List.cons_append]
  have hcons : "@property".toList ++ parts.body = '@' :: ("property".toList ++ parts.body) := rfl
  have hcut : Text.cut? "@property".toList ("@property".toList ++ parts.body) =
      some ([], parts.body) := by
    rw [hcons, Text.cut?, ← hcons, Text.after?_append]
  conv_lhs => rw [hline]
  rw [Text.cut?_append_of_disjoint (by decide) hfront, hcut, Option.map_some]
  simp only [List.append_nil]

theorem firstVariable?_cons_of_not_blank {c : Char} (hc : isBlank c = false) (text : Text) :
    firstVariable? (c :: text) = firstVariable? text := by
  rw [firstVariable?, hc]
  rfl

theorem firstVariable?_cons_of_blank {b : Char} (hb : isBlank b = true) (text : Text) :
    firstVariable? (b :: text) =
      (wordAtSigil? (Text.trimStart text)).or (firstVariable? text) := by
  induction text generalizing b with
  | nil => simp [firstVariable?, wordAtSigil?, Text.trimStart]
  | cons c text ih =>
      rw [firstVariable?, if_pos hb]
      cases hc : isBlank c with
      | false => rw [Text.trimStart, List.dropWhile_cons_of_neg (by simp [hc])]
      | true =>
          rw [Text.trimStart, List.dropWhile_cons_of_pos hc, ← Text.trimStart, ih hc,
            wordAtSigil?_cons_of_ne (ne_sigil_of_blank hc), Option.none_or]
          cases wordAtSigil? (Text.trimStart text) <;> rfl

/-- The first variable behind a word is read, with all that precedes it as its type. -/
theorem exists_typeAndName?_of_firstVariable? {c : Char} {text name : Text} (hnewline : c ≠ '\n')
    (hword : isBlank c = true → wordAtSigil? (Text.trimStart text) = none) (htext : '\n' ∉ text)
    (hvalue : ¬ ['&', '$'] <:+: text) (hname : Text.isIdentifier name = true)
    (h : firstVariable? text = some name) :
    ∃ type, typeAndName? (c :: text) = some (type, name) := by
  -- behind a blank the variable does not come at once, so a word precedes it wherever it comes
  induction text generalizing c with
  | nil => contradiction
  | cons d text ih =>
      rw [List.mem_cons, not_or] at htext
      have hshorter : ¬ ['&', '$'] <:+: text := fun hpair =>
        hvalue (hpair.trans (List.suffix_cons d text).isInfix)
      cases hd : isBlank d with
      | false =>
          rw [firstVariable?_cons_of_not_blank hd] at h
          obtain ⟨type, htype⟩ := ih (Ne.symm htext.1) (by simp [hd]) htext.2 hshorter h
          refine ⟨c :: type, ?_⟩
          rw [typeAndName?_cons, if_neg hnewline, declaredName?_cons_of_not_blank hd, ite_self,
            htype]
          rfl
      | true =>
          have htrim : Text.trimStart (d :: text) = Text.trimStart text :=
            List.dropWhile_cons_of_pos hd
          have hdeclared : declaredName? (d :: text) = variableName? (Text.trimStart text) := by
            rw [declaredName?, Text.afterBlanks?, if_pos hd, Option.bind_some]
          have hmark : ¬ ['&', '$'] <+: Text.trimStart text := fun hstart =>
            hshorter (hstart.isInfix.trans (List.dropWhile_suffix _).isInfix)
          rw [htrim] at hword
          rw [firstVariable?_cons_of_blank hd] at h
          rw [typeAndName?_cons, if_neg hnewline, hdeclared]
          cases hnext : wordAtSigil? (Text.trimStart text) with
          | some word =>
              have hc : isBlank c = false := by
                by_contra hblank
                rw [hword (Bool.eq_true_of_not_eq_false hblank)] at hnext
                contradiction
              rw [hnext, Option.some_or] at h
              obtain rfl := Option.some.inj h
              rw [hc, (variableName?_eq_some_iff hmark).2 ⟨hnext, hname⟩]
              exact ⟨[c], rfl⟩
          | none =>
              have hnone : variableName? (Text.trimStart text) = none := by
                rw [Option.eq_none_iff_forall_ne_some]
                intro other hother
                rw [((variableName?_eq_some_iff hmark).1 hother).1] at hnext
                contradiction
              rw [hnext, Option.none_or] at h
              obtain ⟨type, htype⟩ := ih (Ne.symm htext.1) (fun _ => hnext) htext.2 hshorter h
              refine ⟨c :: type, ?_⟩
              rw [hnone, ite_self, htype]
              rfl

/-- A property line with a type is read as declaring what it declares. -/
theorem describedName?_of_firstVariable? {line name : Text}
    (hkey : keyword? line = some "@property".toList) (hline : '\n' ∉ line)
    (hvalue : ¬ ['&', '$'] <:+: line) (htype : givesType line = true)
    (hname : Text.isIdentifier name = true) (h : firstVariable? line = some name) :
    describedName? line = some name := by
  obtain ⟨parts⟩ := nonempty_tagParts hkey
  rw [describedName?, parts.describe?_eq_afterKeyword? hline]
  rcases parts.body_cases with hempty | ⟨blanks, rest, hne, hblanks, hrest, hbody⟩
  · rw [parts.eq_front_append, hempty, List.append_nil,
      firstVariable?_eq_none parts.sigil_not_mem_front] at h
    contradiction
  · have htrim : Text.trimStart parts.body = rest := by
      rw [hbody, Text.trimStart, Text.dropWhile_append_stop hblanks hrest]
    rw [givesType, parts.cut?_eq, Option.all_some] at htype
    have htype : rest.head? ≠ some '$' := by simpa [htrim] using htype
    rw [parts.firstVariable?_eq hne hblanks hbody] at h
    rw [hbody, afterKeyword?_blanks_append hne hblanks hrest]
    cases rest with
    | nil => contradiction
    | cons c text =>
        have hc : isBlank c = false := hrest c rfl
        have hsigil : c ≠ '$' := fun heq => htype (by rw [heq]; rfl)
        have hwithin : text <:+ line :=
          ⟨parts.front ++ (blanks ++ [c]), by
            rw [List.append_assoc, List.append_assoc, List.singleton_append, ← hbody,
              ← parts.eq_front_append]⟩
        rw [wordAtSigil?_cons_of_ne hsigil, Option.none_or,
          firstVariable?_cons_of_not_blank hc] at h
        obtain ⟨type, hread⟩ := exists_typeAndName?_of_firstVariable? (ne_newline_of_not_blank hc)
          (by simp [hc]) (fun hmem => hline (hwithin.subset hmem))
          (fun hpair => hvalue (hpair.trans hwithin.isInfix)) hname h
        rw [hread]
        rfl

/-! ## One line for each name -/

/-- Property lines without a line break or a reference, and facts with words as names and without a
variable in their types. -/
structure ArePlain (existing : List Text) (facts : List PropertyFact) : Prop where
  isProperty : ∀ line ∈ existing, keyword? line = some "@property".toList
  oneLine : ∀ line ∈ existing, '\n' ∉ line
  byValue : ∀ line ∈ existing, ¬ ['&', '$'] <:+: line
  sourceLine_eq : ∀ fact ∈ facts, fact.sourceLine = none
  isWord : ∀ fact ∈ facts, fact.name ≠ [] ∧ fact.name.all isIdentifierChar = true
  type : ∀ fact ∈ facts, firstVariable? (' ' :: fact.type) = none

/-- Each discovered name is declared by one line of the merge. -/
def DeclaredOnce (existing : List Text) (facts : List PropertyFact) : Prop :=
  ∀ name ∈ facts.map PropertyFact.name,
    ((reconcile existing (.discovered facts)).map firstVariable?).count (some name) = 1

theorem firstVariable?_tagLine {type name : Text} (htype : firstVariable? (' ' :: type) = none)
    (hne : name ≠ []) (hname : name.all isIdentifierChar = true) :
    firstVariable? (tagLine "@property".toList (type ++ ' ' :: '$' :: name)) = some name := by
  have hfront : firstVariable? " * @property".toList = none := firstVariable?_eq_none (by decide)
  have hword : wordAtSigil? ('$' :: name) = some name :=
    wordAtSigil?_eq_some_iff.2
      ⟨[], by rw [List.append_nil], hne, List.all_eq_true.1 hname, by simp⟩
  have hline : tagLine "@property".toList (type ++ ' ' :: '$' :: name) =
      " * @property".toList ++ ' ' :: (type ++ ' ' :: '$' :: name) := rfl
  rw [hline, firstVariable?_append_blank rfl, hfront, Option.none_or, ← List.cons_append,
    firstVariable?_append_blank rfl, htype, Option.none_or, firstVariable?, hword]
  rfl

theorem map_firstVariable?_reconcile (existing : List Text) (facts : List PropertyFact) :
    (reconcile existing (.discovered facts)).map firstVariable? =
      (factLines existing facts).map firstVariable? ++
        (keptLines existing facts).map firstVariable? := by
  rw [reconcile, PropertyMerge.finish_foldl_addFact, align, List.map_map, ← List.map_append]
  exact List.map_congr_left fun line _ => firstVariable?_alignLine _ line

namespace ArePlain

variable {existing : List Text} {facts : List PropertyFact}

theorem firstVariable?_factLine (h : ArePlain existing facts) {fact : PropertyFact}
    (hfact : fact ∈ facts) : firstVariable? (factLine existing fact) = some fact.name := by
  cases hfind : existing.find? fun line => describe? line == some (fact.type, fact.name) with
  | none =>
      obtain ⟨hne, hname⟩ := h.isWord fact hfact
      rw [factLine, hfind, Option.getD_none, PropertyFact.render, h.sourceLine_eq fact hfact,
        Option.getD_none, firstVariable?_tagLine (h.type fact hfact) hne hname]
  | some line =>
      have hline : line ∈ existing := List.mem_of_find?_eq_some hfind
      have hdescribe : describe? line = some (fact.type, fact.name) := by
        simpa using List.find?_some hfind
      rw [factLine, hfind, Option.getD_some]
      exact firstVariable?_of_describe? (h.isProperty line hline) (h.oneLine line hline)
        (h.byValue line hline) (h.type fact hfact) hdescribe

/-- The lines of the facts declare the discovered names, in their order. -/
theorem map_firstVariable?_factLines (h : ArePlain existing facts) :
    (factLines existing facts).map firstVariable? = (discoveredNames facts).map some := by
  rw [← map_name_freshFacts, factLines, List.map_map, List.map_map]
  exact List.map_congr_left fun fact hfact =>
    h.firstVariable?_factLine (mem_of_mem_freshFacts hfact)

/-- Beyond the line of its fact, a discovered name is declared by the lines that stay. -/
theorem count_reconcile (h : ArePlain existing facts) {name : Text}
    (hname : name ∈ facts.map PropertyFact.name) :
    ((reconcile existing (.discovered facts)).map firstVariable?).count (some name) =
      1 + ((keptLines existing facts).map firstVariable?).count (some name) := by
  have hnodup : ((discoveredNames facts).map some).Nodup := by
    rw [← map_name_freshFacts]
    exact (nodup_names_freshFacts [] facts).1.map (Option.some_injective _)
  have hmem : some name ∈ (discoveredNames facts).map some :=
    List.mem_map_of_mem (List.mem_eraseDups.2 hname)
  rw [map_firstVariable?_reconcile, List.count_append, h.map_firstVariable?_factLines,
    List.count_eq_one_of_mem hnodup hmem]

theorem declaredOnce_iff (h : ArePlain existing facts) :
    DeclaredOnce existing facts ↔ ∀ line ∈ existing, ∀ name ∈ facts.map PropertyFact.name,
      firstVariable? line = some name →
        isUndiscovered facts line = false ∨ line ∈ factLines existing facts := by
  constructor
  · intro honce line hline name hname hvariable
    by_contra hkept
    rw [not_or, Bool.not_eq_false] at hkept
    have hmem : some name ∈ (keptLines existing facts).map firstVariable? :=
      List.mem_map.2 ⟨line, mem_keptLines.2 ⟨hline, hkept⟩, hvariable⟩
    have hpos := List.count_pos_iff.2 hmem
    have hcount := h.count_reconcile hname
    rw [honce name hname] at hcount
    omega
  · intro hall name hname
    rw [h.count_reconcile hname, List.count_eq_zero_of_not_mem]
    intro hmem
    obtain ⟨line, hline, hvariable⟩ := List.mem_map.1 hmem
    obtain ⟨hold, hundiscovered, hfresh⟩ := mem_keptLines.1 hline
    rcases hall line hold name hname hvariable with hread | hwritten
    · rw [hundiscovered] at hread
      contradiction
    · exact hfresh hwritten

end ArePlain

/-- **Each discovered name is declared once if the merge reads the lines about it.**  A line about a
discovered name that is neither read nor written for a fact is one line too many.  Lines with a type,
about names that are identifiers, are all read. -/
theorem declaredOnce_iff_lines_read {existing : List Text} {facts : List PropertyFact}
    (h : ArePlain existing facts) :
    (DeclaredOnce existing facts ↔ ∀ line ∈ existing, ∀ name ∈ facts.map PropertyFact.name,
      firstVariable? line = some name →
        isUndiscovered facts line = false ∨ line ∈ factLines existing facts) ∧
    ((∀ line ∈ existing, givesType line = true) →
      (∀ fact ∈ facts, Text.isIdentifier fact.name = true) → DeclaredOnce existing facts) := by
  refine ⟨h.declaredOnce_iff, fun htypes hnames => h.declaredOnce_iff.2 ?_⟩
  intro line hline name hname hvariable
  obtain ⟨fact, hfact, rfl⟩ := List.mem_map.1 hname
  have hread : describedName? line = some fact.name :=
    describedName?_of_firstVariable? (h.isProperty line hline) (h.oneLine line hline)
      (h.byValue line hline) (htypes line hline) (hnames fact hfact) hvariable
  obtain ⟨⟨type, found⟩, hdescribe, rfl⟩ := Option.map_eq_some_iff.1 hread
  exact Or.inl (isUndiscovered_eq_false hfact hdescribe)

/-- A line with a changed type, a line that is not read but is the line of its fact, and a line about
a name that was not found. -/
def accountedLines : List Text :=
  [" * @property string $label  shown in lists".toList, " * @property int $2fa".toList,
    " * @property bool $active".toList]

/-- The facts beside `accountedLines`. -/
def accountedFacts : List PropertyFact :=
  [⟨"id".toList, "int".toList, none⟩, ⟨"2fa".toList, "int".toList, none⟩,
    ⟨"label".toList, "?string".toList, none⟩]

theorem accountedLines_declaredOnce :
    ArePlain accountedLines accountedFacts ∧ DeclaredOnce accountedLines accountedFacts := by
  have hplain : ArePlain accountedLines accountedFacts :=
    ⟨by decide, by decide, by decide, by decide, by decide, by decide⟩
  exact ⟨hplain, (declaredOnce_iff_lines_read hplain).1.2 (by decide)⟩

/-- A line without a type is not read, so it stays beside the line of the fact. -/
theorem untyped_line_declared_twice :
    reconcile [" * @property $x".toList] (.discovered [⟨"x".toList, "int".toList, none⟩]) =
        [" * @property int $x".toList, " * @property     $x".toList] ∧
      ¬ DeclaredOnce [" * @property $x".toList] [⟨"x".toList, "int".toList, none⟩] := by
  have hlines : reconcile [" * @property $x".toList]
      (.discovered [⟨"x".toList, "int".toList, none⟩]) =
        [" * @property int $x".toList, " * @property     $x".toList] := by decide
  refine ⟨hlines, fun h => ?_⟩
  have hcount := h "x".toList (by decide)
  rw [hlines] at hcount
  exact absurd hcount (by decide)

end PhpDoc
