import Mathlib
import PhpDoc.Text.Identifier
import PhpDoc.Proofs.Groups

/-!
# How block lines are read

A line carries a keyword exactly when it has the shape `* @tag` with blanks around the star and a
blank or the end of the line after the keyword.  Reading is stable: a line as it is kept in its
group is read as itself, under the same key, so writing the kept lines and reading them again loses
nothing.  A carriage return at the end of a line does not change its keyword.
-/

namespace PhpDoc

/-! ## Characters -/

theorem toNat_of_isLower {c : Char} (h : c.isLower = true) : 97 ≤ c.toNat ∧ c.toNat ≤ 122 := by
  simpa [Char.isLower, UInt32.le_iff_toNat_le] using h

theorem isBlank_of_isLower {c : Char} (h : c.isLower = true) : isBlank c = false := by
  have hc := toNat_of_isLower h
  simp only [isBlank, Bool.or_eq_false_iff, Bool.and_eq_false_iff, beq_eq_false_iff_ne,
    decide_eq_false_iff_not]
  omega

theorem isBlank_of_isKeywordChar {c : Char} (h : isKeywordChar c = true) : isBlank c = false := by
  rcases Bool.or_eq_true_iff.1 h with hc | hc
  · exact isBlank_of_isLower hc
  · rw [eq_of_beq hc]
    rfl

theorem toNat_of_isIdentifierChar {c : Char} (h : isIdentifierChar c = true) :
    48 ≤ c.toNat ∧ c.toNat ≤ 122 := by
  simp only [isIdentifierChar, Char.isAlphanum, Char.isAlpha, Char.isUpper, Char.isLower,
    Char.isDigit, Bool.or_eq_true, Bool.and_eq_true, decide_eq_true_eq, beq_iff_eq,
    UInt32.le_iff_toNat_le] at h
  have hval : c.toNat = c.val.toNat := rfl
  rcases h with ((h | h) | h) | rfl
  · exact ⟨by simp at h; omega, by simp at h; omega⟩
  · exact ⟨by simp at h; omega, by simp at h; omega⟩
  · exact ⟨by simp at h; omega, by simp at h; omega⟩
  · decide

theorem isBlank_of_isIdentifierChar {c : Char} (h : isIdentifierChar c = true) :
    isBlank c = false := by
  have hc := toNat_of_isIdentifierChar h
  simp only [isBlank, Bool.or_eq_false_iff, Bool.and_eq_false_iff, beq_eq_false_iff_ne,
    decide_eq_false_iff_not, ne_eq]
  omega

theorem isIdentifierChar_of_isIdentifierStart {c : Char} (h : isIdentifierStart c = true) :
    isIdentifierChar c = true := by
  simp only [isIdentifierStart, isIdentifierChar, Char.isAlphanum, Bool.or_eq_true] at h ⊢
  tauto

/-! ## Runs and identifiers -/

theorem afterBlanks?_eq_some_iff {text rest : Text} :
    text.afterBlanks? = some rest ↔ ∃ blanks : Text, blanks ≠ [] ∧
      (∀ c ∈ blanks, isBlank c = true) ∧ text = blanks ++ rest ∧
      ∀ c ∈ rest.head?, isBlank c = false := by
  constructor
  · intro h
    cases text with
    | nil => simp [Text.afterBlanks?] at h
    | cons c text =>
        rw [Text.afterBlanks?] at h
        split at h
        · next hc =>
            obtain rfl := Option.some.inj h
            obtain ⟨blanks, hblanks, htext⟩ := Text.exists_blanks_append_trimStart text
            refine ⟨c :: blanks, List.cons_ne_nil _ _, ?_, by simpa using htext, ?_⟩
            · intro d hd
              rcases List.mem_cons.1 hd with rfl | hd
              · exact hc
              · exact hblanks d hd
            · intro d hd
              obtain ⟨more, hmore⟩ := List.head?_eq_some_iff.1 hd
              exact Text.isBlank_eq_false_of_trimStart_eq_cons hmore
        · contradiction
  · rintro ⟨blanks, hne, hblanks, rfl, hrest⟩
    obtain ⟨b, blanks, rfl⟩ := List.exists_cons_of_ne_nil hne
    rw [List.cons_append, Text.afterBlanks?, if_pos (hblanks b List.mem_cons_self),
      Text.trimStart, Text.dropWhile_append_stop
        (fun c hc => hblanks c (List.mem_cons_of_mem _ hc)) hrest]

theorem run?_eq_some_iff {p : Char → Bool} {text value rest : Text} :
    text.run? p = some (value, rest) ↔ text = value ++ rest ∧ value ≠ [] ∧
      (∀ c ∈ value, p c = true) ∧ ∀ c ∈ rest.head?, p c = false := by
  constructor
  · intro h
    cases text with
    | nil => simp [Text.run?] at h
    | cons c text =>
        rw [Text.run?] at h
        split at h
        · next hc =>
            simp only [Option.some.injEq, Prod.mk.injEq] at h
            obtain ⟨rfl, rfl⟩ := h
            refine ⟨by simp, by simp, fun d hd => ?_, fun d hd => ?_⟩
            · rcases List.mem_cons.1 hd with rfl | hd
              · exact hc
              · exact List.mem_takeWhile_imp hd
            · simpa [Option.mem_def.1 hd] using List.head?_dropWhile_not p text
        · contradiction
  · rintro ⟨rfl, hne, hvalue, hrest⟩
    obtain ⟨c, value, rfl⟩ := List.exists_cons_of_ne_nil hne
    have hmore : ∀ d ∈ value, p d = true := fun d hd => hvalue d (List.mem_cons_of_mem _ hd)
    rw [List.cons_append, Text.run?, if_pos (hvalue c List.mem_cons_self),
      Text.takeWhile_append_stop hmore hrest, Text.dropWhile_append_stop hmore hrest]

theorem isIdentifierStart_of_isIdentifier {c : Char} {name : Text}
    (h : Text.isIdentifier (c :: name) = true) :
    isIdentifierStart c = true ∧ ∀ d ∈ name, isIdentifierChar d = true := by
  rw [Text.isIdentifier, Bool.and_eq_true, List.all_eq_true] at h
  exact h

theorem isIdentifierChar_of_mem {name : Text} (h : Text.isIdentifier name = true) :
    ∀ c ∈ name, isIdentifierChar c = true := by
  cases name with
  | nil => simp
  | cons first name =>
      obtain ⟨hfirst, hmore⟩ := isIdentifierStart_of_isIdentifier h
      intro c hc
      rcases List.mem_cons.1 hc with rfl | hc
      · exact isIdentifierChar_of_isIdentifierStart hfirst
      · exact hmore c hc

theorem identifier?_eq_some_iff {text name rest : Text} :
    text.identifier? = some (name, rest) ↔ text = name ++ rest ∧ Text.isIdentifier name = true ∧
      ∀ c ∈ rest.head?, isIdentifierChar c = false := by
  constructor
  · intro h
    cases text with
    | nil => simp [Text.identifier?] at h
    | cons c text =>
        rw [Text.identifier?] at h
        split at h
        · next hc =>
            simp only [Option.some.injEq, Prod.mk.injEq] at h
            obtain ⟨rfl, rfl⟩ := h
            refine ⟨by simp, ?_, fun d hd => ?_⟩
            · rw [Text.isIdentifier, hc, Bool.true_and, List.all_eq_true]
              exact fun d hd => List.mem_takeWhile_imp hd
            · simpa [Option.mem_def.1 hd] using List.head?_dropWhile_not isIdentifierChar text
        · contradiction
  · rintro ⟨rfl, hname, hrest⟩
    cases name with
    | nil => simp [Text.isIdentifier] at hname
    | cons c name =>
        obtain ⟨hfirst, hmore⟩ := isIdentifierStart_of_isIdentifier hname
        rw [List.cons_append, Text.identifier?, if_pos hfirst,
          Text.takeWhile_append_stop hmore hrest, Text.dropWhile_append_stop hmore hrest]

theorem ne_nil_of_isIdentifier {name : Text} (h : Text.isIdentifier name = true) : name ≠ [] := by
  rintro rfl
  contradiction

/-! ## Keywords -/

/-- Keywords: `@`, a lower case letter, and more of them or hyphens. -/
inductive IsKeyword : Text → Prop
  | intro {c : Char} {word : Text} (first : c.isLower = true)
      (more : ∀ d ∈ word, isKeywordChar d = true) : IsKeyword ('@' :: c :: word)

theorem IsKeyword.not_blank {key : Text} (h : IsKeyword key) : ∀ c ∈ key, isBlank c = false := by
  obtain ⟨first, more⟩ := h
  intro d hd
  simp only [List.mem_cons] at hd
  rcases hd with rfl | rfl | hd
  · rfl
  · exact isBlank_of_isLower first
  · exact isBlank_of_isKeywordChar (more d hd)

theorem IsKeyword.ne_nil {key : Text} (h : IsKeyword key) : key ≠ [] := by
  obtain ⟨-, -⟩ := h
  exact List.cons_ne_nil _ _

theorem isKeyword_property : IsKeyword "@property".toList :=
  @IsKeyword.intro 'p' "roperty".toList (by decide) (List.all_eq_true.1 (by decide))

/-- The parts of a line that carries a keyword. -/
structure TagParts (key line : Text) where
  /-- What precedes the star. -/
  indent : Text
  /-- What stands between the star and the keyword. -/
  gap : Text
  /-- What follows the keyword. -/
  body : Text
  indent_blank : ∀ c ∈ indent, isBlank c = true
  gap_blank : ∀ c ∈ gap, isBlank c = true
  gap_ne_nil : gap ≠ []
  isKeyword : IsKeyword key
  body_blank : body.head?.all isBlank = true
  line_eq : line = indent ++ '*' :: (gap ++ (key ++ body))

namespace TagParts

/-- The line up to the end of its keyword. -/
def front {key line : Text} (parts : TagParts key line) : Text :=
  parts.indent ++ '*' :: (parts.gap ++ key)

theorem eq_front_append {key line : Text} (parts : TagParts key line) :
    line = parts.front ++ parts.body :=
  parts.line_eq.trans (by simp [front])

/-- The same front before another body. -/
def withBody {key line : Text} (parts : TagParts key line) (body : Text)
    (h : body.head?.all isBlank = true) : TagParts key (parts.front ++ body) where
  indent := parts.indent
  gap := parts.gap
  body := body
  indent_blank := parts.indent_blank
  gap_blank := parts.gap_blank
  gap_ne_nil := parts.gap_ne_nil
  isKeyword := parts.isKeyword
  body_blank := h
  line_eq := by simp [front]

theorem keyword?_eq {key line : Text} (parts : TagParts key line) : keyword? line = some key := by
  obtain ⟨indent, gap, body, hindent, hgap, hne, hkey, hbody, rfl⟩ := parts
  obtain ⟨b, gap, rfl⟩ := List.exists_cons_of_ne_nil hne
  obtain ⟨first, more⟩ := hkey
  next c word =>
    have hb : isBlank b = true := hgap b List.mem_cons_self
    have hgap' : ∀ c ∈ gap, isBlank c = true := fun c hc => hgap c (List.mem_cons_of_mem _ hc)
    have hdrop : (word ++ body).dropWhile isKeywordChar = body.dropWhile isKeywordChar :=
      List.dropWhile_append_of_pos more
    have htake : (word ++ body).takeWhile isKeywordChar =
        word ++ body.takeWhile isKeywordChar := List.takeWhile_append_of_pos more
    -- a blank cannot continue the keyword
    have hstop : body.dropWhile isKeywordChar = body ∧ body.takeWhile isKeywordChar = [] := by
      cases body with
      | nil => simp
      | cons d body =>
          have hd : isBlank d = true := by simpa using hbody
          have hk : isKeywordChar d = false := by
            by_contra hk
            rw [isBlank_of_isKeywordChar (by simpa using hk)] at hd
            contradiction
          simp [hk]
    rw [keyword?, Text.trimStart_append_of_blank hindent,
      Text.trimStart_cons_of_not_blank (by rfl)]
    simp only [Text.after?, if_true, Option.bind_eq_bind, Option.bind_some, List.cons_append,
      Text.afterBlanks?, hb, Text.trimStart_append_of_blank hgap',
      Text.trimStart_cons_of_not_blank (show isBlank '@' = false by rfl), first, hdrop, htake,
      hstop, hbody, Bool.and_self, List.append_nil]

end TagParts

/-- A line with a keyword has its parts. -/
theorem nonempty_tagParts {line key : Text} (h : keyword? line = some key) :
    Nonempty (TagParts key line) := by
  obtain ⟨indent, hindent, hline⟩ := Text.exists_blanks_append_trimStart line
  simp only [keyword?, Option.bind_eq_bind, Option.bind_eq_some_iff] at h
  obtain ⟨starred, hstar, tag, htag, h⟩ := h
  rw [Text.after?_eq_some_iff] at hstar
  cases starred with
  | nil => simp [Text.afterBlanks?] at htag
  | cons b starred =>
      by_cases hb : isBlank b = true
      · rw [Text.afterBlanks?, if_pos hb, Option.some.injEq] at htag
        obtain ⟨gap, hgap, hstarred⟩ := Text.exists_blanks_append_trimStart starred
        split at h
        · next c rest =>
            split at h
            · next hcond =>
                obtain ⟨hc, hrest⟩ := Bool.and_eq_true_iff.1 hcond
                obtain rfl := Option.some.inj h
                refine ⟨⟨indent, b :: gap, rest.dropWhile isKeywordChar, hindent, ?_,
                  List.cons_ne_nil _ _,
                  .intro hc fun d hd => List.mem_takeWhile_imp hd, hrest, ?_⟩⟩
                · intro d hd
                  rcases List.mem_cons.1 hd with rfl | hd
                  · exact hb
                  · exact hgap d hd
                · rw [hline, hstar, hstarred, htag]
                  simp [List.takeWhile_append_dropWhile]
            · exact absurd h (by simp)
        · exact absurd h (by simp)
      · rw [Text.afterBlanks?, if_neg hb] at htag
        contradiction

theorem keyword?_eq_some_iff (line key : Text) :
    keyword? line = some key ↔ Nonempty (TagParts key line) :=
  ⟨nonempty_tagParts, fun ⟨parts⟩ => parts.keyword?_eq⟩

/-- The line that carries a tag with a body has that tag as its keyword. -/
def tagLineParts {tag : Text} (htag : IsKeyword tag) (body : Text) :
    TagParts tag (tagLine tag body) where
  indent := [' ']
  gap := [' ']
  body := ' ' :: body
  indent_blank := by simp [isBlank]
  gap_blank := by simp [isBlank]
  gap_ne_nil := List.cons_ne_nil _ _
  isKeyword := htag
  body_blank := by simp [isBlank]
  line_eq := by simp [tagLine]

/-- A blank at the end of a line does not change its keyword. -/
theorem keyword?_append_blank (line : Text) {b : Char} (hb : isBlank b = true) :
    keyword? (line ++ [b]) = keyword? line := by
  refine Option.ext fun key => ?_
  simp only [keyword?_eq_some_iff]
  constructor
  · rintro ⟨parts⟩
    have hline := parts.eq_front_append
    rcases List.eq_nil_or_concat parts.body with hnil | ⟨body, b', hbody⟩
    · -- the blank would be the last character of the keyword
      exfalso
      have hlast : b ∈ key.getLast? := by
        have hfront : (line ++ [b]).getLast? = key.getLast? := by
          rw [hline, hnil, TagParts.front, List.append_nil, List.getLast?_append_cons,
            List.getLast?_cons, List.getLast?_append]
          cases hk : key.getLast? with
          | none => exact absurd (List.getLast?_eq_none_iff.1 hk) parts.isKeyword.ne_nil
          | some d => simp
        simpa using hfront.symm
      have := parts.isKeyword.not_blank b (List.mem_of_mem_getLast? hlast)
      rw [hb] at this
      contradiction
    · rw [hbody, List.concat_eq_append, ← List.append_assoc] at hline
      obtain ⟨hfront, -⟩ := List.append_inj' hline rfl
      have hblank : body.head?.all isBlank = true := by
        have := parts.body_blank
        rw [hbody] at this
        cases body with
        | nil => rfl
        | cons c body => simpa using this
      rw [hfront]
      exact ⟨parts.withBody body hblank⟩
  · rintro ⟨parts⟩
    have hblank : (parts.body ++ [b]).head?.all isBlank = true := by
      have := parts.body_blank
      cases hbody : parts.body with
      | nil => simpa using hb
      | cons c body => simpa [hbody] using this
    have hline : line ++ [b] = parts.front ++ (parts.body ++ [b]) := by
      rw [← List.append_assoc, ← parts.eq_front_append]
    rw [hline]
    exact ⟨parts.withBody _ hblank⟩

theorem keyword?_dropReturn (line : Text) : keyword? (Text.dropReturn line) = keyword? line := by
  rcases Text.dropReturn_cases line with ⟨-, heq⟩ | hreturn
  · rw [heq]
  · conv_rhs => rw [hreturn]
    rw [keyword?_append_blank _ (by rfl)]

/-! ## Groups of lines -/

theorem classify_of_keyword? {line key : Text} (h : keyword? line = some key) :
    classify line = some (key, line) := by
  rw [classify, h]

/-- The text beside an opening delimiter is kept after a star, and does not end in a blank. -/
theorem openingRemark?_eq_some {rest line : Text} (h : openingRemark? rest = some line) :
    ∃ remark : Text, line = " * ".toList ++ remark ∧ remark ≠ [] ∧
      (∀ c ∈ remark.getLast?, isBlank c = false) ∧ remark <:+: rest := by
  rw [openingRemark?] at h
  split at h
  · contradiction
  · next hne =>
      refine ⟨_, (Option.some.inj h).symm, by simpa using hne,
        fun c hc => Text.isBlank_eq_false_of_mem_getLast?_trimEnd hc, ?_⟩
      obtain ⟨n, hn⟩ := Text.exists_dropEndPairs_append '*' '/' rest.trim
      have hpairs : Text.dropEndPairs ('*', '/') rest.trim <+: rest.trim := ⟨_, hn.symm⟩
      exact (Text.trimEnd_isPrefix _).isInfix.trans
        (hpairs.isInfix.trans (Text.trim_isInfix rest))

/-- A remark after a star that has no keyword is free text. -/
theorem classify_remark {remark : Text} (hne : Text.trimEnd remark ≠ [])
    (hkey : keyword? (" * ".toList ++ remark) = none) :
    classify (" * ".toList ++ remark) = some (commentKey, " * ".toList ++ remark) := by
  obtain ⟨c, more, hremark⟩ := List.exists_cons_of_ne_nil hne
  have htrim : Text.trim (" * ".toList ++ remark) = '*' :: ' ' :: c :: more := by
    change Text.trimEnd (['*', ' '] ++ remark) = _
    rw [Text.trimEnd_append hne, hremark]
    rfl
  have hopen : Text.after? openingLine ('*' :: ' ' :: c :: more) = none := by
    simp [openingLine, Text.after?]
  have hdecor : isDecoration ('*' :: ' ' :: c :: more) = false := by
    simp [isDecoration]
  rw [classify, hkey]
  simp only [htrim, hopen, hdecor, Bool.false_eq_true, if_false]

/-- Reading is stable: a line as it is kept is read as itself, under the same key. -/
theorem classify_kept {line key kept : Text} (h : classify line = some (key, kept)) :
    classify kept = some (key, kept) := by
  cases hkey : keyword? line with
  | some k =>
      have heq := h
      rw [classify_of_keyword? hkey, Option.some.injEq, Prod.mk.injEq] at heq
      rw [← heq.2] at h ⊢
      exact h
  | none =>
      cases hopen : Text.after? openingLine line.trim with
      | some rest =>
          simp only [classify, hkey, hopen, Option.map_eq_some_iff, Prod.mk.injEq] at h
          obtain ⟨remark, hremark, rfl, rfl⟩ := h
          cases hrk : keyword? remark with
          | some k => exact classify_of_keyword? hrk
          | none =>
              obtain ⟨text, rfl, hne, hlast, -⟩ := openingRemark?_eq_some hremark
              exact classify_remark (by rwa [Text.trimEnd_eq_self hlast]) hrk
      | none =>
          have heq := h
          simp only [classify, hkey, hopen] at heq
          split at heq
          · contradiction
          · simp only [Option.some.injEq, Prod.mk.injEq] at heq
            rw [← heq.2] at h ⊢
            exact h

/-- What is kept of a line holds no character that neither the line nor ` * ` holds, and ends in a
blank only if it is the line itself. -/
theorem kept_cases {line key kept : Text} (h : classify line = some (key, kept)) :
    kept = line ∨ ∃ remark : Text, kept = " * ".toList ++ remark ∧ remark ≠ [] ∧
      (∀ c ∈ remark.getLast?, isBlank c = false) ∧ remark <:+: line := by
  cases hkey : keyword? line with
  | some k =>
      rw [classify_of_keyword? hkey, Option.some.injEq, Prod.mk.injEq] at h
      exact Or.inl h.2.symm
  | none =>
      cases hopen : Text.after? openingLine line.trim with
      | some rest =>
          simp only [classify, hkey, hopen, Option.map_eq_some_iff, Prod.mk.injEq] at h
          obtain ⟨remark, hremark, -, rfl⟩ := h
          obtain ⟨text, rfl, hne, hlast, hwithin⟩ := openingRemark?_eq_some hremark
          rw [Text.after?_eq_some_iff] at hopen
          have hrest : rest <:+: line := by
            have hsuffix : rest <:+ line.trim := ⟨openingLine, hopen.symm⟩
            exact hsuffix.isInfix.trans (Text.trim_isInfix line)
          exact Or.inr ⟨text, rfl, hne, hlast, hwithin.trans hrest⟩
      | none =>
          simp only [classify, hkey, hopen] at h
          split at h
          · contradiction
          · simp only [Option.some.injEq, Prod.mk.injEq] at h
            exact Or.inl h.2.symm

theorem newline_not_mem_of_classify {line key kept : Text} (hline : '\n' ∉ line)
    (h : classify line = some (key, kept)) : '\n' ∉ kept := by
  rcases kept_cases h with rfl | ⟨remark, rfl, -, -, hwithin⟩
  · exact hline
  · have hremark : '\n' ∉ remark := fun hmem => hline (hwithin.subset hmem)
    simpa using hremark

theorem getLast?_ne_return_of_classify {line key kept : Text} (hline : line.getLast? ≠ some '\r')
    (h : classify line = some (key, kept)) : kept.getLast? ≠ some '\r' := by
  rcases kept_cases h with rfl | ⟨remark, rfl, hne, hlast, -⟩
  · exact hline
  · intro hreturn
    have hremark : '\r' ∈ remark.getLast? := by
      obtain ⟨c, more, rfl⟩ := List.exists_cons_of_ne_nil hne
      simpa using hreturn
    exact absurd (hlast _ hremark) (by decide)

/-! ## Lines that are read back -/

/-- A line that, written and read again, stands under the given key. -/
structure ReadsBack (key line : Text) : Prop where
  newline_not_mem : '\n' ∉ line
  classify_eq : classify (Text.dropReturn line) = some (key, Text.dropReturn line)

theorem readsBack_of_keyword? {line key : Text} (hline : '\n' ∉ line)
    (h : keyword? line = some key) : ReadsBack key line :=
  ⟨hline, classify_of_keyword? ((keyword?_dropReturn line).trans h)⟩

theorem readsBack_of_classify {line key kept : Text} (hline : '\n' ∉ line)
    (hreturn : line.getLast? ≠ some '\r') (h : classify line = some (key, kept)) :
    ReadsBack key kept := by
  refine ⟨newline_not_mem_of_classify hline h, ?_⟩
  rw [Text.dropReturn_eq_self (getLast?_ne_return_of_classify hreturn h)]
  exact classify_kept h

namespace TagGroups

/-- Every line of the groups, written and read again, stands under its key. -/
def AllReadBack (g : TagGroups) : Prop :=
  ∀ key, ∀ line ∈ g.lines key, ReadsBack key line

/-- The lines under a key of a block are the lines of the block that are read under it. -/
theorem lines_ofBlock (block key : Text) :
    (ofBlock block).lines key = linesUnder key (block.lines.filterMap classify) := by
  rw [ofBlock_eq_ofPairs, lines_ofPairs]

theorem mem_lines_ofBlock {block key kept : Text} :
    kept ∈ (ofBlock block).lines key ↔ ∃ line ∈ block.lines, classify line = some (key, kept) := by
  rw [lines_ofBlock, mem_linesUnder, List.mem_filterMap]

theorem allReadBack_ofBlock {block : Text}
    (h : ∀ line ∈ block.lines, line.getLast? ≠ some '\r') : (ofBlock block).AllReadBack := by
  intro key kept hkept
  obtain ⟨line, hline, hclass⟩ := mem_lines_ofBlock.1 hkept
  exact readsBack_of_classify (Text.newline_not_mem_of_mem_lines hline) (h line hline) hclass

end TagGroups
end PhpDoc
