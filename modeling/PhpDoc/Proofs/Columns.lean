import Mathlib
import PhpDoc.Block.Alignment
import PhpDoc.Proofs.Reading

/-!
# What alignment keeps

Aligning a line changes nothing but the blanks in front of its variable token.  The keyword of a
line always stands before those blanks, so an aligned line is read under the same key; and a text
without blanks occurs in the aligned line exactly when it occurs in the line.

The token of a line is the leftmost one behind blanks.  Respacing it neither moves it past another
nor makes a new one, so aligned lines have their tokens in the column asked for and aligning them
again changes nothing.
-/

namespace PhpDoc

/-! ## Where the token stands -/

/-- A line that splits is what precedes the token, a run of blanks, and the token. -/
theorem exists_blanks_of_splitTokenFrom? {passed : Bool} {text front token : Text}
    (h : splitTokenFrom? passed text = some (front, token)) :
    ∃ blanks : Text, blanks ≠ [] ∧ (∀ c ∈ blanks, isBlank c = true) ∧
      text = front ++ blanks ++ token := by
  induction text generalizing passed front with
  | nil => simp [splitTokenFrom?] at h
  | cons c text ih =>
      rw [splitTokenFrom?] at h
      split at h
      · next hcond =>
          simp only [Option.some.injEq, Prod.mk.injEq] at h
          obtain ⟨rfl, rfl⟩ := h
          have hc : isBlank c = true := by
            simp only [Bool.and_eq_true] at hcond
            exact hcond.1.1
          obtain ⟨blanks, hblanks, htext⟩ := Text.exists_blanks_append_trimStart text
          refine ⟨c :: blanks, List.cons_ne_nil _ _, ?_, by simpa using htext⟩
          intro d hd
          rcases List.mem_cons.1 hd with rfl | hd
          · exact hc
          · exact hblanks d hd
      · simp only [Option.map_eq_some_iff, Prod.mk.injEq] at h
        obtain ⟨⟨front, token⟩, hsplit, rfl, rfl⟩ := h
        obtain ⟨blanks, hne, hblanks, rfl⟩ := ih hsplit
        exact ⟨blanks, hne, hblanks, by simp⟩

theorem splitTokenFrom?_cons_of_not_blank {c : Char} (hc : isBlank c = false) (passed : Bool)
    (text : Text) :
    splitTokenFrom? passed (c :: text) =
      (splitTokenFrom? false text).map fun (front, token) => (c :: front, token) := by
  rw [splitTokenFrom?, if_neg (by simp [hc]), hc]

/-- A run of blanks that no token follows is passed over, with the character after it. -/
theorem splitTokenFrom?_append_cons {blanks : Text} (hblanks : ∀ c ∈ blanks, isBlank c = true)
    {d : Char} (hd : isBlank d = false) {text : Text} (htoken : startsToken (d :: text) = false)
    (passed : Bool) :
    splitTokenFrom? passed (blanks ++ d :: text) =
      (splitTokenFrom? false text).map fun (front, token) => (blanks ++ d :: front, token) := by
  induction blanks generalizing passed with
  | nil => exact splitTokenFrom?_cons_of_not_blank hd passed text
  | cons b blanks ih =>
      have hmore : ∀ c ∈ blanks, isBlank c = true :=
        fun c hc => hblanks c (List.mem_cons_of_mem _ hc)
      have htrim : Text.trimStart (blanks ++ d :: text) = d :: text := by
        rw [Text.trimStart_append_of_blank hmore, Text.trimStart_cons_of_not_blank hd]
      rw [List.cons_append, splitTokenFrom?, if_neg (by simp [htrim, htoken]), ih hmore]
      cases splitTokenFrom? false text <;> rfl

theorem splitTokenFrom?_append_of_not_blank {word : Text} (hword : ∀ c ∈ word, isBlank c = false)
    (text : Text) :
    splitTokenFrom? false (word ++ text) =
      (splitTokenFrom? false text).map fun (front, token) => (word ++ front, token) := by
  induction word with
  | nil =>
      rw [List.nil_append]
      cases splitTokenFrom? false text <;> rfl
  | cons c word ih =>
      rw [List.cons_append, splitTokenFrom?_cons_of_not_blank (hword c List.mem_cons_self),
        ih fun d hd => hword d (List.mem_cons_of_mem _ hd)]
      cases splitTokenFrom? false text <;> rfl

/-- The token of a line with a keyword stands behind the keyword. -/
theorem TagParts.splitToken?_eq {key line : Text} (parts : TagParts key line) :
    splitToken? line = (splitTokenFrom? false parts.body).map
      fun (front, token) => (parts.front ++ front, token) := by
  have hstar : ∀ text, startsToken ('*' :: text) = false := fun text => by
    simp [startsToken, startsVariable, startsBraced, Text.after?]
  have hat : ∀ text, startsToken ('@' :: text) = false := fun text => by
    simp [startsToken, startsVariable, startsBraced, Text.after?]
  conv_lhs => rw [parts.line_eq]
  rw [splitToken?, splitTokenFrom?_append_cons parts.indent_blank (by rfl) (hstar _)]
  obtain ⟨first, more⟩ := parts.isKeyword
  next c word =>
    have hword : ∀ d ∈ c :: word, isBlank d = false := fun d hd =>
      parts.isKeyword.not_blank d (List.mem_cons_of_mem _ hd)
    rw [List.cons_append, splitTokenFrom?_append_cons parts.gap_blank (by rfl) (hat _),
      splitTokenFrom?_append_of_not_blank hword]
    cases splitTokenFrom? false parts.body with
    | none => rfl
    | some pair => simp [TagParts.front]

/-! ## Aligned lines -/

theorem alignLine_of_splitToken? {line front token : Text} (width : Nat)
    (h : splitToken? line = some (front, token)) :
    alignLine width line =
      front ++ List.replicate (width - front.length + 1) ' ' ++ token := by
  rw [alignLine, h]

theorem alignLine_eq_self {line : Text} (width : Nat) (h : splitToken? line = none) :
    alignLine width line = line := by
  rw [alignLine, h]

/-- Either a line stays as it is, or the blanks before its token become a run of spaces. -/
theorem alignLine_cases (width : Nat) (line : Text) :
    alignLine width line = line ∨ ∃ front blanks token : Text, ∃ n : Nat,
      blanks ≠ [] ∧ (∀ c ∈ blanks, isBlank c = true) ∧ line = front ++ blanks ++ token ∧
      alignLine width line = front ++ List.replicate (n + 1) ' ' ++ token := by
  cases h : splitToken? line with
  | none => exact Or.inl (alignLine_eq_self width h)
  | some pair =>
      obtain ⟨front, token⟩ := pair
      obtain ⟨blanks, hne, hblanks, hline⟩ := exists_blanks_of_splitTokenFrom? h
      exact Or.inr ⟨front, blanks, token, _, hne, hblanks, hline,
        alignLine_of_splitToken? width h⟩

/-- A text without blanks occurs in an aligned line exactly when it occurs in the line. -/
theorem infix_alignLine_iff {needle : Text} (hne : needle ≠ [])
    (hneedle : ∀ c ∈ needle, isBlank c = false) (width : Nat) (line : Text) :
    needle <:+: alignLine width line ↔ needle <:+: line := by
  rcases alignLine_cases width line with heq | ⟨front, blanks, token, n, hbne, hblanks, hline, heq⟩
  · rw [heq]
  · have hapart : ∀ mid : Text, (∀ c ∈ mid, isBlank c = true) → ∀ b ∈ mid, b ∉ needle := by
      intro mid hmid b hb hmem
      have := hneedle b hmem
      rw [hmid b hb] at this
      contradiction
    rw [heq, hline,
      Text.infix_append_append_iff (List.replicate_succ_ne_nil) (hapart _ ?_) hne,
      Text.infix_append_append_iff hbne (hapart _ hblanks) hne]
    intro c hc
    rw [List.eq_of_mem_replicate hc]
    rfl

theorem newline_not_mem_alignLine {line : Text} (h : '\n' ∉ line) (width : Nat) :
    '\n' ∉ alignLine width line := by
  rcases alignLine_cases width line with heq | ⟨front, blanks, token, n, -, -, hline, heq⟩
  · rwa [heq]
  · rw [hline] at h
    rw [heq]
    simp only [List.mem_append, not_or] at h ⊢
    refine ⟨⟨h.1.1, fun hmem => ?_⟩, h.2⟩
    exact absurd (List.eq_of_mem_replicate hmem) (by decide)

/-- Aligning a line with a keyword changes only what follows the keyword. -/
theorem TagParts.exists_alignLine {key line : Text} (parts : TagParts key line) (width : Nat) :
    ∃ body : Text, body.head?.all isBlank = true ∧ alignLine width line = parts.front ++ body := by
  have hsplit := parts.splitToken?_eq
  cases h : splitTokenFrom? false parts.body with
  | none =>
      rw [h] at hsplit
      exact ⟨parts.body, parts.body_blank,
        (alignLine_eq_self width hsplit).trans parts.eq_front_append⟩
  | some pair =>
      obtain ⟨front, token⟩ := pair
      rw [h] at hsplit
      refine ⟨front ++ List.replicate (width - (parts.front ++ front).length + 1) ' ' ++ token,
        ?_, (alignLine_of_splitToken? width hsplit).trans (by simp)⟩
      obtain ⟨blanks, hne, hblanks, hbody⟩ := exists_blanks_of_splitTokenFrom? h
      have hblank := parts.body_blank
      rw [hbody] at hblank
      cases front with
      | nil => simp [List.replicate_succ, isBlank]
      | cons c front => simpa using hblank

theorem keyword?_alignLine {line key : Text} (h : keyword? line = some key) (width : Nat) :
    keyword? (alignLine width line) = some key := by
  obtain ⟨parts⟩ := nonempty_tagParts h
  obtain ⟨body, hbody, heq⟩ := parts.exists_alignLine width
  rw [heq]
  exact (parts.withBody body hbody).keyword?_eq

theorem mem_align {lines : List Text} {width : Option Width} {line : Text}
    (h : line ∈ align lines width) : ∃ w, ∃ l ∈ lines, line = alignLine w l := by
  obtain ⟨l, hl, rfl⟩ := List.mem_map.1 h
  exact ⟨_, l, hl, rfl⟩

/-! ## Aligning again

A blank ends every word that could be a token, so whether a token starts at some place does not
depend on what follows the next blank.  Respacing a line therefore moves no token.
-/

theorem after?_getD_append_cons {head : Text} {b : Char} (hb : b ∉ head) (text rest : Text) :
    (Text.after? head (text ++ b :: rest)).getD (text ++ b :: rest) =
      (Text.after? head text).getD text ++ b :: rest := by
  cases h : Text.after? head text with
  | some tail =>
      rw [Text.after?_eq_some_iff] at h
      rw [h, List.append_assoc, Text.after?_append]
      rfl
  | none =>
      rw [Text.after?_eq_none_iff, ← @Text.isPrefix_append_cons_iff head text rest b hb,
        ← Text.after?_eq_none_iff] at h
      rw [h]
      rfl

theorem startsVariable_append_blank {b : Char} (hb : isBlank b = true) (text rest : Text) :
    startsVariable (text ++ b :: rest) = startsVariable text := by
  have hmark : ∀ c, isBlank c = false → b ≠ c := by
    rintro c hc rfl
    rw [hb] at hc
    contradiction
  have hamp : b ∉ ['&'] := by simpa using hmark '&' (by decide)
  have hdots : b ∉ "...".toList := by simpa using hmark '.' (by decide)
  simp only [startsVariable, after?_getD_append_cons hamp, after?_getD_append_cons hdots]
  generalize (Text.after? "...".toList _).getD _ = tail
  have hidentifier : isIdentifierChar b = false := by
    by_contra h
    rw [isBlank_of_isIdentifierChar (Bool.eq_true_of_not_eq_false h)] at hb
    contradiction
  match tail with
  | [] => simp [hmark '$' (by decide)]
  | [d] =>
      by_cases hd : d = '$'
      · simp [hd, hidentifier]
      · simp [hd]
  | d :: e :: more =>
      by_cases hd : d = '$'
      · simp [hd]
      · simp [hd]

theorem startsBraced_append_blank {b : Char} (hb : isBlank b = true) (text rest : Text) :
    startsBraced (text ++ b :: rest) = startsBraced text := by
  have hmark : ∀ c, isBlank c = false → b ≠ c := by
    rintro c hc rfl
    rw [hb] at hc
    contradiction
  cases text with
  | nil => simp [startsBraced, hmark '{' (by decide)]
  | cons c text =>
      by_cases hc : c = '{'
      · rw [hc, List.cons_append, startsBraced, startsBraced, List.dropWhile_append]
        split
        · next hnone =>
            rw [List.isEmpty_iff] at hnone
            simp [hnone, hb, hmark '}' (by decide)]
        · next hsome =>
            rw [List.isEmpty_iff] at hsome
            rw [List.head?_append_of_ne_nil _ hsome]
      · simp [startsBraced, hc]

theorem startsToken_append_blank {b : Char} (hb : isBlank b = true) (text rest : Text) :
    startsToken (text ++ b :: rest) = startsToken text := by
  rw [startsToken, startsVariable_append_blank hb, startsBraced_append_blank hb, startsToken]

theorem startsToken_of_splitTokenFrom? {passed : Bool} {text front token : Text}
    (h : splitTokenFrom? passed text = some (front, token)) :
    startsToken token = true ∧ Text.trimStart token = token := by
  induction text generalizing passed front with
  | nil => simp [splitTokenFrom?] at h
  | cons c text ih =>
      rw [splitTokenFrom?] at h
      split at h
      · next hcond =>
          simp only [Option.some.injEq, Prod.mk.injEq] at h
          obtain ⟨rfl, rfl⟩ := h
          simp only [Bool.and_eq_true] at hcond
          exact ⟨hcond.2, List.dropWhile_idempotent _ _⟩
      · simp only [Option.map_eq_some_iff, Prod.mk.injEq] at h
        obtain ⟨⟨front, token⟩, hsplit, rfl, rfl⟩ := h
        exact ih hsplit

/-- A run of blanks that a word of the front follows is passed over however the token is spaced. -/
theorem startsToken_trimStart_respaced {front blanks blanks' token : Text}
    (hne : blanks ≠ []) (hblanks : ∀ c ∈ blanks, isBlank c = true)
    (hne' : blanks' ≠ []) (hblanks' : ∀ c ∈ blanks', isBlank c = true)
    (htoken : startsToken token = true ∧ Text.trimStart token = token)
    (h : startsToken (Text.trimStart (front ++ blanks ++ token)) = false) :
    startsToken (Text.trimStart (front ++ blanks' ++ token)) = false := by
  obtain ⟨lead, hlead, hfront⟩ := Text.exists_blanks_append_trimStart front
  cases hword : Text.trimStart front with
  | nil =>
      -- nothing but blanks precedes the token, so it would have been met
      exfalso
      rw [hword, List.append_nil] at hfront
      rw [hfront, List.append_assoc, Text.trimStart_append_of_blank hlead,
        Text.trimStart_append_of_blank hblanks, htoken.2, htoken.1] at h
      contradiction
  | cons d more =>
      have hd : isBlank d = false := Text.isBlank_eq_false_of_trimStart_eq_cons hword
      rw [hword] at hfront
      obtain ⟨b, bs, rfl⟩ := List.exists_cons_of_ne_nil hne
      obtain ⟨b', bs', rfl⟩ := List.exists_cons_of_ne_nil hne'
      -- the first word of the front decides, whatever blanks follow the front
      have hdecides : ∀ b bs, isBlank b = true →
          startsToken (Text.trimStart (front ++ b :: bs ++ token)) = startsToken (d :: more) := by
        intro b bs hb
        have htrim : Text.trimStart (front ++ b :: bs ++ token) =
            (d :: more) ++ b :: (bs ++ token) := by
          rw [hfront, List.append_assoc, List.append_assoc,
            Text.trimStart_append_of_blank hlead, List.cons_append,
            Text.trimStart_cons_of_not_blank hd]
          simp
        rw [htrim, startsToken_append_blank hb]
      rw [hdecides b bs (hblanks b List.mem_cons_self)] at h
      rw [hdecides b' bs' (hblanks' b' List.mem_cons_self), h]

/-- Other blanks in front of the token do not change where it is found. -/
theorem splitTokenFrom?_respaced {passed : Bool} {text front token blanks : Text}
    (h : splitTokenFrom? passed text = some (front, token)) (hne : blanks ≠ [])
    (hblanks : ∀ c ∈ blanks, isBlank c = true) :
    splitTokenFrom? passed (front ++ blanks ++ token) = some (front, token) := by
  have htoken := startsToken_of_splitTokenFrom? h
  induction text generalizing passed front with
  | nil => simp [splitTokenFrom?] at h
  | cons c text ih =>
      rw [splitTokenFrom?] at h
      split at h
      · next hcond =>
          simp only [Option.some.injEq, Prod.mk.injEq] at h
          obtain ⟨rfl, rfl⟩ := h
          simp only [Bool.and_eq_true] at hcond
          obtain ⟨b, bs, rfl⟩ := List.exists_cons_of_ne_nil hne
          have hb : isBlank b = true := hblanks b List.mem_cons_self
          have htrim : Text.trimStart (bs ++ Text.trimStart text) = Text.trimStart text := by
            rw [Text.trimStart_append_of_blank fun c hc => hblanks c (List.mem_cons_of_mem _ hc),
              htoken.2]
          rw [List.nil_append, List.cons_append, splitTokenFrom?, htrim,
            if_pos (by simp only [hb, hcond.1.2, hcond.2, Bool.and_self])]
      · next hcond =>
          simp only [Option.map_eq_some_iff, Prod.mk.injEq] at h
          obtain ⟨⟨front, token⟩, hsplit, rfl, rfl⟩ := h
          obtain ⟨blanks', hne', hblanks', htext⟩ := exists_blanks_of_splitTokenFrom? hsplit
          rw [List.cons_append, List.cons_append, splitTokenFrom?, if_neg, ih hsplit]
          · rfl
          · simp only [Bool.and_eq_true, not_and, Bool.not_eq_true] at hcond ⊢
            intro hc
            exact startsToken_trimStart_respaced hne' hblanks' hne hblanks htoken
              (htext ▸ hcond hc)

/-- Alignment moves no token. -/
theorem splitToken?_alignLine (width : Nat) (line : Text) :
    splitToken? (alignLine width line) = splitToken? line := by
  cases h : splitToken? line with
  | none => rw [alignLine_eq_self width h, h]
  | some pair =>
      obtain ⟨front, token⟩ := pair
      rw [alignLine_of_splitToken? width h]
      refine splitTokenFrom?_respaced h List.replicate_succ_ne_nil fun c hc => ?_
      rw [List.eq_of_mem_replicate hc]
      rfl

theorem alignLine_alignLine (width width' : Nat) (line : Text) :
    alignLine width' (alignLine width line) = alignLine width' line := by
  cases h : splitToken? line with
  | none => rw [alignLine_eq_self width h]
  | some pair =>
      obtain ⟨front, token⟩ := pair
      rw [alignLine_of_splitToken? width' h,
        alignLine_of_splitToken? width' ((splitToken?_alignLine width line).trans h)]

theorem tokenColumn_map_alignLine (width : Nat) (lines : List Text) :
    tokenColumn (lines.map (alignLine width)) = tokenColumn lines := by
  have hsame : (lines.map (alignLine width)).filterMap splitToken? =
      lines.filterMap splitToken? := by
    rw [List.filterMap_map]
    exact List.filterMap_congr fun line _ => splitToken?_alignLine width line
  rw [tokenColumn, hsame, tokenColumn]

/-- Aligned lines stay where they are. -/
theorem align_align (lines : List Text) (width : Option Width) :
    align (align lines width) width = align lines width := by
  rw [align, align, tokenColumn_map_alignLine, List.map_map]
  exact List.map_congr_left fun line _ => alignLine_alignLine _ _ line

theorem getLast?_alignLine (width : Nat) (line : Text) :
    (alignLine width line).getLast? = line.getLast? := by
  cases h : splitToken? line with
  | none => rw [alignLine_eq_self width h]
  | some pair =>
      obtain ⟨front, token⟩ := pair
      have hne : token ≠ [] := by
        rintro rfl
        exact absurd (startsToken_of_splitTokenFrom? h).1 (by decide)
      obtain ⟨blanks, -, -, hline⟩ := exists_blanks_of_splitTokenFrom? h
      rw [alignLine_of_splitToken? width h, hline, List.getLast?_append_of_ne_nil _ hne,
        List.getLast?_append_of_ne_nil _ hne]

/-! ## The first token

The search is a leftmost match.  That it remembers a run of blanks which no token follows only spares
it from looking behind the same run again.
-/

/-- Blanks stand behind `front` in the line, and `token` behind them starts with a variable token. -/
def TokenFollows (line front token : Text) : Prop :=
  ∃ blanks : Text, blanks ≠ [] ∧ (∀ c ∈ blanks, isBlank c = true) ∧ startsToken token = true ∧
    line = front ++ blanks ++ token

/-- No token behind blanks stands further left. -/
structure IsFirstToken (line front token : Text) : Prop where
  follows : TokenFollows line front token
  first : ∀ front' token', TokenFollows line front' token' → front.length ≤ front'.length

theorem trimStart_of_startsToken {token : Text} (h : startsToken token = true) :
    Text.trimStart token = token := by
  cases token with
  | nil => rfl
  | cons b token =>
      refine Text.trimStart_cons_of_not_blank ?_ token
      by_contra hb
      have hnone : startsToken ([] ++ b :: token) = startsToken [] :=
        startsToken_append_blank (by simpa using hb) [] token
      rw [List.nil_append, h] at hnone
      exact absurd hnone (by decide)

theorem not_tokenFollows_nil (front token : Text) : ¬ TokenFollows [] front token := by
  rintro ⟨blanks, hne, -, -, hline⟩
  simp [hne] at hline

theorem tokenFollows_cons_nil_iff {c : Char} {text token : Text} :
    TokenFollows (c :: text) [] token ↔
      isBlank c = true ∧ startsToken token = true ∧ token = Text.trimStart text := by
  constructor
  · rintro ⟨blanks, hne, hblanks, htoken, hline⟩
    obtain ⟨b, bs, rfl⟩ := List.exists_cons_of_ne_nil hne
    obtain ⟨rfl, rfl⟩ := List.cons.inj hline
    refine ⟨hblanks c List.mem_cons_self, htoken, ?_⟩
    rw [List.append_eq, Text.trimStart_append_of_blank
      fun d hd => hblanks d (List.mem_cons_of_mem _ hd), trimStart_of_startsToken htoken]
  · rintro ⟨hc, htoken, rfl⟩
    obtain ⟨lead, hlead, htext⟩ := Text.exists_blanks_append_trimStart text
    refine ⟨c :: lead, List.cons_ne_nil _ _, ?_, htoken, by simpa using htext⟩
    intro d hd
    rcases List.mem_cons.1 hd with rfl | hd
    · exact hc
    · exact hlead d hd

theorem tokenFollows_cons_cons_iff {c d : Char} {text front token : Text} :
    TokenFollows (c :: text) (d :: front) token ↔ c = d ∧ TokenFollows text front token := by
  simp only [TokenFollows, List.cons_append, List.cons.injEq]
  tauto

theorem splitTokenFrom?_true {text : Text} (h : startsToken (Text.trimStart text) = false) :
    splitTokenFrom? true text = splitTokenFrom? false text := by
  cases text with
  | nil => rfl
  | cons c text =>
      rw [splitTokenFrom?, splitTokenFrom?, if_neg (by simp), if_neg]
      rintro hcond
      simp only [Bool.and_eq_true] at hcond
      have htrim : Text.trimStart (c :: text) = Text.trimStart text :=
        List.dropWhile_cons_of_pos hcond.1.1
      rw [htrim, hcond.2] at h
      contradiction

/-- The search without its memory. -/
theorem splitToken?_cons (c : Char) (text : Text) :
    splitToken? (c :: text) =
      if isBlank c && startsToken (Text.trimStart text) then some ([], Text.trimStart text)
      else (splitToken? text).map fun (front, token) => (c :: front, token) := by
  rw [splitToken?, splitTokenFrom?, Bool.not_false, Bool.and_true]
  split
  · rfl
  · next hcond =>
      cases hc : isBlank c with
      | false => rfl
      | true =>
          rw [hc, Bool.true_and, Bool.not_eq_true] at hcond
          rw [splitTokenFrom?_true hcond, splitToken?]

/-- Where no token stands at the start, the first token is that of the rest. -/
theorem isFirstToken_cons_cons_iff {c d : Char} {text front token : Text}
    (hlater : ∀ token, ¬ TokenFollows (c :: text) [] token) :
    IsFirstToken (c :: text) (d :: front) token ↔ c = d ∧ IsFirstToken text front token := by
  constructor
  · intro h
    obtain ⟨rfl, hfollows⟩ := tokenFollows_cons_cons_iff.1 h.follows
    refine ⟨rfl, hfollows, fun front' token' h' => ?_⟩
    exact Nat.le_of_succ_le_succ
      (h.first (c :: front') token' (tokenFollows_cons_cons_iff.2 ⟨rfl, h'⟩))
  · rintro ⟨rfl, hfollows, hfirst⟩
    refine ⟨tokenFollows_cons_cons_iff.2 ⟨rfl, hfollows⟩, fun front' token' h => ?_⟩
    cases front' with
    | nil => exact absurd h (hlater token')
    | cons e front' =>
        exact Nat.succ_le_succ (hfirst front' token' (tokenFollows_cons_cons_iff.1 h).2)

/-- A token at the start is the first one, and the only one there. -/
theorem isFirstToken_iff_of_tokenFollows {c : Char} {text front token : Text}
    (h : TokenFollows (c :: text) [] (Text.trimStart text)) :
    IsFirstToken (c :: text) front token ↔ front = [] ∧ token = Text.trimStart text := by
  constructor
  · intro hfirst
    obtain rfl : front = [] := List.length_eq_zero_iff.1 (Nat.le_zero.1 (hfirst.first _ _ h))
    exact ⟨rfl, (tokenFollows_cons_nil_iff.1 hfirst.follows).2.2⟩
  · rintro ⟨rfl, rfl⟩
    exact ⟨h, fun _ _ _ => Nat.zero_le _⟩

/-- The search finds the leftmost token behind blanks. -/
theorem splitToken?_eq_some_iff {line front token : Text} :
    splitToken? line = some (front, token) ↔ IsFirstToken line front token := by
  induction line generalizing front with
  | nil =>
      refine ⟨fun h => by contradiction, fun h => ?_⟩
      exact absurd h.follows (not_tokenFollows_nil front token)
  | cons c text ih =>
      rw [splitToken?_cons]
      split
      · next hcond =>
          rw [Bool.and_eq_true] at hcond
          rw [isFirstToken_iff_of_tokenFollows
            (tokenFollows_cons_nil_iff.2 ⟨hcond.1, hcond.2, rfl⟩), Option.some.injEq,
            Prod.mk.injEq, eq_comm (a := []), eq_comm (b := token)]
      · next hcond =>
          have hlater : ∀ token, ¬ TokenFollows (c :: text) [] token := by
            intro token hfollows
            obtain ⟨hc, htoken, rfl⟩ := tokenFollows_cons_nil_iff.1 hfollows
            exact hcond (by rw [hc, htoken, Bool.and_self])
          cases front with
          | nil =>
              refine ⟨fun h => ?_, fun h => absurd h.follows (hlater token)⟩
              obtain ⟨⟨front, token⟩, -, heq⟩ := Option.map_eq_some_iff.1 h
              simp at heq
          | cons d front =>
              rw [isFirstToken_cons_cons_iff hlater, ← ih, Option.map_eq_some_iff]
              constructor
              · rintro ⟨⟨front', token'⟩, hsplit, heq⟩
                simp only [Prod.mk.injEq, List.cons.injEq] at heq
                obtain ⟨⟨rfl, rfl⟩, rfl⟩ := heq
                exact ⟨rfl, hsplit⟩
              · rintro ⟨rfl, hsplit⟩
                exact ⟨(front, token), hsplit, rfl⟩

theorem splitToken?_eq_none_iff {line : Text} :
    splitToken? line = none ↔ ∀ front token, ¬ TokenFollows line front token := by
  constructor
  · intro hnone front token hfollows
    -- of all tokens behind blanks one stands furthest left, and the search finds it
    have hsome : ∃ n front token, TokenFollows line front token ∧ front.length = n :=
      ⟨_, front, token, hfollows, rfl⟩
    classical
    obtain ⟨front', token', hleft, hlength⟩ := Nat.find_spec hsome
    have hfirst : IsFirstToken line front' token' :=
      ⟨hleft, fun f t hf => hlength ▸ Nat.find_min' hsome ⟨f, t, hf, rfl⟩⟩
    rw [splitToken?_eq_some_iff.2 hfirst] at hnone
    contradiction
  · intro hnone
    cases h : splitToken? line with
    | none => rfl
    | some pair => exact absurd (splitToken?_eq_some_iff.1 h).follows (hnone pair.1 pair.2)

/-! ## Columns -/

/-- What alignment at a column makes of a line.  A line without a token stays as it is.  In any other
line spaces put the first token behind the column, or behind what precedes it when that is longer,
and it is the first token of the new line too. -/
inductive AlignsTo (column : Nat) : Text → Text → Prop
  | untouched {line : Text} (none : ∀ front token, ¬ TokenFollows line front token) :
      AlignsTo column line line
  | moved {line front spaces token : Text} (before : IsFirstToken line front token)
      (after : IsFirstToken (front ++ spaces ++ token) front token)
      (spaced : ∀ c ∈ spaces, c = ' ')
      (start : (front ++ spaces).length = max column front.length + 1) :
      AlignsTo column line (front ++ spaces ++ token)

theorem alignsTo_alignLine (column : Nat) (line : Text) :
    AlignsTo column line (alignLine column line) := by
  have hagain := splitToken?_alignLine column line
  cases h : splitToken? line with
  | none =>
      rw [alignLine_eq_self column h]
      exact .untouched (splitToken?_eq_none_iff.1 h)
  | some pair =>
      obtain ⟨front, token⟩ := pair
      rw [h, alignLine_of_splitToken? column h] at hagain
      rw [alignLine_of_splitToken? column h]
      refine .moved (splitToken?_eq_some_iff.1 h) (splitToken?_eq_some_iff.1 hagain)
        (fun c hc => List.eq_of_mem_replicate hc) ?_
      rw [List.length_append, List.length_replicate]
      omega

/-- A width that is the longest text in front of a token, or zero when there is no token. -/
structure IsLongestFront (lines : List Text) (width : Nat) : Prop where
  le : ∀ line ∈ lines, ∀ front token, IsFirstToken line front token → front.length ≤ width
  attained : width = 0 ∨ ∃ line ∈ lines, ∃ front token,
    IsFirstToken line front token ∧ front.length = width

theorem isLongestFront_tokenColumn (lines : List Text) :
    IsLongestFront lines (tokenColumn lines) := by
  induction lines with
  | nil => exact ⟨by simp, Or.inl rfl⟩
  | cons line lines ih =>
      cases hsplit : splitToken? line with
      | none =>
          have hsame : tokenColumn (line :: lines) = tokenColumn lines := by
            rw [tokenColumn, List.filterMap_cons_none hsplit, tokenColumn]
          rw [hsame]
          refine ⟨fun l hl front token hfirst => ?_, ih.attained.imp_right ?_⟩
          · rcases List.mem_cons.1 hl with rfl | hl
            · rw [splitToken?_eq_some_iff.2 hfirst] at hsplit
              contradiction
            · exact ih.le l hl front token hfirst
          · rintro ⟨l, hl, hfront⟩
            exact ⟨l, List.mem_cons_of_mem _ hl, hfront⟩
      | some pair =>
          obtain ⟨front, token⟩ := pair
          have hmax : tokenColumn (line :: lines) = max front.length (tokenColumn lines) := by
            rw [tokenColumn, List.filterMap_cons_some hsplit, List.foldr_cons, tokenColumn]
          have hline := splitToken?_eq_some_iff.1 hsplit
          rw [hmax]
          refine ⟨fun l hl front' token' hfirst => ?_, ?_⟩
          · rcases List.mem_cons.1 hl with rfl | hl
            · rw [splitToken?_eq_some_iff.2 hfirst] at hsplit
              obtain ⟨rfl, -⟩ := Prod.mk.inj (Option.some.inj hsplit)
              exact Nat.le_max_left _ _
            · exact (ih.le l hl front' token' hfirst).trans (Nat.le_max_right _ _)
          · rcases Nat.le_total (tokenColumn lines) front.length with hle | hle
            · exact Or.inr ⟨line, List.mem_cons_self, front, token, hline,
                (Nat.max_eq_left hle).symm⟩
            · rw [Nat.max_eq_right hle]
              refine ih.attained.imp_right ?_
              rintro ⟨l, hl, hfront⟩
              exact ⟨l, List.mem_cons_of_mem _ hl, hfront⟩

/-- Without a given width the tokens share the column behind the longest front, which one space
separates from its token. -/
theorem align_none_shared {lines : List Text} {line front token : Text}
    (hline : line ∈ align lines none) (hfirst : IsFirstToken line front token) :
    token = line.drop (tokenColumn lines + 1) ∧
      (front.length = tokenColumn lines → line = front ++ ' ' :: token) := by
  obtain ⟨source, hsource, rfl⟩ := List.mem_map.1 hline
  rw [Option.map_none, Option.getD_none] at hfirst ⊢
  have hsplit := splitToken?_eq_some_iff.2 hfirst
  rw [splitToken?_alignLine] at hsplit
  have hle := (isLongestFront_tokenColumn lines).le source hsource front token
    (splitToken?_eq_some_iff.1 hsplit)
  rw [alignLine_of_splitToken? _ hsplit]
  constructor
  · rw [List.drop_left' (by simp only [List.length_append, List.length_replicate]; omega)]
  · intro hlongest
    rw [hlongest, Nat.sub_self]
    simp

/-- **Alignment puts the first token of every line in its column and moves nothing else.**  Where a
line splits is its leftmost token.  Line by line, a line without a token stays and any other is
respaced before its first token, where it splits again; the blanks that a given width asks for are no
more than a text can have; a width that is not given is that of the longest front, so that all tokens
share a column and one space separates the longest front from its token; and aligning again changes
nothing. -/
theorem align_puts_tokens_in_column (lines : List Text) (width : Option Width) :
    (∀ line front token, splitToken? line = some (front, token) ↔ IsFirstToken line front token) ∧
      (align lines width).length = lines.length ∧
      List.Forall₂ (AlignsTo ((width.map Width.columns).getD (tokenColumn lines))) lines
        (align lines width) ∧
      (∀ w ∈ width, ∀ front : Text, w.columns - front.length + 1 ≤ maxTextLength) ∧
      (align lines width).map splitToken? = lines.map splitToken? ∧
      IsLongestFront lines (tokenColumn lines) ∧
      (∀ line ∈ align lines none, ∀ front token, IsFirstToken line front token →
        token = line.drop (tokenColumn lines + 1) ∧
          (front.length = tokenColumn lines → line = front ++ ' ' :: token)) ∧
      align (align lines width) width = align lines width := by
  refine ⟨fun _ _ _ => splitToken?_eq_some_iff, List.length_map _, ?_, ?_, ?_,
    isLongestFront_tokenColumn lines, fun _ hline _ _ hfirst => align_none_shared hline hfirst,
    align_align lines width⟩
  · rw [align, List.forall₂_map_right_iff, List.forall₂_same]
    exact fun line _ => alignsTo_alignLine _ line
  · intro w _ front
    have hfits := w.columns_lt
    omega
  · rw [align, List.map_map]
    exact List.map_congr_left fun line _ => splitToken?_alignLine _ line

end PhpDoc
