import Mathlib
import PhpDoc.Text.Blank
import PhpDoc.Text.Identifier

/-!
# Laws of texts

Every operation on texts is characterised here once, by the shape of its argument: what follows a
head, where a text is cut, what a text ends with, and which lines a text is made of.  Later modules
cite these characterisations and do not unfold the operations.

Lines are read back from a joined text up to one carriage return at the end of each line, which the
division into lines takes for a part of the line ending.
-/

namespace PhpDoc
namespace Text

/-! ## Heads, cuts and tails -/

theorem after?_eq_some_iff (head text rest : Text) :
    after? head text = some rest ↔ text = head ++ rest := by
  induction head generalizing text with
  | nil => simp [after?]
  | cons h head ih =>
      cases text with
      | nil => simp [after?]
      | cons c text =>
          by_cases hc : h = c
          · subst hc
            simp [after?, ih]
          · simp [after?, hc, Ne.symm hc]

@[simp] theorem after?_append (head rest : Text) : after? head (head ++ rest) = some rest :=
  (after?_eq_some_iff head (head ++ rest) rest).2 rfl

theorem after?_eq_none_iff (head text : Text) :
    after? head text = none ↔ ¬ head <+: text := by
  rw [Option.eq_none_iff_forall_ne_some]
  constructor
  · rintro h ⟨rest, rfl⟩
    exact h rest (after?_append head rest)
  · rintro h rest hrest
    rw [after?_eq_some_iff] at hrest
    exact h ⟨rest, hrest.symm⟩

/-- A cut divides the text around an occurrence of the needle. -/
theorem eq_append_of_cut? {needle text before rest : Text}
    (h : cut? needle text = some (before, rest)) : text = before ++ needle ++ rest := by
  induction text generalizing before with
  | nil =>
      by_cases hn : needle = []
      · simp only [cut?, hn, if_pos, Option.some.injEq, Prod.mk.injEq] at h
        obtain ⟨rfl, rfl⟩ := h
        simp [hn]
      · simp [cut?, hn] at h
  | cons c text ih =>
      cases ha : after? needle (c :: text) with
      | some tail =>
          simp only [cut?, ha, Option.some.injEq, Prod.mk.injEq] at h
          obtain ⟨rfl, rfl⟩ := h
          simpa using (after?_eq_some_iff _ _ _).1 ha
      | none =>
          simp only [cut?, ha, Option.map_eq_some_iff, Prod.mk.injEq] at h
          obtain ⟨⟨front, tail⟩, hcut, rfl, rfl⟩ := h
          simp [ih hcut]

/-- A cut fails exactly when the needle does not occur. -/
theorem cut?_eq_none_iff (needle text : Text) : cut? needle text = none ↔ ¬ needle <:+: text := by
  induction text with
  | nil => by_cases hn : needle = [] <;> simp [cut?, hn]
  | cons c text ih =>
      cases ha : after? needle (c :: text) with
      | some tail =>
          have hp : needle <+: c :: text := ⟨tail, ((after?_eq_some_iff _ _ _).1 ha).symm⟩
          simp [cut?, ha, hp.isInfix]
      | none =>
          have hp : ¬ needle <+: c :: text := (after?_eq_none_iff _ _).1 ha
          simp [cut?, ha, ih, List.infix_cons_iff, hp]

theorem occursIn_iff (needle text : Text) : occursIn needle text = true ↔ needle <:+: text := by
  rw [occursIn, Option.isSome_iff_ne_none, ne_eq, cut?_eq_none_iff, not_not]

/-- No occurrence of the needle starts before the cut. -/
theorem length_le_of_cut? {needle text before rest front tail : Text}
    (h : cut? needle text = some (before, rest)) (ht : text = front ++ needle ++ tail) :
    before.length ≤ front.length := by
  induction text generalizing before front with
  | nil =>
      have hb := eq_append_of_cut? h
      simp only [List.nil_eq, List.append_eq_nil_iff] at hb
      simp [hb.1.1]
  | cons c text ih =>
      cases ha : after? needle (c :: text) with
      | some tail' =>
          simp only [cut?, ha, Option.some.injEq, Prod.mk.injEq] at h
          simp [← h.1]
      | none =>
          simp only [cut?, ha, Option.map_eq_some_iff, Prod.mk.injEq] at h
          obtain ⟨⟨front', tail'⟩, hcut, rfl, rfl⟩ := h
          cases front with
          | nil => exact absurd ⟨tail, by simpa using ht.symm⟩ ((after?_eq_none_iff _ _).1 ha)
          | cons d front =>
              simp only [List.cons_append, List.cons.injEq] at ht
              simpa using ih hcut ht.2

/-- A cut does not start in a text without the first character of the needle. -/
theorem cut?_append_of_not_mem {d : Char} {more front : Text} (h : d ∉ front) (text : Text) :
    cut? (d :: more) (front ++ text) =
      (cut? (d :: more) text).map fun (before, rest) => (front ++ before, rest) := by
  induction front with
  | nil => cases hcut : cut? (d :: more) text <;> simp [hcut]
  | cons b front ih =>
      rw [List.mem_cons, not_or] at h
      rw [List.cons_append, cut?, after?, if_neg h.1, ih h.2]
      cases cut? (d :: more) text <;> rfl

/-- A cut does not start in a text that has nothing in common with the needle. -/
theorem cut?_append_of_disjoint {needle front : Text} (hne : needle ≠ [])
    (h : ∀ c ∈ needle, c ∉ front) (text : Text) :
    cut? needle (front ++ text) =
      (cut? needle text).map fun (before, rest) => (front ++ before, rest) := by
  obtain ⟨d, more, rfl⟩ := List.exists_cons_of_ne_nil hne
  exact cut?_append_of_not_mem (h d List.mem_cons_self) text

theorem cutLast?_append_of_disjoint {needle front : Text} (hne : needle ≠ [])
    (h : ∀ c ∈ needle, c ∉ front) (text : Text) :
    cutLast? needle (front ++ text) =
      (cutLast? needle text).map fun (before, rest) => (front ++ before, rest) := by
  induction front with
  | nil => cases hcut : cutLast? needle text <;> simp [hcut]
  | cons b front ih =>
      obtain ⟨d, more, rfl⟩ := List.exists_cons_of_ne_nil hne
      have hdb : d ≠ b := fun heq => h d List.mem_cons_self (heq ▸ List.mem_cons_self)
      rw [List.cons_append, cutLast?, after?, if_neg hdb,
        ih fun c hc hmem => h c hc (List.mem_cons_of_mem _ hmem)]
      cases cutLast? (d :: more) text <;> rfl

theorem before?_eq_some_iff (tail text front : Text) :
    before? tail text = some front ↔ text = front ++ tail := by
  rw [before?, Option.map_eq_some_iff]
  constructor
  · rintro ⟨rest, hrest, rfl⟩
    rw [after?_eq_some_iff] at hrest
    rw [← List.reverse_reverse text, hrest]
    simp
  · rintro rfl
    exact ⟨front.reverse, by simp, by simp⟩

/-! ## Occurrences around a character -/

/-- A needle without the character `b` occurs on one side of any `b`. -/
theorem infix_append_cons_iff {needle front rest : Text} {b : Char} (hb : b ∉ needle) :
    needle <:+: front ++ b :: rest ↔ needle <:+: front ∨ needle <:+: rest := by
  constructor
  · rintro ⟨u, v, huv⟩
    rcases List.append_eq_append_iff.1 huv with ⟨w, hfront, -⟩ | ⟨w, hu, hv⟩
    · exact Or.inl ⟨u, w, hfront.symm⟩
    · cases w with
      | nil => exact Or.inl ⟨u, [], by simpa using hu⟩
      | cons c w =>
          simp only [List.cons_append, List.cons.injEq] at hv
          obtain ⟨rfl, rfl⟩ := hv
          rcases List.append_eq_append_iff.1 hu with ⟨x, -, hneedle⟩ | ⟨x, -, hx⟩
          · exact absurd (hneedle ▸ by simp) hb
          · cases x with
            | nil => exact absurd ((by simpa using hx : b :: w = needle) ▸ List.mem_cons_self) hb
            | cons d x =>
                simp only [List.cons_append, List.cons.injEq] at hx
                exact Or.inr ⟨x, v, by rw [← hx.2]⟩
  · rintro (h | h)
    · exact h.trans (List.prefix_append _ _).isInfix
    · exact h.trans (((List.suffix_cons b rest).trans (List.suffix_append front _)).isInfix)

theorem isPrefix_append_cons_iff {needle front rest : Text} {b : Char} (hb : b ∉ needle) :
    needle <+: front ++ b :: rest ↔ needle <+: front := by
  refine ⟨fun h => ?_, fun h => h.trans (List.prefix_append _ _)⟩
  have hfront : front <+: front ++ b :: rest := List.prefix_append _ _
  have hover : front ++ [b] <+: front ++ b :: rest := ⟨rest, by simp⟩
  rcases Nat.lt_or_ge front.length needle.length with hlt | hle
  · have hwithin := List.prefix_of_prefix_length_le hover h (by simpa using hlt)
    exact absurd (hwithin.subset (by simp)) hb
  · exact List.prefix_of_prefix_length_le h hfront hle

/-- A needle without blanks occurs on one side of any run of blanks. -/
theorem infix_append_append_iff {needle front mid rest : Text} (hmid : mid ≠ [])
    (hneedle : ∀ b ∈ mid, b ∉ needle) (hne : needle ≠ []) :
    needle <:+: front ++ mid ++ rest ↔ needle <:+: front ∨ needle <:+: rest := by
  induction mid generalizing front with
  | nil => exact absurd rfl hmid
  | cons b mid ih =>
      have hb : b ∉ needle := hneedle b List.mem_cons_self
      have hsplit : front ++ b :: mid ++ rest = front ++ b :: (mid ++ rest) := by simp
      rw [hsplit, infix_append_cons_iff hb]
      by_cases hnil : mid = []
      · simp [hnil]
      · have hlater : needle <:+: mid ++ rest ↔ needle <:+: [] ∨ needle <:+: rest :=
          @ih [] hnil fun c hc => hneedle c (List.mem_cons_of_mem _ hc)
        rw [hlater]
        simp [hne]

/-- Blanks in front hold nothing of a needle without blanks. -/
theorem infix_append_of_blank {needle blanks : Text} (hne : needle ≠ [])
    (hneedle : ∀ c ∈ needle, isBlank c = false) (hblanks : ∀ c ∈ blanks, isBlank c = true)
    (rest : Text) : needle <:+: blanks ++ rest ↔ needle <:+: rest := by
  by_cases hnil : blanks = []
  · rw [hnil, List.nil_append]
  · have hapart : ∀ b ∈ blanks, b ∉ needle := fun b hb hmem =>
      absurd ((hneedle b hmem).symm.trans (hblanks b hb)) (by decide)
    have hnot : ¬ needle <:+: [] := fun h => hne (List.eq_nil_of_infix_nil h)
    have hsplit := @infix_append_append_iff needle [] blanks rest hnil hapart hne
    rw [List.nil_append] at hsplit
    rw [hsplit]
    simp only [hnot, false_or]

/-- A line feed is the first one after a line without any, or it comes later. -/
theorem append_newline_cases {front rest line more : Text} (hline : '\n' ∉ line)
    (h : front ++ '\n' :: rest = line ++ '\n' :: more) :
    (front = line ∧ rest = more) ∨
      ∃ w, front = line ++ '\n' :: w ∧ more = w ++ '\n' :: rest := by
  rcases List.append_eq_append_iff.1 h with ⟨w, hfront, hrest⟩ | ⟨w, hfront, hmore⟩
  · cases w with
    | nil =>
        obtain rfl : rest = more := by simpa using hrest
        exact Or.inl ⟨by simpa using hfront.symm, rfl⟩
    | cons d w =>
        rw [List.cons_append, List.cons.injEq] at hrest
        exact absurd (by simp [hfront, ← hrest.1]) hline
  · cases w with
    | nil =>
        obtain rfl : more = rest := by simpa using hmore
        exact Or.inl ⟨by simpa using hfront, rfl⟩
    | cons d w =>
        rw [List.cons_append, List.cons.injEq] at hmore
        obtain ⟨rfl, hmore⟩ := hmore
        exact Or.inr ⟨w, hfront, hmore⟩

/-! ## Runs of characters -/

theorem takeWhile_append_stop {p : Char → Bool} {run rest : Text} (hrun : ∀ c ∈ run, p c = true)
    (hrest : ∀ c ∈ rest.head?, p c = false) : (run ++ rest).takeWhile p = run := by
  rw [List.takeWhile_append_of_pos hrun]
  cases rest with
  | nil => simp
  | cons c rest => simp [hrest c rfl]

theorem dropWhile_append_stop {p : Char → Bool} {run rest : Text} (hrun : ∀ c ∈ run, p c = true)
    (hrest : ∀ c ∈ rest.head?, p c = false) : (run ++ rest).dropWhile p = rest := by
  rw [List.dropWhile_append_of_pos hrun]
  cases rest with
  | nil => rfl
  | cons c rest => simp [hrest c rfl]

/-! ## Pieces -/

theorem pieces_ne_nil (separator : Char) (text : Text) : pieces separator text ≠ [] := by
  cases text with
  | nil => simp [pieces]
  | cons c text =>
      rw [pieces]
      split
      · exact List.cons_ne_nil _ _
      · cases pieces separator text <;> exact List.cons_ne_nil _ _

theorem pieces_append_of_not_mem {separator : Char} {front text piece : Text} {more : List Text}
    (hfront : separator ∉ front) (h : pieces separator text = piece :: more) :
    pieces separator (front ++ text) = (front ++ piece) :: more := by
  induction front with
  | nil => exact h
  | cons c front ih =>
      rw [List.mem_cons, not_or] at hfront
      rw [List.cons_append, pieces, if_neg (Ne.symm hfront.1), ih hfront.2]
      rfl

theorem pieces_of_not_mem {separator : Char} {text : Text} (h : separator ∉ text) :
    pieces separator text = [text] := by
  have hnil : pieces separator [] = [[]] := rfl
  simpa using pieces_append_of_not_mem h hnil

/-- What stands before a separator and what stands behind it have their own pieces. -/
theorem pieces_append_separator (separator : Char) (front rest : Text) :
    pieces separator (front ++ separator :: rest) =
      pieces separator front ++ pieces separator rest := by
  induction front with
  | nil => simp [pieces]
  | cons c front ih =>
      rw [List.cons_append, pieces, pieces, ih]
      split
      · rfl
      · obtain ⟨piece, more, hfront⟩ := List.exists_cons_of_ne_nil (pieces_ne_nil separator front)
        rw [hfront]
        rfl

/-- Joined texts are the pieces between the separators that join them. -/
theorem pieces_intercalate {separator : Char} {items : List Text} (hne : items ≠ [])
    (h : ∀ item ∈ items, separator ∉ item) :
    pieces separator (List.intercalate [separator] items) = items := by
  induction items with
  | nil => contradiction
  | cons item more ih =>
      have hitem := pieces_of_not_mem (h item List.mem_cons_self)
      cases more with
      | nil => simpa [List.intercalate] using hitem
      | cons next more =>
          have hmore := ih (by simp) fun other hother => h other (List.mem_cons_of_mem _ hother)
          rw [List.intercalate_cons_cons, List.append_assoc, List.singleton_append,
            pieces_append_separator, hitem, hmore]
          rfl

/-! ## Blanks at the ends -/

theorem trimStart_append_of_blank {blanks : Text} (h : ∀ c ∈ blanks, isBlank c = true)
    (rest : Text) : trimStart (blanks ++ rest) = trimStart rest :=
  List.dropWhile_append_of_pos h

theorem trimStart_cons_of_not_blank {c : Char} (h : isBlank c = false) (rest : Text) :
    trimStart (c :: rest) = c :: rest :=
  List.dropWhile_cons_of_neg (by simp [h])

/-- A text is its leading blanks and its trimmed form. -/
theorem exists_blanks_append_trimStart (text : Text) :
    ∃ blanks : Text, (∀ c ∈ blanks, isBlank c = true) ∧ text = blanks ++ trimStart text :=
  ⟨text.takeWhile isBlank, fun _ hc => List.mem_takeWhile_imp hc,
    (List.takeWhile_append_dropWhile).symm⟩

/-- A text without trailing blanks, and the blanks. -/
theorem exists_trimEnd_append_blanks (text : Text) :
    ∃ blanks : Text, (∀ c ∈ blanks, isBlank c = true) ∧ text = trimEnd text ++ blanks := by
  refine ⟨(text.reverse.takeWhile isBlank).reverse, fun c hc => ?_, ?_⟩
  · exact List.mem_takeWhile_imp (List.mem_reverse.1 hc)
  · rw [← List.reverse_inj]
    simp [trimEnd, dropEndWhile]

theorem isBlank_eq_false_of_trimStart_eq_cons {text rest : Text} {c : Char}
    (h : trimStart text = c :: rest) : isBlank c = false := by
  rw [trimStart] at h
  have hc := List.head?_dropWhile_not isBlank text
  simpa [h] using hc

theorem isBlank_eq_false_of_mem_getLast?_trimEnd {text : Text} {c : Char}
    (h : c ∈ (trimEnd text).getLast?) : isBlank c = false := by
  have hc := List.head?_dropWhile_not isBlank text.reverse
  rw [trimEnd, dropEndWhile, List.getLast?_reverse, Option.mem_def] at h
  simpa [h] using hc

theorem trimEnd_eq_self {text : Text} (h : ∀ c ∈ text.getLast?, isBlank c = false) :
    trimEnd text = text := by
  rcases List.eq_nil_or_concat text with rfl | ⟨front, c, rfl⟩
  · rfl
  · have hc : isBlank c = false := h c (by simp)
    simp [trimEnd, dropEndWhile, hc]

theorem trimEnd_append {text : Text} (h : trimEnd text ≠ []) (front : Text) :
    trimEnd (front ++ text) = front ++ trimEnd text := by
  have hne : (text.reverse.dropWhile isBlank).isEmpty = false := by
    simpa [trimEnd, dropEndWhile] using h
  rw [trimEnd, dropEndWhile, List.reverse_append, List.dropWhile_append, hne]
  simp [trimEnd, dropEndWhile]

theorem trimEnd_append_of_blank {blanks : Text} (h : ∀ c ∈ blanks, isBlank c = true)
    (text : Text) : trimEnd (text ++ blanks) = trimEnd text := by
  rw [trimEnd, trimEnd, dropEndWhile, dropEndWhile, List.reverse_append,
    List.dropWhile_append_of_pos fun c hc => h c (List.mem_reverse.1 hc)]

theorem trimEnd_isPrefix (text : Text) : trimEnd text <+: text := by
  obtain ⟨blanks, -, htext⟩ := exists_trimEnd_append_blanks text
  exact ⟨blanks, htext.symm⟩

theorem trim_isInfix (text : Text) : trim text <:+: text := by
  have hstart : trimStart text <:+ text := List.dropWhile_suffix _
  exact (trimEnd_isPrefix _).isInfix.trans hstart.isInfix

theorem trim_eq_nil_iff (text : Text) : trim text = [] ↔ ∀ c ∈ text, isBlank c = true := by
  constructor
  · intro h
    obtain ⟨front, hfront, htext⟩ := exists_blanks_append_trimStart text
    obtain ⟨back, hback, hstart⟩ := exists_trimEnd_append_blanks (trimStart text)
    have hnil : trimEnd (trimStart text) = [] := h
    rw [hnil, List.nil_append] at hstart
    intro c hc
    rw [htext, hstart] at hc
    exact (List.mem_append.1 hc).elim (hfront c) (hback c)
  · intro h
    have hstart : trimStart text = [] := List.dropWhile_eq_nil_iff.2 h
    rw [trim, hstart]
    rfl

theorem trimStart_eq_self {text : Text} (h : ∀ c ∈ text.head?, isBlank c = false) :
    trimStart text = text := by
  cases text with
  | nil => rfl
  | cons c text => exact trimStart_cons_of_not_blank (h c rfl) text

/-- A text that no blank starts or ends is trimmed already. -/
theorem trim_eq_self {text : Text} (hhead : ∀ c ∈ text.head?, isBlank c = false)
    (hlast : ∀ c ∈ text.getLast?, isBlank c = false) : trim text = text := by
  rw [trim, trimStart_eq_self hhead, trimEnd_eq_self hlast]

theorem exists_go_append (a b : Char) (text : Text) :
    ∃ n, text = (List.replicate n [b, a]).flatten ++ dropEndPairs.go (a, b) text := by
  fun_induction dropEndPairs.go (a, b) text with
  | case1 y x rest hpair ih =>
      obtain ⟨n, hn⟩ := ih
      obtain ⟨rfl, rfl⟩ := Prod.mk.inj hpair
      refine ⟨n + 1, ?_⟩
      rw [List.replicate_succ, List.flatten_cons, List.append_assoc, ← hn]
      rfl
  | case2 y x rest hpair => exact ⟨0, by simp⟩
  | case3 short hshort => exact ⟨0, by simp⟩

/-- Dropping pairs at the end takes away some number of them and nothing else. -/
theorem exists_dropEndPairs_append (a b : Char) (text : Text) :
    ∃ n, text = dropEndPairs (a, b) text ++ (List.replicate n [a, b]).flatten := by
  obtain ⟨n, hn⟩ := exists_go_append a b text.reverse
  refine ⟨n, ?_⟩
  have hrev := congrArg List.reverse hn
  simpa [dropEndPairs, List.reverse_flatten] using hrev

theorem go_ne_pair (a b : Char) (text rest : Text) :
    dropEndPairs.go (a, b) text ≠ b :: a :: rest := by
  fun_induction dropEndPairs.go (a, b) text with
  | case1 y x more hpair ih => exact ih
  | case2 y x more hpair =>
      rintro ⟨⟩
      exact hpair rfl
  | case3 short hshort =>
      rintro rfl
      exact hshort b a rest rfl

theorem not_suffix_dropEndPairs (a b : Char) (text : Text) :
    ¬ [a, b] <:+ dropEndPairs (a, b) text := by
  rintro ⟨front, hfront⟩
  have hrev := congrArg List.reverse hfront
  simp only [dropEndPairs, List.reverse_append, List.reverse_reverse, List.reverse_cons,
    List.reverse_nil, List.nil_append, List.cons_append] at hrev
  exact go_ne_pair a b text.reverse front.reverse hrev.symm

/-! ## Words -/

theorem words_append_of_blank {blanks : Text} (h : ∀ c ∈ blanks, isBlank c = true) (rest : Text) :
    words (blanks ++ rest) = words rest := by
  induction blanks with
  | nil => rfl
  | cons c blanks ih =>
      rw [List.cons_append, words, if_pos (h c List.mem_cons_self),
        ih fun d hd => h d (List.mem_cons_of_mem _ hd)]

/-- A word ends where blanks follow it, or the text ends. -/
theorem words_append_of_not_blank {word rest : Text} (hne : word ≠ [])
    (hword : ∀ c ∈ word, isBlank c = false) (hrest : rest.head?.all isBlank = true) :
    words (word ++ rest) = word :: words rest := by
  induction word with
  | nil => contradiction
  | cons c word ih =>
      have hc : isBlank c = false := hword c List.mem_cons_self
      cases word with
      | nil => simp [words, hc, hrest]
      | cons d word =>
          have hd : isBlank d = false := hword d (by simp)
          have hmore := ih (List.cons_ne_nil _ _) fun e he => hword e (List.mem_cons_of_mem _ he)
          rw [List.cons_append, words, if_neg (by simp [hc]), if_neg (by simp [hd]), hmore]
          rfl

/-! ## Lines -/

/-- The line without a carriage return at its end. -/
def dropReturn (line : Text) : Text :=
  (before? ['\r'] line).getD line

theorem dropReturn_append_return (line : Text) : dropReturn (line ++ ['\r']) = line := by
  rw [dropReturn, (before?_eq_some_iff _ _ _).2 rfl, Option.getD_some]

@[simp] theorem dropReturn_nil : dropReturn [] = [] := rfl

theorem dropReturn_eq_self {line : Text} (h : line.getLast? ≠ some '\r') :
    dropReturn line = line := by
  cases hb : before? ['\r'] line with
  | none => simp [dropReturn, hb]
  | some front =>
      rw [before?_eq_some_iff] at hb
      simp [hb] at h

theorem map_dropReturn_eq_self {ls : List Text} (h : ∀ line ∈ ls, line.getLast? ≠ some '\r') :
    ls.map dropReturn = ls :=
  (List.map_congr_left fun line hline => dropReturn_eq_self (h line hline)).trans (List.map_id _)

/-- Either a line ends in no carriage return and stays, or it loses exactly that one. -/
theorem dropReturn_cases (line : Text) :
    (line.getLast? ≠ some '\r' ∧ dropReturn line = line) ∨ line = dropReturn line ++ ['\r'] := by
  cases hb : before? ['\r'] line with
  | none =>
      refine Or.inl ⟨fun hlast => ?_, by simp [dropReturn, hb]⟩
      obtain ⟨front, rfl⟩ := List.getLast?_eq_some_iff.1 hlast
      rw [(before?_eq_some_iff _ _ _).2 rfl] at hb
      contradiction
  | some front =>
      refine Or.inr ?_
      rw [before?_eq_some_iff] at hb
      subst hb
      rw [dropReturn_append_return]

theorem dropReturn_cons {c : Char} {line : Text} (h : line = [] → c ≠ '\r') :
    dropReturn (c :: line) = c :: dropReturn line := by
  rcases dropReturn_cases line with ⟨hlast, heq⟩ | hreturn
  · rw [heq]
    refine dropReturn_eq_self fun hc => ?_
    cases line with
    | nil => exact h rfl (by simpa using hc)
    | cons d line => exact hlast (by simpa using hc)
  · rw [hreturn, ← List.cons_append, dropReturn_append_return, dropReturn_append_return]

theorem lines_append_newline {line : Text} (h : '\n' ∉ line) (rest : Text) :
    lines (line ++ '\n' :: rest) = dropReturn line :: lines rest := by
  induction line with
  | nil => simp [lines]
  | cons c line ih =>
      obtain ⟨hc, hline⟩ : '\n' ≠ c ∧ '\n' ∉ line := by simpa using h
      cases line with
      | nil =>
          by_cases hr : c = '\r'
          · subst hr
            simp [lines, show dropReturn ['\r'] = [] from dropReturn_append_return []]
          · simp [lines, consHead, hr, Ne.symm hc, dropReturn_cons]
      | cons d line =>
          have hd : d ≠ '\n' := fun hd => hline (by simp [hd])
          rw [dropReturn_cons (by simp)]
          simp only [List.cons_append] at ih ⊢
          rw [lines, if_neg (Ne.symm hc), if_neg (by simp [hd]), ih hline]
          rfl

theorem lines_of_not_mem {line : Text} (h : '\n' ∉ line) (hne : line ≠ []) :
    lines line = [line] := by
  induction line with
  | nil => exact absurd rfl hne
  | cons c line ih =>
      obtain ⟨hc, hline⟩ : '\n' ≠ c ∧ '\n' ∉ line := by simpa using h
      have hhead : line.head? ≠ some '\n' := fun hh => hline (List.mem_of_mem_head? hh)
      rw [lines, if_neg (Ne.symm hc), if_neg (by simp [hhead])]
      cases line with
      | nil => rfl
      | cons d line => rw [ih hline (by simp)]; rfl

@[simp] theorem joinLines_singleton (line : Text) : joinLines [line] = line := by
  simp [joinLines, List.intercalate]

theorem joinLines_cons_cons (line next : Text) (more : List Text) :
    joinLines (line :: next :: more) = line ++ '\n' :: joinLines (next :: more) := by
  simp [joinLines, List.intercalate]

theorem joinLines_cons {line : Text} {more : List Text} (h : more ≠ []) :
    joinLines (line :: more) = line ++ '\n' :: joinLines more := by
  cases more with
  | nil => exact absurd rfl h
  | cons next more => exact joinLines_cons_cons line next more

theorem joinLines_concat {front : List Text} (h : front ≠ []) (last : Text) :
    joinLines (front ++ [last]) = joinLines front ++ '\n' :: last := by
  induction front with
  | nil => exact absurd rfl h
  | cons line front ih =>
      cases front with
      | nil => simp [joinLines_cons_cons]
      | cons next front =>
          rw [List.cons_append, joinLines_cons (by simp), ih (by simp), joinLines_cons_cons,
            List.append_assoc, List.cons_append]

theorem joinLines_concat_append (front : List Text) (last rest : Text) :
    joinLines (front ++ [last]) ++ rest = joinLines (front ++ [last ++ rest]) := by
  by_cases hnil : front = []
  · simp [hnil]
  · rw [joinLines_concat hnil, joinLines_concat hnil]
    simp

theorem isPrefix_joinLines_cons (line : Text) (more : List Text) :
    line <+: joinLines (line :: more) := by
  cases more with
  | nil => simp
  | cons next more =>
      rw [joinLines_cons_cons]
      exact List.prefix_append _ _

/-- Joined lines are read back, less one carriage return at the end of each but the last. -/
theorem lines_joinLines {front : List Text} {last : Text} (hfront : ∀ l ∈ front, '\n' ∉ l)
    (hlast : '\n' ∉ last) (hne : last ≠ []) :
    lines (joinLines (front ++ [last])) = front.map dropReturn ++ [last] := by
  induction front with
  | nil => simpa using lines_of_not_mem hlast hne
  | cons line front ih =>
      have hline : '\n' ∉ line := hfront line List.mem_cons_self
      rw [List.cons_append, joinLines_cons (by simp), lines_append_newline hline,
        ih fun l hl => hfront l (List.mem_cons_of_mem _ hl)]
      rfl

/-- A needle without line feeds occurs in joined lines exactly when one of them holds it. -/
theorem infix_joinLines_iff {needle : Text} (hneedle : '\n' ∉ needle) (hne : needle ≠ [])
    (ls : List Text) : needle <:+: joinLines ls ↔ ∃ line ∈ ls, needle <:+: line := by
  induction ls with
  | nil => simpa [joinLines, List.intercalate] using hne
  | cons line more ih =>
      cases more with
      | nil => simp
      | cons next more =>
          rw [joinLines_cons_cons, infix_append_cons_iff hneedle, ih]
          simp

theorem newline_not_mem_consHead {c : Char} {ls : List Text} (hc : c ≠ '\n')
    (h : ∀ l ∈ ls, '\n' ∉ l) : ∀ l ∈ consHead c ls, '\n' ∉ l := by
  cases ls with
  | nil => simpa [consHead] using Ne.symm hc
  | cons l ls =>
      intro l' hl'
      rcases List.mem_cons.1 hl' with rfl | hl'
      · simpa [Ne.symm hc] using h l List.mem_cons_self
      · exact h l' (List.mem_cons_of_mem _ hl')

theorem newline_not_mem_of_mem_lines {text line : Text} (h : line ∈ lines text) : '\n' ∉ line := by
  induction text generalizing line with
  | nil => simp [lines] at h
  | cons c text ih =>
      rw [lines] at h
      split at h
      · rcases List.mem_cons.1 h with rfl | h
        · simp
        · exact ih h
      · next hc =>
          split at h
          · exact ih h
          · exact newline_not_mem_consHead hc (fun l hl => ih hl) line h

theorem lines_ne_nil {text : Text} (h : '\n' ∈ text) : lines text ≠ [] := by
  induction text with
  | nil => simp at h
  | cons c text ih =>
      rw [lines]
      split
      · simp
      · next hc =>
          have htext : '\n' ∈ text := by simpa [Ne.symm hc] using h
          split
          · exact ih htext
          · cases lines text <;> simp [consHead]

/-- A text is read line by line on either side of a line feed. -/
theorem lines_append_newline_append (front rest : Text) :
    lines (front ++ '\n' :: rest) = lines (front ++ ['\n']) ++ lines rest := by
  induction front with
  | nil => simp [lines]
  | cons c front ih =>
      have hhead : (front ++ '\n' :: rest).head? = (front ++ ['\n']).head? := by
        cases front <;> rfl
      obtain ⟨line, more, hlines⟩ :=
        List.exists_cons_of_ne_nil (@lines_ne_nil (front ++ ['\n']) (by simp))
      rw [List.cons_append, List.cons_append, lines, lines, hhead, ih]
      split
      · rfl
      · split
        · rfl
        · rw [hlines]
          rfl

theorem isInfix_of_mem_lines {text line : Text} (h : line ∈ lines text) : line <:+: text := by
  -- the first line is a prefix, which is what a character in front of it needs
  have hboth : (∀ l ∈ (lines text).head?, l <+: text) ∧ ∀ l ∈ lines text, l <:+: text := by
    clear h
    induction text with
    | nil => simp [lines]
    | cons c text ih =>
        obtain ⟨hfirst, hall⟩ := ih
        have hlater : ∀ l ∈ lines text, l <:+: c :: text := fun l hl =>
          (hall l hl).trans (List.suffix_cons c text).isInfix
        rw [lines]
        split
        · simpa using hlater
        · split
          · next hreturn =>
              refine ⟨fun l hl => ?_, hlater⟩
              obtain ⟨rest, rfl⟩ := List.head?_eq_some_iff.1 hreturn.2
              rw [lines, if_pos rfl, List.head?_cons, Option.mem_some_iff] at hl
              exact hl ▸ List.nil_prefix
          · cases hlines : lines text with
            | nil =>
                have hone : [c] <+: c :: text := ⟨text, rfl⟩
                simp [consHead, hone.isInfix]
            | cons first more =>
                have hcons : c :: first <+: c :: text :=
                  List.cons_prefix_cons.2 ⟨rfl, hfirst first (by simp [hlines])⟩
                refine ⟨by simpa [consHead] using hcons, fun l hl => ?_⟩
                rcases List.mem_cons.1 hl with rfl | hl
                · exact hcons.isInfix
                · exact hlater l (by simp [hlines, hl])
  exact hboth.2 line h

/-- Texts by their lines: the last one ends in no line feed. -/
@[elab_as_elim] theorem induction_on_lines {motive : Text → Prop} (text : Text)
    (last : ∀ line : Text, '\n' ∉ line → motive line)
    (line : ∀ line rest : Text, '\n' ∉ line → motive rest → motive (line ++ '\n' :: rest)) :
    motive text := by
  induction hlength : text.length using Nat.strong_induction_on generalizing text with
  | _ n ih =>
    by_cases hmem : '\n' ∈ text
    · obtain ⟨front, rest, rfl, hfront⟩ := List.eq_append_cons_of_mem hmem
      refine line front rest hfront (ih rest.length ?_ rest rfl)
      rw [← hlength, List.length_append, List.length_cons]
      omega
    · exact last text hmem

/-- A needle without line ends occurs in a text exactly when one of its lines holds it. -/
theorem infix_lines_iff {needle : Text} (hne : needle ≠ []) (hnewline : '\n' ∉ needle)
    (hreturn : '\r' ∉ needle) (text : Text) :
    (∃ line ∈ lines text, needle <:+: line) ↔ needle <:+: text := by
  constructor
  · rintro ⟨line, hline, hneedle⟩
    exact hneedle.trans (isInfix_of_mem_lines hline)
  · intro hneedle
    induction text using induction_on_lines with
    | last line hline =>
        have hlines : lines line = [line] := lines_of_not_mem hline fun hnil =>
          hne (List.eq_nil_of_infix_nil (hnil ▸ hneedle))
        exact ⟨line, by simp [hlines], hneedle⟩
    | line line rest hline ih =>
        rw [lines_append_newline hline]
        rcases (infix_append_cons_iff hnewline).1 hneedle with hneedle | hneedle
        · refine ⟨_, List.mem_cons_self, ?_⟩
          rcases dropReturn_cases line with ⟨-, hsame⟩ | hdropped
          · rwa [hsame]
          · rw [hdropped, infix_append_cons_iff hreturn] at hneedle
            exact hneedle.resolve_right fun hnil => hne (List.eq_nil_of_infix_nil hnil)
        · obtain ⟨l, hl, hneedle⟩ := ih hneedle
          exact ⟨l, List.mem_cons_of_mem _ hl, hneedle⟩

/-! ## Line endings -/

theorem withNewlines_append (front rest newline : Text) :
    withNewlines (front ++ rest) newline =
      withNewlines front newline ++ withNewlines rest newline :=
  List.flatMap_append

theorem withNewlines_eq_self {text : Text} (h : '\n' ∉ text) (newline : Text) :
    withNewlines text newline = text := by
  have hsame : ∀ c ∈ text, (if c = '\n' then newline else [c]) = [c] := by
    intro c hc
    refine if_neg ?_
    rintro rfl
    exact h hc
  rw [withNewlines, List.flatMap_congr hsame, List.flatMap_singleton']

theorem isInfix_withNewlines {needle text : Text} (hneedle : '\n' ∉ needle)
    (h : needle <:+: text) (newline : Text) : needle <:+: withNewlines text newline := by
  obtain ⟨front, rest, rfl⟩ := h
  rw [withNewlines_append, withNewlines_append, withNewlines_eq_self hneedle]
  exact ⟨_, _, rfl⟩

/-- Other line ends do not touch a needle that shares no character with them. -/
theorem infix_withNewlines_iff {needle newline : Text} (hne : needle ≠ [])
    (hneedle : '\n' ∉ needle) (hends : newline ≠ []) (hnewline : ∀ c ∈ newline, c ∉ needle)
    (text : Text) : needle <:+: withNewlines text newline ↔ needle <:+: text := by
  induction text using induction_on_lines with
  | last line hline => rw [withNewlines_eq_self hline]
  | line line rest hline ih =>
      have hsplit : withNewlines (line ++ '\n' :: rest) newline =
          line ++ newline ++ withNewlines rest newline := by
        rw [withNewlines_append, withNewlines_eq_self hline, List.append_assoc]
        rfl
      rw [hsplit, infix_append_append_iff hends hnewline hne, ih, infix_append_cons_iff hneedle]

theorem withNewlines_newline (text : Text) : withNewlines text ['\n'] = text := by
  have hsame : (fun c => if c = '\n' then ['\n'] else [c]) = fun c : Char => [c] := by
    funext c
    split_ifs with h
    · rw [h]
    · rfl
  rw [withNewlines, hsame, List.flatMap_singleton']

/-- A text without pairs of carriage return and line feed has the same lines when every line feed
is written as such a pair. -/
theorem lines_withNewlines_return {text : Text} (h : ¬ ['\r', '\n'] <:+: text) :
    lines (withNewlines text ['\r', '\n']) = lines text := by
  induction text with
  | nil => rfl
  | cons c text ih =>
      have hrest : ¬ ['\r', '\n'] <:+: text := fun hpair =>
        h (hpair.trans (List.suffix_cons c text).isInfix)
      have hcons : withNewlines (c :: text) ['\r', '\n'] =
          (if c = '\n' then ['\r', '\n'] else [c]) ++ withNewlines text ['\r', '\n'] := rfl
      by_cases hc : c = '\n'
      · rw [hcons, if_pos hc, hc, lines, if_pos rfl, ← ih hrest]
        simp [lines]
      · have hhead : (withNewlines text ['\r', '\n']).head? ≠ some '\n' := by
          cases text with
          | nil => simp [withNewlines]
          | cons d text =>
              by_cases hd : d = '\n'
              · simp [withNewlines, hd]
              · simp [withNewlines, hd]
        have hreturn : ¬ (c = '\r' ∧ text.head? = some '\n') := by
          rintro ⟨rfl, hnewline⟩
          obtain ⟨rest, rfl⟩ := List.head?_eq_some_iff.1 hnewline
          exact h ⟨[], rest, rfl⟩
        rw [hcons, if_neg hc, List.singleton_append, lines, if_neg hc,
          if_neg fun hboth => hhead hboth.2, ih hrest, lines, if_neg hc, if_neg hreturn]

theorem not_infix_joinLines {ls : List Text}
    (h : ∀ l ∈ ls, '\n' ∉ l ∧ l.getLast? ≠ some '\r') : ¬ ['\r', '\n'] <:+: joinLines ls := by
  induction ls with
  | nil => simp [joinLines]
  | cons line more ih =>
      obtain ⟨hline, hlast⟩ := h line List.mem_cons_self
      have hmore := ih fun l hl => h l (List.mem_cons_of_mem _ hl)
      cases more with
      | nil =>
          rintro ⟨front, rest, heq⟩
          rw [joinLines_singleton] at heq
          exact hline (heq ▸ by simp)
      | cons next more =>
          rintro ⟨front, rest, heq⟩
          rw [joinLines_cons_cons] at heq
          have hsplit : (front ++ ['\r']) ++ '\n' :: rest =
              line ++ '\n' :: joinLines (next :: more) := by simpa using heq
          rcases append_newline_cases hline hsplit with ⟨hfront, -⟩ | ⟨w, hfront, hjoined⟩
          · exact hlast (by rw [← hfront]; simp)
          · -- the pair stands behind the first line
            rcases List.eq_nil_or_concat w with rfl | ⟨w, c, rfl⟩
            · have hend := congrArg List.getLast? hfront
              simp at hend
            · have hend : front ++ ['\r'] = (line ++ '\n' :: w) ++ [c] := by simpa using hfront
              have hc : '\r' = c := List.singleton_inj.1 (List.append_inj' hend rfl).2
              exact hmore ⟨w, rest, by rw [hjoined, ← hc]; simp⟩

end Text
end PhpDoc
