import Mathlib
import PhpDoc.Proofs.LineReaders
import PhpDoc.Source.Parameter

/-!
# Other line endings

A carriage return is blank like the line feed it accompanies, and neither belongs to a keyword, a
name or a type.  So a reader finds the same in a text whose line feeds are written as another line
ending, and leaves what it leaves of the text itself, with that line ending.

The line ending is any text of carriage returns and line feeds.  The laws then also hold for texts
that are read backwards, in which the line ending is reversed.
-/

namespace PhpDoc

/-- A text that may stand for a line feed. -/
structure IsLineEnding (newline : Text) : Prop where
  ne_nil : newline ≠ []
  breaks : ∀ c ∈ newline, c = '\r' ∨ c = '\n'

theorem IsLineEnding.reverse {newline : Text} (h : IsLineEnding newline) :
    IsLineEnding newline.reverse :=
  ⟨by simpa using h.ne_nil, fun c hc => h.breaks c (List.mem_reverse.1 hc)⟩

/-- A carriage return with a line feed. -/
def crlf : Text := "\r\n".toList

theorem isLineEnding_crlf : IsLineEnding crlf :=
  ⟨by decide, fun c hc => by simpa [crlf] using hc⟩

theorem IsLineEnding.eq_newline {newline : Text} (h : IsLineEnding newline) {p : Char → Bool}
    (hp : p '\r' = p '\n') : ∀ c ∈ newline, p c = p '\n' := by
  intro c hc
  rcases h.breaks c hc with rfl | rfl
  · exact hp
  · rfl

/-- Neither a carriage return nor a line feed stands in the text. -/
def NoBreak (text : Text) : Prop :=
  '\r' ∉ text ∧ '\n' ∉ text

instance : DecidablePred NoBreak :=
  fun text => inferInstanceAs (Decidable ('\r' ∉ text ∧ '\n' ∉ text))

theorem NoBreak.not_mem_newline {text newline : Text} (h : NoBreak text)
    (hn : IsLineEnding newline) {c : Char} (hc : c ∈ text) : c ∉ newline := by
  intro hmem
  rcases hn.breaks c hmem with rfl | rfl
  · exact h.1 hc
  · exact h.2 hc

namespace Text

/-! ## The converted text -/

theorem withNewlines_cons_newline (text newline : Text) :
    withNewlines ('\n' :: text) newline = newline ++ withNewlines text newline :=
  List.flatMap_cons

theorem withNewlines_cons {c : Char} (h : c ≠ '\n') (text newline : Text) :
    withNewlines (c :: text) newline = c :: withNewlines text newline := by
  rw [withNewlines, List.flatMap_cons, if_neg h]
  rfl

theorem reverse_withNewlines (text newline : Text) :
    (withNewlines text newline).reverse = withNewlines text.reverse newline.reverse := by
  induction text with
  | nil => rfl
  | cons c text ih =>
      by_cases hc : c = '\n'
      · rw [hc, withNewlines_cons_newline, List.reverse_append, ih, List.reverse_cons,
          withNewlines_append, withNewlines_cons_newline]
        simp [withNewlines]
      · rw [withNewlines_cons hc, List.reverse_cons, ih, List.reverse_cons, withNewlines_append,
          withNewlines_cons hc]
        rfl

section

variable {newline : Text} (hn : IsLineEnding newline)
include hn

theorem withNewlines_eq_nil_iff (text : Text) : withNewlines text newline = [] ↔ text = [] := by
  cases text with
  | nil => simp [withNewlines]
  | cons c text =>
      by_cases hc : c = '\n'
      · simp [hc, withNewlines_cons_newline, hn.ne_nil]
      · simp [withNewlines_cons hc]

theorem isEmpty_withNewlines (text : Text) : (withNewlines text newline).isEmpty = text.isEmpty := by
  rw [Bool.eq_iff_iff, List.isEmpty_iff, List.isEmpty_iff, withNewlines_eq_nil_iff hn]

theorem length_le_withNewlines (text : Text) : text.length ≤ (withNewlines text newline).length := by
  induction text with
  | nil => simp
  | cons c text ih =>
      by_cases hc : c = '\n'
      · have hpos : 0 < newline.length := List.length_pos_of_ne_nil hn.ne_nil
        rw [hc, withNewlines_cons_newline, List.length_append, List.length_cons]
        omega
      · rw [withNewlines_cons hc, List.length_cons, List.length_cons]
        omega

/-! ## Runs of characters -/

theorem takeWhile_withNewlines {p : Char → Bool} (hp : p '\r' = p '\n') (text : Text) :
    (withNewlines text newline).takeWhile p = withNewlines (text.takeWhile p) newline := by
  induction text with
  | nil => rfl
  | cons c text ih =>
      by_cases hc : c = '\n'
      · subst hc
        cases hbreak : p '\n' with
        | true =>
            rw [List.takeWhile_cons_of_pos hbreak, withNewlines_cons_newline,
              withNewlines_cons_newline, ← ih]
            exact List.takeWhile_append_of_pos fun d hd => (hn.eq_newline hp d hd).trans hbreak
        | false =>
            obtain ⟨d, more, hd⟩ := List.exists_cons_of_ne_nil hn.ne_nil
            have hfirst : p d = false :=
              (hn.eq_newline hp d (hd ▸ List.mem_cons_self)).trans hbreak
            rw [List.takeWhile_cons_of_neg (by simp [hbreak]), withNewlines_cons_newline, hd,
              List.cons_append, List.takeWhile_cons_of_neg (by simp [hfirst])]
            rfl
      · rw [withNewlines_cons hc]
        cases hpc : p c with
        | true =>
            rw [List.takeWhile_cons_of_pos hpc, List.takeWhile_cons_of_pos hpc,
              withNewlines_cons hc, ih]
        | false =>
            rw [List.takeWhile_cons_of_neg (by simp [hpc]),
              List.takeWhile_cons_of_neg (by simp [hpc])]
            rfl

theorem dropWhile_withNewlines {p : Char → Bool} (hp : p '\r' = p '\n') (text : Text) :
    (withNewlines text newline).dropWhile p = withNewlines (text.dropWhile p) newline := by
  have hsplit : withNewlines text newline =
      withNewlines (text.takeWhile p) newline ++ withNewlines (text.dropWhile p) newline := by
    rw [← withNewlines_append, List.takeWhile_append_dropWhile]
  have hboth := List.takeWhile_append_dropWhile (p := p) (l := withNewlines text newline)
  rw [takeWhile_withNewlines hn hp] at hboth
  exact List.append_cancel_left (hboth.trans hsplit)

theorem any_head?_withNewlines {p : Char → Bool} (hreturn : p '\r' = false) (hfeed : p '\n' = false)
    (text : Text) : (withNewlines text newline).head?.any p = text.head?.any p := by
  cases text with
  | nil => rfl
  | cons c text =>
      by_cases hc : c = '\n'
      · obtain ⟨d, more, hd⟩ := List.exists_cons_of_ne_nil hn.ne_nil
        have hfirst : p d = false :=
          (hn.eq_newline (hreturn.trans hfeed.symm) d (hd ▸ List.mem_cons_self)).trans hfeed
        rw [hc, withNewlines_cons_newline, hd]
        simp [hfirst, hfeed]
      · rw [withNewlines_cons hc]
        rfl

/-! ## Blanks -/

theorem trimStart_withNewlines (text : Text) :
    trimStart (withNewlines text newline) = withNewlines text.trimStart newline :=
  dropWhile_withNewlines hn rfl text

theorem dropEndWhile_withNewlines {p : Char → Bool} (hp : p '\r' = p '\n') (text : Text) :
    dropEndWhile p (withNewlines text newline) = withNewlines (text.dropEndWhile p) newline := by
  rw [dropEndWhile, dropEndWhile, reverse_withNewlines, dropWhile_withNewlines hn.reverse hp,
    reverse_withNewlines, List.reverse_reverse]

theorem trim_withNewlines (text : Text) :
    trim (withNewlines text newline) = withNewlines text.trim newline := by
  rw [trim, trim, trimStart_withNewlines hn, trimEnd, dropEndWhile_withNewlines hn rfl]
  rfl

theorem afterBlanks?_withNewlines (text : Text) :
    afterBlanks? (withNewlines text newline) =
      (afterBlanks? text).map (withNewlines · newline) := by
  cases text with
  | nil => rfl
  | cons c text =>
      by_cases hc : c = '\n'
      · -- the first character of the line ending is blank, and so are the others
        obtain ⟨d, more, hd⟩ := List.exists_cons_of_ne_nil hn.ne_nil
        have hblank : ∀ e ∈ d :: more, isBlank e = true := fun e he =>
          (hn.eq_newline (p := isBlank) rfl e (hd ▸ he)).trans rfl
        rw [hc, withNewlines_cons_newline, hd, List.cons_append, afterBlanks?, afterBlanks?,
          if_pos (hblank d List.mem_cons_self), if_pos (by rfl),
          trimStart_append_of_blank fun e he => hblank e (List.mem_cons_of_mem _ he), ← hd,
          trimStart_withNewlines hn]
        rfl
      · rw [withNewlines_cons hc, afterBlanks?, afterBlanks?, trimStart_withNewlines hn]
        split <;> rfl

/-! ## Heads and cuts -/

theorem after?_withNewlines {word : Text} (hword : NoBreak word) (text : Text) :
    after? word (withNewlines text newline) = (after? word text).map (withNewlines · newline) := by
  induction word generalizing text with
  | nil => rfl
  | cons h word ih =>
      have hrest : NoBreak word :=
        ⟨fun hmem => hword.1 (List.mem_cons_of_mem _ hmem),
          fun hmem => hword.2 (List.mem_cons_of_mem _ hmem)⟩
      have hh : h ≠ '\n' := fun heq => hword.2 (heq ▸ List.mem_cons_self)
      cases text with
      | nil => rfl
      | cons c text =>
          by_cases hc : c = '\n'
          · obtain ⟨d, more, hd⟩ := List.exists_cons_of_ne_nil hn.ne_nil
            have hhd : h ≠ d := fun heq =>
              hword.not_mem_newline hn List.mem_cons_self (heq ▸ hd ▸ List.mem_cons_self)
            rw [hc, withNewlines_cons_newline, hd, List.cons_append, after?, after?, if_neg hhd,
              if_neg hh]
            rfl
          · rw [withNewlines_cons hc, after?, after?, ih hrest]
            split <;> rfl

theorem isPrefixOf_withNewlines {word : Text} (hword : NoBreak word) (text : Text) :
    word.isPrefixOf (withNewlines text newline) = word.isPrefixOf text := by
  rw [Bool.eq_iff_iff, List.isPrefixOf_iff_prefix, List.isPrefixOf_iff_prefix,
    ← not_iff_not, ← after?_eq_none_iff, ← after?_eq_none_iff, after?_withNewlines hn hword,
    Option.map_eq_none_iff]

theorem endsWith_withNewlines {word : Text} (hword : NoBreak word) (text : Text) :
    endsWith (withNewlines text newline) word = endsWith text word := by
  have hreverse : NoBreak word.reverse := by simpa [NoBreak] using hword
  rw [endsWith, endsWith, reverse_withNewlines, isPrefixOf_withNewlines hn.reverse hreverse]

omit hn in
theorem after?_cons_newline {word : Text} (hne : word ≠ []) (hword : NoBreak word) (text : Text) :
    after? word ('\n' :: text) = none := by
  obtain ⟨d, more, rfl⟩ := List.exists_cons_of_ne_nil hne
  have hd : d ≠ '\n' := fun heq => hword.2 (heq ▸ List.mem_cons_self)
  rw [after?, if_neg hd]

theorem cut?_withNewlines {word : Text} (hne : word ≠ []) (hword : NoBreak word) (text : Text) :
    cut? word (withNewlines text newline) =
      (cut? word text).map (Prod.map (withNewlines · newline) (withNewlines · newline)) := by
  induction text with
  | nil =>
      rw [withNewlines, List.flatMap_nil, cut?, if_neg hne]
      rfl
  | cons c text ih =>
      by_cases hc : c = '\n'
      · rw [hc, withNewlines_cons_newline,
          cut?_append_of_disjoint hne fun d hd => hword.not_mem_newline hn hd, ih, cut?,
          after?_cons_newline hne hword]
        cases cut? word text with
        | none => rfl
        | some found => simp [withNewlines_cons_newline]
      · have hafter := after?_withNewlines hn hword (c :: text)
        rw [withNewlines_cons hc] at hafter ⊢
        rw [cut?, cut?, hafter, ih]
        cases after? word (c :: text) with
        | some rest => rfl
        | none =>
            cases cut? word text with
            | none => rfl
            | some found => simp [withNewlines_cons hc]

theorem cutLast?_withNewlines {word : Text} (hne : word ≠ []) (hword : NoBreak word)
    (text : Text) :
    cutLast? word (withNewlines text newline) =
      (cutLast? word text).map (Prod.map (withNewlines · newline) (withNewlines · newline)) := by
  induction text with
  | nil =>
      rw [withNewlines, List.flatMap_nil, cutLast?, if_neg hne]
      rfl
  | cons c text ih =>
      by_cases hc : c = '\n'
      · rw [hc, withNewlines_cons_newline,
          cutLast?_append_of_disjoint hne fun d hd => hword.not_mem_newline hn hd, ih, cutLast?,
          after?_cons_newline hne hword]
        cases cutLast? word text with
        | none => rfl
        | some found => simp [withNewlines_cons_newline]
      · have hafter := after?_withNewlines hn hword (c :: text)
        rw [withNewlines_cons hc] at hafter ⊢
        rw [cutLast?, cutLast?, hafter, ih]
        cases cutLast? word text with
        | some found => simp [withNewlines_cons hc]
        | none => cases after? word (c :: text) <;> rfl

theorem occursIn_withNewlines {word : Text} (hne : word ≠ []) (hword : NoBreak word) (text : Text) :
    occursIn word (withNewlines text newline) = occursIn word text := by
  rw [occursIn, occursIn, cut?_withNewlines hn hne hword, Option.isSome_map]

/-! ## Pieces and words -/

theorem pieces_withNewlines {separator : Char} (hreturn : separator ≠ '\r')
    (hfeed : separator ≠ '\n') (text : Text) :
    pieces separator (withNewlines text newline) =
      (pieces separator text).map (withNewlines · newline) := by
  induction text with
  | nil => rfl
  | cons c text ih =>
      obtain ⟨piece, more, htext⟩ := List.exists_cons_of_ne_nil (pieces_ne_nil separator text)
      rw [htext, List.map_cons] at ih
      by_cases hc : c = '\n'
      · have hnot : separator ∉ newline := fun hmem => (hn.breaks _ hmem).elim hreturn hfeed
        rw [hc, withNewlines_cons_newline, pieces_append_of_not_mem hnot ih, pieces,
          if_neg (Ne.symm hfeed), htext, consHead, List.map_cons, withNewlines_cons_newline]
      · rw [withNewlines_cons hc, pieces, pieces, ih, htext]
        split
        · rfl
        · rw [consHead, consHead, List.map_cons, withNewlines_cons hc]

theorem words_withNewlines (text : Text) : words (withNewlines text newline) = words text := by
  induction text with
  | nil => rfl
  | cons c text ih =>
      by_cases hc : c = '\n'
      · rw [hc, withNewlines_cons_newline, words, if_pos (by rfl), ← ih]
        exact words_append_of_blank (fun d hd => hn.eq_newline (p := isBlank) rfl d hd) _
      · have hhead : (withNewlines text newline).head?.all isBlank = text.head?.all isBlank := by
          have hany := any_head?_withNewlines hn (p := (!isBlank ·)) rfl rfl text
          rw [← Bool.not_inj_iff]
          cases htext : text.head? <;> cases hother : (withNewlines text newline).head? <;>
            simp_all
        rw [withNewlines_cons hc, words, words, hhead, ih]

end

end Text

/-! ## Brackets and quotes -/

namespace Reading

/-- A string that is read was opened by a quotation mark. -/
def IsApt : Reading → Prop
  | plain => True
  | quoted mark => isQuote mark = true
  | escaped mark => isQuote mark = true

theorem isApt_next {r : Reading} (h : r.IsApt) (c : Char) : (r.next c).IsApt := by
  cases r with
  | plain =>
      rw [next]
      split
      · next hc => simpa [IsApt, isQuote] using hc
      · trivial
  | quoted mark =>
      rw [next]
      split
      · exact h
      · split
        · trivial
        · exact h
  | escaped mark => exact h

/-- A line ending ends the protection by a backslash, and changes nothing else. -/
theorem next_of_break {r : Reading} (h : r.IsApt) {c : Char} (hc : c = '\r' ∨ c = '\n') :
    r.next c = r.next '\n' ∧ (r.next '\n').next c = r.next '\n' := by
  have hmark : ∀ mark, isQuote mark = true → '\r' ≠ mark ∧ '\n' ≠ mark := by
    rintro mark hquote
    constructor <;> rintro rfl <;> exact absurd hquote (by decide)
  cases r with
  | plain => rcases hc with rfl | rfl <;> decide
  | quoted mark => rcases hc with rfl | rfl <;> simp [next, (hmark mark h).1, (hmark mark h).2]
  | escaped mark => rcases hc with rfl | rfl <;> simp [next, (hmark mark h).1, (hmark mark h).2]

theorem depthAfter_of_break (r : Reading) (depth : Nat) {c : Char} (hc : c = '\r' ∨ c = '\n') :
    r.depthAfter depth c = depth := by
  rcases hc with rfl | rfl <;> cases r <;> rfl

theorem isClosing_of_break {c : Char} (hc : c = '\r' ∨ c = '\n') : isClosing c = false := by
  rcases hc with rfl | rfl <;> rfl

variable {newline : Text} (hn : IsLineEnding newline)
include hn

theorem enclosed?_newline_append {r : Reading} (hr : r.IsApt) (depth : Nat) (text : Text) :
    enclosed? r depth (newline ++ text) =
      (enclosed? (r.next '\n') depth text).map fun (inner, rest) => (newline ++ inner, rest) := by
  -- once the first character is read, the others leave the reader where it stands
  have hmore : ∀ (more : Text) (s : Reading), (∀ c ∈ more, s.next c = s ∧ (c = '\r' ∨ c = '\n')) →
      enclosed? s depth (more ++ text) =
        (enclosed? s depth text).map fun (inner, rest) => (more ++ inner, rest) := by
    intro more s hs
    induction more with
    | nil => simp
    | cons c more ih =>
        obtain ⟨hnext, hbreak⟩ := hs c List.mem_cons_self
        rw [List.cons_append, enclosed?, if_neg (by simp [isClosing_of_break hbreak]), hnext,
          depthAfter_of_break s depth hbreak, ih fun d hd => hs d (List.mem_cons_of_mem _ hd)]
        cases enclosed? s depth text <;> rfl
  obtain ⟨c, more, rfl⟩ := List.exists_cons_of_ne_nil hn.ne_nil
  have hbreak := hn.breaks c List.mem_cons_self
  rw [List.cons_append, enclosed?, if_neg (by simp [isClosing_of_break hbreak]),
    (next_of_break hr hbreak).1, depthAfter_of_break r depth hbreak, hmore more _ fun d hd =>
      ⟨(next_of_break hr (hn.breaks d (List.mem_cons_of_mem _ hd))).2,
        hn.breaks d (List.mem_cons_of_mem _ hd)⟩]
  cases enclosed? (r.next '\n') depth text <;> rfl

theorem enclosed?_withNewlines {r : Reading} (hr : r.IsApt) (depth : Nat) (text : Text) :
    enclosed? r depth (text.withNewlines newline) = (enclosed? r depth text).map
      (Prod.map (Text.withNewlines · newline) (Text.withNewlines · newline)) := by
  induction text generalizing r depth with
  | nil => rfl
  | cons c text ih =>
      by_cases hc : c = '\n'
      · rw [hc, Text.withNewlines_cons_newline, enclosed?_newline_append hn hr,
          ih (isApt_next hr _), enclosed?, if_neg (by simp [isClosing]),
          depthAfter_of_break r depth (Or.inr rfl)]
        cases enclosed? (r.next '\n') depth text <;> simp [Text.withNewlines_cons_newline]
      · rw [Text.withNewlines_cons hc, enclosed?, enclosed?, ih (isApt_next hr _)]
        split
        · rfl
        · cases enclosed? (r.next c) (r.depthAfter depth c) text <;>
            simp [Text.withNewlines_cons hc]

omit hn in
theorem commaPieces_ne_nil (r : Reading) (depth : Nat) (text : Text) :
    commaPieces r depth text ≠ [] := by
  cases text with
  | nil => simp [commaPieces]
  | cons c text =>
      rw [commaPieces]
      split
      · exact List.cons_ne_nil _ _
      · cases commaPieces (r.next c) (r.depthAfter depth c) text <;> exact List.cons_ne_nil _ _

theorem commaPieces_newline_append {r : Reading} (hr : r.IsApt) {depth : Nat} {text piece : Text}
    {pieces : List Text} (h : commaPieces (r.next '\n') depth text = piece :: pieces) :
    commaPieces r depth (newline ++ text) = (newline ++ piece) :: pieces := by
  have hmore : ∀ (more : Text),
      (∀ c ∈ more, (r.next '\n').next c = r.next '\n' ∧ (c = '\r' ∨ c = '\n')) →
      commaPieces (r.next '\n') depth (more ++ text) = (more ++ piece) :: pieces := by
    intro more hs
    induction more with
    | nil => exact h
    | cons c more ih =>
        obtain ⟨hnext, hbreak⟩ := hs c List.mem_cons_self
        have hcomma : c ≠ ',' := by rcases hbreak with rfl | rfl <;> decide
        rw [List.cons_append, commaPieces, if_neg (by simp [hcomma]), hnext,
          depthAfter_of_break _ depth hbreak, ih fun d hd => hs d (List.mem_cons_of_mem _ hd)]
        rfl
  obtain ⟨c, more, rfl⟩ := List.exists_cons_of_ne_nil hn.ne_nil
  have hbreak := hn.breaks c List.mem_cons_self
  have hcomma : c ≠ ',' := by rcases hbreak with rfl | rfl <;> decide
  rw [List.cons_append, commaPieces, if_neg (by simp [hcomma]), (next_of_break hr hbreak).1,
    depthAfter_of_break r depth hbreak, hmore more fun d hd =>
      ⟨(next_of_break hr (hn.breaks d (List.mem_cons_of_mem _ hd))).2,
        hn.breaks d (List.mem_cons_of_mem _ hd)⟩]
  rfl

theorem commaPieces_withNewlines {r : Reading} (hr : r.IsApt) (depth : Nat) (text : Text) :
    commaPieces r depth (text.withNewlines newline) =
      (commaPieces r depth text).map (Text.withNewlines · newline) := by
  induction text generalizing r depth with
  | nil => rfl
  | cons c text ih =>
      by_cases hc : c = '\n'
      · obtain ⟨piece, more, htext⟩ :=
          List.exists_cons_of_ne_nil (commaPieces_ne_nil (r.next '\n') depth text)
        have hih := ih (isApt_next hr '\n') depth
        rw [htext, List.map_cons] at hih
        rw [hc, Text.withNewlines_cons_newline, commaPieces_newline_append hn hr hih, commaPieces,
          if_neg (by simp), depthAfter_of_break r depth (Or.inr rfl), htext, Text.consHead,
          List.map_cons, Text.withNewlines_cons_newline]
      · rw [Text.withNewlines_cons hc, commaPieces, commaPieces]
        split
        · rw [ih (r := plain) trivial]
          rfl
        · obtain ⟨piece, more, htext⟩ :=
            List.exists_cons_of_ne_nil (commaPieces_ne_nil (r.next c) (r.depthAfter depth c) text)
          rw [ih (isApt_next hr c), htext, List.map_cons, Text.consHead, Text.consHead,
            List.map_cons, Text.withNewlines_cons hc]

end Reading

end PhpDoc
