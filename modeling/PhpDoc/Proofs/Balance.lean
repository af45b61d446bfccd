import Mathlib
import PhpDoc.Source.Brackets
import PhpDoc.Text.Identifier
import PhpDoc.Proofs.Texts

/-!
# Balanced texts

A text is balanced when its strings are closed and every bracket outside them is closed within the
text.  Brackets of all kinds count alike, and in a string a backslash protects the character after
it.  The readers of brackets pass over a balanced text and go on behind it as they stood before it,
so they stop at the first bracket, or the first comma, that the text does not enclose.
-/

namespace PhpDoc

/-- The marks that open and close strings. -/
def quotationMarks : List Char := ['\'', '"']

/-- The brackets that open. -/
def leftBrackets : List Char := ['(', '[', '{']

/-- The brackets that close. -/
def rightBrackets : List Char := [')', ']', '}']

/-- What follows the opening mark of a string, up to and including the mark that closes it. -/
inductive ClosesString (mark : Char) : Text → Prop
  | close : ClosesString mark [mark]
  | escape {c : Char} {rest : Text} : ClosesString mark rest → ClosesString mark ('\\' :: c :: rest)
  | char {c : Char} {rest : Text} : c ≠ '\\' → c ≠ mark → ClosesString mark rest →
      ClosesString mark (c :: rest)

/-- Brackets are closed and strings end in the text.  `commas` says whether commas may stand outside
brackets and strings. -/
inductive Balanced : (commas : Bool) → Text → Prop
  | nil {commas : Bool} : Balanced commas []
  | char {commas : Bool} {c : Char} {rest : Text} :
      c ∉ quotationMarks → c ∉ leftBrackets → c ∉ rightBrackets → (c = ',' → commas = true) →
      Balanced commas rest → Balanced commas (c :: rest)
  | string {commas : Bool} {mark : Char} {body rest : Text} : mark ∈ quotationMarks →
      ClosesString mark body → Balanced commas rest → Balanced commas (mark :: (body ++ rest))
  | brackets {commas : Bool} {left right : Char} {inner rest : Text} :
      left ∈ leftBrackets → right ∈ rightBrackets → Balanced true inner →
      Balanced commas rest → Balanced commas (left :: (inner ++ right :: rest))

namespace Balanced

variable {commas : Bool} {text rest : Text}

theorem append (h : Balanced commas text) (hrest : Balanced commas rest) :
    Balanced commas (text ++ rest) := by
  induction h with
  | nil => exact hrest
  | char hmark hleft hright hcomma _ ih => exact .char hmark hleft hright hcomma (ih hrest)
  | string hmark hbody _ ih =>
      rw [List.cons_append, List.append_assoc]
      exact .string hmark hbody (ih hrest)
  | brackets hleft hright hinner _ _ ih =>
      rw [List.cons_append, List.append_assoc, List.cons_append]
      exact .brackets hleft hright hinner (ih hrest)

/-- A text without outer commas is balanced among texts that may have them. -/
theorem withCommas (h : Balanced commas text) : Balanced true text := by
  induction h with
  | nil => exact .nil
  | char hmark hleft hright _ _ ih => exact .char hmark hleft hright (fun _ => rfl) ih
  | string hmark hbody _ ih => exact .string hmark hbody ih
  | brackets hleft hright hinner _ _ ih => exact .brackets hleft hright hinner ih

theorem append_comma (h : Balanced commas text) (hrest : Balanced true rest) :
    Balanced true (text ++ ',' :: rest) :=
  h.withCommas.append (.char (by decide) (by decide) (by decide) (fun _ => rfl) hrest)

/-- A text of characters that the readers of brackets pass over is balanced. -/
theorem of_forall
    (h : ∀ c ∈ text, c ∉ quotationMarks ++ leftBrackets ++ rightBrackets ++ [',']) :
    Balanced commas text := by
  induction text with
  | nil => exact .nil
  | cons c text ih =>
      have hc := h c List.mem_cons_self
      simp only [List.mem_append, List.mem_singleton, not_or] at hc
      exact .char hc.1.1.1 hc.1.1.2 hc.1.2 (fun hcomma => absurd hcomma hc.2)
        (ih fun d hd => h d (List.mem_cons_of_mem _ hd))

theorem of_class {p : Char → Bool}
    (hp : (quotationMarks ++ leftBrackets ++ rightBrackets ++ [',']).all (fun c => !p c) = true)
    (h : ∀ c ∈ text, p c = true) : Balanced commas text := by
  refine of_forall fun c hc hmem => ?_
  simpa [h c hc] using List.all_eq_true.1 hp c hmem

theorem of_isBlank (h : ∀ c ∈ text, isBlank c = true) : Balanced commas text :=
  of_class (by decide) h

theorem of_isIdentifierChar (h : ∀ c ∈ text, isIdentifierChar c = true) : Balanced commas text :=
  of_class (by decide) h

end Balanced

/-! ## Readers of brackets -/

namespace Reading

theorem isOpening_iff (c : Char) : isOpening c = true ↔ c ∈ leftBrackets := by
  simp [isOpening, leftBrackets, or_assoc]

theorem isClosing_iff (c : Char) : isClosing c = true ↔ c ∈ rightBrackets := by
  simp [isClosing, rightBrackets, or_assoc]

theorem next_plain_of_mem {mark : Char} (h : mark ∈ quotationMarks) :
    plain.next mark = quoted mark := by
  rw [next, if_pos (by simpa [quotationMarks] using h)]

theorem next_plain_of_not_mem {c : Char} (h : c ∉ quotationMarks) : plain.next c = plain := by
  rw [next, if_neg (by simpa [quotationMarks] using h)]

theorem depthAfter_plain_of_left {c : Char} (h : c ∈ leftBrackets) (depth : Nat) :
    plain.depthAfter depth c = depth + 1 := by
  rw [depthAfter, if_pos ((isOpening_iff c).2 h)]

theorem depthAfter_plain_of_right {c : Char} (h : c ∈ rightBrackets) (depth : Nat) :
    plain.depthAfter depth c = depth - 1 := by
  have hnone : ∀ c ∈ rightBrackets, c ∉ leftBrackets := by simp [leftBrackets, rightBrackets]
  rw [depthAfter, if_neg (by rw [isOpening_iff]; exact hnone c h), if_pos ((isClosing_iff c).2 h)]

theorem depthAfter_plain_of_not_mem {c : Char} (hleft : c ∉ leftBrackets)
    (hright : c ∉ rightBrackets) (depth : Nat) : plain.depthAfter depth c = depth := by
  rw [depthAfter, if_neg (by rwa [isOpening_iff]), if_neg (by rwa [isClosing_iff])]

theorem of_mem_quotationMarks : ∀ c ∈ quotationMarks,
    c ∉ leftBrackets ∧ c ∉ rightBrackets ∧ c ≠ ',' ∧ c ≠ '\\' := by
  simp [quotationMarks, leftBrackets, rightBrackets]

theorem of_mem_leftBrackets : ∀ c ∈ leftBrackets,
    c ∉ quotationMarks ∧ c ∉ rightBrackets ∧ c ≠ ',' := by
  simp [quotationMarks, leftBrackets, rightBrackets]

theorem of_mem_rightBrackets : ∀ c ∈ rightBrackets, c ∉ quotationMarks := by
  simp [quotationMarks, rightBrackets]

theorem enclosed?_cons {r : Reading} {depth : Nat} {c : Char}
    (h : ¬ (r = plain ∧ depth = 0 ∧ isClosing c = true)) {text inner rest : Text}
    (htext : enclosed? (r.next c) (r.depthAfter depth c) text = some (inner, rest)) :
    enclosed? r depth (c :: text) = some (c :: inner, rest) := by
  rw [enclosed?, if_neg h, htext, Option.map_some]

theorem enclosed?_closesString {mark : Char} {body : Text} (h : ClosesString mark body)
    (hmark : mark ≠ '\\') {depth : Nat} {text inner rest : Text}
    (htext : enclosed? plain depth text = some (inner, rest)) :
    enclosed? (quoted mark) depth (body ++ text) = some (body ++ inner, rest) := by
  induction h with
  | close =>
      refine enclosed?_cons (by simp) ?_
      rwa [next, if_neg hmark, if_pos rfl]
  | escape _ ih =>
      refine enclosed?_cons (by simp) (enclosed?_cons (by simp [next]) ?_)
      rw [next, if_pos rfl, next]
      exact ih
  | char hescape hc _ ih =>
      refine enclosed?_cons (by simp) ?_
      rw [next, if_neg hescape, if_neg hc]
      exact ih

/-- A balanced text stands inside whatever brackets are open before it. -/
theorem enclosed?_balanced {commas : Bool} {front : Text} (h : Balanced commas front) {depth : Nat}
    {text inner rest : Text} (htext : enclosed? plain depth text = some (inner, rest)) :
    enclosed? plain depth (front ++ text) = some (front ++ inner, rest) := by
  -- the depth is free: what brackets enclose is read one level deeper
  induction h generalizing depth text inner rest with
  | nil => exact htext
  | char hmark hleft hright _ _ ih =>
      refine enclosed?_cons (by simp [isClosing_iff, hright]) ?_
      rw [next_plain_of_not_mem hmark, depthAfter_plain_of_not_mem hleft hright]
      exact ih htext
  | string hmark hbody _ ih =>
      obtain ⟨hleft, hright, -, hescape⟩ := of_mem_quotationMarks _ hmark
      rw [List.cons_append, List.append_assoc, List.cons_append, List.append_assoc]
      refine enclosed?_cons (by simp [isClosing_iff, hright]) ?_
      rw [next_plain_of_mem hmark, depthAfter_plain_of_not_mem hleft hright]
      exact enclosed?_closesString hbody hescape (ih htext)
  | brackets hleft hright _ _ ihinner ih =>
      obtain ⟨hleftMark, hleftRight, -⟩ := of_mem_leftBrackets _ hleft
      have hrightMark := of_mem_rightBrackets _ hright
      rw [List.cons_append, List.append_assoc, List.cons_append, List.cons_append,
        List.append_assoc, List.cons_append]
      refine enclosed?_cons (by simp [isClosing_iff, hleftRight]) ?_
      rw [next_plain_of_not_mem hleftMark, depthAfter_plain_of_left hleft]
      refine ihinner (enclosed?_cons (by simp) ?_)
      rw [next_plain_of_not_mem hrightMark, depthAfter_plain_of_right hright, Nat.add_sub_cancel]
      exact ih htext

theorem commaPieces_cons {r : Reading} {depth : Nat} {c : Char}
    (h : ¬ (r = plain ∧ depth = 0 ∧ c = ',')) {text piece : Text} {more : List Text}
    (htext : commaPieces (r.next c) (r.depthAfter depth c) text = piece :: more) :
    commaPieces r depth (c :: text) = (c :: piece) :: more := by
  rw [commaPieces, if_neg h, htext, Text.consHead]

theorem commaPieces_closesString {mark : Char} {body : Text} (h : ClosesString mark body)
    (hmark : mark ≠ '\\') {depth : Nat} {rest piece : Text} {more : List Text}
    (hrest : commaPieces plain depth rest = piece :: more) :
    commaPieces (quoted mark) depth (body ++ rest) = (body ++ piece) :: more := by
  induction h with
  | close =>
      refine commaPieces_cons (by simp) ?_
      rwa [next, if_neg hmark, if_pos rfl]
  | escape _ ih =>
      refine commaPieces_cons (by simp) (commaPieces_cons (by simp [next]) ?_)
      rw [next, if_pos rfl, next]
      exact ih
  | char hescape hc _ ih =>
      refine commaPieces_cons (by simp) ?_
      rw [next, if_neg hescape, if_neg hc]
      exact ih

/-- A balanced text belongs to one piece, unless outer commas may stand in it and count. -/
theorem commaPieces_balanced {commas : Bool} {text : Text} (h : Balanced commas text) {depth : Nat}
    (hdepth : depth = 0 → commas = false) {rest piece : Text} {more : List Text}
    (hrest : commaPieces plain depth rest = piece :: more) :
    commaPieces plain depth (text ++ rest) = (text ++ piece) :: more := by
  -- commas count at depth zero only, so inside brackets any balanced text will do
  induction h generalizing depth rest piece more with
  | nil => exact hrest
  | char hmark hleft hright hcomma _ ih =>
      refine commaPieces_cons ?_ ?_
      · rintro ⟨-, hzero, hc⟩
        exact absurd ((hcomma hc).symm.trans (hdepth hzero)) (by decide)
      · rw [next_plain_of_not_mem hmark, depthAfter_plain_of_not_mem hleft hright]
        exact ih hdepth hrest
  | string hmark hbody _ ih =>
      obtain ⟨hleft, hright, hcomma, hescape⟩ := of_mem_quotationMarks _ hmark
      rw [List.cons_append, List.append_assoc, List.cons_append, List.append_assoc]
      refine commaPieces_cons (by simp [hcomma]) ?_
      rw [next_plain_of_mem hmark, depthAfter_plain_of_not_mem hleft hright]
      exact commaPieces_closesString hbody hescape (ih hdepth hrest)
  | brackets hleft hright _ _ ihinner ih =>
      obtain ⟨hleftMark, -, hleftComma⟩ := of_mem_leftBrackets _ hleft
      have hrightMark := of_mem_rightBrackets _ hright
      rw [List.cons_append, List.append_assoc, List.cons_append, List.cons_append,
        List.append_assoc, List.cons_append]
      refine commaPieces_cons (by simp [hleftComma]) ?_
      rw [next_plain_of_not_mem hleftMark, depthAfter_plain_of_left hleft]
      refine ihinner (by simp) (commaPieces_cons (by simp) ?_)
      rw [next_plain_of_not_mem hrightMark, depthAfter_plain_of_right hright, Nat.add_sub_cancel]
      exact ih hdepth hrest

end Reading

/-- The bracket that closes behind a balanced text is the one that a reader finds. -/
theorem enclosed?_append {commas : Bool} {inner : Text} (h : Balanced commas inner) {right : Char}
    (hright : right ∈ rightBrackets) (rest : Text) :
    enclosed? (inner ++ right :: rest) = some (inner, rest) := by
  have hclose : Reading.enclosed? .plain 0 (right :: rest) = some ([], rest) := by
    rw [Reading.enclosed?, if_pos ⟨rfl, rfl, (Reading.isClosing_iff right).2 hright⟩]
  simpa [enclosed?] using Reading.enclosed?_balanced h hclose

/-- What a bracket encloses ends at a bracket that closes. -/
theorem exists_right_of_enclosed? {text inner rest : Text}
    (h : enclosed? text = some (inner, rest)) :
    ∃ right ∈ rightBrackets, text = inner ++ right :: rest := by
  have hreading : ∀ (r : Reading) (depth : Nat),
      Reading.enclosed? r depth text = some (inner, rest) →
      ∃ right ∈ rightBrackets, text = inner ++ right :: rest := by
    clear h
    induction text generalizing inner with
    | nil => simp [Reading.enclosed?]
    | cons c text ih =>
        intro r depth h
        rw [Reading.enclosed?] at h
        split at h
        · next hcloses =>
            simp only [Option.some.injEq, Prod.mk.injEq] at h
            obtain ⟨rfl, rfl⟩ := h
            exact ⟨c, (Reading.isClosing_iff c).1 hcloses.2.2, rfl⟩
        · obtain ⟨⟨inner', rest'⟩, hmore, heq⟩ := Option.map_eq_some_iff.1 h
          obtain ⟨rfl, rfl⟩ := Prod.mk.inj heq
          obtain ⟨right, hright, rfl⟩ := ih _ _ hmore
          exact ⟨right, hright, rfl⟩
  exact hreading _ _ h

theorem commaPieces_of_balanced {piece : Text} (h : Balanced false piece) :
    commaPieces piece = [piece] := by
  have hnil : Reading.commaPieces .plain 0 [] = [[]] := rfl
  simpa [commaPieces] using Reading.commaPieces_balanced h (fun _ => rfl) hnil

theorem commaPieces_append_comma {piece : Text} (h : Balanced false piece) (rest : Text) :
    commaPieces (piece ++ ',' :: rest) = piece :: commaPieces rest := by
  have hcut : Reading.commaPieces .plain 0 (',' :: rest) = [] :: commaPieces rest := by
    rw [Reading.commaPieces, if_pos ⟨rfl, rfl, rfl⟩, commaPieces]
  rw [commaPieces, Reading.commaPieces_balanced h (fun _ => rfl) hcut, List.append_nil]

end PhpDoc
