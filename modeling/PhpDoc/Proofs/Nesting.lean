import Mathlib
import PhpDoc.Proofs.Balance

/-!
# Counting brackets

A text is balanced when a reader that starts outside strings ends outside strings, and the brackets
outside strings never close more than was opened and in the end close all of it.  This says it by
counting; the grammar of balanced texts says the same.

Two readers keep such a count, one for the bracket that closes another and one for the outer commas
of a list.  The first gives up where a bracket closes too much, the second goes on with a count of
zero.  Both take the steps by which a balanced text is built up from its end, so they agree: the
first stops exactly behind a balanced text, and on a balanced text the second never comes to a
bracket that closes too much.
-/

namespace PhpDoc
namespace Reading

/-- What a character adds to the number of open brackets. -/
def weight (r : Reading) (c : Char) : Int :=
  if r = plain then
    if c ∈ leftBrackets then 1 else if c ∈ rightBrackets then -1 else 0
  else 0

/-- Where the reader stands after a text. -/
def after (r : Reading) (text : Text) : Reading :=
  text.foldl next r

/-- By how many the opening brackets outside strings outnumber the closing ones. -/
def nesting (r : Reading) : Text → Int
  | [] => 0
  | c :: text => r.weight c + (r.next c).nesting text

/-- From the given place, and with so many brackets open, the text closes its strings and all
brackets, and never more brackets than are open. -/
structure IsBalancedFrom (r : Reading) (depth : Nat) (text : Text) : Prop where
  after_eq : r.after text = plain
  nonneg : ∀ front, front <+: text → 0 ≤ depth + r.nesting front
  nesting_eq : depth + r.nesting text = 0

/-- A comma of the text stands outside strings and brackets. -/
def HasOuterComma (r : Reading) (depth : Nat) (text : Text) : Prop :=
  ∃ front rest, text = front ++ ',' :: rest ∧ r.after front = plain ∧ depth + r.nesting front = 0

/-- The pieces between outer commas; none where a bracket closes that was never opened. -/
def checkedPieces? (r : Reading) (depth : Nat) : Text → Option (List Text)
  | [] => some [[]]
  | c :: text =>
    if r = plain ∧ depth = 0 ∧ isClosing c then none
    else if r = plain ∧ depth = 0 ∧ c = ',' then
      (checkedPieces? plain 0 text).map fun pieces => [] :: pieces
    else (checkedPieces? (r.next c) (r.depthAfter depth c) text).map (Text.consHead c)

/-! ## One character -/

section

variable {r : Reading} {depth : Nat} {c : Char} {text : Text}

/-- The count of a reader is the number of open brackets, as long as no bracket closes too much. -/
theorem depthAfter_eq_add_weight (h : ¬ (r = plain ∧ depth = 0 ∧ isClosing c = true)) :
    (r.depthAfter depth c : Int) = depth + r.weight c := by
  cases r with
  | quoted mark => simp [depthAfter, weight]
  | escaped mark => simp [depthAfter, weight]
  | plain =>
      rw [weight, if_pos rfl]
      by_cases hleft : c ∈ leftBrackets
      · rw [depthAfter_plain_of_left hleft, if_pos hleft, Nat.cast_add_one]
      · by_cases hright : c ∈ rightBrackets
        · have hpos : depth ≠ 0 := fun hzero => h ⟨rfl, hzero, (isClosing_iff c).2 hright⟩
          rw [depthAfter_plain_of_right hright, if_neg hleft, if_pos hright]
          omega
        · rw [depthAfter_plain_of_not_mem hleft hright, if_neg hleft, if_neg hright, add_zero]

theorem isBalancedFrom_nil_iff : IsBalancedFrom r depth [] ↔ r = plain ∧ depth = 0 := by
  constructor
  · intro h
    exact ⟨h.after_eq, by simpa [nesting] using h.nesting_eq⟩
  · rintro ⟨rfl, rfl⟩
    exact ⟨rfl, fun front hfront => by simp [List.prefix_nil.1 hfront, nesting], by simp [nesting]⟩

/-- A balanced text goes on balanced behind its first character, which closes nothing too much. -/
theorem isBalancedFrom_cons_iff :
    IsBalancedFrom r depth (c :: text) ↔
      ¬ (r = plain ∧ depth = 0 ∧ isClosing c = true) ∧
        IsBalancedFrom (r.next c) (r.depthAfter depth c) text := by
  constructor
  · intro h
    have hopen : ¬ (r = plain ∧ depth = 0 ∧ isClosing c = true) := by
      rintro ⟨rfl, rfl, hc⟩
      have hright := (isClosing_iff c).1 hc
      have hleft : c ∉ leftBrackets := fun hleft => (of_mem_leftBrackets c hleft).2.1 hright
      have hfirst := h.nonneg [c] (by simp)
      simp [nesting, weight, hleft, hright] at hfirst
    have hdepth := depthAfter_eq_add_weight hopen
    refine ⟨hopen, h.after_eq, fun front hfront => ?_, ?_⟩
    · have hmore := h.nonneg (c :: front) (List.cons_prefix_cons.2 ⟨rfl, hfront⟩)
      rw [nesting] at hmore
      omega
    · have hall := h.nesting_eq
      rw [nesting] at hall
      omega
  · rintro ⟨hopen, h⟩
    have hdepth := depthAfter_eq_add_weight hopen
    refine ⟨h.after_eq, fun front hfront => ?_, ?_⟩
    · rcases List.prefix_cons_iff.1 hfront with rfl | ⟨tail, rfl, htail⟩
      · simp [nesting]
      · have hmore := h.nonneg tail htail
        rw [nesting]
        omega
    · have hall := h.nesting_eq
      rw [nesting]
      omega

/-- An outer comma changes neither the place of a reader nor its count. -/
theorem isBalancedFrom_comma_cons_iff :
    IsBalancedFrom plain 0 (',' :: text) ↔ IsBalancedFrom plain 0 text := by
  have hopen : ¬ (plain = plain ∧ 0 = 0 ∧ isClosing ',' = true) := by decide
  rw [isBalancedFrom_cons_iff]
  exact and_iff_right hopen

theorem not_hasOuterComma_nil : ¬ HasOuterComma r depth [] := by
  rintro ⟨front, rest, h, -⟩
  simp at h

theorem hasOuterComma_cons_iff (hopen : ¬ (r = plain ∧ depth = 0 ∧ isClosing c = true)) :
    HasOuterComma r depth (c :: text) ↔
      (r = plain ∧ depth = 0 ∧ c = ',') ∨
        HasOuterComma (r.next c) (r.depthAfter depth c) text := by
  have hdepth := depthAfter_eq_add_weight hopen
  constructor
  · rintro ⟨front, rest, heq, hafter, hnesting⟩
    cases front with
    | nil =>
        obtain ⟨rfl, -⟩ := List.cons.inj heq
        exact Or.inl ⟨hafter, by simpa [nesting] using hnesting, rfl⟩
    | cons d front =>
        obtain ⟨rfl, rfl⟩ := List.cons.inj heq
        rw [nesting] at hnesting
        exact Or.inr ⟨front, rest, rfl, hafter, by omega⟩
  · rintro (⟨rfl, rfl, rfl⟩ | ⟨front, rest, rfl, hafter, hnesting⟩)
    · exact ⟨[], text, rfl, rfl, by simp [nesting]⟩
    · refine ⟨c :: front, rest, rfl, hafter, ?_⟩
      rw [nesting]
      omega

end

/-! ## The bracket that closes -/

/-- A reader of brackets stops at the bracket behind a balanced text, and nowhere else. -/
theorem enclosed?_eq_some_iff {r : Reading} {depth : Nat} {text inner rest : Text} :
    enclosed? r depth text = some (inner, rest) ↔
      IsBalancedFrom r depth inner ∧ ∃ right ∈ rightBrackets, text = inner ++ right :: rest := by
  induction text generalizing r depth inner with
  | nil => simp [enclosed?]
  | cons c text ih =>
      rw [enclosed?]
      by_cases hstop : r = plain ∧ depth = 0 ∧ isClosing c = true
      · rw [if_pos hstop, Option.some.injEq, Prod.mk.injEq]
        constructor
        · rintro ⟨rfl, rfl⟩
          exact ⟨isBalancedFrom_nil_iff.2 ⟨hstop.1, hstop.2.1⟩, c,
            (isClosing_iff c).1 hstop.2.2, rfl⟩
        · rintro ⟨hinner, right, -, heq⟩
          cases inner with
          | nil => exact ⟨rfl, (List.cons.inj heq).2⟩
          | cons d inner =>
              obtain ⟨rfl, -⟩ := List.cons.inj heq
              exact absurd hstop (isBalancedFrom_cons_iff.1 hinner).1
      · rw [if_neg hstop, Option.map_eq_some_iff]
        constructor
        · rintro ⟨⟨inner', rest'⟩, hmore, heq⟩
          obtain ⟨rfl, rfl⟩ := Prod.mk.inj heq
          obtain ⟨hinner, right, hright, rfl⟩ := ih.1 hmore
          exact ⟨isBalancedFrom_cons_iff.2 ⟨hstop, hinner⟩, right, hright, rfl⟩
        · rintro ⟨hinner, right, hright, heq⟩
          cases inner with
          | nil =>
              -- the bracket would be the first character, at which the reader does stop
              obtain ⟨rfl, -⟩ := List.cons.inj heq
              obtain ⟨rfl, rfl⟩ := isBalancedFrom_nil_iff.1 hinner
              exact absurd ⟨rfl, rfl, (isClosing_iff c).2 hright⟩ hstop
          | cons d inner =>
              obtain ⟨rfl, rfl⟩ := List.cons.inj heq
              have hmore := (isBalancedFrom_cons_iff.1 hinner).2
              exact ⟨(inner, rest), ih.2 ⟨hmore, right, hright, rfl⟩, rfl⟩

/-! ## The pieces of a list -/

theorem intercalate_consHead (c : Char) (first : Text) (more : List Text) :
    List.intercalate [','] (Text.consHead c (first :: more)) =
      c :: List.intercalate [','] (first :: more) := by
  cases more <;> simp [Text.consHead, List.intercalate]

theorem exists_commaPieces_eq_cons (r : Reading) (depth : Nat) (text : Text) :
    ∃ first more, commaPieces r depth text = first :: more := by
  cases text with
  | nil => exact ⟨[], [], rfl⟩
  | cons c text =>
      rw [commaPieces]
      split
      · exact ⟨[], _, rfl⟩
      · cases commaPieces (r.next c) (r.depthAfter depth c) text with
        | nil => exact ⟨[c], [], rfl⟩
        | cons first more => exact ⟨c :: first, more, rfl⟩

/-- The pieces of any text make it up again. -/
theorem intercalate_commaPieces (r : Reading) (depth : Nat) (text : Text) :
    List.intercalate [','] (commaPieces r depth text) = text := by
  induction text generalizing r depth with
  | nil => rfl
  | cons c text ih =>
      rw [commaPieces]
      split
      · next hcut =>
          obtain ⟨first, more, heq⟩ := exists_commaPieces_eq_cons plain 0 text
          have htext := ih plain 0
          rw [heq] at htext
          rw [heq, hcut.2.2, ← htext]
          simp [List.intercalate]
      · obtain ⟨first, more, heq⟩ :=
          exists_commaPieces_eq_cons (r.next c) (r.depthAfter depth c) text
        rw [heq, intercalate_consHead, ← heq, ih]

/-- What a piece is: balanced, and without an outer comma. -/
structure IsPiece (r : Reading) (depth : Nat) (piece : Text) : Prop where
  isBalancedFrom : IsBalancedFrom r depth piece
  not_hasOuterComma : ¬ HasOuterComma r depth piece

/-- The first piece of a balanced text is read from where the text is read, the others from outside
strings and brackets. -/
theorem exists_isPiece {r : Reading} {depth : Nat} {text : Text} (h : IsBalancedFrom r depth text) :
    ∃ first more, commaPieces r depth text = first :: more ∧ IsPiece r depth first ∧
      ∀ piece ∈ more, IsPiece plain 0 piece := by
  induction text generalizing r depth with
  | nil => exact ⟨[], [], rfl, ⟨h, not_hasOuterComma_nil⟩, by simp⟩
  | cons c text ih =>
      rw [commaPieces]
      by_cases hcut : r = plain ∧ depth = 0 ∧ c = ','
      · obtain ⟨rfl, rfl, rfl⟩ := hcut
        obtain ⟨first, more, heq, hfirst, hpieces⟩ := ih (isBalancedFrom_comma_cons_iff.1 h)
        have hempty : IsPiece plain 0 [] :=
          ⟨isBalancedFrom_nil_iff.2 ⟨rfl, rfl⟩, not_hasOuterComma_nil⟩
        rw [if_pos ⟨rfl, rfl, rfl⟩, heq]
        exact ⟨[], _, rfl, hempty, List.forall_mem_cons.2 ⟨hfirst, hpieces⟩⟩
      · obtain ⟨hopen, hmore⟩ := isBalancedFrom_cons_iff.1 h
        obtain ⟨first, more, heq, hfirst, hpieces⟩ := ih hmore
        rw [if_neg hcut, heq, Text.consHead]
        refine ⟨c :: first, more, rfl, ⟨?_, ?_⟩, hpieces⟩
        · exact isBalancedFrom_cons_iff.2 ⟨hopen, hfirst.isBalancedFrom⟩
        · rw [hasOuterComma_cons_iff hopen]
          exact not_or.2 ⟨hcut, hfirst.not_hasOuterComma⟩

/-- In a balanced text no bracket closes too much, so checking for it changes nothing. -/
theorem checkedPieces?_eq_some {r : Reading} {depth : Nat} {text : Text}
    (h : IsBalancedFrom r depth text) :
    checkedPieces? r depth text = some (commaPieces r depth text) := by
  induction text generalizing r depth with
  | nil => rfl
  | cons c text ih =>
      obtain ⟨hopen, hmore⟩ := isBalancedFrom_cons_iff.1 h
      rw [checkedPieces?, if_neg hopen, commaPieces]
      by_cases hcut : r = plain ∧ depth = 0 ∧ c = ','
      · obtain ⟨rfl, rfl, rfl⟩ := hcut
        rw [if_pos ⟨rfl, rfl, rfl⟩, if_pos ⟨rfl, rfl, rfl⟩,
          ih (isBalancedFrom_comma_cons_iff.1 h), Option.map_some]
      · rw [if_neg hcut, if_neg hcut, ih hmore, Option.map_some]

/-! ## Balance by counting and by grammar -/

/-- A string that is open is closed somewhere, and the text goes on balanced behind it. -/
theorem IsBalancedFrom.exists_closesString {mark : Char} {depth : Nat} {text : Text}
    (h : IsBalancedFrom (quoted mark) depth text) :
    ∃ body rest, text = body ++ rest ∧ ClosesString mark body ∧
      IsBalancedFrom plain depth rest := by
  -- a backslash takes the character behind it along, so the induction is on the length
  induction hlength : text.length using Nat.strong_induction_on generalizing text with
  | _ n ih =>
    subst hlength
    cases text with
    | nil => simp [isBalancedFrom_nil_iff] at h
    | cons c text =>
        have hmore := (isBalancedFrom_cons_iff.1 h).2
        rw [next, depthAfter] at hmore
        split at hmore
        · next hescape =>
            subst hescape
            cases text with
            | nil => simp [isBalancedFrom_nil_iff] at hmore
            | cons d text =>
                obtain ⟨body, rest, rfl, hbody, hrest⟩ :=
                  ih text.length (by simp) (isBalancedFrom_cons_iff.1 hmore).2 rfl
                exact ⟨'\\' :: d :: body, rest, rfl, .escape hbody, hrest⟩
        · next hescape =>
            split at hmore
            · next hmark =>
                subst hmark
                exact ⟨[c], text, rfl, .close, hmore⟩
            · next hmark =>
                obtain ⟨body, rest, rfl, hbody, hrest⟩ := ih text.length (by simp) hmore rfl
                exact ⟨c :: body, rest, rfl, .char hescape hmark hbody, hrest⟩

/-- Of the brackets that are open, the text closes the inner ones and then the next one. -/
theorem IsBalancedFrom.exists_right {r : Reading} {depth outer : Nat} {text : Text}
    (h : IsBalancedFrom r (depth + (outer + 1)) text) :
    ∃ inner right rest, text = inner ++ right :: rest ∧ right ∈ rightBrackets ∧
      IsBalancedFrom r depth inner ∧ IsBalancedFrom plain outer rest := by
  induction text generalizing r depth with
  | nil => simp [isBalancedFrom_nil_iff] at h
  | cons c text ih =>
      have hmore := (isBalancedFrom_cons_iff.1 h).2
      by_cases hclose : r = plain ∧ depth = 0 ∧ isClosing c = true
      · obtain ⟨rfl, rfl, hc⟩ := hclose
        have hright := (isClosing_iff c).1 hc
        rw [next_plain_of_not_mem (of_mem_rightBrackets c hright),
          depthAfter_plain_of_right hright, zero_add, Nat.add_sub_cancel] at hmore
        exact ⟨[], c, text, rfl, hright, isBalancedFrom_nil_iff.2 ⟨rfl, rfl⟩, hmore⟩
      · have hdepth : r.depthAfter (depth + (outer + 1)) c =
            r.depthAfter depth c + (outer + 1) := by
          have hinner := depthAfter_eq_add_weight hclose
          have hall := depthAfter_eq_add_weight (isBalancedFrom_cons_iff.1 h).1
          omega
        rw [hdepth] at hmore
        obtain ⟨inner, right, rest, rfl, hright, hinner, hrest⟩ := ih hmore
        exact ⟨c :: inner, right, rest, rfl, hright,
          isBalancedFrom_cons_iff.2 ⟨hclose, hinner⟩, hrest⟩

end Reading

/-- Read from outside strings, the text closes its strings and brackets, and never a bracket that it
has not opened. -/
def IsBalanced (text : Text) : Prop :=
  Reading.plain.IsBalancedFrom 0 text

instance (text : Text) : Decidable (IsBalanced text) :=
  decidable_of_iff
    (Reading.plain.after text = .plain ∧
      (∀ front ∈ text.inits, 0 ≤ (0 : Nat) + Reading.plain.nesting front) ∧
      (0 : Nat) + Reading.plain.nesting text = 0)
    ⟨fun h => ⟨h.1, fun front hfront => h.2.1 front ((List.mem_inits front text).2 hfront), h.2.2⟩,
      fun h => ⟨h.after_eq,
        fun front hfront => h.nonneg front ((List.mem_inits front text).1 hfront), h.nesting_eq⟩⟩

theorem IsBalanced.balanced {text : Text} (h : IsBalanced text) : Balanced true text := by
  induction hlength : text.length using Nat.strong_induction_on generalizing text with
  | _ n ih =>
    subst hlength
    cases text with
    | nil => exact .nil
    | cons c text =>
        have hmore := (Reading.isBalancedFrom_cons_iff.1 h).2
        by_cases hmark : c ∈ quotationMarks
        · obtain ⟨hleft, hright, -⟩ := Reading.of_mem_quotationMarks c hmark
          rw [Reading.next_plain_of_mem hmark,
            Reading.depthAfter_plain_of_not_mem hleft hright] at hmore
          obtain ⟨body, rest, rfl, hbody, hrest⟩ := hmore.exists_closesString
          exact .string hmark hbody (ih rest.length (by simp) hrest rfl)
        · rw [Reading.next_plain_of_not_mem hmark] at hmore
          by_cases hleft : c ∈ leftBrackets
          · rw [Reading.depthAfter_plain_of_left hleft] at hmore
            obtain ⟨inner, right, rest, rfl, hright, hinner, hrest⟩ := hmore.exists_right
            exact .brackets hleft hright (ih inner.length (by simp) hinner rfl)
              (ih rest.length (by simp; omega) hrest rfl)
          · have hright : c ∉ rightBrackets := fun hright =>
              (Reading.isBalancedFrom_cons_iff.1 h).1 ⟨rfl, rfl, (Reading.isClosing_iff c).2 hright⟩
            rw [Reading.depthAfter_plain_of_not_mem hleft hright] at hmore
            exact .char hmark hleft hright (fun _ => rfl) (ih text.length (by simp) hmore rfl)

/-- Counting brackets and the grammar of balanced texts agree. -/
theorem isBalanced_iff_balanced (text : Text) : IsBalanced text ↔ Balanced true text := by
  refine ⟨IsBalanced.balanced, fun h => ?_⟩
  have hread : Reading.plain.enclosed? 0 (text ++ [')']) = some (text, []) :=
    enclosed?_append h (by decide) []
  exact (Reading.enclosed?_eq_some_iff.1 hread).1

/-! ## Both readers -/

/-- What stands between two positions of a text. -/
def textBetween (text : Text) (start stop : Nat) : Text :=
  (text.take stop).drop (start + 1)

/-- A balanced text stands between the two positions, and a closing bracket at the second one. -/
structure ClosesAt (text : Text) (start stop : Nat) : Prop where
  lt : start < stop
  isBalanced : IsBalanced (textBetween text start stop)
  exists_right : ∃ right ∈ rightBrackets, text[stop]? = some right

/-- The position of the bracket that closes the one at `start`. -/
def closingPosition? (text : Text) (start : Nat) : Option Nat :=
  (enclosed? (text.drop (start + 1))).map fun (inner, _) => start + 1 + inner.length

theorem closesAt_add_iff (text : Text) (start length : Nat) :
    ClosesAt text start (start + 1 + length) ↔
      IsBalanced ((text.drop (start + 1)).take length) ∧
        ∃ right ∈ rightBrackets, (text.drop (start + 1))[length]? = some right := by
  have hbetween : textBetween text start (start + 1 + length) =
      (text.drop (start + 1)).take length := by
    rw [textBetween, List.drop_take, Nat.add_sub_cancel_left]
  rw [List.getElem?_drop, ← hbetween]
  constructor
  · rintro ⟨-, hbalanced, hright⟩
    exact ⟨hbalanced, hright⟩
  · rintro ⟨hbalanced, hright⟩
    exact ⟨by omega, hbalanced, hright⟩

/-- The bracket that a reader finds is the one behind a balanced text. -/
theorem closingPosition?_eq_some_iff (text : Text) (start stop : Nat) :
    closingPosition? text start = some stop ↔ ClosesAt text start stop := by
  rw [closingPosition?, Option.map_eq_some_iff]
  constructor
  · rintro ⟨⟨inner, rest⟩, hread, rfl⟩
    obtain ⟨hinner, right, hright, heq⟩ := Reading.enclosed?_eq_some_iff.1 hread
    rw [closesAt_add_iff, heq, List.take_left, List.getElem?_append_right le_rfl, Nat.sub_self]
    exact ⟨hinner, right, hright, rfl⟩
  · intro h
    have hle : start + 1 ≤ stop := h.lt
    obtain ⟨length, rfl⟩ := Nat.exists_eq_add_of_le hle
    obtain ⟨hinner, right, hright, hget⟩ := (closesAt_add_iff text start length).1 h
    obtain ⟨hlength, hget⟩ := List.getElem?_eq_some_iff.1 hget
    refine ⟨((text.drop (start + 1)).take length, (text.drop (start + 1)).drop (length + 1)),
      Reading.enclosed?_eq_some_iff.2 ⟨hinner, right, hright, ?_⟩, ?_⟩
    · rw [← hget, List.cons_getElem_drop_succ, List.take_append_drop]
    · dsimp only
      rw [List.length_take, Nat.min_eq_left (Nat.le_of_lt hlength)]

/-- **Brackets and commas are read alike.**  From any position, the bracket that closes is found
exactly where a balanced text ends at a closing bracket, and there is one such place at most.  The
pieces of a balanced list, joined by commas, are the list; each of them is balanced and has no outer
comma; and no bracket is met that closes more than was opened. -/
theorem brackets_and_commas_agree (text list : Text) (hlist : IsBalanced list) :
    (∀ start stop, closingPosition? text start = some stop ↔ ClosesAt text start stop) ∧
    (∀ start stop stop', ClosesAt text start stop → ClosesAt text start stop' → stop = stop') ∧
    List.intercalate [','] (commaPieces list) = list ∧
    (∀ piece ∈ commaPieces list,
      IsBalanced piece ∧ ¬ Reading.plain.HasOuterComma 0 piece) ∧
    Reading.plain.checkedPieces? 0 list = some (commaPieces list) := by
  refine ⟨closingPosition?_eq_some_iff text, fun start stop stop' hstop hstop' => ?_,
    Reading.intercalate_commaPieces .plain 0 list, ?_, Reading.checkedPieces?_eq_some hlist⟩
  · rw [← closingPosition?_eq_some_iff] at hstop hstop'
    exact Option.some.inj (hstop.symm.trans hstop')
  · obtain ⟨first, more, heq, hfirst, hmore⟩ := Reading.exists_isPiece hlist
    intro piece hpiece
    rw [commaPieces, heq] at hpiece
    rcases List.mem_cons.1 hpiece with rfl | hpiece
    · exact ⟨hfirst.isBalancedFrom, hfirst.not_hasOuterComma⟩
    · exact ⟨(hmore piece hpiece).isBalancedFrom, (hmore piece hpiece).not_hasOuterComma⟩

/-- A list with brackets of two kinds, and with commas, brackets and an escaped mark in strings. -/
def defaultsList : Text := "$a = [1, ')'], $b = f(\"x,\\\"\")".toList

theorem defaultsList_brackets_and_commas :
    IsBalanced defaultsList ∧
    commaPieces defaultsList = ["$a = [1, ')']".toList, " $b = f(\"x,\\\"\")".toList] ∧
    ClosesAt ('(' :: defaultsList ++ [')']) 0 30 ∧
    ∀ piece ∈ commaPieces defaultsList, ¬ Reading.plain.HasOuterComma 0 piece := by
  have hlist : IsBalanced defaultsList := by decide
  obtain ⟨hclosing, -, -, hpieces, -⟩ :=
    brackets_and_commas_agree ('(' :: defaultsList ++ [')']) defaultsList hlist
  exact ⟨hlist, by decide, (hclosing 0 30).1 (by decide),
    fun piece hpiece => (hpieces piece hpiece).2⟩

end PhpDoc
