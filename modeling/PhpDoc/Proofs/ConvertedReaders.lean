import Mathlib
import PhpDoc.Proofs.Above
import PhpDoc.Proofs.Balance
import PhpDoc.Proofs.Declared
import PhpDoc.Proofs.LineEndings

/-!
# Readers and other line endings

A reader of declarations finds the same names and types in a text with other line endings, and leaves
the rest of the text with them.  Only what may run over lines, such as the clause of an import,
converts with the text.
-/

namespace PhpDoc

variable {α : Type} {newline : Text}

/-- In the converted text the reader finds the value changed by `f`, and leaves the converted rest. -/
def Converts (newline : Text) (f : α → α) (read : Text → Option (α × Text)) : Prop :=
  ∀ text, read (text.withNewlines newline) =
    (read text).map (Prod.map f (Text.withNewlines · newline))

/-- One more step of a reader. -/
theorem bind_map_eq {α α' β β' : Type} {x : Option α} {g : α → α'} {k : α → Option β}
    {k' : α' → Option β'} {h : β → β'} (hk : ∀ a, k' (g a) = (k a).map h) :
    (x.map g >>= k') = (x >>= k).map h := by
  cases x with
  | none => rfl
  | some a => exact hk a

section Readers

variable (hn : IsLineEnding newline)
include hn

/-! ## Names and keywords -/

theorem converts_run? {p : Char → Bool} (hp : p '\r' = p '\n') :
    Converts newline (Text.withNewlines · newline) (Text.run? p) := by
  have hrun : ∀ text : Text, text.run? p =
      if text.takeWhile p = [] then none else some (text.takeWhile p, text.dropWhile p) := by
    intro text
    cases text with
    | nil => rfl
    | cons c text => cases hc : p c <;> simp [Text.run?, hc]
  intro text
  rw [hrun, hrun, Text.takeWhile_withNewlines hn hp, Text.dropWhile_withNewlines hn hp]
  simp only [Text.withNewlines_eq_nil_iff hn]
  split <;> rfl

/-- Runs without line endings stay as they are. -/
theorem converts_run?_of_not {p : Char → Bool} (hreturn : p '\r' = false) (hfeed : p '\n' = false) :
    Converts newline id (Text.run? p) := by
  intro text
  rw [converts_run? hn (hreturn.trans hfeed.symm) text]
  cases hrun : text.run? p with
  | none => rfl
  | some found =>
      obtain ⟨value, rest⟩ := found
      have hvalue : '\n' ∉ value := fun hmem => by
        rw [(run?_eq_some_iff.1 hrun).2.2.1 _ hmem] at hfeed
        contradiction
      simp [Text.withNewlines_eq_self hvalue]

theorem converts_identifier? : Converts newline id Text.identifier? := by
  have hidentifier : ∀ text : Text, text.identifier? =
      if text.head?.any isIdentifierStart then text.run? isIdentifierChar else none := by
    intro text
    cases text with
    | nil => rfl
    | cons c text =>
        cases hc : isIdentifierStart c with
        | false => simp [Text.identifier?, hc]
        | true =>
            simp [Text.identifier?, Text.run?, hc, isIdentifierChar_of_isIdentifierStart hc]
  intro text
  rw [hidentifier, hidentifier, Text.any_head?_withNewlines hn rfl rfl,
    converts_run?_of_not hn rfl rfl text]
  split <;> rfl

theorem converts_keywordThenBlanks? {keywords : List Text} (h : ∀ word ∈ keywords, NoBreak word) :
    Converts newline id (keywordThenBlanks? keywords) := by
  intro text
  rw [keywordThenBlanks?, keywordThenBlanks?]
  induction keywords with
  | nil => rfl
  | cons word keywords ih =>
      rw [List.findSome?_cons, List.findSome?_cons,
        ih fun other hother => h other (List.mem_cons_of_mem _ hother),
        Text.after?_withNewlines hn (h word List.mem_cons_self)]
      cases Text.after? word text with
      | none => rfl
      | some rest =>
          simp only [Option.map_some, Option.bind_some, Text.afterBlanks?_withNewlines hn]
          cases rest.afterBlanks? <;> rfl

omit hn in
theorem length_lt_of_keywordThenBlanks? {keywords : List Text} {text keyword rest : Text}
    (h : keywordThenBlanks? keywords text = some (keyword, rest)) :
    rest.length < text.length := by
  obtain ⟨word, -, hfound⟩ := List.exists_of_findSome?_eq_some h
  simp only [Option.map_eq_some_iff, Option.bind_eq_some_iff, Prod.mk.injEq] at hfound
  obtain ⟨after, ⟨next, hafter, hblanks⟩, -, rfl⟩ := hfound
  obtain ⟨blanks, hne, -, rfl, -⟩ := afterBlanks?_eq_some_iff.1 hblanks
  have hpos : 0 < blanks.length := List.length_pos_of_ne_nil hne
  rw [(Text.after?_eq_some_iff _ _ _).1 hafter, List.length_append, List.length_append]
  omega

/-- Modifiers convert as long as there is fuel for every character. -/
theorem takeModifiers_withNewlines {allowed : List Text} (hallowed : ∀ word ∈ allowed, NoBreak word)
    {fuel fuel' text : Text} (hfuel : text.length ≤ fuel.length)
    (hfuel' : (text.withNewlines newline).length ≤ fuel'.length) :
    takeModifiers allowed fuel' (text.withNewlines newline) =
      (takeModifiers allowed fuel text).map id (Text.withNewlines · newline) := by
  have hstop : ∀ (fuel text : Text), keywordThenBlanks? allowed text = none →
      takeModifiers allowed fuel text = ([], text) := by
    intro fuel text hnone
    cases fuel with
    | nil => rfl
    | cons _ fuel => rw [takeModifiers, hnone]
  have hconverts := converts_keywordThenBlanks? hn hallowed
  -- the induction is on the fuel of the text; that of the converted text only has to suffice
  induction fuel generalizing fuel' text with
  | nil =>
      obtain rfl : text = [] := List.length_eq_zero_iff.1 (Nat.le_zero.1 hfuel)
      have hnone : keywordThenBlanks? allowed [] = none := by
        rw [Option.eq_none_iff_forall_ne_some]
        rintro ⟨word, rest⟩ hfound
        exact absurd (length_lt_of_keywordThenBlanks? hfound) (Nat.not_lt_zero _)
      exact hstop fuel' [] hnone
  | cons _ fuel ih =>
      cases hkeyword : keywordThenBlanks? allowed text with
      | none =>
          have hnone := hconverts text
          rw [hkeyword] at hnone
          rw [hstop _ _ hkeyword, hstop _ _ hnone]
          rfl
      | some found =>
          obtain ⟨word, rest⟩ := found
          have hfound := hconverts text
          rw [hkeyword, Option.map_some, Prod.map_apply, id] at hfound
          have hshorter := length_lt_of_keywordThenBlanks? hkeyword
          have hshorter' := length_lt_of_keywordThenBlanks? hfound
          cases fuel' with
          | nil => exact absurd hfuel' (by simp only [List.length_nil]; omega)
          | cons _ fuel' =>
              simp only [List.length_cons] at hfuel hfuel'
              rw [takeModifiers, takeModifiers, hkeyword, hfound]
              have hrest := @ih fuel' rest (by omega) (by omega)
              simp only [hrest]
              rfl

theorem readModifiers_withNewlines {allowed : List Text}
    (hallowed : ∀ word ∈ allowed, NoBreak word) (text : Text) :
    readModifiers allowed (text.withNewlines newline) =
      (readModifiers allowed text).map id (Text.withNewlines · newline) :=
  takeModifiers_withNewlines hn hallowed le_rfl le_rfl

/-! ## Declarations -/

theorem converts_readNamespace? : Converts newline id readNamespace? := by
  intro text
  simp only [readNamespace?]
  rw [Text.after?_withNewlines hn (by decide)]
  refine bind_map_eq fun text => ?_
  rw [Text.afterBlanks?_withNewlines hn]
  refine bind_map_eq fun text => ?_
  rw [converts_run?_of_not hn rfl rfl text]
  refine bind_map_eq ?_
  rintro ⟨name, text⟩
  simp only [Prod.map_apply, id, Text.trimStart_withNewlines hn]
  rw [Text.after?_withNewlines hn (by decide)]
  exact bind_map_eq fun text => rfl

theorem converts_readHead? {keywords : List Text} (h : ∀ word ∈ keywords, NoBreak word) :
    Converts newline id (readHead? keywords) := by
  have hmodifiers : ∀ word ∈ classModifiers, NoBreak word := by decide
  have hword : isWordChar '\r' = false ∧ isWordChar '\n' = false := by decide
  intro text
  rw [readHead?, readHead?, readModifiers_withNewlines hn hmodifiers, Prod.map_snd,
    converts_keywordThenBlanks? hn h]
  refine bind_map_eq ?_
  rintro ⟨_, text⟩
  simp only [Prod.map_apply, id]
  rw [converts_identifier? hn text]
  refine bind_map_eq ?_
  rintro ⟨name, text⟩
  simp only [Prod.map_apply, id, Text.any_head?_withNewlines hn hword.1 hword.2]
  split <;> rfl

theorem converts_readClassHead? : Converts newline id readClassHead? :=
  converts_readHead? hn (by decide)

theorem converts_readTypeHead? : Converts newline id readTypeHead? := by
  intro text
  rw [readTypeHead?, readTypeHead?, Text.dropWhile_withNewlines hn rfl]
  exact converts_readHead? hn (by decide) _

theorem converts_readUse? : Converts newline (Text.withNewlines · newline) readUse? := by
  intro text
  simp only [readUse?]
  rw [Text.after?_withNewlines hn (by decide)]
  refine bind_map_eq fun text => ?_
  rw [Text.afterBlanks?_withNewlines hn]
  refine bind_map_eq fun text => ?_
  rw [converts_run? hn rfl text]
  refine bind_map_eq ?_
  rintro ⟨clause, text⟩
  simp only [Prod.map_apply]
  rw [Text.after?_withNewlines hn (by decide)]
  exact bind_map_eq fun text => rfl

theorem readPropertyType_withNewlines (text : Text) :
    readPropertyType (text.withNewlines newline) =
      (readPropertyType text).map id (Text.withNewlines · newline) := by
  rw [readPropertyType, readPropertyType, converts_run?_of_not hn rfl rfl text]
  cases text.run? isPropertyTypeChar with
  | none => rfl
  | some found =>
      obtain ⟨type, rest⟩ := found
      simp only [Option.map_some, Option.bind_some, Prod.map_apply, id,
        Text.afterBlanks?_withNewlines hn]
      cases rest.afterBlanks? <;> rfl

theorem converts_readProperty? : Converts newline id readProperty? := by
  have hmodifiers : ∀ word ∈ propertyModifiers, NoBreak word := by decide
  intro text
  simp only [readProperty?]
  rw [converts_run?_of_not hn rfl rfl text]
  refine bind_map_eq ?_
  rintro ⟨indent, text⟩
  simp only [Prod.map_apply, id, readModifiers_withNewlines hn hmodifiers,
    readPropertyType_withNewlines hn, Prod.map_fst, Prod.map_snd]
  split
  · rfl
  · rw [Text.after?_withNewlines hn (by decide)]
    refine bind_map_eq fun text => ?_
    rw [converts_identifier? hn text]
    exact bind_map_eq fun found => rfl

theorem converts_readMethod? : Converts newline id readMethod? := by
  have hmodifiers : ∀ word ∈ methodModifiers, NoBreak word := by decide
  intro text
  simp only [readMethod?, Text.dropWhile_withNewlines hn (p := isIndent) rfl,
    readModifiers_withNewlines hn hmodifiers, Prod.map_fst, Prod.map_snd, id]
  rw [Text.after?_withNewlines hn (by decide)]
  refine bind_map_eq fun text => ?_
  rw [Text.afterBlanks?_withNewlines hn]
  refine bind_map_eq fun text => ?_
  rw [Text.after?_withNewlines hn (by decide), Option.getD_map, Text.trimStart_withNewlines hn,
    converts_identifier? hn]
  refine bind_map_eq ?_
  rintro ⟨name, text⟩
  simp only [Prod.map_apply, id, Text.trimStart_withNewlines hn]
  rw [Text.after?_withNewlines hn (by decide)]
  exact bind_map_eq fun text => rfl

theorem afterQuote?_withNewlines (text : Text) :
    afterQuote? (text.withNewlines newline) =
      (afterQuote? text).map (Text.withNewlines · newline) := by
  cases text with
  | nil => rfl
  | cons c text =>
      by_cases hc : c = '\n'
      · obtain ⟨d, more, hd⟩ := List.exists_cons_of_ne_nil hn.ne_nil
        have hquote : isQuote d = false :=
          hn.eq_newline (p := isQuote) rfl d (hd ▸ List.mem_cons_self)
        rw [hc, Text.withNewlines_cons_newline, hd, List.cons_append, afterQuote?, hquote]
        rfl
      · rw [Text.withNewlines_cons hc, afterQuote?, afterQuote?]
        split <;> rfl

theorem converts_readOverride? {name : Text} (hname : NoBreak name) :
    Converts newline (Text.withNewlines · newline) (readOverride? name) := by
  have hvariable : NoBreak ('$' :: name) := by simpa [NoBreak] using hname
  have htype : ∀ text : Text, ((Text.after? "string".toList
      ((Text.after? ['?'] (text.withNewlines newline)).getD (text.withNewlines newline))).bind
        Text.afterBlanks?).getD (text.withNewlines newline) =
      Text.withNewlines (((Text.after? "string".toList ((Text.after? ['?'] text).getD text)).bind
        Text.afterBlanks?).getD text) newline := by
    intro text
    rw [Text.after?_withNewlines hn (by decide), Option.getD_map,
      Text.after?_withNewlines hn (by decide)]
    exact (congrArg (Option.getD · _) (bind_map_eq (Text.afterBlanks?_withNewlines hn))).trans
      (Option.getD_map (Text.withNewlines · newline) text _)
  intro text
  simp only [readOverride?, Text.dropWhile_withNewlines hn (p := isIndent) rfl]
  rw [Text.after?_withNewlines hn (by decide)]
  refine bind_map_eq fun text => ?_
  rw [Text.afterBlanks?_withNewlines hn]
  refine bind_map_eq fun text => ?_
  rw [htype, Text.after?_withNewlines hn hvariable]
  refine bind_map_eq fun text => ?_
  rw [Text.trimStart_withNewlines hn, Text.after?_withNewlines hn (by decide)]
  refine bind_map_eq fun text => ?_
  rw [Text.trimStart_withNewlines hn, afterQuote?_withNewlines hn]
  refine bind_map_eq fun text => ?_
  rw [converts_run? hn rfl text]
  refine bind_map_eq ?_
  rintro ⟨value, text⟩
  simp only [Prod.map_apply]
  rw [afterQuote?_withNewlines hn]
  exact bind_map_eq fun text => rfl

omit hn in
theorem returnType?_eq (text : Text) :
    returnType? text = (Text.after? [':'] text.trimStart).bind fun rest =>
      match Text.after? ['?'] rest.trimStart with
      | some body => ((body.run? isReturnTypeChar).map Prod.fst).map ('?' :: ·)
      | none => (rest.trimStart.run? isReturnTypeChar).map Prod.fst := by
  rw [returnType?]
  cases Text.after? [':'] text.trimStart with
  | none => rfl
  | some rest =>
      simp only [Option.bind_eq_bind, Option.bind_some]
      split
      · next body hbody =>
          have hafter : Text.after? ['?'] rest.trimStart = some body :=
            (Text.after?_eq_some_iff _ _ _).2 hbody
          rw [hafter]
          exact (Option.map_map _ _ _).symm
      · next hnot =>
          have hafter : Text.after? ['?'] rest.trimStart = none := by
            rw [Text.after?_eq_none_iff]
            rintro ⟨body, hbody⟩
            exact hnot body hbody.symm
          rw [hafter]

theorem returnType?_withNewlines (text : Text) :
    returnType? (text.withNewlines newline) = returnType? text := by
  have hrun : ∀ text : Text, ((text.withNewlines newline).run? isReturnTypeChar).map Prod.fst =
      (text.run? isReturnTypeChar).map Prod.fst := by
    intro text
    rw [converts_run?_of_not hn rfl rfl text, Option.map_map]
    rfl
  rw [returnType?_eq, returnType?_eq, Text.trimStart_withNewlines hn,
    Text.after?_withNewlines hn (by decide)]
  cases Text.after? [':'] text.trimStart with
  | none => rfl
  | some rest =>
      simp only [Option.map_some, Option.bind_some, Text.trimStart_withNewlines hn]
      rw [Text.after?_withNewlines hn (by decide)]
      cases Text.after? ['?'] rest.trimStart with
      | none => exact hrun _
      | some body => simp only [Option.map_some, hrun]

/-! ## Parameters -/

theorem enclosed?_withNewlines (text : Text) :
    enclosed? (text.withNewlines newline) = (enclosed? text).map
      (Prod.map (Text.withNewlines · newline) (Text.withNewlines · newline)) :=
  Reading.enclosed?_withNewlines hn (r := .plain) trivial 0 text

omit hn in
theorem length_lt_of_enclosed? {text inner rest : Text} (h : enclosed? text = some (inner, rest)) :
    rest.length < text.length := by
  obtain ⟨right, -, rfl⟩ := exists_right_of_enclosed? h
  simp only [List.length_append, List.length_cons]
  omega

theorem dropAttributeGroups_withNewlines {fuel fuel' text : Text}
    (hfuel : text.length ≤ fuel.length)
    (hfuel' : (text.withNewlines newline).length ≤ fuel'.length) :
    Parameter.dropAttributeGroups fuel' (text.withNewlines newline) =
      (Parameter.dropAttributeGroups fuel text).withNewlines newline := by
  have hgroup : ∀ text : Text,
      (Text.after? "#[".toList (text.withNewlines newline).trimStart).bind enclosed? =
        ((Text.after? "#[".toList text.trimStart).bind enclosed?).map
          (Prod.map (Text.withNewlines · newline) (Text.withNewlines · newline)) := by
    intro text
    rw [Text.trimStart_withNewlines hn, Text.after?_withNewlines hn (by decide)]
    exact bind_map_eq fun rest => enclosed?_withNewlines hn rest
  -- a group takes at least its closing bracket away, in both texts
  have hshorter : ∀ {text inner rest : Text},
      (Text.after? "#[".toList text.trimStart).bind enclosed? = some (inner, rest) →
        rest.length < text.length := by
    intro text inner rest hfound
    obtain ⟨after, hafter, henclosed⟩ := Option.bind_eq_some_iff.1 hfound
    exact lt_of_lt_of_le (length_lt_of_enclosed? henclosed)
      ((suffix_of_after? hafter).trans (trimStart_suffix text)).length_le
  have hstop : ∀ (fuel text : Text),
      (Text.after? "#[".toList text.trimStart).bind enclosed? = none →
        Parameter.dropAttributeGroups fuel text = text.trimStart := by
    intro fuel text hnone
    cases fuel with
    | nil => rfl
    | cons _ fuel => rw [Parameter.dropAttributeGroups, hnone]
  induction fuel generalizing fuel' text with
  | nil =>
      obtain rfl : text = [] := List.length_eq_zero_iff.1 (Nat.le_zero.1 hfuel)
      exact hstop fuel' [] rfl
  | cons _ fuel ih =>
      cases hfound : (Text.after? "#[".toList text.trimStart).bind enclosed? with
      | none =>
          have hnone := hgroup text
          rw [hfound] at hnone
          rw [hstop _ _ hfound, hstop _ _ hnone, Text.trimStart_withNewlines hn]
      | some found =>
          obtain ⟨inner, rest⟩ := found
          have hfound' := hgroup text
          rw [hfound, Option.map_some, Prod.map_apply] at hfound'
          have hrest := hshorter hfound
          have hrest' := hshorter hfound'
          cases fuel' with
          | nil => exact absurd hfuel' (by simp only [List.length_nil]; omega)
          | cons _ fuel' =>
              simp only [List.length_cons] at hfuel hfuel'
              rw [Parameter.dropAttributeGroups, Parameter.dropAttributeGroups, hfound, hfound']
              exact ih (by omega) (by omega)

theorem parse?_withNewlines (piece : Text) :
    Parameter.parse? (piece.withNewlines newline) = Parameter.parse? piece := by
  rw [Parameter.parse?, Parameter.parse?, Parameter.dropAttributes,
    dropAttributeGroups_withNewlines hn le_rfl le_rfl, Text.takeWhile_withNewlines hn rfl,
    Text.words_withNewlines hn]
  rfl

theorem readParameters?_withNewlines (list : Text) :
    readParameters? (list.withNewlines newline) = readParameters? list := by
  have hitems : listItems (list.withNewlines newline) =
      (listItems list).map (Text.withNewlines · newline) := by
    rw [listItems, listItems, commaPieces,
      Reading.commaPieces_withNewlines hn (r := .plain) trivial, List.filter_map]
    refine congrArg _ (List.filter_congr fun piece _ => ?_)
    simp only [Function.comp_apply, Text.trim_withNewlines hn, Text.isEmpty_withNewlines hn]
  have hparse : Parameter.parse? ∘ (Text.withNewlines · newline) = Parameter.parse? :=
    funext fun piece => parse?_withNewlines hn piece
  rw [readParameters?, readParameters?, hitems, List.mapM_map, hparse]

end Readers

end PhpDoc
