import Mathlib
import PhpDoc.Source.ClassDecl
import PhpDoc.Proofs.Balance
import PhpDoc.Proofs.Reading

/-!
# Parameter lists are read back

A parameter may be written in many ways: with attribute groups and modifiers before its type, a
default value after its variable, and blanks between these parts.  However a list of parameters is
written, the bracket that closes it is found, and reading what stands between gives the parameters
back, each with its name, its type and the way it is passed.

Attributes and default values may hold brackets, strings, commas and equals signs; that they are
balanced is all that is asked of them.
-/

namespace PhpDoc

/-! ## How parameters are written -/

/-- Attribute groups, each with the blanks after it. -/
inductive WritesAttributes : Text → Prop
  | nil : WritesAttributes []
  | cons {content blanks rest : Text} : Balanced true content → (∀ c ∈ blanks, isBlank c = true) →
      WritesAttributes rest → WritesAttributes ('#' :: '[' :: (content ++ ']' :: (blanks ++ rest)))

/-- The given modifiers, each with at least one blank after it. -/
inductive WritesModifiers : List Text → Text → Prop
  | nil : WritesModifiers [] []
  | cons {word blanks rest : Text} {words : List Text} : word ∈ Parameter.modifiers →
      blanks ≠ [] → (∀ c ∈ blanks, isBlank c = true) → WritesModifiers words rest →
      WritesModifiers (word :: words) (word ++ (blanks ++ rest))

/-- A text that can stand as the type of a parameter. -/
structure IsParameterType (type : Text) : Prop where
  ne_nil : type ≠ []
  not_blank : ∀ c ∈ type, isBlank c = false
  equals_not_mem : '=' ∉ type
  balanced : Balanced false type
  not_modifier : type ∉ Parameter.modifiers
  not_attribute : ¬ "#[".toList <+: type

/-- A type with at least one blank after it, or nothing. -/
inductive WritesType : Option Text → Text → Prop
  | none : WritesType none []
  | some {type blanks : Text} : IsParameterType type → blanks ≠ [] →
      (∀ c ∈ blanks, isBlank c = true) → WritesType (some type) (type ++ blanks)

/-- An equals sign with a default value, or nothing. -/
inductive WritesDefault : Text → Prop
  | none : WritesDefault []
  | some {blanks value : Text} : (∀ c ∈ blanks, isBlank c = true) → Balanced false value →
      WritesDefault (blanks ++ '=' :: value)

/-- A parameter with everything that may surround its variable, and blanks on both sides. -/
inductive WritesParameter : Parameter → Text → Prop
  | intro {p : Parameter} {words : List Text}
      {before attributes modifiers type value after : Text} :
      (∀ c ∈ before, isBlank c = true) → WritesAttributes attributes →
      WritesModifiers words modifiers → WritesType p.type type → Text.isIdentifier p.name = true →
      WritesDefault value → (∀ c ∈ after, isBlank c = true) →
      WritesParameter p
        (before ++ (attributes ++ (modifiers ++ (type ++ (p.token ++ (value ++ after))))))

/-- Parameters with commas between them. -/
inductive WritesParameters : List Parameter → Text → Prop
  | nil {blanks : Text} : (∀ c ∈ blanks, isBlank c = true) → WritesParameters [] blanks
  | single {p : Parameter} {item : Text} : WritesParameter p item → WritesParameters [p] item
  | cons {p q : Parameter} {ps : List Parameter} {item list : Text} : WritesParameter p item →
      WritesParameters (q :: ps) list → WritesParameters (p :: q :: ps) (item ++ ',' :: list)

/-- A parameter list: parameters with commas between them, and possibly one after the last. -/
inductive WritesList (ps : List Parameter) : Text → Prop
  | plain {list : Text} : WritesParameters ps list → WritesList ps list
  | trailing {list blanks : Text} : WritesParameters ps list → (∀ c ∈ blanks, isBlank c = true) →
      WritesList ps (list ++ ',' :: blanks)

/-! ## The variable of a parameter -/

/-- The characters of a variable and of the marks before it. -/
def isTokenChar (c : Char) : Bool :=
  isIdentifierChar c || "&.$".toList.contains c

theorem isBlank_of_isTokenChar {c : Char} (h : isTokenChar c = true) : isBlank c = false := by
  rcases Bool.or_eq_true_iff.1 h with hc | hc
  · exact isBlank_of_isIdentifierChar hc
  · have hmarks : "&.$".toList.all (fun c => !isBlank c) = true := by decide
    simpa using List.all_eq_true.1 hmarks c (by simpa using hc)

namespace Parameter

variable {p : Parameter}

theorem isTokenChar_of_mem_token (h : Text.isIdentifier p.name = true) :
    ∀ c ∈ p.token, isTokenChar c = true := by
  intro c hc
  simp only [token, List.mem_append, List.mem_ite_nil_right, List.mem_cons] at hc
  rcases hc with (⟨-, hc⟩ | ⟨-, hc⟩) | rfl | hc
  · simp_all [isTokenChar]
  · simp_all [isTokenChar]
  · decide
  · rw [isTokenChar, isIdentifierChar_of_mem h c hc, Bool.true_or]

theorem sigil_mem_token (p : Parameter) : '$' ∈ p.token := by
  simp [token]

/-- A variable is read back from the word that writes it. -/
theorem ofToken?_token (h : Text.isIdentifier p.name = true) :
    ofToken? p.type p.token = some p := by
  obtain ⟨name, type, byReference, variadic⟩ := p
  cases byReference <;> cases variadic <;> simp_all [ofToken?, token, Text.after?]

end Parameter

/-! ## Written parameters are balanced -/

theorem WritesAttributes.balanced {attributes : Text} (h : WritesAttributes attributes) :
    Balanced false attributes := by
  induction h with
  | nil => exact .nil
  | cons hcontent hblanks _ ih =>
      exact .char (by decide) (by decide) (by decide) (by decide)
        (.brackets (by decide) (by decide) hcontent ((Balanced.of_isBlank hblanks).append ih))

/-- Modifiers are words of lower case letters. -/
theorem isLower_of_mem_modifiers {word : Text} (h : word ∈ Parameter.modifiers) :
    word ≠ [] ∧ ∀ c ∈ word, c.isLower = true := by
  have hall : Parameter.modifiers.all
      (fun word => !word.isEmpty && word.all Char.isLower) = true := by decide
  simpa using List.all_eq_true.1 hall word h

theorem WritesModifiers.balanced {words : List Text} {modifiers : Text}
    (h : WritesModifiers words modifiers) : Balanced false modifiers := by
  induction h with
  | nil => exact .nil
  | cons hword _ hblanks _ ih =>
      exact (Balanced.of_class (by decide) (isLower_of_mem_modifiers hword).2).append
        ((Balanced.of_isBlank hblanks).append ih)

theorem WritesType.balanced {declared : Option Text} {type : Text} (h : WritesType declared type) :
    Balanced false type := by
  cases h with
  | none => exact .nil
  | some htype _ hblanks => exact htype.balanced.append (.of_isBlank hblanks)

theorem WritesDefault.balanced {value : Text} (h : WritesDefault value) : Balanced false value := by
  cases h with
  | none => exact .nil
  | some hblanks hvalue =>
      exact (Balanced.of_isBlank hblanks).append
        (.char (by decide) (by decide) (by decide) (by decide) hvalue)

theorem WritesParameter.balanced {p : Parameter} {item : Text} (h : WritesParameter p item) :
    Balanced false item := by
  obtain ⟨hbefore, hattributes, hmodifiers, htype, hname, hvalue, hafter⟩ := h
  have htoken : Balanced false p.token :=
    .of_class (by decide) (Parameter.isTokenChar_of_mem_token hname)
  exact (Balanced.of_isBlank hbefore).append <| hattributes.balanced.append <|
    hmodifiers.balanced.append <| htype.balanced.append <|
      htoken.append <| hvalue.balanced.append (.of_isBlank hafter)

theorem WritesParameters.balanced {ps : List Parameter} {list : Text}
    (h : WritesParameters ps list) : Balanced true list := by
  induction h with
  | nil hblanks => exact .of_isBlank hblanks
  | single hitem => exact hitem.balanced.withCommas
  | cons hitem _ ih => exact hitem.balanced.append_comma ih

theorem WritesList.balanced {ps : List Parameter} {list : Text} (h : WritesList ps list) :
    Balanced true list := by
  cases h with
  | plain hlist => exact hlist.balanced
  | trailing hlist hblanks => exact hlist.balanced.append_comma (.of_isBlank hblanks)

/-! ## Reading one parameter -/

/-- A text at which the search for attribute groups ends. -/
def StartsDeclaration (text : Text) : Prop :=
  (∀ c ∈ text.head?, isBlank c = false) ∧ ¬ "#[".toList <+: text

theorem StartsDeclaration.cons {c : Char} (hblank : isBlank c = false) (hc : c ≠ '#')
    (rest : Text) : StartsDeclaration (c :: rest) := by
  refine ⟨by simpa using hblank, fun h => hc ?_⟩
  exact (List.cons_prefix_cons.1 h).1.symm

/-- Attribute groups are dropped; each takes at least one character of `fuel`. -/
theorem WritesAttributes.dropAttributeGroups_append {attributes : Text}
    (h : WritesAttributes attributes) {fuel before rest : Text}
    (hfuel : attributes.length ≤ fuel.length) (hbefore : ∀ c ∈ before, isBlank c = true)
    (hrest : StartsDeclaration rest) :
    Parameter.dropAttributeGroups fuel (before ++ (attributes ++ rest)) = rest := by
  -- the blanks after a group are those before the next one, so `before` is free
  induction h generalizing fuel before with
  | nil =>
      have htrim : Text.trimStart (before ++ rest) = rest :=
        Text.dropWhile_append_stop hbefore hrest.1
      have hnone : Text.after? "#[".toList rest = none := (Text.after?_eq_none_iff _ _).2 hrest.2
      cases fuel with
      | nil => exact htrim
      | cons c fuel =>
          rw [List.nil_append, Parameter.dropAttributeGroups, htrim, hnone]
          rfl
  | @cons content blanks more hcontent hblanks _ ih =>
      obtain ⟨c, fuel, rfl⟩ := List.exists_cons_of_length_pos (lt_of_lt_of_le (by simp) hfuel)
      have htrim : Text.trimStart
          (before ++ ('#' :: '[' :: (content ++ ']' :: (blanks ++ more)) ++ rest)) =
          "#[".toList ++ (content ++ ']' :: (blanks ++ (more ++ rest))) := by
        rw [Text.trimStart_append_of_blank hbefore]
        simp [Text.trimStart_cons_of_not_blank (show isBlank '#' = false by decide)]
      rw [Parameter.dropAttributeGroups, htrim, Text.after?_append, Option.bind_some,
        enclosed?_append hcontent (by decide)]
      refine ih ?_ hblanks
      simp only [List.length_cons, List.length_append] at hfuel ⊢
      omega

/-- A word with blanks after it is the first word. -/
theorem words_append_blanks {word blanks : Text} (hword : word ≠ [])
    (hnot : ∀ c ∈ word, isBlank c = false) (hne : blanks ≠ [])
    (hblanks : ∀ c ∈ blanks, isBlank c = true) (rest : Text) :
    Text.words (word ++ (blanks ++ rest)) = word :: rest.words := by
  obtain ⟨b, blanks, rfl⟩ := List.exists_cons_of_ne_nil hne
  have hhead : (b :: blanks ++ rest).head?.all isBlank = true := by
    simpa using hblanks b List.mem_cons_self
  rw [Text.words_append_of_not_blank hword hnot hhead, Text.words_append_of_blank hblanks]

theorem WritesModifiers.words_append {words : List Text} {modifiers : Text}
    (h : WritesModifiers words modifiers) (rest : Text) :
    Text.words (modifiers ++ rest) = words ++ rest.words := by
  induction h with
  | nil => rfl
  | cons hword hne hblanks _ ih =>
      obtain ⟨hword, hlower⟩ := isLower_of_mem_modifiers hword
      rw [List.append_assoc, List.append_assoc, words_append_blanks hword
        (fun c hc => isBlank_of_isLower (hlower c hc)) hne hblanks, ih, List.cons_append]

theorem WritesType.words_append {declared : Option Text} {type : Text}
    (h : WritesType declared type) (rest : Text) :
    Text.words (type ++ rest) = declared.toList ++ rest.words := by
  cases h with
  | none => rfl
  | some htype hne hblanks =>
      rw [List.append_assoc, words_append_blanks htype.ne_nil htype.not_blank hne hblanks]
      rfl

/-- The variable is the last word. -/
theorem Parameter.words_token_append {p : Parameter} (hname : Text.isIdentifier p.name = true)
    {blanks : Text} (hblanks : ∀ c ∈ blanks, isBlank c = true) :
    Text.words (p.token ++ blanks) = [p.token] := by
  have hnot : ∀ c ∈ p.token, isBlank c = false := fun c hc =>
    isBlank_of_isTokenChar (isTokenChar_of_mem_token hname c hc)
  have hne : p.token ≠ [] := List.ne_nil_of_mem p.sigil_mem_token
  have hnil : Text.words blanks = [] := by
    rw [← List.append_nil blanks, Text.words_append_of_blank hblanks]
    rfl
  have hhead : blanks.head?.all isBlank = true := by
    cases blanks with
    | nil => rfl
    | cons b blanks => simpa using hblanks b List.mem_cons_self
  rw [Text.words_append_of_not_blank hne hnot hhead, hnil]

theorem WritesModifiers.mem_modifiers {words : List Text} {modifiers : Text}
    (h : WritesModifiers words modifiers) : ∀ word ∈ words, word ∈ Parameter.modifiers := by
  induction h with
  | nil => simp
  | cons hword _ _ _ ih => exact List.forall_mem_cons.2 ⟨hword, ih⟩

theorem WritesType.startsDeclaration {declared : Option Text} {type : Text}
    (h : WritesType declared type) {rest : Text} (hrest : StartsDeclaration rest) :
    StartsDeclaration (type ++ rest) := by
  cases h with
  | none => exact hrest
  | @some type blanks htype hne hblanks =>
      obtain ⟨b, blanks, rfl⟩ := List.exists_cons_of_ne_nil hne
      refine ⟨fun c hc => ?_, fun hstart => ?_⟩
      · rw [List.append_assoc, List.head?_append_of_ne_nil _ htype.ne_nil] at hc
        exact htype.not_blank c (List.mem_of_mem_head? hc)
      · -- a type may end in `#`, but a blank follows it and no bracket
        have hb : b ∉ "#[".toList := fun hmem => by
          have hmarks : "#[".toList.all (fun c => !isBlank c) = true := by decide
          simpa [hblanks b List.mem_cons_self] using List.all_eq_true.1 hmarks b hmem
        rw [List.append_assoc, List.cons_append, Text.isPrefix_append_cons_iff hb] at hstart
        exact htype.not_attribute hstart

theorem WritesModifiers.startsDeclaration {words : List Text} {modifiers : Text}
    (h : WritesModifiers words modifiers) {rest : Text} (hrest : StartsDeclaration rest) :
    StartsDeclaration (modifiers ++ rest) := by
  cases h with
  | nil => exact hrest
  | @cons word _ _ _ hword _ _ _ =>
      obtain ⟨hne, hlower⟩ := isLower_of_mem_modifiers hword
      obtain ⟨c, word, rfl⟩ := List.exists_cons_of_ne_nil hne
      have hc : c.isLower = true := hlower c List.mem_cons_self
      exact .cons (isBlank_of_isLower hc) (by rintro rfl; contradiction) _

theorem Parameter.startsDeclaration_token (p : Parameter) (rest : Text) :
    StartsDeclaration (p.token ++ rest) := by
  obtain ⟨name, type, byReference, variadic⟩ := p
  cases byReference <;> cases variadic <;> exact .cons (by decide) (by decide) _

/-- Up to an equals sign, only blanks follow the variable. -/
theorem WritesDefault.takeWhile_append {value after : Text} (h : WritesDefault value)
    (hafter : ∀ c ∈ after, isBlank c = true) :
    ∀ c ∈ (value ++ after).takeWhile (· != '='), isBlank c = true := by
  cases h with
  | none => exact fun c hc => hafter c ((List.takeWhile_prefix _).subset hc)
  | @some blanks value hblanks _ =>
      intro c hc
      rw [List.append_assoc, List.cons_append, Text.takeWhile_append_stop _ (by simp)] at hc
      · exact hblanks c hc
      · intro c hc
        rw [bne_iff_ne]
        rintro rfl
        exact absurd (hblanks _ hc) (by decide)

theorem WritesModifiers.equals_not_mem {words : List Text} {modifiers : Text}
    (h : WritesModifiers words modifiers) : '=' ∉ modifiers := by
  induction h with
  | nil => simp
  | cons hword _ hblanks _ ih =>
      simp only [List.mem_append, not_or]
      exact ⟨fun hmem => absurd ((isLower_of_mem_modifiers hword).2 _ hmem) (by decide),
        fun hmem => absurd (hblanks _ hmem) (by decide), ih⟩

theorem WritesType.equals_not_mem {declared : Option Text} {type : Text}
    (h : WritesType declared type) : '=' ∉ type := by
  cases h with
  | none => simp
  | some htype _ hblanks =>
      rw [List.mem_append, not_or]
      exact ⟨htype.equals_not_mem, fun hmem => absurd (hblanks _ hmem) (by decide)⟩

theorem WritesType.not_modifier {declared : Option Text} {type : Text}
    (h : WritesType declared type) : ∀ type ∈ declared, type ∉ Parameter.modifiers := by
  cases h with
  | none => simp
  | some htype _ _ => simpa using htype.not_modifier

/-- The modifiers before the type and the variable are passed over. -/
theorem dropWhile_modifiers {words : List Text}
    (hwords : ∀ word ∈ words, word ∈ Parameter.modifiers) {p : Parameter}
    (htype : ∀ type ∈ p.type, type ∉ Parameter.modifiers) :
    (words ++ (p.type.toList ++ [p.token])).dropWhile Parameter.modifiers.contains =
      p.type.toList ++ [p.token] := by
  have htoken : p.token ∉ Parameter.modifiers := fun hmem =>
    absurd ((isLower_of_mem_modifiers hmem).2 _ p.sigil_mem_token) (by decide)
  rw [List.dropWhile_append_of_pos (by simpa using hwords)]
  cases hp : p.type with
  | none => simp [htoken]
  | some type => simp [htype type hp]

theorem WritesParameter.parse? {p : Parameter} {item : Text} (h : WritesParameter p item) :
    Parameter.parse? item = some p := by
  cases h with
  | @intro words before attributes modifiers type value after hbefore hattributes hmodifiers htype
      hname hvalue hafter =>
    have hdropped : Parameter.dropAttributes
        (before ++ (attributes ++ (modifiers ++ (type ++ (p.token ++ (value ++ after)))))) =
        modifiers ++ (type ++ (p.token ++ (value ++ after))) := by
      refine hattributes.dropAttributeGroups_append (by simp; omega) hbefore ?_
      exact hmodifiers.startsDeclaration (htype.startsDeclaration (p.startsDeclaration_token _))
    have hequals : ∀ c ∈ modifiers ++ (type ++ p.token), (c != '=') = true := by
      intro c hc
      rw [bne_iff_ne]
      rintro rfl
      simp only [List.mem_append, hmodifiers.equals_not_mem, htype.equals_not_mem, false_or] at hc
      exact absurd (Parameter.isTokenChar_of_mem_token hname _ hc) (by decide)
    -- the equals sign of a default value is the first one, so nothing of the value is read
    have hdeclared : (modifiers ++ (type ++ (p.token ++ (value ++ after)))).takeWhile (· != '=') =
        modifiers ++ (type ++ (p.token ++ (value ++ after).takeWhile (· != '='))) := by
      simpa using List.takeWhile_append_of_pos hequals
    have hlast := Parameter.words_token_append hname (hvalue.takeWhile_append hafter)
    rw [Parameter.parse?, hdropped, hdeclared, hmodifiers.words_append, htype.words_append, hlast,
      dropWhile_modifiers hmodifiers.mem_modifiers htype.not_modifier]
    have hread := Parameter.ofToken?_token hname
    cases hp : p.type with
    | none => rwa [hp] at hread
    | some type => rwa [hp] at hread

/-! ## Reading a list -/

theorem listItems_of_blank {blanks : Text} (h : ∀ c ∈ blanks, isBlank c = true) :
    listItems blanks = [] := by
  have htrim : blanks.trim = [] := (Text.trim_eq_nil_iff blanks).2 h
  rw [listItems, commaPieces_of_balanced (.of_isBlank h)]
  simp [htrim]

theorem WritesParameter.trim_ne_nil {p : Parameter} {item : Text} (h : WritesParameter p item) :
    item.trim ≠ [] := by
  obtain ⟨-, -, -, -, -, -, -⟩ := h
  rw [Ne, Text.trim_eq_nil_iff]
  intro hblank
  exact absurd (hblank '$' (by simp [p.sigil_mem_token])) (by decide)

theorem WritesParameter.listItems {p : Parameter} {item : Text} (h : WritesParameter p item) :
    listItems item = [item] := by
  rw [PhpDoc.listItems, commaPieces_of_balanced h.balanced]
  simp [h.trim_ne_nil]

theorem WritesParameter.listItems_append_comma {p : Parameter} {item : Text}
    (h : WritesParameter p item) (rest : Text) :
    PhpDoc.listItems (item ++ ',' :: rest) = item :: PhpDoc.listItems rest := by
  rw [PhpDoc.listItems, commaPieces_append_comma h.balanced, List.filter_cons_of_pos]
  · rfl
  · simp [h.trim_ne_nil]

/-- A comma after the last parameter adds no item. -/
theorem WritesParameters.listItems_append_comma {ps : List Parameter} {list blanks : Text}
    (h : WritesParameters ps list) (hblanks : ∀ c ∈ blanks, isBlank c = true) :
    listItems (list ++ ',' :: blanks) = listItems list := by
  induction h with
  | @nil before hbefore =>
      have htrim : before.trim = [] := (Text.trim_eq_nil_iff before).2 hbefore
      rw [listItems_of_blank hbefore, listItems, commaPieces_append_comma (.of_isBlank hbefore),
        List.filter_cons_of_neg (by simp [htrim])]
      exact listItems_of_blank hblanks
  | single hitem => rw [hitem.listItems_append_comma, listItems_of_blank hblanks, hitem.listItems]
  | cons hitem _ ih =>
      rw [List.append_assoc, List.cons_append, hitem.listItems_append_comma, ih,
        hitem.listItems_append_comma]

theorem WritesParameters.map_parse? {ps : List Parameter} {list : Text}
    (h : WritesParameters ps list) : (listItems list).map Parameter.parse? = ps.map some := by
  induction h with
  | nil hblanks => rw [listItems_of_blank hblanks, List.map_nil, List.map_nil]
  | single hitem => rw [hitem.listItems, List.map_singleton, hitem.parse?, List.map_singleton]
  | cons hitem _ ih =>
      rw [hitem.listItems_append_comma, List.map_cons, hitem.parse?, ih]
      rfl

theorem WritesList.map_parse? {ps : List Parameter} {list : Text} (h : WritesList ps list) :
    (listItems list).map Parameter.parse? = ps.map some := by
  cases h with
  | plain hlist => exact hlist.map_parse?
  | trailing hlist hblanks => rw [hlist.listItems_append_comma hblanks, hlist.map_parse?]

theorem readParameters?_eq_some_of_map {list : Text} {ps : List Parameter}
    (h : (listItems list).map Parameter.parse? = ps.map some) : readParameters? list = some ps := by
  have hread : readParameters? list = ((listItems list).map Parameter.parse?).mapM id := by
    rw [readParameters?, List.mapM_map]
    rfl
  have hsome := List.mapM_pure (m := Option) (l := ps) (f := id)
  rw [hread, h, List.mapM_map]
  simpa using hsome

/-- However a list of parameters is written between brackets, the bracket that closes it is found,
and its items are read as those parameters. -/
theorem WritesList.read_back {ps : List Parameter} {list : Text} (h : WritesList ps list)
    (pre post : Text) :
    enclosed? ((pre ++ '(' :: (list ++ ')' :: post)).drop (pre.length + 1)) = some (list, post) ∧
      (listItems list).map Parameter.parse? = ps.map some ∧ readParameters? list = some ps := by
  have hdrop : (pre ++ '(' :: (list ++ ')' :: post)).drop (pre.length + 1) =
      list ++ ')' :: post := by
    simp [List.drop_append]
  refine ⟨?_, h.map_parse?, readParameters?_eq_some_of_map h.map_parse?⟩
  rw [hdrop]
  exact enclosed?_append h.balanced (by decide) post

/-- A promoted property with a default value and a variadic reference. -/
def promotedParameters : List Parameter :=
  [⟨"id".toList, some "?int".toList, false, false⟩, ⟨"rest".toList, none, true, true⟩]

/-- The parameters as they stand in a source, with a comma behind the last. -/
def promotedList : Text :=
  "#[Id(1)] private readonly ?int $id = f(')', 2), &...$rest,\n".toList

theorem writesList_promotedList : WritesList promotedParameters promotedList := by
  have hspace : ∀ c ∈ " ".toList, isBlank c = true := List.all_eq_true.1 (by decide)
  have hattributes : WritesAttributes "#[Id(1)] ".toList := by
    have hname : Balanced true "Id".toList := .of_isIdentifierChar (List.all_eq_true.1 (by decide))
    have hone : Balanced true "1".toList := .of_isIdentifierChar (List.all_eq_true.1 (by decide))
    have hcall : Balanced true "(1)".toList := .brackets (by decide) (by decide) hone .nil
    exact .cons (hname.append hcall) hspace .nil
  have hmodifiers : WritesModifiers ["private".toList, "readonly".toList]
      "private readonly ".toList :=
    .cons (by decide) (by decide) hspace (.cons (by decide) (by decide) hspace .nil)
  have htype : WritesType (some "?int".toList) "?int ".toList := by
    have hname : Balanced false "int".toList :=
      .of_isIdentifierChar (List.all_eq_true.1 (by decide))
    have hblank : "?int".toList.all (fun c => !isBlank c) = true := by decide
    have hint : IsParameterType "?int".toList :=
      ⟨by decide, fun c hc => by simpa using List.all_eq_true.1 hblank c hc, by decide,
        .char (by decide) (by decide) (by decide) (by decide) hname, by decide, by decide⟩
    exact .some hint (by decide) hspace
  have hvalue : WritesDefault " = f(')', 2)".toList := by
    have hstring : ClosesString '\'' ")'".toList := .char (by decide) (by decide) .close
    have htwo : Balanced true " 2".toList :=
      .of_forall (by simp [quotationMarks, leftBrackets, rightBrackets])
    have hinner : Balanced true "')', 2".toList :=
      .string (by decide) hstring (.char (by decide) (by decide) (by decide) (fun _ => rfl) htwo)
    have hcall : Balanced false "(')', 2)".toList := .brackets (by decide) (by decide) hinner .nil
    have hname : Balanced false " f".toList :=
      .of_forall (by simp [quotationMarks, leftBrackets, rightBrackets])
    exact .some hspace (hname.append hcall)
  have hid : Text.isIdentifier "id".toList = true := by decide
  have hfirst := @WritesParameter.intro ⟨"id".toList, _, false, false⟩ _ [] _ _ _ _ [] (by simp)
    hattributes hmodifiers htype hid hvalue (by simp)
  have hrest : Text.isIdentifier "rest".toList = true := by decide
  have hsecond := @WritesParameter.intro ⟨"rest".toList, _, true, true⟩ _ _ _ _ _ _ [] hspace .nil
    .nil .none hrest .none (by simp)
  have hlist := @WritesList.trailing _ _ ['\n'] (.cons hfirst (.single hsecond)) (by simp [isBlank])
  convert hlist using 1 <;> decide +kernel

theorem promotedList_read_back :
    enclosed? (("f".toList ++ '(' :: (promotedList ++ ')' :: " ;".toList)).drop 2) =
        some (promotedList, " ;".toList) ∧
      (listItems promotedList).map Parameter.parse? = promotedParameters.map some ∧
      readParameters? promotedList = some promotedParameters :=
  writesList_promotedList.read_back "f".toList " ;".toList

end PhpDoc
