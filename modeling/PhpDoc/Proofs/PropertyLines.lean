import Mathlib
import PhpDoc.Proofs.Reconciliation

/-!
# Typed property lines

A property line is typed when one word without a variable in it stands between the keyword and the
variable.  Such a line is read as its word and its name, the variable is the token it is aligned at,
and aligning it gives a typed line of the same type and name.  So a merge of properties that was
written once is written the same way again.
-/

namespace PhpDoc

/-! ## How a property line is read -/

theorem variableName?_sigil {name rest : Text} (hname : Text.isIdentifier name = true)
    (hrest : ∀ c ∈ rest.head?, isIdentifierChar c = false) :
    variableName? ('$' :: (name ++ rest)) = some name := by
  have hamp : Text.after? ['&'] ('$' :: (name ++ rest)) = none := rfl
  have hsigil : Text.after? ['$'] ('$' :: (name ++ rest)) = some (name ++ rest) := rfl
  rw [variableName?, hamp, Option.getD_none, hsigil]
  simp [identifier?_eq_some_iff.2 ⟨rfl, hname, hrest⟩]

theorem declaredName?_cons_of_not_blank {c : Char} (hc : isBlank c = false) (text : Text) :
    declaredName? (c :: text) = none := by
  rw [declaredName?, Text.afterBlanks?, if_neg (by simp [hc])]
  rfl

theorem declaredName?_blanks_append {blanks rest : Text} (hne : blanks ≠ [])
    (hblanks : ∀ c ∈ blanks, isBlank c = true) (hrest : ∀ c ∈ rest.head?, isBlank c = false) :
    declaredName? (blanks ++ rest) = variableName? rest := by
  rw [declaredName?, afterBlanks?_eq_some_iff.2 ⟨blanks, hne, hblanks, rfl, hrest⟩,
    Option.bind_some]

-- comparing the two sides would otherwise evaluate `isBlank` on an unknown character
attribute [local irreducible] isBlank in
theorem typeAndName?_cons (c : Char) (text : Text) : typeAndName? (c :: text) =
    if c = '\n' then none
    else
      match if isBlank c then none else declaredName? text with
      | some name => some ([c], name)
      | none => (typeAndName? text).map fun (type, name) => (c :: type, name) :=
  rfl

theorem ne_newline_of_not_blank {c : Char} (hc : isBlank c = false) : c ≠ '\n' := by
  rintro rfl
  exact absurd hc (by decide)

/-- The type is read up to the blanks before the variable. -/
theorem typeAndName?_append {type rest name : Text} (hne : type ≠ [])
    (hblank : ∀ c ∈ type, isBlank c = false) (hname : declaredName? rest = some name) :
    typeAndName? (type ++ rest) = some (type, name) := by
  induction type with
  | nil => exact absurd rfl hne
  | cons c type ih =>
      have hc : isBlank c = false := hblank c List.mem_cons_self
      rw [List.cons_append, typeAndName?_cons, if_neg (ne_newline_of_not_blank hc), hc]
      cases type with
      | nil => simp [hname]
      | cons d type =>
          have hd : isBlank d = false := hblank d (by simp)
          have hnone : declaredName? (d :: type ++ rest) = none :=
            declaredName?_cons_of_not_blank hd (type ++ rest)
          simp only [Bool.false_eq_true, if_false, hnone]
          rw [ih (List.cons_ne_nil _ _) fun e he => hblank e (List.mem_cons_of_mem _ he)]
          rfl

theorem describe?_append_of_not_mem {front : Text} (h : '@' ∉ front) (text : Text) :
    describe? (front ++ text) = describe? text := by
  induction front with
  | nil => rfl
  | cons c front ih =>
      rw [List.mem_cons, not_or] at h
      have hnone : Text.after? "@property".toList (c :: (front ++ text)) = none := by
        rw [Text.after?_eq_none_iff]
        rintro ⟨rest, hrest⟩
        exact h.1 (List.cons.inj hrest).1
      rw [List.cons_append, describe?, hnone, ih h.2]
      rfl

/-- Behind the keyword come blanks, and then the type and the name, or only a name whose type is one
of the blanks. -/
theorem afterKeyword?_blanks_append {blanks rest : Text} (hne : blanks ≠ [])
    (hblanks : ∀ c ∈ blanks, isBlank c = true) (hrest : ∀ c ∈ rest.head?, isBlank c = false) :
    afterKeyword? (blanks ++ rest) = (typeAndName? rest).or
      ((blankType? blanks).bind fun type => (variableName? rest).map fun name => ([type], name)) := by
  have hempty : blanks.isEmpty = false := by simp [hne]
  simp only [afterKeyword?, Text.takeWhile_append_stop hblanks hrest,
    Text.dropWhile_append_stop hblanks hrest, hempty, Bool.false_eq_true, if_false]
  cases blankType? blanks <;> cases variableName? rest <;> rfl

/-- A property line is read behind its keyword, or at a later place that looks like one. -/
theorem TagParts.describe?_eq_or {line : Text} (parts : TagParts "@property".toList line) :
    describe? line = (afterKeyword? parts.body).or (describe? parts.body) := by
  have hfront : '@' ∉ parts.indent ++ '*' :: parts.gap := by
    intro hmem
    rcases List.mem_append.1 hmem with hmem | hmem
    · exact absurd (parts.indent_blank _ hmem) (by decide)
    · rcases List.mem_cons.1 hmem with heq | hmem
      · exact absurd heq (by decide)
      · exact absurd (parts.gap_blank _ hmem) (by decide)
  have hline : line = (parts.indent ++ '*' :: parts.gap) ++ ("@property".toList ++ parts.body) := by
    conv_lhs => rw [parts.line_eq]
    simp
  have hcons : "@property".toList ++ parts.body = '@' :: ("property".toList ++ parts.body) := rfl
  have hrest : '@' ∉ "property".toList := by decide
  conv_lhs => rw [hline]
  rw [describe?_append_of_not_mem hfront, hcons, describe?, ← hcons, Text.after?_append,
    Option.bind_some, describe?_append_of_not_mem hrest]

/-! ## The parts of a typed line -/

/-- One word that is no variable and does not open a brace. -/
structure IsTypeWord (type : Text) : Prop where
  ne_nil : type ≠ []
  not_blank : ∀ c ∈ type, isBlank c = false
  no_sigil : '$' ∉ type
  no_brace : type.head? ≠ some '{'

theorem isTypeWord_iff {type : Text} :
    IsTypeWord type ↔
      type ≠ [] ∧ type.all (!isBlank ·) = true ∧ '$' ∉ type ∧ type.head? ≠ some '{' := by
  rw [List.all_eq_true]
  simp only [Bool.not_eq_true']
  exact ⟨fun h => ⟨h.ne_nil, h.not_blank, h.no_sigil, h.no_brace⟩,
    fun ⟨hne, hblank, hsigil, hbrace⟩ => ⟨hne, hblank, hsigil, hbrace⟩⟩

instance : DecidablePred IsTypeWord := fun _ => decidable_of_iff' _ isTypeWord_iff

theorem IsTypeWord.startsToken_eq {type : Text} (h : IsTypeWord type) :
    startsToken type = false := by
  have hrest : ∀ head text : Text, '$' ∉ text → '$' ∉ (Text.after? head text).getD text := by
    intro head text htext
    cases hafter : Text.after? head text with
    | none => exact htext
    | some rest =>
        rw [(Text.after?_eq_some_iff head text rest).1 hafter, List.mem_append, not_or] at htext
        exact htext.2
  have hvariable : startsVariable type = false := by
    have htail := hrest "...".toList _ (hrest ['&'] type h.no_sigil)
    rw [startsVariable]
    split
    · next heq => exact absurd (heq ▸ List.mem_cons_self) htail
    · rfl
  have hbraced : startsBraced type = false := by
    cases type with
    | nil => rfl
    | cons c type =>
        have hc : c ≠ '{' := fun heq => h.no_brace (by rw [heq]; rfl)
        simp [startsBraced, hc]
  rw [startsToken, hvariable, hbraced]
  rfl

theorem splitTokenFrom?_append_typeWord {lead type rest : Text} {b : Char}
    (hlead : ∀ c ∈ lead, isBlank c = true) (htype : IsTypeWord type) (hb : isBlank b = true) :
    splitTokenFrom? false (lead ++ (type ++ b :: rest)) =
      (splitTokenFrom? false (b :: rest)).map
        fun (front, token) => (lead ++ (type ++ front), token) := by
  have htoken : startsToken (type ++ b :: rest) = false := by
    rw [startsToken_append_blank hb, htype.startsToken_eq]
  cases type with
  | nil => exact absurd rfl htype.ne_nil
  | cons d word =>
      have hd : isBlank d = false := htype.not_blank d List.mem_cons_self
      have hword : ∀ c ∈ word, isBlank c = false := fun c hc =>
        htype.not_blank c (List.mem_cons_of_mem _ hc)
      rw [List.cons_append] at htoken
      rw [List.cons_append, splitTokenFrom?_append_cons hlead hd htoken,
        splitTokenFrom?_append_of_not_blank hword]
      cases splitTokenFrom? false (b :: rest) <;> rfl

theorem startsToken_sigil {c : Char} (hc : isIdentifierChar c = true) (rest : Text) :
    startsToken ('$' :: c :: rest) = true := by
  simp [startsToken, startsVariable, Text.after?, hc]

/-- The parts of a property line that gives a type and a name. -/
structure TypedParts (type name line : Text) extends TagParts "@property".toList line where
  /-- What stands between the keyword and the type. -/
  lead : Text
  /-- What stands between the type and the variable. -/
  spacing : Text
  /-- What follows the name. -/
  note : Text
  lead_ne_nil : lead ≠ []
  lead_blank : ∀ c ∈ lead, isBlank c = true
  spacing_ne_nil : spacing ≠ []
  spacing_blank : ∀ c ∈ spacing, isBlank c = true
  isTypeWord : IsTypeWord type
  isIdentifier : Text.isIdentifier name = true
  note_ends : ∀ c ∈ note.head?, isIdentifierChar c = false
  body_eq : body = lead ++ (type ++ (spacing ++ '$' :: (name ++ note)))

namespace TypedParts

variable {type name line : Text}

/-- Other blanks between the type and the variable. -/
def withSpacing (parts : TypedParts type name line) (spacing : Text) (hne : spacing ≠ [])
    (hblank : ∀ c ∈ spacing, isBlank c = true) :
    TypedParts type name
      (parts.front ++ (parts.lead ++ (type ++ (spacing ++ '$' :: (name ++ parts.note))))) where
  toTagParts := parts.withBody _ (by
    obtain ⟨b, lead, hlead⟩ := List.exists_cons_of_ne_nil parts.lead_ne_nil
    simp [hlead, parts.lead_blank b (hlead ▸ List.mem_cons_self)])
  lead := parts.lead
  spacing := spacing
  note := parts.note
  lead_ne_nil := parts.lead_ne_nil
  lead_blank := parts.lead_blank
  spacing_ne_nil := hne
  spacing_blank := hblank
  isTypeWord := parts.isTypeWord
  isIdentifier := parts.isIdentifier
  note_ends := parts.note_ends
  body_eq := rfl

theorem declaredName?_eq (parts : TypedParts type name line) :
    declaredName? (parts.spacing ++ '$' :: (name ++ parts.note)) = some name := by
  have hsigil : ∀ c ∈ ('$' :: (name ++ parts.note)).head?, isBlank c = false := by
    rintro c ⟨⟩
    rfl
  rw [declaredName?_blanks_append parts.spacing_ne_nil parts.spacing_blank hsigil,
    variableName?_sigil parts.isIdentifier parts.note_ends]

/-- A typed line is read as its type and its name. -/
theorem describe?_eq (parts : TypedParts type name line) : describe? line = some (type, name) := by
  have hstop : ∀ c ∈ (type ++ (parts.spacing ++ '$' :: (name ++ parts.note))).head?,
      isBlank c = false := by
    intro c hc
    rw [List.head?_append_of_ne_nil _ parts.isTypeWord.ne_nil] at hc
    exact parts.isTypeWord.not_blank c (List.mem_of_mem_head? hc)
  rw [parts.toTagParts.describe?_eq_or, parts.body_eq,
    afterKeyword?_blanks_append parts.lead_ne_nil parts.lead_blank hstop,
    typeAndName?_append parts.isTypeWord.ne_nil parts.isTypeWord.not_blank parts.declaredName?_eq]
  rfl

/-- A typed line is aligned at its variable. -/
theorem splitToken?_eq (parts : TypedParts type name line) :
    splitToken? line =
      some (parts.front ++ (parts.lead ++ type), '$' :: (name ++ parts.note)) := by
  obtain ⟨b, blanks, hspacing⟩ := List.exists_cons_of_ne_nil parts.spacing_ne_nil
  have hb : isBlank b = true := parts.spacing_blank b (hspacing ▸ List.mem_cons_self)
  have hblanks : ∀ c ∈ blanks, isBlank c = true := fun c hc =>
    parts.spacing_blank c (hspacing ▸ List.mem_cons_of_mem _ hc)
  have hvariable : startsToken ('$' :: (name ++ parts.note)) = true := by
    obtain ⟨c, word, hname⟩ : ∃ c word, name = c :: word :=
      List.exists_cons_of_ne_nil (by rintro rfl; exact absurd parts.isIdentifier (by decide))
    have hc := isIdentifierChar_of_mem parts.isIdentifier c (by simp [hname])
    have hstart : name ++ parts.note = c :: (word ++ parts.note) :=
      congrArg (· ++ parts.note) hname
    rw [hstart, startsToken_sigil hc]
  have hgap : splitTokenFrom? false (parts.spacing ++ '$' :: (name ++ parts.note)) =
      some ([], '$' :: (name ++ parts.note)) := by
    have htrim : Text.trimStart (blanks ++ '$' :: (name ++ parts.note)) =
        '$' :: (name ++ parts.note) := by
      rw [Text.trimStart_append_of_blank hblanks, Text.trimStart_cons_of_not_blank (by rfl)]
    rw [hspacing, List.cons_append, splitTokenFrom?, htrim, if_pos (by simp [hb, hvariable])]
  have hword : splitTokenFrom? false parts.body =
      some (parts.lead ++ type, '$' :: (name ++ parts.note)) := by
    rw [hspacing, List.cons_append] at hgap
    rw [parts.body_eq, hspacing, List.cons_append,
      splitTokenFrom?_append_typeWord parts.lead_blank parts.isTypeWord hb, hgap, Option.map_some]
    simp only [List.append_nil]
  rw [parts.toTagParts.splitToken?_eq, hword]
  rfl

/-- Aligning a typed line gives a typed line of the same type and name. -/
theorem exists_alignLine (parts : TypedParts type name line) (width : Nat) :
    Nonempty (TypedParts type name (alignLine width line)) := by
  have hspaced := parts.withSpacing
    (List.replicate (width - (parts.front ++ (parts.lead ++ type)).length + 1) ' ')
    List.replicate_succ_ne_nil fun c hc => by rw [List.eq_of_mem_replicate hc]; rfl
  have hline : alignLine width line = parts.front ++ (parts.lead ++ (type ++
      (List.replicate (width - (parts.front ++ (parts.lead ++ type)).length + 1) ' ' ++
        '$' :: (name ++ parts.note)))) := by
    rw [alignLine_of_splitToken? width parts.splitToken?_eq]
    simp only [List.append_assoc]
  rw [hline]
  exact ⟨hspaced⟩

end TypedParts

/-- A property line that gives the type and the name; anything may follow them. -/
def IsTypedLine (type name line : Text) : Prop :=
  Nonempty (TypedParts type name line)

theorem IsTypedLine.describe?_eq {type name line : Text} (h : IsTypedLine type name line) :
    describe? line = some (type, name) := by
  obtain ⟨parts⟩ := h
  exact parts.describe?_eq

theorem IsTypedLine.alignLine {type name line : Text} (h : IsTypedLine type name line)
    (width : Nat) : IsTypedLine type name (alignLine width line) := by
  obtain ⟨parts⟩ := h
  exact parts.exists_alignLine width

theorem isTypedLine_tagLine {type name note : Text} (htype : IsTypeWord type)
    (hname : Text.isIdentifier name = true) (hnote : ∀ c ∈ note.head?, isIdentifierChar c = false) :
    IsTypedLine type name (tagLine "@property".toList (type ++ ' ' :: '$' :: (name ++ note))) :=
  ⟨{
    toTagParts := tagLineParts isKeyword_property _
    lead := [' ']
    spacing := [' ']
    note := note
    lead_ne_nil := List.cons_ne_nil _ _
    lead_blank := by simp [isBlank]
    spacing_ne_nil := List.cons_ne_nil _ _
    spacing_blank := by simp [isBlank]
    isTypeWord := htype
    isIdentifier := hname
    note_ends := hnote
    body_eq := by simp [tagLineParts] }⟩

/-! ## Typed facts -/

/-- A fact whose own line is typed. -/
structure PropertyFact.IsTyped (fact : PropertyFact) : Prop where
  sourceLine_eq : fact.sourceLine = none
  type : IsTypeWord fact.type
  name : Text.isIdentifier fact.name = true

theorem PropertyFact.IsTyped.isTypedLine_render {fact : PropertyFact} (h : fact.IsTyped) :
    IsTypedLine fact.type fact.name fact.render := by
  have hline := @isTypedLine_tagLine _ _ [] h.type h.name (by simp)
  rw [List.append_nil] at hline
  rwa [PropertyFact.render, h.sourceLine_eq, Option.getD_none]

/-! ## Merging again -/

theorem eraseDups_eq_self {lines : List Text} (h : lines.Nodup) : lines.eraseDups = lines := by
  induction lines with
  | nil => rfl
  | cons line lines ih =>
      obtain ⟨hline, hlines⟩ := List.nodup_cons.1 h
      have hkeep : lines.filter (fun l => !l == line) = lines := by
        refine List.filter_eq_self.2 fun l hl => ?_
        simpa using fun heq : l = line => hline (heq ▸ hl)
      rw [List.eraseDups_cons, hkeep, ih hlines]

theorem nodup_names_freshFacts (seen : List Text) (facts : List PropertyFact) :
    ((freshFacts seen facts).map PropertyFact.name).Nodup ∧
      ∀ fact ∈ freshFacts seen facts, fact.name ∉ seen := by
  induction facts generalizing seen with
  | nil => simp [freshFacts]
  | cons fact facts ih =>
      rw [freshFacts]
      split
      · exact ih seen
      · next hnew =>
          obtain ⟨hnodup, hseen⟩ := ih (fact.name :: seen)
          refine ⟨?_, ?_⟩
          · rw [List.map_cons, List.nodup_cons]
            refine ⟨fun hmem => ?_, hnodup⟩
            obtain ⟨other, hother, hname⟩ := List.mem_map.1 hmem
            exact hseen other hother (hname ▸ List.mem_cons_self)
          · intro other hother
            rcases List.mem_cons.1 hother with rfl | hother
            · exact mt List.contains_iff_mem.2 hnew
            · exact fun hmem => hseen other hother (List.mem_cons_of_mem _ hmem)

/-- The name that a line is read to be about. -/
def describedName? (line : Text) : Option Text :=
  (describe? line).map Prod.snd

/-- Typed lines about different names. -/
structure AreTyped (lines : List Text) : Prop where
  typed : ∀ line ∈ lines, ∃ type name, IsTypedLine type name line
  distinct : (lines.map describedName?).Nodup

section Merging

variable {existing : List Text} {facts : List PropertyFact}

theorem describe?_factLine {fact : PropertyFact} (hfact : fact.IsTyped) :
    describe? (factLine existing fact) = some (fact.type, fact.name) := by
  cases h : existing.find? fun line => describe? line == some (fact.type, fact.name) with
  | none => rw [factLine, h, Option.getD_none, hfact.isTypedLine_render.describe?_eq]
  | some line =>
      rw [factLine, h, Option.getD_some]
      simpa using List.find?_some h

theorem keptLines_eq (hexisting : AreTyped existing) :
    keptLines existing facts = existing.filter fun line =>
      isUndiscovered facts line && !(factLines existing facts).contains line :=
  eraseDups_eq_self (hexisting.distinct.of_map.filter _)

/-- A line about a discovered name does not stay as an undiscovered one. -/
theorem isUndiscovered_eq_false {fact : PropertyFact} (hfact : fact ∈ facts) {line type : Text}
    (h : describe? line = some (type, fact.name)) : isUndiscovered facts line = false := by
  have hmem : (facts.map PropertyFact.name).contains fact.name = true :=
    List.contains_iff_mem.2 (List.mem_map_of_mem hfact)
  rw [isUndiscovered, h, Option.all_some, hmem, Bool.not_true]

/-- A merge of typed lines and typed facts writes typed lines about different names. -/
theorem AreTyped.merged (hexisting : AreTyped existing) (hfacts : ∀ fact ∈ facts, fact.IsTyped) :
    AreTyped (factLines existing facts ++ keptLines existing facts) where
  typed := by
    intro line hline
    rcases List.mem_append.1 hline with hline | hline
    · obtain ⟨fact, hfact, rfl⟩ := List.mem_map.1 hline
      rcases factLine_cases existing fact with hold | hnew
      · exact hexisting.typed _ hold
      · rw [hnew]
        exact ⟨_, _, (hfacts fact (mem_of_mem_freshFacts hfact)).isTypedLine_render⟩
    · exact hexisting.typed line (List.mem_filter.1 (List.mem_eraseDups.1 hline)).1
  distinct := by
    have hnames : (factLines existing facts).map describedName? =
        ((freshFacts [] facts).map PropertyFact.name).map some := by
      rw [factLines, List.map_map, List.map_map]
      refine List.map_congr_left fun fact hfact => ?_
      rw [Function.comp_apply, describedName?,
        describe?_factLine (hfacts fact (mem_of_mem_freshFacts hfact))]
      rfl
    rw [List.map_append, List.nodup_append]
    refine ⟨?_, ?_, ?_⟩
    · rw [hnames]
      exact (nodup_names_freshFacts [] facts).1.map (Option.some_injective _)
    · rw [keptLines_eq hexisting]
      exact hexisting.distinct.sublist (List.filter_sublist.map _)
    · rintro _ hfact _ hkept rfl
      rw [hnames, List.map_map] at hfact
      obtain ⟨fact, hmem, hname⟩ := List.mem_map.1 hfact
      obtain ⟨line, hline, heq⟩ := List.mem_map.1 hkept
      obtain ⟨type, hdescribe⟩ : ∃ type, describe? line = some (type, fact.name) := by
        rw [← hname, describedName?, Function.comp_apply, Option.map_eq_some_iff] at heq
        obtain ⟨⟨type, name⟩, hdescribe, rfl⟩ := heq
        exact ⟨type, hdescribe⟩
      have hfalse := isUndiscovered_eq_false (mem_of_mem_freshFacts hmem) hdescribe
      rw [(mem_keptLines.1 hline).2.1] at hfalse
      contradiction

theorem AreTyped.describe?_alignLine {lines : List Text} (h : AreTyped lines) {line : Text}
    (hline : line ∈ lines) (width : Nat) : describe? (alignLine width line) = describe? line := by
  obtain ⟨type, name, htyped⟩ := h.typed line hline
  rw [(htyped.alignLine width).describe?_eq, htyped.describe?_eq]

theorem AreTyped.map_alignLine {lines : List Text} (h : AreTyped lines) (width : Nat) :
    AreTyped (lines.map (alignLine width)) where
  typed := by
    intro line hline
    obtain ⟨l, hl, rfl⟩ := List.mem_map.1 hline
    obtain ⟨type, name, htyped⟩ := h.typed l hl
    exact ⟨type, name, htyped.alignLine width⟩
  distinct := by
    have hnames : (lines.map (alignLine width)).map describedName? = lines.map describedName? := by
      rw [List.map_map]
      refine List.map_congr_left fun line hline => ?_
      rw [Function.comp_apply, describedName?, h.describe?_alignLine hline, describedName?]
    rw [hnames]
    exact h.distinct

/-- Among lines about different names, the line of a fact is the only one that describes it. -/
theorem AreTyped.factLine_eq {lines : List Text} (h : AreTyped lines) {fact : PropertyFact}
    {line : Text} (hline : line ∈ lines) (hdescribe : describe? line = some (fact.type, fact.name)) :
    factLine lines fact = line := by
  cases hfind : lines.find? fun l => describe? l == some (fact.type, fact.name) with
  | none =>
      have hnone := List.find?_eq_none.1 hfind line hline
      simp [hdescribe] at hnone
  | some found =>
      have hfound : describe? found = some (fact.type, fact.name) := by
        simpa using List.find?_some hfind
      rw [factLine, hfind, Option.getD_some]
      refine List.inj_on_of_nodup_map h.distinct (List.mem_of_find?_eq_some hfind) hline ?_
      rw [describedName?, describedName?, hfound, hdescribe]

/-- The lines of the facts are found again among the aligned lines of a merge. -/
theorem factLines_map_alignLine (hexisting : AreTyped existing)
    (hfacts : ∀ fact ∈ facts, fact.IsTyped) (width : Nat) :
    factLines ((factLines existing facts ++ keptLines existing facts).map (alignLine width)) facts =
      (factLines existing facts).map (alignLine width) := by
  have hmerged := hexisting.merged hfacts
  have haligned := hmerged.map_alignLine width
  rw [factLines, factLines, List.map_map]
  refine List.map_congr_left fun fact hfact => ?_
  have hwritten : factLine existing fact ∈
      factLines existing facts ++ keptLines existing facts :=
    List.mem_append_left _ (List.mem_map_of_mem hfact)
  refine haligned.factLine_eq (List.mem_map_of_mem hwritten) ?_
  rw [Function.comp_apply, hmerged.describe?_alignLine hwritten,
    describe?_factLine (hfacts fact (mem_of_mem_freshFacts hfact))]

/-- The other lines are kept again among the aligned lines of a merge. -/
theorem keptLines_map_alignLine (hexisting : AreTyped existing)
    (hfacts : ∀ fact ∈ facts, fact.IsTyped) (width : Nat) :
    keptLines ((factLines existing facts ++ keptLines existing facts).map (alignLine width)) facts =
      (keptLines existing facts).map (alignLine width) := by
  have hmerged := hexisting.merged hfacts
  have haligned := hmerged.map_alignLine width
  rw [keptLines_eq haligned, factLines_map_alignLine hexisting hfacts, List.map_append,
    List.filter_append]
  have hdropped : ((factLines existing facts).map (alignLine width)).filter (fun line =>
      isUndiscovered facts line &&
        !((factLines existing facts).map (alignLine width)).contains line) = [] := by
    refine List.filter_eq_nil_iff.2 fun line hline => ?_
    rw [List.contains_iff_mem.2 hline, Bool.not_true, Bool.and_false]
    exact Bool.false_ne_true
  have hkept : ((keptLines existing facts).map (alignLine width)).filter (fun line =>
      isUndiscovered facts line &&
        !((factLines existing facts).map (alignLine width)).contains line) =
      (keptLines existing facts).map (alignLine width) := by
    refine List.filter_eq_self.2 fun line hline => ?_
    obtain ⟨l, hl, rfl⟩ := List.mem_map.1 hline
    have hnot : alignLine width l ∉ (factLines existing facts).map (alignLine width) := by
      intro hmem
      have hnodup := haligned.distinct.of_map
      rw [List.map_append] at hnodup
      exact (List.disjoint_of_nodup_append hnodup) hmem hline
    have hundiscovered : isUndiscovered facts (alignLine width l) = true := by
      rw [isUndiscovered, hmerged.describe?_alignLine (List.mem_append_right _ hl)]
      exact (mem_keptLines.1 hl).2.1
    rw [hundiscovered, Bool.true_and, Bool.not_eq_true', ← Bool.not_eq_true,
      List.contains_iff_mem]
    exact hnot
  rw [hdropped, hkept, List.nil_append]

/-- Merging the same facts into what a merge has written changes nothing. -/
theorem reconcile_reconcile (hexisting : AreTyped existing)
    (hfacts : ∀ fact ∈ facts, fact.IsTyped) :
    reconcile (reconcile existing (.discovered facts)) (.discovered facts) =
      reconcile existing (.discovered facts) := by
  simp only [reconcile, PropertyMerge.finish_foldl_addFact]
  have hagain : factLines (align (factLines existing facts ++ keptLines existing facts) none)
      facts ++ keptLines (align (factLines existing facts ++ keptLines existing facts) none)
        facts = align (factLines existing facts ++ keptLines existing facts) none := by
    rw [align, factLines_map_alignLine hexisting hfacts, keptLines_map_alignLine hexisting hfacts,
      List.map_append]
  rw [hagain, align_align]

end Merging

end PhpDoc
