import Mathlib
import PhpDoc.Settings
import PhpDoc.Proofs.Groups
import PhpDoc.Proofs.JsonText

/-!
# Settings and their texts

The text of settings is read as those settings.  A text that gives only some of the fields, in any
order and among members of other names, is read as the default settings with these fields replaced.
It does not matter how the JSON object is spelled.
-/

namespace PhpDoc

/-! ## Keyed lists -/

namespace Keyed

variable {κ α : Type} [DecidableEq κ]

theorem alterEntries_of_not_mem {key : κ} {entries : List (κ × α)}
    (h : key ∉ entries.map Prod.fst) (change : Option α → α) :
    alterEntries key change entries = entries ++ [(key, change none)] := by
  induction entries with
  | nil => rfl
  | cons e entries ih =>
      obtain ⟨k, a⟩ := e
      simp only [List.map_cons, List.mem_cons, not_or] at h
      rw [alterEntries, if_neg (Ne.symm h.1), ih h.2, List.cons_append]

/-- Setting new keys one after the other lists them. -/
theorem entries_foldl_set (pairs : List (κ × α)) (m : Keyed κ α)
    (h : ((m.entries ++ pairs).map Prod.fst).Nodup) :
    (pairs.foldl (fun m (k, a) => m.set k a) m).entries = m.entries ++ pairs := by
  induction pairs generalizing m with
  | nil => simp
  | cons pair pairs ih =>
      obtain ⟨key, a⟩ := pair
      have hfresh : key ∉ m.entries.map Prod.fst := by
        rw [List.map_append, List.nodup_append] at h
        exact fun hmem => h.2.2 key hmem key (by simp) rfl
      have hset : (m.set key a).entries = m.entries ++ [(key, a)] :=
        alterEntries_of_not_mem hfresh _
      rw [List.foldl_cons, ih, hset, List.append_assoc, List.singleton_append]
      rwa [hset, List.append_assoc, List.singleton_append]

theorem ofList_entries (m : Keyed κ α) : ofList m.entries = m := by
  have hentries : (ofList m.entries).entries = m.entries :=
    (entries_foldl_set m.entries ∅ m.nodup).trans (List.nil_append _)
  have hext : ∀ a b : Keyed κ α, a.entries = b.entries → a = b := by
    rintro ⟨_, _⟩ ⟨_, _⟩ rfl
    rfl
  exact hext _ _ hentries

end Keyed

/-! ## Values that give a field -/

/-- The value is a string that denotes the text. -/
def Json.Value.Denotes (value : Json.Value) (text : Text) : Prop :=
  ∃ literal, value = .string literal ∧ Json.Literal.text? literal = some text

theorem Json.Value.Denotes.text?_eq {value : Json.Value} {text : Text} (h : value.Denotes text) :
    value.text? = some text := by
  obtain ⟨literal, rfl, hliteral⟩ := h
  exact hliteral

theorem Json.Literal.text?_ofText (text : Text) : (Json.Literal.ofText text).text? = some text := by
  induction text with
  | nil => rfl
  | cons c text ih =>
      rw [ofText, List.map_cons, text?, ← ofText, ih, Option.map_some]

theorem mapM_of_forall₂ {α β : Type} {decode : α → Option β} {l : List α} {r : List β}
    (h : List.Forall₂ (fun a b => decode a = some b) l r) : l.mapM decode = some r := by
  induction h with
  | nil => rfl
  | cons hab _ ih => simp [List.mapM_cons, hab, ih]

namespace Settings

/-- The fields of settings. -/
inductive Field where
  | modelsRoot
  | classesRoot
  | defaultConnection
  | connections
  | placeholder
  | mixins
deriving DecidableEq

/-- All fields in their order. -/
def Field.all : List Field :=
  [modelsRoot, classesRoot, defaultConnection, connections, placeholder, mixins]

/-- The name under which a field is written. -/
def Field.name : Field → Text
  | modelsRoot => "models_root".toList
  | classesRoot => "classes_root".toList
  | defaultConnection => "default_connection".toList
  | connections => "connections".toList
  | placeholder => "placeholder".toList
  | mixins => "mixins".toList

theorem map_name_all : Field.all.map Field.name = fieldNames := rfl

theorem Field.mem_all (f : Field) : f ∈ all := by
  cases f <;> decide

theorem Field.nodup_all : all.Nodup := by decide

theorem Field.name_injective : Function.Injective name := by
  have hnames : (all.map name).Nodup := by decide
  intro f g h
  exact List.inj_on_of_nodup_map hnames f.mem_all g.mem_all h

/-- The JSON value gives the field the value that it has in the settings. -/
def Gives (s : Settings) : Field → Json.Value → Prop
  | .modelsRoot, value => value.Denotes s.modelsRoot.text
  | .classesRoot, value => value.Denotes s.classesRoot.text
  | .defaultConnection, value => value.Denotes s.defaultConnection
  | .connections, value => ∃ members, value = .object members ∧
      List.Forall₂ (fun member entry => Json.Literal.text? member.1 = some entry.1 ∧
        member.2.Denotes entry.2.text) members s.connections.entries
  | .placeholder, value => value.Denotes s.placeholder
  | .mixins, value => ∃ items, value = .array items ∧
      List.Forall₂ Json.Value.Denotes items s.mixins

/-- The settings with some fields replaced by those of other settings. -/
def withFields (s given : Settings) (fields : List Field) : Settings where
  modelsRoot := if .modelsRoot ∈ fields then given.modelsRoot else s.modelsRoot
  classesRoot := if .classesRoot ∈ fields then given.classesRoot else s.classesRoot
  defaultConnection :=
    if .defaultConnection ∈ fields then given.defaultConnection else s.defaultConnection
  connections := if .connections ∈ fields then given.connections else s.connections
  placeholder := if .placeholder ∈ fields then given.placeholder else s.placeholder
  mixins := if .mixins ∈ fields then given.mixins else s.mixins

/-- The members give the fields one after the other, with members of other names among them. -/
inductive GivesFields (s : Settings) : List Field → List (Json.Literal × Json.Value) → Prop
  | nil : GivesFields s [] []
  | field {f : Field} {fields : List Field} {key : Json.Literal} {value : Json.Value}
      {members : List (Json.Literal × Json.Value)} : key.text? = some f.name → s.Gives f value →
      GivesFields s fields members → GivesFields s (f :: fields) ((key, value) :: members)
  | other {fields : List Field} {key : Json.Literal} {name : Text} {value : Json.Value}
      {members : List (Json.Literal × Json.Value)} : key.text? = some name →
      name ∉ fieldNames → GivesFields s fields members →
      GivesFields s fields ((key, value) :: members)

/-! ## Reading the fields -/

variable {s : Settings}

theorem pathOfJson?_of_denotes {value : Json.Value} {path : Path} (h : value.Denotes path.text) :
    pathOfJson? value = some path := by
  rw [pathOfJson?, h.text?_eq, Option.map_some]

theorem mixins_of_gives {value : Json.Value} (h : s.Gives .mixins value) :
    value.items? Json.Value.text? = some s.mixins := by
  obtain ⟨items, rfl, hitems⟩ := h
  exact mapM_of_forall₂ (hitems.imp fun _ _ hitem => hitem.text?_eq)

theorem decodeKeys?_cons {key : Json.Literal} {name : Text}
    {members : List (Json.Literal × Json.Value)} {pairs : List (Text × Json.Value)}
    (hkey : key.text? = some name) (h : Json.Value.decodeKeys? members = some pairs)
    (value : Json.Value) :
    Json.Value.decodeKeys? ((key, value) :: members) = some ((name, value) :: pairs) := by
  rw [Json.Value.decodeKeys?] at h ⊢
  simp [List.mapM_cons, hkey, h]

theorem connections_of_gives {value : Json.Value} (h : s.Gives .connections value) :
    value.dictionary? pathOfJson? = some s.connections := by
  obtain ⟨members, rfl, hmembers⟩ := h
  obtain ⟨pairs, hkeys, hpairs⟩ : ∃ pairs, Json.Value.decodeKeys? members = some pairs ∧
      List.Forall₂ (fun pair entry => pair.1 = entry.1 ∧ pair.2.Denotes entry.2.text) pairs
        s.connections.entries := by
    generalize s.connections.entries = entries at hmembers
    induction hmembers with
    | nil => exact ⟨[], rfl, .nil⟩
    | @cons member entry _ _ hmember _ ih =>
        obtain ⟨pairs, hkeys, hpairs⟩ := ih
        exact ⟨(entry.1, member.2) :: pairs, decodeKeys?_cons hmember.1 hkeys member.2,
          .cons ⟨rfl, hmember.2⟩ hpairs⟩
  rw [Json.Value.dictionary?, hkeys, Option.bind_eq_bind, Option.bind_some,
    mapM_of_forall₂ (r := s.connections.entries) ?_]
  · exact congrArg some (Keyed.ofList_entries s.connections)
  · refine hpairs.imp ?_
    rintro ⟨key, value⟩ ⟨name, path⟩ ⟨rfl, hvalue⟩
    simp only [pathOfJson?_of_denotes hvalue, Option.map_some]

theorem Field.name_mem_fieldNames (f : Field) : f.name ∈ fieldNames := by
  rw [← map_name_all]
  exact List.mem_map_of_mem f.mem_all

/-- What the members look like once their keys are decoded. -/
theorem GivesFields.exists_decodeKeys? {fields : List Field}
    {members : List (Json.Literal × Json.Value)} (h : s.GivesFields fields members) :
    ∃ pairs, Json.Value.decodeKeys? members = some pairs ∧
      ∀ f : Field, (pairs.map Prod.fst).count f.name = fields.count f ∧
        (f ∉ fields → pairs.lookup f.name = none) ∧
        (f ∈ fields → ∃ value, pairs.lookup f.name = some value ∧ s.Gives f value) := by
  induction h with
  | nil => exact ⟨[], rfl, fun f => by simp⟩
  | @field g fields key value members hkey hvalue _ ih =>
      obtain ⟨pairs, hkeys, hpairs⟩ := ih
      refine ⟨_, decodeKeys?_cons hkey hkeys value, fun f => ?_⟩
      obtain ⟨hcount, habsent, hpresent⟩ := hpairs f
      by_cases hfg : f = g
      · subst hfg
        exact ⟨by simp [hcount], by simp, fun _ => ⟨value, by simp, hvalue⟩⟩
      · have hne : g.name ≠ f.name := fun heq => hfg (Field.name_injective heq).symm
        have hlookup : ((g.name, value) :: pairs).lookup f.name = pairs.lookup f.name := by
          simp [List.lookup, beq_eq_false_iff_ne.2 (Ne.symm hne)]
        rw [hlookup, List.map_cons, List.count_cons_of_ne hne, List.count_cons_of_ne (Ne.symm hfg),
          List.mem_cons, or_iff_right hfg]
        exact ⟨hcount, habsent, hpresent⟩
  | @other fields key name value members hkey hname _ ih =>
      obtain ⟨pairs, hkeys, hpairs⟩ := ih
      refine ⟨_, decodeKeys?_cons hkey hkeys value, fun f => ?_⟩
      have hne : name ≠ f.name := fun heq => hname (heq ▸ f.name_mem_fieldNames)
      have hlookup : ((name, value) :: pairs).lookup f.name = pairs.lookup f.name := by
        simp [List.lookup, beq_eq_false_iff_ne.2 (Ne.symm hne)]
      rw [hlookup, List.map_cons, List.count_cons_of_ne hne]
      exact hpairs f

/-- The field that is given is decoded, and another one has its default. -/
theorem optional?_eq {α : Type} {decode : Json.Value → Option α} {f : Field} {a : α}
    {fields : List Field} {pairs : List (Text × Json.Value)}
    (habsent : f ∉ fields → pairs.lookup f.name = none)
    (hpresent : f ∈ fields → ∃ value, pairs.lookup f.name = some value ∧ s.Gives f value)
    (hdecode : ∀ value, s.Gives f value → decode value = some a) (d : α) :
    Json.Value.optional? decode f.name d pairs = some (if f ∈ fields then a else d) := by
  rw [Json.Value.optional?]
  by_cases hf : f ∈ fields
  · obtain ⟨value, hlookup, hgives⟩ := hpresent hf
    rw [hlookup, if_pos hf]
    exact hdecode value hgives
  · rw [habsent hf, if_neg hf]

theorem GivesFields.ofJson?_object {fields : List Field}
    {members : List (Json.Literal × Json.Value)} (hfields : fields.Nodup)
    (h : s.GivesFields fields members) :
    ofJson? (.object members) = some (default.withFields s fields) := by
  obtain ⟨pairs, hkeys, hpairs⟩ := h.exists_decodeKeys?
  have honce : (fieldNames.all fun name => (pairs.map Prod.fst).count name ≤ 1) = true := by
    rw [← map_name_all, List.all_map, List.all_eq_true]
    intro f _
    simpa [(hpairs f).1] using List.nodup_iff_count_le_one.1 hfields f
  have hrecord : (Json.Value.object members).fields? fieldNames = some pairs := by
    simp only [Json.Value.fields?, hkeys, Option.bind_eq_bind, Option.bind_some, honce, if_true]
  have hfield : ∀ {α : Type} {decode : Json.Value → Option α} (f : Field) {a : α},
      (∀ value, s.Gives f value → decode value = some a) → ∀ d,
      Json.Value.optional? decode f.name d pairs = some (if f ∈ fields then a else d) :=
    fun f _ hdecode => optional?_eq (hpairs f).2.1 (hpairs f).2.2 hdecode
  have hmodels : Json.Value.optional? pathOfJson? "models_root".toList default.modelsRoot pairs =
      some _ := hfield .modelsRoot (fun _ hvalue => pathOfJson?_of_denotes hvalue) _
  have hclasses : Json.Value.optional? pathOfJson? "classes_root".toList default.classesRoot pairs =
      some _ := hfield .classesRoot (fun _ hvalue => pathOfJson?_of_denotes hvalue) _
  have hconnection : Json.Value.optional? Json.Value.text? "default_connection".toList
      default.defaultConnection pairs = some _ :=
    hfield .defaultConnection (fun _ (hvalue : Json.Value.Denotes _ _) => hvalue.text?_eq) _
  have hconnections : Json.Value.optional? (Json.Value.dictionary? pathOfJson?)
      "connections".toList default.connections pairs = some _ :=
    hfield .connections (fun _ hvalue => connections_of_gives hvalue) _
  have hplaceholder : Json.Value.optional? Json.Value.text? "placeholder".toList
      default.placeholder pairs = some _ :=
    hfield .placeholder (fun _ (hvalue : Json.Value.Denotes _ _) => hvalue.text?_eq) _
  have hmixins : Json.Value.optional? (Json.Value.items? Json.Value.text?) "mixins".toList
      default.mixins pairs = some _ :=
    hfield .mixins (fun _ hvalue => mixins_of_gives hvalue) _
  rw [ofJson?, hrecord, Option.bind_eq_bind, Option.bind_some, hmodels, hclasses, hconnection,
    hconnections, hplaceholder, hmixins]
  rfl

/-! ## Settings as JSON -/

/-- The JSON value of a field. -/
def fieldJson (s : Settings) : Field → Json.Value
  | .modelsRoot => jsonText s.modelsRoot.text
  | .classesRoot => jsonText s.classesRoot.text
  | .defaultConnection => jsonText s.defaultConnection
  | .connections =>
    .object (s.connections.entries.map fun (name, path) => (.ofText name, jsonText path.text))
  | .placeholder => jsonText s.placeholder
  | .mixins => .array (s.mixins.map jsonText)

theorem toJson_eq (s : Settings) :
    s.toJson = .object (Field.all.map fun f => (.ofText f.name, s.fieldJson f)) := rfl

theorem denotes_jsonText (text : Text) : (jsonText text).Denotes text :=
  ⟨_, rfl, Json.Literal.text?_ofText text⟩

theorem gives_fieldJson (s : Settings) (f : Field) : s.Gives f (s.fieldJson f) := by
  cases f with
  | modelsRoot | classesRoot | defaultConnection | placeholder => exact denotes_jsonText _
  | connections =>
      refine ⟨_, rfl, List.forall₂_map_left_iff.2 (List.forall₂_same.2 fun entry _ => ?_)⟩
      exact ⟨Json.Literal.text?_ofText _, denotes_jsonText _⟩
  | mixins =>
      exact ⟨_, rfl, List.forall₂_map_left_iff.2 (List.forall₂_same.2 fun text _ =>
        denotes_jsonText text)⟩

theorem givesFields_map (s : Settings) (fields : List Field) :
    s.GivesFields fields (fields.map fun f => (.ofText f.name, s.fieldJson f)) := by
  induction fields with
  | nil => exact .nil
  | cons f fields ih =>
      exact .field (Json.Literal.text?_ofText _) (s.gives_fieldJson f) ih

theorem isWritable_of_mem_ofText {text : Text} :
    ∀ part ∈ Json.Literal.ofText text, part.IsWritable := by
  intro part hpart
  obtain ⟨c, -, rfl⟩ := List.mem_map.1 hpart
  trivial

theorem isWritable_jsonText (text : Text) : (jsonText text).IsWritable :=
  .string isWritable_of_mem_ofText

theorem isWritable_object {α : Type} {name : α → Text} {value : α → Json.Value} {l : List α}
    (h : ∀ a ∈ l, (value a).IsWritable) :
    (Json.Value.object (l.map fun a => (.ofText (name a), value a))).IsWritable := by
  refine .object (fun member hmember => ?_) fun member hmember => ?_
  · obtain ⟨a, -, rfl⟩ := List.mem_map.1 hmember
    exact isWritable_of_mem_ofText
  · obtain ⟨a, ha, rfl⟩ := List.mem_map.1 hmember
    exact h a ha

theorem isWritable_fieldJson (s : Settings) (f : Field) : (s.fieldJson f).IsWritable := by
  cases f with
  | modelsRoot | classesRoot | defaultConnection | placeholder => exact isWritable_jsonText _
  | connections => exact isWritable_object fun entry _ => isWritable_jsonText entry.2.text
  | mixins =>
      refine .array fun item hitem => ?_
      obtain ⟨text, -, rfl⟩ := List.mem_map.1 hitem
      exact isWritable_jsonText text

theorem isWritable_toJson (s : Settings) : s.toJson.IsWritable := by
  rw [toJson_eq]
  exact isWritable_object fun f _ => s.isWritable_fieldJson f

theorem withFields_all (s given : Settings) : s.withFields given Field.all = given := by
  simp [withFields, Field.mem_all]

theorem parse_of_spells {value : Json.Value} {text : Text} (htext : Json.Spells value text)
    (h : ofJson? value = some s) : parse text = .ok s := by
  rw [parse, htext.read?_eq, Option.bind_some, h]

/-- Settings are read back from their text, and a text that gives some of their fields, among
others, is read as the default settings with these fields replaced. -/
theorem parse_fills_gaps (s : Settings) :
    parse s.render = .ok s ∧
    ∀ (fields : List Field) (members : List (Json.Literal × Json.Value)) (text : Text),
      fields.Nodup → s.GivesFields fields members → Json.Spells (.object members) text →
      parse text = .ok (default.withFields s fields) := by
  constructor
  · refine parse_of_spells s.isWritable_toJson.spells_write ?_
    rw [toJson_eq, (s.givesFields_map Field.all).ofJson?_object Field.nodup_all, withFields_all]
  · intro fields members text hfields hmembers htext
    exact parse_of_spells htext (hmembers.ofJson?_object hfields)

/-- Settings that differ from the default ones in two fields. -/
def otherMixin : Settings :=
  { default with placeholder := [], mixins := ["A".toList] }

/-- A number, half of a surrogate pair under a name that is no field, and the mixins. -/
def mixinMembers : List (Json.Literal × Json.Value) :=
  [(.ofText "note".toList, .array [.number "-1.5e+3".toList, .string [.surrogate 0xD800]]),
    (.ofText "mixins".toList, .array [.string [.char 'A']])]

/-- A text of these members with space between some tokens and an escaped letter. -/
def mixinText : Text :=
  "\x7b \"note\" : [-1.5e+3 , \"\\uD800\"],\n\"mixins\":[\"\\u0041\"]\x7d\n".toList

theorem mixinText_spells : Json.Spells (.object mixinMembers) mixinText := by
  have hkey : ∀ text, Json.LiteralSpelling (.ofText text)
      ((Json.Literal.ofText text).flatMap Json.writePart) := fun text =>
    Json.literalSpelling_flatMap isWritable_of_mem_ofText
  have hnumber : Json.IsNumber (['-'] ++ (['1'] ++ (['.', '5'] ++ ['e', '+', '3']))) :=
    .intro (by simp) (.digits ⟨by simp, by simp⟩ (by simp)) (.present ⟨by simp, by simp⟩)
      (@Json.IsExponent.present 'e' ['+'] ['3'] (by simp) (by simp) ⟨by simp, by simp⟩)
  have hhalf : Json.LiteralSpelling [.surrogate 0xD800] ("\\uD800".toList ++ []) :=
    .cons (.surrogate (@Json.IsHexUnit.intro 'D' '8' '0' '0' 13 8 0 0 (.inr rfl) (.inl rfl)
      (.inl rfl) (.inl rfl)) (by decide)) .nil
  have hletter : Json.LiteralSpelling [.char 'A'] ("\\u0041".toList ++ []) :=
    .cons (.unit (@Json.IsHexUnit.intro '0' '0' '4' '1' 0 0 4 1 (.inl rfl) (.inl rfl) (.inl rfl)
      (.inl rfl)) (by decide)) .nil
  have hspace : ∀ space ∈ [" ".toList, "\n".toList], Json.AreSpaces space := by
    simp [Json.AreSpaces, Json.isSpace]
  have hnone := Json.areSpaces_nil
  have hblank := hspace _ (List.mem_cons_self)
  have hbreak := hspace _ (List.mem_cons_of_mem _ List.mem_cons_self)
  have hnote := Json.Spelling.member (hkey "note".toList) hblank hblank
    (.array hnone (.item (.number hnumber) hblank hblank (.lastItem (.string hhalf) hnone)))
  have hmixins := Json.Spelling.member (hkey "mixins".toList) hnone hnone
    (.array hnone (.lastItem (.string hletter) hnone))
  exact .intro hnone (.object hblank (.members hnote hnone hbreak (.lastMember hmixins hnone)))
    hbreak

theorem mixinText_fills_gaps :
    otherMixin.GivesFields [.mixins] mixinMembers ∧ Json.Spells (.object mixinMembers) mixinText ∧
    parse mixinText = .ok { default with mixins := ["A".toList] } ∧
    parse otherMixin.render = .ok otherMixin := by
  have hgives : otherMixin.GivesFields [.mixins] mixinMembers := by
    refine .other (Json.Literal.text?_ofText _) (by decide)
      (.field (Json.Literal.text?_ofText _) ⟨_, rfl, ?_⟩ .nil)
    exact .cons ⟨_, rfl, rfl⟩ .nil
  obtain ⟨hrender, hparse⟩ := parse_fills_gaps otherMixin
  exact ⟨hgives, mixinText_spells, hparse _ _ _ (List.nodup_singleton _) hgives mixinText_spells,
    hrender⟩

end Settings

end PhpDoc
