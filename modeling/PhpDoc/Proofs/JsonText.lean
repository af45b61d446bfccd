import Mathlib
import PhpDoc.Json.Reader
import PhpDoc.Json.Writer
import PhpDoc.Proofs.Texts

/-!
# JSON texts

A grammar says which texts spell a JSON value: any space may stand between the tokens, and a
character of a string may be written plainly or as any of its escapes.  The reader reads every
spelling of a value as that value, and the writer's text is one of its spellings.
-/

namespace PhpDoc.Json

/-! ## The grammar -/

/-- Nothing but space. -/
def AreSpaces (text : Text) : Prop :=
  ∀ c ∈ text, isSpace c = true

/-- A hexadecimal digit in either case, by its place in the row of digits. -/
def IsHexDigit (c : Char) (n : Nat) : Prop :=
  "0123456789abcdef".toList[n]? = some c ∨ "0123456789ABCDEF".toList[n]? = some c

/-- Four hexadecimal digits and the code unit that they write. -/
inductive IsHexUnit : Text → Nat → Prop
  | intro {a b c d : Char} {i j k l : Nat} : IsHexDigit a i → IsHexDigit b j → IsHexDigit c k →
      IsHexDigit d l → IsHexUnit [a, b, c, d] (((i * 16 + j) * 16 + k) * 16 + l)

/-- The letters after a backslash and the characters that they stand for. -/
def escapes : List (Char × Char) :=
  [('"', '"'), ('\\', '\\'), ('/', '/'), ('b', '\x08'), ('f', '\x0c'), ('n', '\n'), ('r', '\r'),
    ('t', '\t')]

/-- How a part of a string literal may be written. -/
inductive PartSpelling : LiteralPart → Text → Prop
  | plain {c : Char} : c ≠ '"' → c ≠ '\\' → 0x20 ≤ c.toNat → PartSpelling (.char c) [c]
  | escape {letter c : Char} : (letter, c) ∈ escapes → PartSpelling (.char c) ['\\', letter]
  | unit {digits : Text} {n : Nat} : IsHexUnit digits n → ¬ (0xD800 ≤ n ∧ n < 0xE000) →
      PartSpelling (.char (Char.ofNat n)) ('\\' :: 'u' :: digits)
  | surrogate {digits : Text} {n : Nat} : IsHexUnit digits n → 0xD800 ≤ n ∧ n < 0xE000 →
      PartSpelling (.surrogate n) ('\\' :: 'u' :: digits)

/-- How a string literal may be written, without its quotes. -/
inductive LiteralSpelling : Literal → Text → Prop
  | nil : LiteralSpelling [] []
  | cons {part : LiteralPart} {parts : Literal} {text more : Text} : PartSpelling part text →
      LiteralSpelling parts more → LiteralSpelling (part :: parts) (text ++ more)

/-- At least one digit. -/
structure AreDigits (text : Text) : Prop where
  ne_nil : text ≠ []
  isDigit : ∀ c ∈ text, c.isDigit = true

/-- The digits before the point: no zero stands in front of others. -/
inductive IsWhole : Text → Prop
  | zero : IsWhole ['0']
  | digits {text : Text} : AreDigits text → text.head? ≠ some '0' → IsWhole text

/-- What may stand behind the point of a number, with the point. -/
inductive IsFraction : Text → Prop
  | absent : IsFraction []
  | present {digits : Text} : AreDigits digits → IsFraction ('.' :: digits)

/-- The exponent that may end a number. -/
inductive IsExponent : Text → Prop
  | absent : IsExponent []
  | present {mark : Char} {sign digits : Text} : mark ∈ ['e', 'E'] → sign ∈ [[], ['+'], ['-']] →
      AreDigits digits → IsExponent (mark :: (sign ++ digits))

/-- A number as it may be written. -/
inductive IsNumber : Text → Prop
  | intro {minus whole fraction exponent : Text} : minus ∈ [[], ['-']] → IsWhole whole →
      IsFraction fraction → IsExponent exponent →
      IsNumber (minus ++ (whole ++ (fraction ++ exponent)))

/-- What the grammar gives texts to.  The items of an array and the members of an object come with
the bracket that closes them. -/
inductive Node where
  | value (value : Value)
  | items (items : List Value)
  | member (member : Literal × Value)
  | members (members : List (Literal × Value))

/-- How a node may be written, without the space around it. -/
inductive Spelling : Node → Text → Prop
  | null : Spelling (.value .null) "null".toList
  | bool (b : Bool) :
      Spelling (.value (.bool b)) (if b then "true".toList else "false".toList)
  | number {written : Text} : IsNumber written → Spelling (.value (.number written)) written
  | string {literal : Literal} {text : Text} : LiteralSpelling literal text →
      Spelling (.value (.string literal)) ('"' :: (text ++ ['"']))
  | emptyArray {space : Text} : AreSpaces space →
      Spelling (.value (.array [])) ('[' :: (space ++ [']']))
  | array {items : List Value} {space text : Text} : AreSpaces space →
      Spelling (.items items) text → Spelling (.value (.array items)) ('[' :: (space ++ text))
  | emptyObject {space : Text} : AreSpaces space →
      Spelling (.value (.object [])) ('{' :: (space ++ ['}']))
  | object {members : List (Literal × Value)} {space text : Text} : AreSpaces space →
      Spelling (.members members) text →
      Spelling (.value (.object members)) ('{' :: (space ++ text))
  | lastItem {item : Value} {text space : Text} : Spelling (.value item) text →
      AreSpaces space → Spelling (.items [item]) (text ++ (space ++ [']']))
  | item {item : Value} {items : List Value} {text space space' more : Text} :
      Spelling (.value item) text → AreSpaces space → AreSpaces space' →
      Spelling (.items items) more →
      Spelling (.items (item :: items)) (text ++ (space ++ ',' :: (space' ++ more)))
  | member {key : Literal} {value : Value} {name space space' text : Text} :
      LiteralSpelling key name → AreSpaces space → AreSpaces space' →
      Spelling (.value value) text →
      Spelling (.member (key, value)) ('"' :: (name ++ '"' :: (space ++ ':' :: (space' ++ text))))
  | lastMember {member : Literal × Value} {text space : Text} : Spelling (.member member) text →
      AreSpaces space → Spelling (.members [member]) (text ++ (space ++ ['}']))
  | members {member : Literal × Value} {members : List (Literal × Value)}
      {text space space' more : Text} : Spelling (.member member) text → AreSpaces space →
      AreSpaces space' → Spelling (.members members) more →
      Spelling (.members (member :: members)) (text ++ (space ++ ',' :: (space' ++ more)))

/-- The text spells the value, with space around it. -/
inductive Spells (value : Value) : Text → Prop
  | intro {before text after : Text} : AreSpaces before → Spelling (.value value) text →
      AreSpaces after → Spells value (before ++ (text ++ after))

/-! ## Space -/

theorem areSpaces_nil : AreSpaces [] := by simp [AreSpaces]

theorem skipSpace_append {space : Text} (h : AreSpaces space) {c : Char} (hc : isSpace c = false)
    (text : Text) : skipSpace (space ++ c :: text) = c :: text :=
  Text.dropWhile_append_stop h (by simpa using hc)

theorem skipSpace_of_areSpaces {space : Text} (h : AreSpaces space) : skipSpace space = [] :=
  List.dropWhile_eq_nil_iff.2 h

/-- What may follow a value. -/
def EndsValue (rest : Text) : Prop :=
  ∀ c ∈ rest.head?, isSpace c = true ∨ c ∈ [',', ']', '}']

theorem AreSpaces.endsValue_append {space rest : Text} (h : AreSpaces space)
    (hrest : EndsValue rest) : EndsValue (space ++ rest) := by
  cases space with
  | nil => exact hrest
  | cons c space =>
      intro d hd
      obtain rfl : c = d := Option.some.inj hd
      exact Or.inl (h c List.mem_cons_self)

theorem AreSpaces.endsValue_append_cons {space : Text} (h : AreSpaces space) (c : Char)
    (hc : c ∈ [',', ']', '}']) (rest : Text) : EndsValue (space ++ c :: rest) := by
  refine h.endsValue_append fun d hd => ?_
  obtain rfl : c = d := Option.some.inj hd
  exact Or.inr hc

/-! ## Strings -/

theorem IsHexDigit.hexDigit?_eq {c : Char} {n : Nat} (h : IsHexDigit c n) :
    hexDigit? c = some n := by
  have hrow : ∀ row ∈ ["0123456789abcdef".toList, "0123456789ABCDEF".toList],
      row.length = 16 ∧ ∀ i < 16, row[i]?.bind hexDigit? = some i := by decide
  have hmem : ∀ row ∈ ["0123456789abcdef".toList, "0123456789ABCDEF".toList],
      row[n]? = some c → hexDigit? c = some n := by
    intro row hmem hn
    obtain ⟨hlength, hdigits⟩ := hrow row hmem
    have hlt : n < 16 := hlength ▸ (List.getElem?_eq_some_iff.1 hn).1
    simpa [hn] using hdigits n hlt
  rcases h with h | h
  · exact hmem _ List.mem_cons_self h
  · exact hmem _ (List.mem_cons_of_mem _ List.mem_cons_self) h

theorem IsHexUnit.exists_hexUnit? {digits : Text} {n : Nat} (h : IsHexUnit digits n) :
    ∃ a b c d, digits = [a, b, c, d] ∧ hexUnit? a b c d = some n := by
  obtain ⟨ha, hb, hc, hd⟩ := h
  refine ⟨_, _, _, _, rfl, ?_⟩
  rw [hexUnit?, ha.hexDigit?_eq, hb.hexDigit?_eq, hc.hexDigit?_eq, hd.hexDigit?_eq]
  rfl

theorem readLiteral_escape {letter c : Char} (h : (letter, c) ∈ escapes) (text : Text) :
    readLiteral ('\\' :: letter :: text) =
      (readLiteral text).map fun (parts, rest) => (.char c :: parts, rest) := by
  simp only [escapes, List.mem_cons, Prod.mk.injEq, List.not_mem_nil, or_false] at h
  rcases h with ⟨rfl, rfl⟩ | ⟨rfl, rfl⟩ | ⟨rfl, rfl⟩ | ⟨rfl, rfl⟩ | ⟨rfl, rfl⟩ | ⟨rfl, rfl⟩ |
    ⟨rfl, rfl⟩ | ⟨rfl, rfl⟩ <;>
  · cases hrest : readLiteral text <;> simp [readLiteral, escape?, hrest]

theorem readLiteral_unit {digits : Text} {n : Nat} (h : IsHexUnit digits n) (text : Text) :
    readLiteral ('\\' :: 'u' :: (digits ++ text)) =
      (readLiteral text).map fun (parts, rest) => (unitPart n :: parts, rest) := by
  obtain ⟨a, b, c, d, rfl, hunit⟩ := h.exists_hexUnit?
  cases hrest : readLiteral text <;> simp [readLiteral, hunit, hrest]

/-- A part that is read adds itself in front of the parts after it. -/
theorem PartSpelling.readLiteral_append {part : LiteralPart} {text : Text}
    (h : PartSpelling part text) (more : Text) :
    readLiteral (text ++ more) =
      (readLiteral more).map fun (parts, rest) => (part :: parts, rest) := by
  cases h with
  | @plain c hquote hbackslash hcontrol =>
      have hcontrol' : ¬ c.toNat < 0x20 := Nat.not_lt.2 hcontrol
      rw [List.singleton_append, readLiteral]
      · rw [if_neg (not_or.2 ⟨hbackslash, hcontrol'⟩)]
      all_goals intros; simp_all
  | escape h => exact readLiteral_escape h more
  | unit h hplain => exact (readLiteral_unit h more).trans (by rw [unitPart, if_neg hplain])
  | surrogate h hhalf => exact (readLiteral_unit h more).trans (by rw [unitPart, if_pos hhalf])

theorem LiteralSpelling.readLiteral_append {literal : Literal} {text : Text}
    (h : LiteralSpelling literal text) (rest : Text) :
    readLiteral (text ++ '"' :: rest) = some (literal, rest) := by
  induction h with
  | nil => rw [List.nil_append, readLiteral]
  | cons hpart _ ih =>
      rw [List.append_assoc, hpart.readLiteral_append, ih, Option.map_some]

/-! ## Numbers -/

/-- No digit starts the text. -/
def StartsNoDigit (text : Text) : Prop :=
  ∀ c ∈ text.head?, c.isDigit = false

theorem AreDigits.readDigits_append {digits rest : Text} (h : AreDigits digits)
    (hrest : StartsNoDigit rest) : readDigits (digits ++ rest) = some (digits, rest) := by
  have hempty : digits.isEmpty = false := by simpa using h.ne_nil
  rw [readDigits, Text.takeWhile_append_stop h.isDigit hrest,
    Text.dropWhile_append_stop h.isDigit hrest, hempty]
  rfl

theorem AreDigits.exists_cons {digits : Text} (h : AreDigits digits) :
    ∃ c more, digits = c :: more ∧ c.isDigit = true := by
  obtain ⟨c, more, rfl⟩ := List.exists_cons_of_ne_nil h.ne_nil
  exact ⟨c, more, rfl, h.isDigit c List.mem_cons_self⟩

theorem IsWhole.exists_cons {whole : Text} (h : IsWhole whole) :
    ∃ c more, whole = c :: more ∧ c.isDigit = true := by
  cases h with
  | zero => exact ⟨'0', [], rfl, rfl⟩
  | digits h _ => exact h.exists_cons

theorem IsWhole.readWhole_append {whole rest : Text} (h : IsWhole whole)
    (hrest : StartsNoDigit rest) : readWhole (whole ++ rest) = some (whole, rest) := by
  cases h with
  | zero =>
      have hany : rest.head?.any Char.isDigit = false := by
        cases rest with
        | nil => rfl
        | cons c rest => exact hrest c rfl
      rw [List.singleton_append, readWhole, hany]
      rfl
  | digits hdigits hzero =>
      obtain ⟨c, more, rfl, -⟩ := hdigits.exists_cons
      rw [List.cons_append, readWhole, ← List.cons_append, hdigits.readDigits_append hrest]
      intro text htext
      obtain ⟨rfl, -⟩ := List.cons.inj htext
      exact hzero rfl

theorem IsFraction.readFraction_append {fraction rest : Text} (h : IsFraction fraction)
    (hrest : StartsNoDigit rest) (hpoint : rest.head? ≠ some '.') :
    readFraction (fraction ++ rest) = some (fraction, rest) := by
  cases h with
  | absent =>
      rw [List.nil_append, readFraction]
      rintro text rfl
      exact hpoint rfl
  | present hdigits =>
      rw [List.cons_append, readFraction, hdigits.readDigits_append hrest, Option.map_some]

theorem readSign_append {sign digits : Text} (hsign : sign ∈ [[], ['+'], ['-']])
    (h : AreDigits digits) (rest : Text) :
    readSign (sign ++ (digits ++ rest)) = (sign, digits ++ rest) := by
  simp only [List.mem_cons, List.not_mem_nil, or_false] at hsign
  rcases hsign with rfl | rfl | rfl
  · obtain ⟨c, more, rfl, hc⟩ := h.exists_cons
    rw [List.nil_append, List.cons_append, readSign]
    all_goals
      intro text htext
      obtain ⟨rfl, -⟩ := List.cons.inj htext
      contradiction
  · rfl
  · rfl

theorem IsExponent.readExponent_append {exponent rest : Text} (h : IsExponent exponent)
    (hrest : StartsNoDigit rest) (hmark : ∀ c ∈ rest.head?, c ∉ ['e', 'E']) :
    readExponent (exponent ++ rest) = some (exponent, rest) := by
  cases h with
  | absent =>
      cases rest with
      | nil => rfl
      | cons c rest =>
          have hc : ¬ (c = 'e' ∨ c = 'E') := by simpa using hmark c rfl
          rw [List.nil_append, readExponent, if_neg hc]
  | @present mark sign digits hmem hsign hdigits =>
      have hmark' : mark = 'e' ∨ mark = 'E' := by simpa using hmem
      rw [List.cons_append, List.append_assoc, readExponent, if_pos hmark']
      simp only [readSign_append hsign hdigits, hdigits.readDigits_append hrest, Option.map_some,
        List.cons_append]

/-- What follows a value does not go on a number. -/
theorem EndsValue.stops {rest : Text} (h : EndsValue rest) :
    StartsNoDigit rest ∧ rest.head? ≠ some '.' ∧ ∀ c ∈ rest.head?, c ∉ ['e', 'E'] := by
  have hstop : ([' ', '\n', '\t', '\r', ',', ']', '}'].all fun c =>
      !c.isDigit && c != '.' && !(['e', 'E'].contains c)) = true := by decide
  cases rest with
  | nil => simp [StartsNoDigit]
  | cons c rest =>
      have hmem : c ∈ [' ', '\n', '\t', '\r', ',', ']', '}'] := by
        simpa [isSpace, or_assoc] using h c rfl
      have hc := List.all_eq_true.1 hstop c hmem
      simp only [Bool.and_eq_true, Bool.not_eq_true', bne_iff_ne, List.contains_eq_mem,
        decide_eq_false_iff_not] at hc
      obtain ⟨⟨hdigit, hpoint⟩, hmark⟩ := hc
      refine ⟨?_, by simpa using hpoint, ?_⟩ <;>
      · intro d hd
        obtain rfl : c = d := Option.some.inj hd
        assumption

theorem IsExponent.startsNoDigit_append {exponent rest : Text} (h : IsExponent exponent)
    (hrest : StartsNoDigit rest) (hpoint : rest.head? ≠ some '.') :
    StartsNoDigit (exponent ++ rest) ∧ (exponent ++ rest).head? ≠ some '.' := by
  cases h with
  | absent => exact ⟨hrest, hpoint⟩
  | @present mark _ _ hmem =>
      simp only [List.mem_cons, List.not_mem_nil, or_false] at hmem
      rcases hmem with rfl | rfl <;> simp [StartsNoDigit]

theorem IsFraction.startsNoDigit_append {fraction rest : Text} (h : IsFraction fraction)
    (hrest : StartsNoDigit rest) : StartsNoDigit (fraction ++ rest) := by
  cases h with
  | absent => exact hrest
  | present _ => simp [StartsNoDigit]

theorem IsNumber.readNumber_append {written rest : Text} (h : IsNumber written)
    (hrest : EndsValue rest) : readNumber (written ++ rest) = some (written, rest) := by
  obtain ⟨hstops, hpoint, hmark⟩ := hrest.stops
  obtain @⟨minus, whole, fraction, exponent, hminus, hwhole, hfraction, hexponent⟩ := h
  obtain ⟨hstops', hpoint'⟩ := hexponent.startsNoDigit_append hstops hpoint
  have hread : readWhole (whole ++ (fraction ++ (exponent ++ rest))) =
      some (whole, fraction ++ (exponent ++ rest)) :=
    hwhole.readWhole_append (hfraction.startsNoDigit_append hstops')
  simp only [List.mem_cons, List.not_mem_nil, or_false] at hminus
  simp only [List.append_assoc]
  rcases hminus with rfl | rfl
  · -- the number starts with a digit, so no sign is taken from it
    obtain ⟨c, more, rfl, hc⟩ := hwhole.exists_cons
    have hsign : c ≠ '-' := by
      rintro rfl
      contradiction
    rw [List.cons_append] at hread
    simp [readNumber, hsign, hread, hfraction.readFraction_append hstops' hpoint',
      hexponent.readExponent_append hstops hmark]
  · simp [readNumber, hread, hfraction.readFraction_append hstops' hpoint',
      hexponent.readExponent_append hstops hmark]

/-! ## Values -/

/-- The node is read from the text, and `rest` is left. -/
def Node.IsRead (fuel : Nat) (text rest : Text) : Node → Prop
  | value v => readValue fuel text = some (v, rest)
  | items vs => readItems fuel text = some (vs, rest)
  | member m => readMember fuel text = some (m, rest)
  | members ms => readMembers fuel text = some (ms, rest)

theorem IsNumber.exists_cons {written : Text} (h : IsNumber written) :
    ∃ c more, written = c :: more ∧ (c.isDigit = true ∨ c = '-') := by
  obtain @⟨minus, whole, fraction, exponent, hminus, hwhole, -, -⟩ := h
  obtain ⟨c, more, rfl, hc⟩ := hwhole.exists_cons
  simp only [List.mem_cons, List.not_mem_nil, or_false] at hminus
  rcases hminus with rfl | rfl
  · exact ⟨c, _, rfl, Or.inl hc⟩
  · exact ⟨'-', _, rfl, Or.inr rfl⟩

/-- A character that starts a node is not taken for space or for a closing bracket. -/
def startsNode (c : Char) : Bool :=
  !isSpace c && c != ']' && c != '}'

theorem startsNode_iff {c : Char} :
    startsNode c = true ↔ isSpace c = false ∧ c ≠ ']' ∧ c ≠ '}' := by
  simp only [startsNode, Bool.and_eq_true, Bool.not_eq_true', bne_iff_ne, and_assoc]

theorem startsNode_of_isDigit {c : Char} (h : c.isDigit = true) : startsNode c = true := by
  by_contra hnot
  have hmem : c ∈ [' ', '\n', '\t', '\r', ']', '}'] := by
    simpa [startsNode, isSpace, or_assoc, imp_iff_not_or, not_or, and_assoc] using hnot
  simp only [List.mem_cons, List.not_mem_nil, or_false] at hmem
  rcases hmem with rfl | rfl | rfl | rfl | rfl | rfl <;> contradiction

theorem Spelling.exists_cons {node : Node} {text : Text} (h : Spelling node text) :
    ∃ c more, text = c :: more ∧ startsNode c = true := by
  induction h with
  | null => exact ⟨'n', _, rfl, by decide⟩
  | bool b =>
      cases b
      · exact ⟨'f', _, rfl, by decide⟩
      · exact ⟨'t', _, rfl, by decide⟩
  | number h =>
      obtain ⟨c, more, rfl, hc⟩ := h.exists_cons
      rcases hc with hc | rfl
      · exact ⟨c, more, rfl, startsNode_of_isDigit hc⟩
      · exact ⟨'-', more, rfl, by decide⟩
  | string _ => exact ⟨'"', _, rfl, by decide⟩
  | emptyArray _ => exact ⟨'[', _, rfl, by decide⟩
  | array _ _ => exact ⟨'[', _, rfl, by decide⟩
  | emptyObject _ => exact ⟨'{', _, rfl, by decide⟩
  | object _ _ => exact ⟨'{', _, rfl, by decide⟩
  | member _ _ _ _ => exact ⟨'"', _, rfl, by decide⟩
  | lastItem _ _ ih | item _ _ _ _ ih _ | lastMember _ _ ih | members _ _ _ _ ih _ =>
      obtain ⟨c, more, rfl, hc⟩ := ih
      exact ⟨c, _, rfl, hc⟩

theorem readScalar_null (rest : Text) :
    readScalar ("null".toList ++ rest) = some (.null, rest) := by
  rw [readScalar, Text.after?_append]
  rfl

theorem readScalar_bool (b : Bool) (rest : Text) :
    readScalar ((if b then "true".toList else "false".toList) ++ rest) = some (.bool b, rest) := by
  cases b <;> simp [readScalar, Text.after?]

theorem IsNumber.readScalar_append {written rest : Text} (h : IsNumber written)
    (hrest : EndsValue rest) : readScalar (written ++ rest) = some (.number written, rest) := by
  have hnumber := h.readNumber_append hrest
  obtain ⟨c, more, rfl, hc⟩ := h.exists_cons
  have hword : ∀ word ∈ ["null".toList, "true".toList, "false".toList],
      Text.after? word (c :: more ++ rest) = none := by
    intro word hword
    rw [Text.after?_eq_none_iff]
    rintro ⟨after, hafter⟩
    -- every word starts with a letter
    simp only [List.mem_cons, List.not_mem_nil, or_false] at hword
    rcases hword with rfl | rfl | rfl <;>
    · obtain ⟨rfl, -⟩ := List.cons.inj hafter
      exact absurd hc (by decide)
  rw [readScalar, hword _ (by simp), hword _ (by simp), hword _ (by simp), hnumber]
  rfl

/-- A value that no quote and no bracket starts is a word or a number. -/
theorem readValue_scalar {space : Text} {c : Char} (hspace : AreSpaces space)
    (hc : isSpace c = false) (hmark : c ∉ ['"', '[', '{']) (fuel : Nat) (text : Text) :
    readValue (fuel + 1) (space ++ c :: text) = readScalar (c :: text) := by
  simp only [List.mem_cons, List.not_mem_nil, or_false, not_or] at hmark
  rw [readValue, skipSpace_append hspace hc]
  split <;> simp_all

theorem readValue_bool {space : Text} (hspace : AreSpaces space) (b : Bool) (fuel : Nat)
    (rest : Text) :
    readValue (fuel + 1) (space ++ ((if b then "true".toList else "false".toList) ++ rest)) =
      some (.bool b, rest) := by
  cases b with
  | false =>
      exact (readValue_scalar hspace rfl (by decide) fuel _).trans (readScalar_bool false rest)
  | true =>
      exact (readValue_scalar hspace rfl (by decide) fuel _).trans (readScalar_bool true rest)

theorem IsNumber.readValue_append {space written rest : Text} (h : IsNumber written)
    (hspace : AreSpaces space) (hrest : EndsValue rest) (fuel : Nat) :
    readValue (fuel + 1) (space ++ (written ++ rest)) = some (.number written, rest) := by
  have hscalar := h.readScalar_append hrest
  obtain ⟨c, more, rfl, hc⟩ := h.exists_cons
  have hstarts : isSpace c = false := by
    rcases hc with hc | rfl
    · exact (startsNode_iff.1 (startsNode_of_isDigit hc)).1
    · rfl
  have hmark : c ∉ ['"', '[', '{'] := by
    simp only [List.mem_cons, List.not_mem_nil, or_false, not_or]
    refine ⟨?_, ?_, ?_⟩ <;>
    · rintro rfl
      exact absurd hc (by decide)
  exact (readValue_scalar hspace hstarts hmark fuel _).trans hscalar

theorem readValue_array {space inner : Text} {c : Char} (hspace : AreSpaces space)
    (hinner : AreSpaces inner) (hc : startsNode c = true) (fuel : Nat) (text : Text) :
    readValue (fuel + 1) (space ++ '[' :: (inner ++ c :: text)) =
      (readItems fuel (c :: text)).map fun (items, rest) => (.array items, rest) := by
  obtain ⟨hnot, hclose, -⟩ := startsNode_iff.1 hc
  simp only [readValue, skipSpace_append hspace (show isSpace '[' = false from rfl),
    skipSpace_append hinner hnot]
  split
  · simp_all
  · rfl

theorem readValue_object {space inner : Text} {c : Char} (hspace : AreSpaces space)
    (hinner : AreSpaces inner) (hc : startsNode c = true) (fuel : Nat) (text : Text) :
    readValue (fuel + 1) (space ++ '{' :: (inner ++ c :: text)) =
      (readMembers fuel (c :: text)).map fun (members, rest) => (.object members, rest) := by
  obtain ⟨hnot, -, hclose⟩ := startsNode_iff.1 hc
  simp only [readValue, skipSpace_append hspace (show isSpace '{' = false from rfl),
    skipSpace_append hinner hnot]
  split
  · simp_all
  · rfl

theorem readValue_string {space text : Text} {literal : Literal} (hspace : AreSpaces space)
    (h : LiteralSpelling literal text) (fuel : Nat) (rest : Text) :
    readValue (fuel + 1) (space ++ '"' :: (text ++ '"' :: rest)) =
      some (.string literal, rest) := by
  simp only [readValue, skipSpace_append hspace (show isSpace '"' = false from rfl),
    h.readLiteral_append, Option.map_some]

theorem readValue_emptyArray {space inner : Text} (hspace : AreSpaces space)
    (hinner : AreSpaces inner) (fuel : Nat) (rest : Text) :
    readValue (fuel + 1) (space ++ '[' :: (inner ++ ']' :: rest)) = some (.array [], rest) := by
  simp only [readValue, skipSpace_append hspace (show isSpace '[' = false from rfl),
    skipSpace_append hinner (show isSpace ']' = false from rfl)]

theorem readValue_emptyObject {space inner : Text} (hspace : AreSpaces space)
    (hinner : AreSpaces inner) (fuel : Nat) (rest : Text) :
    readValue (fuel + 1) (space ++ '{' :: (inner ++ '}' :: rest)) = some (.object [], rest) := by
  simp only [readValue, skipSpace_append hspace (show isSpace '{' = false from rfl),
    skipSpace_append hinner (show isSpace '}' = false from rfl)]

theorem readItems_last {fuel : Nat} {text after rest : Text} {item : Value}
    (hitem : readValue fuel text = some (item, after ++ ']' :: rest)) (hafter : AreSpaces after) :
    readItems (fuel + 1) text = some ([item], rest) := by
  simp only [readItems, hitem, skipSpace_append hafter (show isSpace ']' = false from rfl)]

theorem readItems_cons {fuel : Nat} {text after next rest : Text} {item : Value}
    {items : List Value} (hitem : readValue fuel text = some (item, after ++ ',' :: next))
    (hafter : AreSpaces after) (hitems : readItems fuel next = some (items, rest)) :
    readItems (fuel + 1) text = some (item :: items, rest) := by
  simp only [readItems, hitem, skipSpace_append hafter (show isSpace ',' = false from rfl), hitems,
    Option.map_some]

theorem readMember_eq {fuel : Nat} {space name after text rest : Text} {key : Literal}
    {value : Value} (hspace : AreSpaces space) (hkey : LiteralSpelling key name)
    (hafter : AreSpaces after) (hvalue : readValue fuel text = some (value, rest)) :
    readMember (fuel + 1) (space ++ '"' :: (name ++ '"' :: (after ++ ':' :: text))) =
      some ((key, value), rest) := by
  simp only [readMember, skipSpace_append hspace (show isSpace '"' = false from rfl),
    hkey.readLiteral_append, skipSpace_append hafter (show isSpace ':' = false from rfl), hvalue,
    Option.map_some]

theorem readMembers_last {fuel : Nat} {text after rest : Text} {member : Literal × Value}
    (hmember : readMember fuel text = some (member, after ++ '}' :: rest))
    (hafter : AreSpaces after) : readMembers (fuel + 1) text = some ([member], rest) := by
  simp only [readMembers, hmember, skipSpace_append hafter (show isSpace '}' = false from rfl)]

theorem readMembers_cons {fuel : Nat} {text after next rest : Text} {member : Literal × Value}
    {members : List (Literal × Value)}
    (hmember : readMember fuel text = some (member, after ++ ',' :: next))
    (hafter : AreSpaces after) (hmembers : readMembers fuel next = some (members, rest)) :
    readMembers (fuel + 1) text = some (member :: members, rest) := by
  simp only [readMembers, hmember, skipSpace_append hafter (show isSpace ',' = false from rfl),
    hmembers, Option.map_some]

/-- The reader finds the node in the text, whatever space precedes it and whatever ends it, with
fuel for each character. -/
def Node.IsReadFrom (node : Node) (text : Text) : Prop :=
  ∀ (fuel : Nat) {space rest : Text}, text.length ≤ fuel → AreSpaces space → EndsValue rest →
    node.IsRead fuel (space ++ (text ++ rest)) rest

/-- A spelling is not empty, so there is fuel for the step that reads it. -/
theorem Spelling.isReadFrom_of_succ {node : Node} {text : Text} (h : Spelling node text)
    (hread : ∀ (fuel : Nat) {space rest : Text}, text.length ≤ fuel + 1 → AreSpaces space →
      EndsValue rest → node.IsRead (fuel + 1) (space ++ (text ++ rest)) rest) :
    node.IsReadFrom text := by
  intro fuel space rest hfuel hspace hrest
  obtain ⟨c, more, rfl, -⟩ := h.exists_cons
  cases fuel with
  | zero => simp at hfuel
  | succ fuel => exact hread fuel hfuel hspace hrest

/-- The reader reads every spelling, with fuel for each of its characters. -/
theorem Spelling.isReadFrom {node : Node} {text : Text} (h : Spelling node text) :
    node.IsReadFrom text := by
  -- every case spends one step and at least one character, so the fuel left covers the parts
  induction h with
  | null =>
      refine Spelling.null.isReadFrom_of_succ fun fuel space rest _ hspace _ => ?_
      exact (readValue_scalar hspace rfl (by decide) fuel _).trans (readScalar_null rest)
  | bool b =>
      refine (Spelling.bool b).isReadFrom_of_succ fun fuel space rest _ hspace _ => ?_
      exact readValue_bool hspace b fuel rest
  | number h =>
      refine (Spelling.number h).isReadFrom_of_succ fun fuel space rest _ hspace hrest => ?_
      exact h.readValue_append hspace hrest fuel
  | string h =>
      refine (Spelling.string h).isReadFrom_of_succ fun fuel space rest _ hspace _ => ?_
      simpa [Node.IsRead] using readValue_string hspace h fuel rest
  | emptyArray hinner =>
      refine (Spelling.emptyArray hinner).isReadFrom_of_succ fun fuel space rest _ hspace _ => ?_
      simpa [Node.IsRead] using readValue_emptyArray hspace hinner fuel rest
  | array hinner h ih =>
      refine (h.array hinner).isReadFrom_of_succ fun fuel space rest hfuel hspace hrest => ?_
      have hitems := ih fuel (by simp at hfuel; omega) areSpaces_nil hrest
      obtain ⟨c, more, rfl, hc⟩ := h.exists_cons
      simp only [Node.IsRead, List.nil_append, List.cons_append] at hitems
      simp only [Node.IsRead, List.cons_append, List.append_assoc,
        readValue_array hspace hinner hc, hitems, Option.map_some]
  | emptyObject hinner =>
      refine (Spelling.emptyObject hinner).isReadFrom_of_succ fun fuel space rest _ hspace _ => ?_
      simpa [Node.IsRead] using readValue_emptyObject hspace hinner fuel rest
  | object hinner h ih =>
      refine (h.object hinner).isReadFrom_of_succ fun fuel space rest hfuel hspace hrest => ?_
      have hmembers := ih fuel (by simp at hfuel; omega) areSpaces_nil hrest
      obtain ⟨c, more, rfl, hc⟩ := h.exists_cons
      simp only [Node.IsRead, List.nil_append, List.cons_append] at hmembers
      simp only [Node.IsRead, List.cons_append, List.append_assoc,
        readValue_object hspace hinner hc, hmembers, Option.map_some]
  | lastItem h hafter ih =>
      refine (h.lastItem hafter).isReadFrom_of_succ fun fuel space rest hfuel hspace _ => ?_
      have hitem := ih fuel (by simp at hfuel; omega) hspace
        (hafter.endsValue_append_cons ']' (by simp) rest)
      simpa [Node.IsRead] using readItems_last hitem hafter
  | @item _ _ _ _ before more h hafter hbefore h' ih ih' =>
      refine (h.item hafter hbefore h').isReadFrom_of_succ
        fun fuel space rest hfuel hspace hrest => ?_
      have hitem := ih fuel (by simp at hfuel; omega) hspace
        (hafter.endsValue_append_cons ',' (by simp) (before ++ (more ++ rest)))
      have hitems := ih' fuel (by simp at hfuel; omega) hbefore hrest
      simpa [Node.IsRead] using readItems_cons hitem hafter hitems
  | member hkey hafter hbefore h ih =>
      refine (Spelling.member hkey hafter hbefore h).isReadFrom_of_succ
        fun fuel space rest hfuel hspace hrest => ?_
      have hvalue := ih fuel (by simp at hfuel; omega) hbefore hrest
      simpa [Node.IsRead] using readMember_eq hspace hkey hafter hvalue
  | lastMember h hafter ih =>
      refine (h.lastMember hafter).isReadFrom_of_succ fun fuel space rest hfuel hspace _ => ?_
      have hmember := ih fuel (by simp at hfuel; omega) hspace
        (hafter.endsValue_append_cons '}' (by simp) rest)
      simpa [Node.IsRead] using readMembers_last hmember hafter
  | @members _ _ _ _ before more h hafter hbefore h' ih ih' =>
      refine (h.members hafter hbefore h').isReadFrom_of_succ
        fun fuel space rest hfuel hspace hrest => ?_
      have hmember := ih fuel (by simp at hfuel; omega) hspace
        (hafter.endsValue_append_cons ',' (by simp) (before ++ (more ++ rest)))
      have hmembers := ih' fuel (by simp at hfuel; omega) hbefore hrest
      simpa [Node.IsRead] using readMembers_cons hmember hafter hmembers

theorem Spells.read?_eq {value : Value} {text : Text} (h : Spells value text) :
    read? text = some value := by
  obtain @⟨before, text, after, hbefore, htext, hafter⟩ := h
  have hread : readValue (3 * (before ++ (text ++ after)).length + 3) (before ++ (text ++ after)) =
      some (value, after) := by
    refine htext.isReadFrom _ ?_ hbefore ?_
    · simp only [List.length_append]
      omega
    · simpa using hafter.endsValue_append (show EndsValue [] by simp [EndsValue])
  rw [read?, hread]
  simp [skipSpace_of_areSpaces hafter]

/-! ## The writer -/

/-- A part that can be written: a code unit stands for half of a surrogate pair. -/
def LiteralPart.IsWritable : LiteralPart → Prop
  | char _ => True
  | surrogate n => 0xD800 ≤ n ∧ n < 0xE000

/-- A value that can be written: what it keeps as numbers are numbers, and its code units are halves
of surrogate pairs. -/
inductive Value.IsWritable : Value → Prop
  | null : IsWritable null
  | bool (b : Bool) : IsWritable (bool b)
  | number {written : Text} : IsNumber written → IsWritable (number written)
  | string {literal : Literal} : (∀ part ∈ literal, part.IsWritable) → IsWritable (string literal)
  | array {items : List Value} : (∀ item ∈ items, IsWritable item) → IsWritable (array items)
  | object {members : List (Literal × Value)} :
      (∀ member ∈ members, ∀ part ∈ member.1, part.IsWritable) →
      (∀ member ∈ members, IsWritable member.2) → IsWritable (object members)

theorem isHexDigit_hexDigit {n : Nat} (h : n < 16) : IsHexDigit (hexDigit n) n := by
  have hall : ∀ i < 16, "0123456789abcdef".toList[i]? = some (hexDigit i) := by decide
  exact Or.inl (hall n h)

theorem exists_isHexUnit_writeUnit {n : Nat} (h : n < 65536) :
    ∃ digits, writeUnit n = '\\' :: 'u' :: digits ∧ IsHexUnit digits n := by
  have hvalue : ((n / 4096 % 16 * 16 + n / 256 % 16) * 16 + n / 16 % 16) * 16 + n % 16 = n := by
    omega
  have hdigit : ∀ m, IsHexDigit (hexDigit (m % 16)) (m % 16) := fun m =>
    isHexDigit_hexDigit (Nat.mod_lt m (by decide))
  have hunit := IsHexUnit.intro (hdigit (n / 4096)) (hdigit (n / 256)) (hdigit (n / 16)) (hdigit n)
  rw [hvalue] at hunit
  exact ⟨_, rfl, hunit⟩

theorem partSpelling_writeChar (c : Char) : PartSpelling (.char c) (writeChar c) := by
  have hof : ∀ n, c.toNat = n → c = Char.ofNat n := by
    rintro n rfl
    exact (Char.ofNat_toNat c).symm
  unfold writeChar
  split_ifs with hquote hbackslash hnewline hreturn htab hback hfeed hcontrol
  · rw [hquote]
    exact .escape (by decide)
  · rw [hbackslash]
    exact .escape (by decide)
  · rw [hnewline]
    exact .escape (by decide)
  · rw [hreturn]
    exact .escape (by decide)
  · rw [htab]
    exact .escape (by decide)
  · rw [hof 8 hback]
    exact .escape (by decide)
  · rw [hof 12 hfeed]
    exact .escape (by decide)
  · obtain ⟨digits, hdigits, hunit⟩ := exists_isHexUnit_writeUnit (show c.toNat < 65536 by omega)
    have hspelling := PartSpelling.unit hunit (by omega)
    rwa [Char.ofNat_toNat, ← hdigits] at hspelling
  · exact .plain hquote hbackslash (Nat.not_lt.1 hcontrol)

theorem partSpelling_writePart {part : LiteralPart} (h : part.IsWritable) :
    PartSpelling part (writePart part) := by
  cases part with
  | char c => exact partSpelling_writeChar c
  | surrogate n =>
      have hrange : 0xD800 ≤ n ∧ n < 0xE000 := h
      obtain ⟨digits, hdigits, hunit⟩ := exists_isHexUnit_writeUnit (show n < 65536 by omega)
      rw [writePart, hdigits]
      exact .surrogate hunit hrange

theorem literalSpelling_flatMap {literal : Literal} (h : ∀ part ∈ literal, part.IsWritable) :
    LiteralSpelling literal (literal.flatMap writePart) := by
  induction literal with
  | nil => exact .nil
  | cons part parts ih =>
      rw [List.flatMap_cons]
      exact .cons (partSpelling_writePart (h part List.mem_cons_self))
        (ih fun p hp => h p (List.mem_cons_of_mem _ hp))

theorem areSpaces_lineBreak (level : Nat) : AreSpaces (lineBreak level) := by
  intro c hc
  rcases List.mem_cons.1 hc with rfl | hc
  · rfl
  · rw [List.eq_of_mem_replicate hc]
    rfl

theorem spelling_writeItems {item : Value} {items : List Value} {level : Nat} {space : Text}
    (hspace : AreSpaces space)
    (h : ∀ v ∈ item :: items, Spelling (.value v) (writeAt level v)) :
    Spelling (.items (item :: items))
      (writeAt level item ++ (writeItems level items ++ (space ++ [']']))) := by
  induction items generalizing item with
  | nil =>
      rw [writeItems, List.nil_append]
      exact .lastItem (h item List.mem_cons_self) hspace
  | cons next items ih =>
      have hmore := ih fun v hv => h v (List.mem_cons_of_mem _ hv)
      have hspelling := Spelling.item (h item List.mem_cons_self) areSpaces_nil
        (areSpaces_lineBreak level) hmore
      simpa [writeItems] using hspelling

theorem spelling_writeMember {key : Literal} {value : Value} {text : Text}
    (hkey : ∀ part ∈ key, part.IsWritable) (h : Spelling (.value value) text) :
    Spelling (.member (key, value)) (writeLiteral key ++ (": ".toList ++ text)) := by
  have hspace : AreSpaces [' '] := by simp [AreSpaces, isSpace]
  have hspelling := Spelling.member (literalSpelling_flatMap hkey) areSpaces_nil hspace h
  simpa [writeLiteral] using hspelling

theorem spelling_writeMembers {key : Literal} {value : Value} {members : List (Literal × Value)}
    {level : Nat} {space : Text} (hspace : AreSpaces space)
    (hkeys : ∀ m ∈ (key, value) :: members, ∀ part ∈ m.1, part.IsWritable)
    (h : ∀ m ∈ (key, value) :: members, Spelling (.value m.2) (writeAt level m.2)) :
    Spelling (.members ((key, value) :: members)) (writeLiteral key ++ (": ".toList ++
      (writeAt level value ++ (writeMembers level members ++ (space ++ ['}']))))) := by
  have hmember := spelling_writeMember (hkeys _ List.mem_cons_self) (h _ List.mem_cons_self)
  induction members generalizing key value with
  | nil =>
      have hspelling := Spelling.lastMember hmember hspace
      simpa [writeMembers] using hspelling
  | cons next members ih =>
      obtain ⟨key', value'⟩ := next
      have hkeys' := fun m hm => hkeys m (List.mem_cons_of_mem _ hm)
      have h' := fun m hm => h m (List.mem_cons_of_mem _ hm)
      have hmore := ih hkeys' h'
        (spelling_writeMember (hkeys' _ List.mem_cons_self) (h' _ List.mem_cons_self))
      have hspelling := Spelling.members hmember areSpaces_nil (areSpaces_lineBreak level) hmore
      simpa [writeMembers] using hspelling

theorem Value.IsWritable.spelling_writeAt {value : Value} (h : value.IsWritable) :
    ∀ level, Spelling (.value value) (writeAt level value) := by
  induction h with
  | null => exact fun _ => by rw [writeAt]; exact .null
  | bool b => exact fun _ => by rw [writeAt]; exact .bool b
  | number hnumber => exact fun _ => by rw [writeAt]; exact .number hnumber
  | string hparts =>
      intro level
      rw [writeAt, writeLiteral]
      exact .string (literalSpelling_flatMap hparts)
  | @array items _ ih =>
      intro level
      cases items with
      | nil =>
          rw [writeAt]
          exact .emptyArray areSpaces_nil
      | cons item items =>
          have hspelling := Spelling.array (areSpaces_lineBreak (level + 1))
            (spelling_writeItems (areSpaces_lineBreak level) fun v hv => ih v hv (level + 1))
          simpa [writeAt] using hspelling
  | @object members hkeys _ ih =>
      intro level
      cases members with
      | nil =>
          rw [writeAt]
          exact .emptyObject areSpaces_nil
      | cons member members =>
          obtain ⟨key, value⟩ := member
          have hspelling := Spelling.object (areSpaces_lineBreak (level + 1))
            (spelling_writeMembers (areSpaces_lineBreak level) hkeys
              fun m hm => ih m hm (level + 1))
          simpa [writeAt] using hspelling

/-- What the writer writes is a spelling of the value. -/
theorem Value.IsWritable.spells_write {value : Value} (h : value.IsWritable) :
    Spells value (write value) := by
  have hspells := Spells.intro areSpaces_nil (h.spelling_writeAt 0) areSpaces_nil
  rwa [List.nil_append, List.append_nil] at hspells

end PhpDoc.Json
