import Mathlib
import PhpDoc.Proofs.NameResolution

/-!
# Type expressions

A declared type is a name that may be null, or names combined by unions, intersections and
parentheses.  Collapsing reads no such structure: it runs over the characters and collapses whatever
stands between two separators.  Written expressions are nevertheless collapsed name by name, because
what stands between two of their separators is a name or nothing, and nothing is collapsed to
nothing.
-/

namespace PhpDoc

/-- How two types are combined. -/
inductive TypeOperator where
  | union
  | intersection
deriving DecidableEq

/-- The character that combines two types. -/
def TypeOperator.sign : TypeOperator → Char
  | union => '|'
  | intersection => '&'

/-- Types that are built from names. -/
inductive TypeExpr (Name : Type) where
  | name (name : Name)
  | combined (left : TypeExpr Name) (operator : TypeOperator) (right : TypeExpr Name)
  | grouped (inner : TypeExpr Name)

namespace TypeExpr

/-- The same expression over other names. -/
def map {Name Other : Type} (f : Name → Other) : TypeExpr Name → TypeExpr Other
  | name n => name (f n)
  | combined left operator right => combined (left.map f) operator (right.map f)
  | grouped inner => grouped (inner.map f)

/-- The expression as it is written. -/
def text : TypeExpr Text → Text
  | name n => n
  | combined left operator right => left.text ++ operator.sign :: right.text
  | grouped inner => '(' :: (inner.text ++ [')'])

end TypeExpr

/-- A type as a declaration gives it: one name that may be null, or an expression. -/
inductive DeclaredType (Name : Type) where
  | nullable (name : Name)
  | plain (type : TypeExpr Name)

namespace DeclaredType

/-- The same type over other names. -/
def map {Name Other : Type} (f : Name → Other) : DeclaredType Name → DeclaredType Other
  | nullable n => nullable (f n)
  | plain type => plain (type.map f)

/-- The type as it is written. -/
def text : DeclaredType Text → Text
  | nullable n => '?' :: n
  | plain type => type.text

end DeclaredType

/-- Characters of a name in a type expression. -/
def isTypeNameChar (c : Char) : Bool :=
  !isBlank c && c != '?' && !ImportTable.isTypeSeparator c

/-- A name in a type expression. -/
structure TypeName where
  text : Text
  ne_nil : text ≠ []
  all_isTypeNameChar : text.all isTypeNameChar = true

/-! ## Characters of an expression -/

theorem TypeName.of_mem_text (name : TypeName) {c : Char} (h : c ∈ name.text) :
    isBlank c = false ∧ c ≠ '?' ∧ ImportTable.isTypeSeparator c = false := by
  simpa [isTypeNameChar, and_assoc] using List.all_eq_true.1 name.all_isTypeNameChar c h

theorem TypeOperator.isTypeSeparator_sign (operator : TypeOperator) :
    ImportTable.isTypeSeparator operator.sign = true := by
  cases operator <;> rfl

namespace ImportTable

theorem of_isTypeSeparator {c : Char} (h : isTypeSeparator c = true) :
    isBlank c = false ∧ c ≠ '?' := by
  have hcases : c = '|' ∨ c = '&' ∨ c = '(' ∨ c = ')' := by
    simpa [isTypeSeparator, or_assoc] using h
  rcases hcases with rfl | rfl | rfl | rfl <;> exact ⟨rfl, by decide⟩

end ImportTable

/-- A character of a written expression separates names or stands in one. -/
theorem TypeExpr.of_mem_text {type : TypeExpr TypeName} {c : Char}
    (h : c ∈ (type.map TypeName.text).text) : isBlank c = false ∧ c ≠ '?' := by
  induction type with
  | name n => exact ⟨(n.of_mem_text h).1, (n.of_mem_text h).2.1⟩
  | combined left operator right ihleft ihright =>
      rcases List.mem_append.1 h with h | h
      · exact ihleft h
      · rcases List.mem_cons.1 h with rfl | h
        · exact ImportTable.of_isTypeSeparator operator.isTypeSeparator_sign
        · exact ihright h
  | grouped inner ih =>
      rcases List.mem_cons.1 h with rfl | h
      · exact ImportTable.of_isTypeSeparator rfl
      · rcases List.mem_append.1 h with h | h
        · exact ih h
        · rw [List.mem_singleton.1 h]
          exact ImportTable.of_isTypeSeparator rfl

theorem DeclaredType.isBlank_of_mem_text {type : DeclaredType TypeName} {c : Char}
    (h : c ∈ (type.map TypeName.text).text) : isBlank c = false := by
  cases type with
  | nullable n =>
      rcases List.mem_cons.1 h with rfl | h
      · rfl
      · exact (n.of_mem_text h).1
  | plain type => exact (TypeExpr.of_mem_text h).1

/-- Blanks around a text without blanks are trimmed. -/
theorem Text.trim_surrounded {before text after : Text} (hbefore : ∀ c ∈ before, isBlank c = true)
    (hafter : ∀ c ∈ after, isBlank c = true) (htext : ∀ c ∈ text, isBlank c = false) :
    trim (before ++ text ++ after) = text := by
  cases text with
  | nil =>
      refine (trim_eq_nil_iff _).2 fun c hc => ?_
      rw [List.append_nil] at hc
      exact (List.mem_append.1 hc).elim (hbefore c) (hafter c)
  | cons c rest =>
      rw [trim, List.append_assoc, trimStart_append_of_blank hbefore, List.cons_append,
        trimStart_cons_of_not_blank (htext c List.mem_cons_self), ← List.cons_append,
        trimEnd_append_of_blank hafter]
      exact trimEnd_eq_self fun d hd => htext d (List.mem_of_getLast? hd)

/-! ## Collapsing between separators -/

namespace ImportTable

variable (t : ImportTable)

theorem collapseName_nil : t.collapseName [] = [] := by
  rw [collapseName]
  rfl

theorem typeParts_cons (c : Char) (text : Text) :
    typeParts (c :: text) =
      if isTypeSeparator c then ([], (c, (typeParts text).1) :: (typeParts text).2)
      else (c :: (typeParts text).1, (typeParts text).2) :=
  rfl

theorem typeParts_append_cons {c : Char} (hc : isTypeSeparator c = true) (front rest : Text) :
    typeParts (front ++ c :: rest) =
      ((typeParts front).1,
        (typeParts front).2 ++ (c, (typeParts rest).1) :: (typeParts rest).2) := by
  induction front with
  | nil => simp [typeParts, hc]
  | cons d front ih =>
      rw [List.cons_append, typeParts_cons, typeParts_cons, ih]
      split <;> rfl

/-- What stands before a separator and what stands behind it are collapsed on their own. -/
theorem collapseParts_append_cons {c : Char} (hc : isTypeSeparator c = true) (front rest : Text) :
    t.collapseParts (front ++ c :: rest) = t.collapseParts front ++ c :: t.collapseParts rest := by
  simp [collapseParts, typeParts_append_cons hc]

theorem collapseParts_typeName (name : TypeName) :
    t.collapseParts name.text = t.collapseName name.text :=
  t.collapseParts_of_not_separator fun _ hc => (name.of_mem_text hc).2.2

/-- An expression is collapsed name by name. -/
theorem collapseParts_text (type : TypeExpr TypeName) :
    t.collapseParts (type.map TypeName.text).text =
      (type.map fun n => t.collapseName n.text).text := by
  induction type with
  | name n => exact t.collapseParts_typeName n
  | combined left operator right ihleft ihright =>
      rw [TypeExpr.map, TypeExpr.text, t.collapseParts_append_cons operator.isTypeSeparator_sign,
        ihleft, ihright]
      rfl
  | grouped inner ih =>
      have hnil : t.collapseParts [] = [] := t.collapseName_nil
      have hopen : t.collapseParts ('(' :: ((inner.map TypeName.text).text ++ [')'])) =
          '(' :: t.collapseParts ((inner.map TypeName.text).text ++ [')']) := by
        simpa [hnil] using t.collapseParts_append_cons (c := '(') rfl []
          ((inner.map TypeName.text).text ++ [')'])
      rw [TypeExpr.map, TypeExpr.text, hopen, t.collapseParts_append_cons rfl, hnil, ih]
      rfl

/-- **Collapsing keeps the structure of a type.**  A written type, with or without blanks around it,
is collapsed to the same type with each of its names collapsed. -/
theorem collapse_replaces_names (type : DeclaredType TypeName) (before after : Text)
    (hbefore : ∀ c ∈ before, isBlank c = true) (hafter : ∀ c ∈ after, isBlank c = true) :
    t.collapse (before ++ (type.map TypeName.text).text ++ after) =
      (type.map fun n => t.collapseName n.text).text := by
  rw [collapse, Text.trim_surrounded hbefore hafter fun c hc => DeclaredType.isBlank_of_mem_text hc]
  cases type with
  | nullable n => exact congrArg ('?' :: ·) (t.collapseParts_typeName n)
  | plain type =>
      rw [DeclaredType.map, DeclaredType.text]
      split
      · next body hbody => exact absurd rfl (TypeExpr.of_mem_text (hbody ▸ List.mem_cons_self)).2
      · exact t.collapseParts_text type

/-- An imported class that can be counted, or nothing. -/
def countableUser : DeclaredType TypeName :=
  .plain (.combined
    (.grouped (.combined
      (.name ⟨"\\App\\Models\\User".toList, by decide, by decide⟩)
      .intersection
      (.name ⟨"Countable".toList, by decide, by decide⟩)))
    .union
    (.name ⟨"null".toList, by decide, by decide⟩))

theorem countableUser_collapse_replaces_names :
    (∀ c ∈ " ".toList, isBlank c = true) ∧ (∀ c ∈ "\t\n".toList, isBlank c = true) ∧
    controllerImports.collapse " (\\App\\Models\\User&Countable)|null\t\n".toList =
      "(User&Countable)|null".toList := by
  have hbefore : ∀ c ∈ " ".toList, isBlank c = true :=
    List.all_eq_true.1 rfl
  have hafter : ∀ c ∈ "\t\n".toList, isBlank c = true :=
    List.all_eq_true.1 rfl
  have hcollapse := collapse_replaces_names controllerImports countableUser _ _ hbefore hafter
  have hnames : (countableUser.map fun n => controllerImports.collapseName n.text).text =
      "(User&Countable)|null".toList := by decide
  exact ⟨hbefore, hafter, hcollapse.trans hnames⟩

end ImportTable
end PhpDoc
