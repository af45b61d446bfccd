import Mathlib
import PhpDoc.Source.ClassDecl
import PhpDoc.Proofs.Above

/-!
# What a class declaration says

Names, types and the doc comment of a class that was read: the characters they are made of, and the
shape of the comment.
-/

namespace PhpDoc

/-- A fact as a class declares it: its name is an identifier, its type is written with the
characters of types, and no line comes with it. -/
structure PropertyFact.IsDeclared (fact : PropertyFact) : Prop where
  sourceLine_eq : fact.sourceLine = none
  name : ∀ c ∈ fact.name, isIdentifierChar c = true
  type : ∀ c ∈ fact.type, isPropertyTypeChar c = true

theorem isDeclared_of_mem_readProperties {source className : Text} {heads : List (Found Text)}
    {fact : PropertyFact} (h : fact ∈ readProperties source heads className) :
    fact.IsDeclared := by
  obtain ⟨found, hfound, hfact⟩ := List.mem_filterMap.1 h
  obtain ⟨hname, htype⟩ := readProperty?_eq_some (standsIn_of_mem_scan hfound).read_eq
  dsimp only at hfact
  split at hfact
  · obtain rfl := Option.some.inj hfact
    refine ⟨rfl, hname, ?_⟩
    cases hdeclared : found.value.type with
    | some type => exact htype type hdeclared
    | none =>
        have hmixed : "mixed".toList.all isPropertyTypeChar = true := by decide
        exact List.all_eq_true.1 hmixed
  · contradiction

/-! ## Parameters -/

theorem Parameter.of_ofToken? {type : Option Text} {token : Text} {p : Parameter}
    (h : ofToken? type token = some p) : p.type = type ∧ Text.isIdentifier p.name = true := by
  simp only [ofToken?, Option.bind_eq_bind, Option.bind_eq_some_iff] at h
  obtain ⟨name, -, h⟩ := h
  split at h
  · next hname =>
      obtain rfl := Option.some.inj h
      exact ⟨rfl, hname⟩
  · contradiction

theorem Parameter.isIdentifier_of_parse? {piece : Text} {p : Parameter}
    (h : parse? piece = some p) : Text.isIdentifier p.name = true := by
  rw [parse?] at h
  split at h
  · exact (of_ofToken? h).2
  · exact (of_ofToken? h).2
  · contradiction

theorem exists_of_mem_mapM {α β : Type} {f : α → Option β} {l : List α} {r : List β}
    (h : l.mapM f = some r) : ∀ b ∈ r, ∃ a ∈ l, f a = some b := by
  induction l generalizing r with
  | nil =>
      obtain rfl : [] = r := Option.some.inj h
      simp
  | cons a l ih =>
      simp only [List.mapM_cons, Option.bind_eq_bind, Option.bind_eq_some_iff, Option.pure_def,
        Option.some.injEq] at h
      obtain ⟨first, hfirst, more, hmore, rfl⟩ := h
      intro b hb
      rcases List.mem_cons.1 hb with rfl | hb
      · exact ⟨a, List.mem_cons_self, hfirst⟩
      · obtain ⟨a', ha', hfa'⟩ := ih hmore b hb
        exact ⟨a', List.mem_cons_of_mem _ ha', hfa'⟩

/-! ## The class -/

namespace ClassDecl

theorem doc_ofHead (path source home : Text) (head : Found Text) :
    (ofHead path source home head).doc =
      (precedingDoc? (splitAttributes head.behind).1).map PrecedingDoc.comment := rfl

theorem separator_ofHead (path source home : Text) (head : Found Text) :
    (ofHead path source home head).separator =
      ((precedingDoc? (splitAttributes head.behind).1).map PrecedingDoc.gap).getD
        (newlineOf source) := rfl

theorem anchor_ofHead (path source home : Text) (head : Found Text) :
    (ofHead path source home head).anchor = (splitAttributes head.behind).2 ++ head.text := rfl

/-- A class is read at the first namespace and at the first class head of its source. -/
theorem exists_scanFirst?_of_read {path source : Text} {decl : ClassDecl}
    (h : read path source = .ok decl) :
    ∃ (home head : Found Text), scanFirst? readNamespace? source = some home ∧
      scanFirst? readClassHead? source = some head ∧
      decl = ofHead path source home.value head := by
  rw [read] at h
  split at h
  · contradiction
  · next home hhome =>
      split at h
      · contradiction
      · next head hhead => exact ⟨home, head, hhome, hhead, (Except.ok.inj h).symm⟩

theorem exists_heads_of_read {path source : Text} {decl : ClassDecl}
    (h : read path source = .ok decl) :
    ∃ (home head : Found Text), home.StandsIn readNamespace? source ∧
      head.StandsIn readClassHead? source ∧ decl = ofHead path source home.value head := by
  obtain ⟨home, head, hhome, hhead, heq⟩ := exists_scanFirst?_of_read h
  exact ⟨home, head, standsIn_of_scanFirst? hhome, standsIn_of_scanFirst? hhead, heq⟩

theorem isIdentifierChar_of_mem_name {path source : Text} {decl : ClassDecl}
    (h : read path source = .ok decl) : ∀ c ∈ decl.name, isIdentifierChar c = true := by
  obtain ⟨home, head, -, hhead, rfl⟩ := exists_heads_of_read h
  exact isIdentifierChar_of_readHead? hhead.read_eq

theorem isPathChar_of_mem_home {path source : Text} {decl : ClassDecl}
    (h : read path source = .ok decl) : ∀ c ∈ decl.home, isPathChar c = true := by
  obtain ⟨home, head, hhome, -, rfl⟩ := exists_heads_of_read h
  exact isPathChar_of_readNamespace? hhome.read_eq

theorem isDeclared_of_mem_properties {path source : Text} {decl : ClassDecl}
    (h : read path source = .ok decl) : ∀ fact ∈ decl.properties, fact.IsDeclared := by
  obtain ⟨home, head, -, -, rfl⟩ := exists_heads_of_read h
  exact fun fact hfact => isDeclared_of_mem_readProperties hfact

theorem isDocComment_of_read {path source doc : Text} {decl : ClassDecl}
    (h : read path source = .ok decl) (hdoc : decl.doc = some doc) : IsDocComment doc := by
  obtain ⟨home, head, -, -, rfl⟩ := exists_heads_of_read h
  rw [doc_ofHead] at hdoc
  obtain ⟨d, hd, rfl⟩ := Option.map_eq_some_iff.1 hdoc
  obtain ⟨-, -, -, hcomment⟩ := precedingDoc?_spec hd
  exact hcomment

end ClassDecl

/-- Which methods get no block. -/
theorem Signature.block?_eq_none_iff (m : Signature) (className : Text) (imports : ImportTable) :
    m.block? className imports = none ↔ (m.declaringClass = className →
      (m.parameters ≠ [] ∨ m.returnType ≠ none) → m.documented = true) := by
  rw [block?, wantsBlock]
  cases hdoc : m.documented <;>
    by_cases hclass : m.declaringClass = className <;>
    cases hparameters : m.parameters <;>
    cases hreturn : m.returnType <;> simp [hclass]

end PhpDoc
