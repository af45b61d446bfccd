import Mathlib
import PhpDoc.Source.Brackets
import PhpDoc.Proofs.Undocumented

/-!
# Method blocks and comments

Outside quoted strings, `/*` opens a comment and the next `*/` closes it.  A reader that goes
through the source from left to right knows at each place whether it is inside a comment; the first
half shows that it is right.

Methods are looked for on all lines, those inside comments included.  So a block goes into a comment
exactly when a method that lacks one is declared on a line of the comment, such as a method that was
commented out.  The usual layout, with a star in front of each line, keeps comments free of blocks.
-/

namespace PhpDoc

/-- The opening delimiter of a comment. -/
def commentStart : Text := "/*".toList

/-- Where a reader stands with respect to comments. -/
inductive Lexing where
  /-- Outside comments. -/
  | code (r : Reading)
  /-- Outside comments and quoted strings, after a slash. -/
  | slash
  /-- Inside a comment. -/
  | comment
  /-- Inside a comment, after a star. -/
  | star
deriving DecidableEq

namespace Lexing

/-- Where the reader stands after one more character. -/
def next : Lexing → Char → Lexing
  | code r, c => if r = .plain ∧ c = '/' then slash else code (r.next c)
  | slash, c =>
    if c = '*' then comment else if c = '/' then slash else code (Reading.plain.next c)
  | comment, c => if c = '*' then star else comment
  | star, c => if c = '/' then code .plain else if c = '*' then star else comment

/-- Where the reader stands after a text. -/
def after (text : Text) : Lexing :=
  text.foldl next (code .plain)

/-- Whether the reader is inside a comment. -/
def inComment : Lexing → Bool
  | comment | star => true
  | code _ | slash => false

/-- Whether the reader is outside comments and quoted strings. -/
def inCode : Lexing → Bool
  | code r => decide (r = .plain)
  | slash => true
  | comment | star => false

theorem after_append (front rest : Text) : after (front ++ rest) = rest.foldl next (after front) :=
  List.foldl_append

theorem after_concat (front : Text) (c : Char) : after (front ++ [c]) = (after front).next c :=
  after_append front [c]

theorem after_append_commentStart {front : Text} (h : (after front).inCode = true) :
    after (front ++ commentStart) = comment := by
  rw [after_append]
  cases hfront : after front with
  | code r =>
      obtain rfl : r = .plain := by simpa [hfront, inCode] using h
      rfl
  | slash => rfl
  | comment | star => simp [hfront, inCode] at h

/-- The slash that a reader has just passed. -/
theorem exists_of_after_eq_slash {text : Text} (h : after text = slash) :
    ∃ front, text = front ++ ['/'] ∧ (after front).inCode = true := by
  rcases List.eq_nil_or_concat text with rfl | ⟨front, c, rfl⟩
  · contradiction
  · rw [List.concat_eq_append] at h ⊢
    rw [after_concat] at h
    cases hfront : after front with
    | code r =>
        rw [hfront, next] at h
        split at h
        · next hslash => exact ⟨front, by rw [hslash.2], by simp [hfront, inCode, hslash.1]⟩
        · contradiction
    | slash =>
        rw [hfront, next] at h
        split at h
        · contradiction
        · split at h
          · next hslash => exact ⟨front, by rw [hslash], by simp [hfront, inCode]⟩
          · contradiction
    | comment =>
        rw [hfront, next] at h
        split at h <;> contradiction
    | star =>
        rw [hfront, next] at h
        split at h
        · contradiction
        · split at h <;> contradiction

theorem next_star_of_inComment {s : Lexing} (h : s.inComment = true) : s.next '*' = star := by
  cases s with
  | comment | star => rfl
  | code r => contradiction
  | slash => contradiction

/-- As long as no closing delimiter comes, the reader stays inside the comment. -/
theorem inComment_foldl (body : Text) :
    (¬ commentEnd <:+: body → (body.foldl next comment).inComment = true) ∧
      (¬ commentEnd <:+: '*' :: body → (body.foldl next star).inComment = true) := by
  -- both states at once: after a star, the star may belong to a closing delimiter
  induction body with
  | nil => exact ⟨fun _ => rfl, fun _ => rfl⟩
  | cons c body ih =>
      have htail : ∀ {d : Char} {text : Text}, ¬ commentEnd <:+: d :: text →
          ¬ commentEnd <:+: text := fun h hinside => h (List.infix_cons hinside)
      constructor
      · intro h
        rw [List.foldl_cons, next]
        split
        · next hstar =>
            rw [hstar] at h
            exact ih.2 h
        · exact ih.1 (htail h)
      · intro h
        rw [List.foldl_cons, next]
        split
        · next hslash =>
            rw [hslash] at h
            exact absurd ⟨[], body, rfl⟩ h
        · split
          · next hstar =>
              rw [hstar] at h
              exact ih.2 (htail h)
          · exact ih.1 (htail (htail h))

end Lexing

/-- A comment opens after the first text, and has not been closed in the second one. -/
structure IsOpenComment (front body : Text) : Prop where
  inCode : (Lexing.after front).inCode = true
  not_closed : ¬ commentEnd <:+: body

namespace Lexing

theorem inComment_of_isOpenComment {front body : Text} (h : IsOpenComment front body) :
    (after (front ++ commentStart ++ body)).inComment = true := by
  rw [after_append, after_append_commentStart h.inCode]
  exact (inComment_foldl body).1 h.not_closed

/-- A comment stays open with one more character if the reader stays inside it. -/
theorem isOpenComment_concat {front body : Text} {c : Char} (h : IsOpenComment front body)
    (hnext : ((after (front ++ commentStart ++ body)).next c).inComment = true) :
    IsOpenComment front (body ++ [c]) := by
  refine ⟨h.inCode, fun hclosed => ?_⟩
  rcases List.infix_concat_iff.1 hclosed with ⟨kept, hends⟩ | hinside
  · have hparts : kept ++ ['*'] ++ ['/'] = body ++ [c] := by
      rw [List.append_assoc]
      exact hends
    obtain ⟨rfl, hslash⟩ := List.append_inj' hparts rfl
    obtain rfl : '/' = c := List.singleton_inj.1 hslash
    -- the star before the slash was read inside the comment
    have hkept : IsOpenComment front kept :=
      ⟨h.inCode, fun hinside => h.not_closed (hinside.trans (List.prefix_append _ _).isInfix)⟩
    have hstar : after (front ++ commentStart ++ (kept ++ ['*'])) = star := by
      rw [← List.append_assoc, after_concat]
      exact next_star_of_inComment (inComment_of_isOpenComment hkept)
    rw [hstar] at hnext
    contradiction
  · exact h.not_closed hinside

/-- The reader is inside a comment exactly when the text leaves one open. -/
theorem inComment_after_iff (text : Text) :
    (after text).inComment = true ↔
      ∃ front body, text = front ++ commentStart ++ body ∧ IsOpenComment front body := by
  constructor
  · intro h
    -- by induction from the right: a comment is opened by a star, or was open before
    induction text using List.reverseRecOn with
    | nil => contradiction
    | append_singleton text c ih =>
        rw [after_concat] at h
        have hopen : (after text).inComment = true →
            ∃ front body, text ++ [c] = front ++ commentStart ++ body ∧
              IsOpenComment front body := by
          intro htext
          obtain ⟨front, body, rfl, hbody⟩ := ih htext
          exact ⟨front, body ++ [c], by rw [List.append_assoc], isOpenComment_concat hbody h⟩
        cases htext : after text with
        | comment => exact hopen (by rw [htext]; rfl)
        | star => exact hopen (by rw [htext]; rfl)
        | slash =>
            obtain ⟨front, rfl, hfront⟩ := exists_of_after_eq_slash htext
            rw [htext, next] at h
            split at h
            · next hstar =>
                refine ⟨front, [], ?_, hfront, by decide⟩
                rw [hstar, List.append_nil, List.append_assoc]
                rfl
            · split at h <;> contradiction
        | code r =>
            rw [htext, next] at h
            split at h <;> contradiction
  · rintro ⟨front, body, rfl, hopen⟩
    exact inComment_of_isOpenComment hopen

end Lexing

/-- The place after so many characters of the source is inside a comment. -/
def InComment (source : Text) (offset : Nat) : Prop :=
  (Lexing.after (source.take offset)).inComment = true

instance (source : Text) (offset : Nat) : Decidable (InComment source offset) :=
  inferInstanceAs (Decidable (_ = true))

namespace ClassDecl

variable {path source : Text} {decl : ClassDecl}

theorem exists_append_of_mem_methods (h : read path source = .ok decl) {m : Method}
    (hm : m ∈ decl.methods) : ∃ above ahead, source = above ++ ahead ∧
      m.lineStart = above.length := by
  rw [methods_of_read h, readMethods] at hm
  obtain ⟨found, hfound, hread⟩ := List.mem_filterMap.1 hm
  have hstands := standsIn_of_mem_scan hfound
  refine ⟨found.behind.reverse, found.ahead, hstands.source_eq, ?_⟩
  rw [Method.lineStart_eq hstands hread, hstands.start_eq, List.length_reverse]

/-- A line on which a method is declared starts with a small letter, behind indentation. -/
theorem not_isInert_of_undocumented {className above ahead : Text}
    (h : Undocumented className above ahead) : ¬ IsInert ahead := by
  obtain ⟨hhead, -, -, -, -, -, -⟩ := h
  intro hinert
  obtain ⟨c, hc, hlower⟩ := isLineReader_readMethod?.starts hhead.read_eq
  rw [hinert c hc] at hlower
  contradiction

/-- No method that gets a block is declared inside a comment of the source. -/
def SparesComments (decl : ClassDecl) (source : Text) : Prop :=
  ∀ m ∈ decl.methods, m.signature.block? decl.name decl.imports ≠ none →
    ¬ InComment source m.lineStart

/-- **When method blocks stay out of comments.**  No method that gets a block is declared inside a
comment, exactly when no line inside a comment declares a method of the class that lacks a block.
In particular it is so when every line that starts inside a comment starts with a star, or with
anything else than a small letter. -/
theorem sparesComments_iff (h : read path source = .ok decl) :
    (decl.SparesComments source ↔
      ∀ front body ahead, source = front ++ commentStart ++ body ++ ahead →
        IsOpenComment front body →
        ¬ Undocumented decl.name (front ++ commentStart ++ body) ahead) ∧
    ((∀ front body ahead, source = front ++ commentStart ++ body ++ ahead →
        IsOpenComment front body → LineStartsAfter (front ++ commentStart ++ body) →
        IsInert ahead) →
      decl.SparesComments source) := by
  have hspares : (∀ front body ahead, source = front ++ commentStart ++ body ++ ahead →
      IsOpenComment front body → ¬ Undocumented decl.name (front ++ commentStart ++ body) ahead) →
      decl.SparesComments source := by
    intro hlines m hm hblock hcomment
    obtain ⟨above, ahead, rfl, hstart⟩ := exists_append_of_mem_methods h hm
    rw [InComment, hstart, List.take_left] at hcomment
    obtain ⟨front, body, rfl, hopen⟩ := (Lexing.inComment_after_iff above).1 hcomment
    exact hlines front body ahead rfl hopen ((exists_block_iff h).1 ⟨m, hm, hstart, hblock⟩)
  refine ⟨⟨?_, hspares⟩, fun hinert => hspares ?_⟩
  · rintro hmethods front body ahead rfl hopen hundocumented
    obtain ⟨m, hm, hstart, hblock⟩ := (exists_block_iff h).2 hundocumented
    refine hmethods m hm hblock ?_
    rw [InComment, hstart, List.take_left]
    exact Lexing.inComment_of_isOpenComment hopen
  · intro front body ahead hsource hopen hundocumented
    refine not_isInert_of_undocumented hundocumented (hinert front body ahead hsource hopen ?_)
    obtain ⟨hhead, -, -, -, -, -, -⟩ := hundocumented
    exact hhead.starts

/-- A method declared in a comment, behind a star, and one declared after it. -/
def starredMethod : Text :=
  ("<?php\nnamespace A;\nclass X\n\x7b\n    /* Later:\n     * public function g(int $b)\n" ++
    "     */\n    public function f(int $a)\n\x7d\n").toList

theorem starredMethod_sparesComments : ∃ decl, read "X.php".toList starredMethod = .ok decl ∧
    decl.methods.map Method.lineStart = [84] ∧
    ∀ front body ahead, starredMethod = front ++ commentStart ++ body ++ ahead →
      IsOpenComment front body →
      ¬ Undocumented decl.name (front ++ commentStart ++ body) ahead := by
  have hlines : (read "X.php".toList starredMethod).map
      (fun decl => decl.methods.map Method.lineStart) = .ok [84] := by decide +kernel
  cases hread : read "X.php".toList starredMethod with
  | error fault =>
      rw [hread, Except.map] at hlines
      contradiction
  | ok decl =>
      rw [hread, Except.map, Except.ok.injEq] at hlines
      refine ⟨decl, rfl, hlines, (sparesComments_iff hread).1.1 fun m hm _ => ?_⟩
      have hstart : m.lineStart ∈ decl.methods.map Method.lineStart := List.mem_map_of_mem hm
      rw [hlines, List.mem_singleton] at hstart
      rw [hstart]
      decide +kernel

/-- A method that is commented out. -/
def commentedOutMethod : Text :=
  ("<?php\nnamespace A;\nclass X\n\x7b\n    /*\n    public function f(int $a)\n    */\n" ++
    "\x7d\n").toList

/-- That method gets a block, which closes the comment. -/
theorem commentedOutMethod_gets_block : ∃ decl,
    read "X.php".toList commentedOutMethod = .ok decl ∧
    ∃ m ∈ decl.methods, InComment commentedOutMethod m.lineStart ∧
      m.signature.block? decl.name decl.imports =
        some "    /**\n     * @param int $a\n     */".toList := by
  have hblocks : (read "X.php".toList commentedOutMethod).map (fun decl =>
      decl.methods.map fun m => (m.lineStart, m.signature.block? decl.name decl.imports)) =
      .ok [(36, some "    /**\n     * @param int $a\n     */".toList)] := by
    decide +kernel
  cases hread : read "X.php".toList commentedOutMethod with
  | error fault =>
      rw [hread, Except.map] at hblocks
      contradiction
  | ok decl =>
      rw [hread, Except.map, Except.ok.injEq] at hblocks
      have hmem := hblocks.symm ▸ List.mem_singleton_self
        (36, some "    /**\n     * @param int $a\n     */".toList)
      obtain ⟨m, hm, hparts⟩ := List.mem_map.1 hmem
      obtain ⟨hstart, hblock⟩ := Prod.mk.inj hparts
      refine ⟨decl, rfl, m, hm, ?_, hblock⟩
      rw [hstart]
      decide +kernel

end ClassDecl
end PhpDoc
