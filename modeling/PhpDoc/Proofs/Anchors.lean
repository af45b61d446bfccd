import Mathlib
import PhpDoc.Proofs.Declared
import PhpDoc.Proofs.Occurrences
import PhpDoc.Proofs.Reading

/-!
# Anchors of methods

The anchor of a method is its attribute lines and its declaration line.  The first mark of an
attribute line is `#` and that of a declaration line is a letter, so an anchor at a line start never
begins inside another occurrence of itself, and the anchors of a source do not overlap.
-/

namespace PhpDoc

/-! ## First marks -/

/-- The first character that is not blank. -/
def firstMark (text : Text) : Option Char :=
  text.trimStart.head?

theorem firstMark_append {front : Text} {c : Char} (h : firstMark front = some c) (rest : Text) :
    firstMark (front ++ rest) = some c := by
  obtain ⟨more, hmore⟩ := List.head?_eq_some_iff.1 h
  obtain ⟨blanks, hblanks, hfront⟩ := Text.exists_blanks_append_trimStart front
  have hc : isBlank c = false := Text.isBlank_eq_false_of_trimStart_eq_cons hmore
  rw [firstMark, hfront, hmore, List.append_assoc, Text.trimStart_append_of_blank hblanks,
    List.cons_append, Text.trimStart_cons_of_not_blank hc, List.head?_cons]

theorem firstMark_of_isAttributeLine {line : Text} (h : isAttributeLine line = true) :
    firstMark line = some '#' := by
  rw [isAttributeLine, Bool.and_eq_true, List.isPrefixOf_iff_prefix] at h
  obtain ⟨more, hmore⟩ := h.1.trans (Text.trimEnd_isPrefix line.trimStart)
  rw [firstMark, ← hmore]
  rfl

/-- Without its line feed, an attribute line still starts with its mark. -/
theorem firstMark_of_isAttributeLine_append {line : Text}
    (h : isAttributeLine (line ++ ['\n']) = true) : firstMark line = some '#' := by
  cases hmark : firstMark line with
  | some c =>
      have hboth := (firstMark_append hmark ['\n']).symm.trans (firstMark_of_isAttributeLine h)
      exact hboth
  | none =>
      exfalso
      obtain ⟨blanks, hblanks, hline⟩ := Text.exists_blanks_append_trimStart line
      rw [firstMark, List.head?_eq_none_iff] at hmark
      rw [hmark, List.append_nil] at hline
      have hnone : firstMark (line ++ ['\n']) = none := by
        rw [firstMark, hline, Text.trimStart_append_of_blank hblanks]
        rfl
      rw [firstMark_of_isAttributeLine h] at hnone
      contradiction

/-- A line that declares something: it has a mark, and that does not open an attribute. -/
structure IsDeclarationLine (line : Text) : Prop where
  newline_not_mem : '\n' ∉ line
  mark : ∃ c, firstMark line = some c ∧ c ≠ '#'

theorem IsDeclarationLine.ne_nil {line : Text} (h : IsDeclarationLine line) : line ≠ [] := by
  rintro rfl
  obtain ⟨c, hc, -⟩ := h.mark
  simp [firstMark, Text.trimStart] at hc

theorem IsDeclarationLine.not_isPrefix_attributes {line attributes tail : Text}
    (h : IsDeclarationLine line) (hattributes : AttributeLines attributes)
    (hne : attributes ≠ []) : ¬ line <+: attributes ++ tail := by
  intro hstarts
  cases hattributes with
  | nil => exact hne rfl
  | @cons first rest hnewline hfirst _ =>
      -- the declaration line ends before the line feed of the attribute line
      have hwithin : line <+: first := by
        have hfirst' : first <+: first ++ '\n' :: rest ++ tail :=
          ⟨'\n' :: rest ++ tail, by simp⟩
        rcases Nat.lt_or_ge first.length line.length with hlt | hle
        · have hover : first ++ ['\n'] <+: first ++ '\n' :: rest ++ tail :=
            ⟨rest ++ tail, by simp⟩
          have hline := List.prefix_of_prefix_length_le hover hstarts (by simpa using hlt)
          exact absurd (hline.subset (by simp)) h.newline_not_mem
        · exact List.prefix_of_prefix_length_le hstarts hfirst' hle
      obtain ⟨more, rfl⟩ := hwithin
      obtain ⟨c, hc, hmark⟩ := h.mark
      have hhash := firstMark_of_isAttributeLine_append hfirst
      rw [firstMark_append hc more] at hhash
      exact hmark (Option.some.inj hhash)

/-! ## Attribute lines cut at a line start -/

theorem AttributeLines.of_append {front rest : Text} (h : AttributeLines (front ++ rest))
    (hline : LineStartsAfter front) : AttributeLines front ∧ AttributeLines rest := by
  generalize htext : front ++ rest = text at h
  induction h generalizing front with
  | nil =>
      obtain ⟨rfl, rfl⟩ := List.append_eq_nil_iff.1 htext
      exact ⟨.nil, .nil⟩
  | @cons first more hnewline hfirst hmore ih =>
      by_cases hne : front = []
      · rw [hne, List.nil_append] at htext
        rw [hne, htext]
        exact ⟨.nil, .cons hnewline hfirst hmore⟩
      · obtain ⟨before, rfl⟩ := eq_append_newline_of_lineStartsAfter hline hne
        rw [List.append_assoc, List.singleton_append] at htext
        rcases Text.append_newline_cases hnewline htext with ⟨rfl, rfl⟩ | ⟨w, rfl, hlater⟩
        · exact ⟨.cons hnewline hfirst .nil, hmore⟩
        · have hw : (w ++ ['\n']) ++ rest = more := by simp [hlater]
          obtain ⟨hlines, hrest⟩ := ih (by simp [LineStartsAfter]) hw
          rw [List.append_assoc, List.cons_append]
          exact ⟨.cons hnewline hfirst hlines, hrest⟩

/-- Fewer attribute lines and then a declaration line do not start more attribute lines. -/
theorem not_isPrefix_of_fewer_attributes {fewer more line tail : Text}
    (hfewer : AttributeLines fewer) (hmore : AttributeLines more)
    (hlt : fewer.length < more.length) (hline : IsDeclarationLine line) :
    ¬ fewer ++ line <+: more ++ tail := by
  induction hfewer generalizing more with
  | nil =>
      have hne : more ≠ [] := List.ne_nil_of_length_pos (by simpa using hlt)
      exact hline.not_isPrefix_attributes hmore hne
  | @cons first fewer hfirst _ _ ih =>
      cases hmore with
      | nil => simp at hlt
      | @cons first' more hfirst' _ hmore =>
          rintro ⟨rest, hrest⟩
          have hparts : first ++ '\n' :: (fewer ++ line ++ rest) =
              first' ++ '\n' :: (more ++ tail) := by
            simpa using hrest
          rcases Text.append_newline_cases hfirst' hparts with ⟨rfl, hlater⟩ | ⟨w, rfl, -⟩
          · refine ih hmore ?_ ⟨rest, hlater⟩
            simp only [List.length_append, List.length_cons] at hlt
            omega
          · exact absurd (by simp) hfirst

/-! ## Occurrences of an anchor -/

/-- Attribute lines and then a declaration line. -/
inductive IsAnchor : Text → Prop
  | intro {attributes line : Text} : AttributeLines attributes → IsDeclarationLine line →
      IsAnchor (attributes ++ line)

theorem IsAnchor.ne_nil {anchor : Text} (h : IsAnchor anchor) : anchor ≠ [] := by
  obtain ⟨-, hline⟩ := h
  exact List.append_ne_nil_of_right_ne_nil _ hline.ne_nil

/-- No line starts after an anchor. -/
theorem IsAnchor.not_lineStartsAfter {anchor : Text} (h : IsAnchor anchor) (front : Text) :
    ¬ LineStartsAfter (front ++ anchor) := by
  obtain ⟨-, hline⟩ := h
  rw [← List.append_assoc, lineStartsAfter_append_iff _ hline.ne_nil]
  intro hstarts
  obtain ⟨before, rfl⟩ := eq_append_newline_of_lineStartsAfter hstarts hline.ne_nil
  exact hline.newline_not_mem (by simp)

/-- What is left of an anchor from a line start inside it on: fewer attribute lines, and the
declaration line. -/
theorem exists_attributes_of_append {attributes line front rest : Text}
    (hattributes : AttributeLines attributes) (hline : IsDeclarationLine line)
    (hfront : LineStartsAfter front) (hne : front ≠ [])
    (h : attributes ++ line = front ++ rest) :
    ∃ fewer, AttributeLines fewer ∧ rest = fewer ++ line ∧ fewer.length < attributes.length := by
  have hpos : 0 < front.length := List.length_pos_of_ne_nil hne
  rcases List.append_eq_append_iff.1 h with ⟨w, rfl, hrest⟩ | ⟨fewer, rfl, rfl⟩
  · cases w with
    | nil =>
        rw [List.append_nil] at hpos
        exact ⟨[], .nil, by simpa using hrest.symm, by simpa using hpos⟩
    | cons d w =>
        rw [lineStartsAfter_append_iff _ (by simp)] at hfront
        obtain ⟨before, hbefore⟩ := eq_append_newline_of_lineStartsAfter hfront (by simp)
        exact absurd (by simp [hrest, hbefore]) hline.newline_not_mem
  · refine ⟨fewer, (hattributes.of_append hfront).2, rfl, ?_⟩
    simp only [List.length_append]
    omega

/-- An occurrence of an anchor at a line start does not begin inside another one. -/
theorem IsAnchor.apart {anchor front rest u v : Text} (h : IsAnchor anchor)
    (hfront : LineStartsAfter front) (heq : front ++ anchor ++ rest = u ++ anchor ++ v)
    (hlt : u.length < front.length) : u.length + anchor.length ≤ front.length := by
  by_contra hinside
  rw [not_le] at hinside
  obtain @⟨attributes, line, hattributes, hline⟩ := h
  -- `w` is the part of the other occurrence in front of this one, `s` the part they share
  obtain ⟨w, rfl⟩ : u <+: front := by
    have hu : u <+: front ++ (attributes ++ line) ++ rest :=
      ⟨attributes ++ line ++ v, by rw [heq, List.append_assoc u]⟩
    have hstart : front <+: front ++ (attributes ++ line) ++ rest :=
      ⟨attributes ++ line ++ rest, by simp⟩
    exact List.prefix_of_prefix_length_le hu hstart hlt.le
  have hw : w ≠ [] := by
    rintro rfl
    simp at hlt
  rw [lineStartsAfter_append_iff _ hw] at hfront
  have hshift : w ++ (attributes ++ line ++ rest) = attributes ++ line ++ v := by simpa using heq
  have hshort : w.length < (attributes ++ line).length := by
    simp only [List.length_append] at hinside ⊢
    omega
  obtain ⟨s, hs⟩ : w <+: attributes ++ line :=
    List.prefix_of_prefix_length_le ⟨_, hshift⟩ (List.prefix_append _ v) hshort.le
  obtain ⟨fewer, hfewer, rfl, hless⟩ :=
    exists_attributes_of_append hattributes hline hfront hw hs.symm
  have htail : w ++ (attributes ++ line ++ rest) = w ++ (fewer ++ line ++ v) := by
    rw [hshift, ← hs, List.append_assoc w]
  have hstarts : fewer ++ line <+: attributes ++ (line ++ rest) :=
    ⟨v, by rw [← List.append_assoc attributes, List.append_cancel_left htail]⟩
  exact not_isPrefix_of_fewer_attributes hfewer hattributes hless hline hstarts

/-! ## Methods in their source -/

theorem firstLine_eq (text : Text) :
    firstLine text = Text.dropReturn (text.takeWhile (· != '\n')) := rfl

theorem firstLine_isPrefix (text : Text) : firstLine text <+: text.takeWhile (· != '\n') := by
  rw [firstLine_eq]
  rcases Text.dropReturn_cases (text.takeWhile (· != '\n')) with ⟨-, heq⟩ | hreturn
  · rw [heq]
  · exact ⟨['\r'], hreturn.symm⟩

/-- A line stops at its ending: a carriage return with a line feed, one that ends the text, or, when
no carriage return belongs to it, a line feed or the end of the text. -/
inductive EndsLine (line : Text) : Text → Prop
  | pair {rest : Text} : EndsLine line ('\r' :: '\n' :: rest)
  | lastReturn : EndsLine line ['\r']
  | feed {rest : Text} : line.getLast? ≠ some '\r' → EndsLine line ('\n' :: rest)
  | textEnd : line.getLast? ≠ some '\r' → EndsLine line []

/-- After the first line of a text comes its line ending, or nothing. -/
theorem exists_endsLine_firstLine (text : Text) :
    ∃ rest, text = firstLine text ++ rest ∧ EndsLine (firstLine text) rest := by
  have htext : text = text.takeWhile (· != '\n') ++ text.dropWhile (· != '\n') :=
    List.takeWhile_append_dropWhile.symm
  have hstarts := startsLine_iff.1 (startsLine_dropWhile text)
  rcases Text.dropReturn_cases (text.takeWhile (· != '\n')) with ⟨hlast, heq⟩ | hreturn
  · refine ⟨text.dropWhile (· != '\n'), by rw [firstLine_eq, heq]; exact htext, ?_⟩
    rw [firstLine_eq, heq]
    cases hrest : text.dropWhile (· != '\n') with
    | nil => exact .textEnd hlast
    | cons c rest =>
        obtain rfl : c = '\n' := hstarts c (by rw [hrest]; rfl)
        exact .feed hlast
  · refine ⟨'\r' :: text.dropWhile (· != '\n'), ?_, ?_⟩
    · conv_lhs => rw [htext, hreturn]
      rw [firstLine_eq]
      simp
    · cases hrest : text.dropWhile (· != '\n') with
      | nil => exact .lastReturn
      | cons c rest =>
          obtain rfl : c = '\n' := hstarts c (by rw [hrest]; rfl)
          exact .pair

theorem EndsLine.head?_eq {line rest : Text} (h : EndsLine line rest) :
    ∀ c ∈ rest.head?, c = '\n' ∨ c = '\r' := by
  cases h <;> simp

theorem exists_rest_of_firstLine (text : Text) :
    ∃ rest, text = firstLine text ++ rest ∧ ∀ c ∈ rest.head?, c = '\n' ∨ c = '\r' := by
  obtain ⟨rest, htext, hends⟩ := exists_endsLine_firstLine text
  exact ⟨rest, htext, hends.head?_eq⟩

/-- A text without line feeds that does not end in a carriage return stays in the first line. -/
theorem isPrefix_firstLine {front text : Text} (h : front <+: text) (hnewline : '\n' ∉ front)
    (hlast : front.getLast? ≠ some '\r') : front <+: firstLine text := by
  obtain ⟨rest, rfl⟩ := h
  have hline : (front ++ rest).takeWhile (· != '\n') = front ++ rest.takeWhile (· != '\n') :=
    List.takeWhile_append_of_pos fun c hc => by
      simpa using fun heq : c = '\n' => hnewline (heq ▸ hc)
  rw [firstLine_eq, hline]
  rcases Text.dropReturn_cases (front ++ rest.takeWhile (· != '\n')) with ⟨-, heq⟩ | hreturn
  · rw [heq]
    exact List.prefix_append _ _
  · -- the dropped carriage return is not the last character of `front`
    have hfront : front <+: Text.dropReturn (front ++ rest.takeWhile (· != '\n')) ++ ['\r'] :=
      ⟨_, hreturn⟩
    rcases List.prefix_concat_iff.1 (by simpa using hfront) with heq | hwithin
    · exact absurd (by rw [heq]; simp) hlast
    · exact hwithin

theorem firstMark_indent_append {indent word : Text} {c : Char}
    (hindent : ∀ d ∈ indent, isIndent d = true) (hc : isBlank c = false) :
    firstMark (indent ++ c :: word) = some c := by
  have hblanks : ∀ d ∈ indent, isBlank d = true := by
    intro d hd
    have hspace := hindent d hd
    rw [isIndent, Bool.or_eq_true, beq_iff_eq, beq_iff_eq] at hspace
    rcases hspace with rfl | rfl <;> rfl
  rw [firstMark, Text.trimStart_append_of_blank hblanks, Text.trimStart_cons_of_not_blank hc,
    List.head?_cons]

/-- The first line of a method head starts with a keyword. -/
theorem isDeclarationLine_of_readMethod? {text rest : Text} {head : MethodHead}
    (h : readMethod? text = some (head, rest)) : IsDeclarationLine (firstLine text) := by
  obtain ⟨keyword, hkeyword, hstarts⟩ := exists_keyword_of_readMethod? h
  obtain ⟨hne, hlower⟩ := isLower_of_mem_methodKeywords keyword hkeyword
  rw [List.all_eq_true] at hlower
  have hindent : ∀ d ∈ text.takeWhile isIndent, isIndent d = true := fun d hd =>
    List.mem_takeWhile_imp hd
  have hnewline : '\n' ∉ text.takeWhile isIndent ++ keyword := by
    rw [List.mem_append, not_or]
    exact ⟨fun hmem => absurd (hindent _ hmem) (by decide),
      fun hmem => absurd (hlower _ hmem) (by decide)⟩
  have hlast : (text.takeWhile isIndent ++ keyword).getLast? ≠ some '\r' := by
    rw [List.getLast?_append_of_ne_nil _ hne]
    exact fun hreturn => absurd (hlower _ (List.mem_of_getLast? hreturn)) (by decide)
  obtain ⟨more, hmore⟩ := isPrefix_firstLine hstarts hnewline hlast
  refine ⟨fun hmem => ?_, ?_⟩
  · exact newline_not_mem_takeWhile text ((firstLine_isPrefix text).subset hmem)
  · obtain ⟨c, word, rfl⟩ := List.exists_cons_of_ne_nil hne
    have hc : c.isLower = true := hlower c List.mem_cons_self
    refine ⟨c, ?_, ?_⟩
    · rw [← hmore]
      exact firstMark_append (firstMark_indent_append hindent (isBlank_of_isLower hc)) more
    · rintro rfl
      exact absurd hc (by decide)

/-- The method stands between the two texts: its anchor starts a line and ends one. -/
structure Method.Stands (m : Method) (source front rest : Text) : Prop where
  source_eq : source = front ++ m.anchor ++ rest
  length_eq : front.length = m.offset
  starts : LineStartsAfter front
  ends : ∀ c ∈ rest.head?, c = '\n' ∨ c = '\r'
  isAnchor : IsAnchor m.anchor

theorem lineStartsAfter_reverse_iff {behind : Text} :
    LineStartsAfter behind.reverse ↔ startsLine behind = true := by
  rw [LineStartsAfter, List.getLast?_reverse, startsLine_iff]

theorem startsLine_reverse_iff {front : Text} :
    startsLine front.reverse = true ↔ LineStartsAfter front := by
  rw [← lineStartsAfter_reverse_iff, List.reverse_reverse]

/-- Where the anchor of a method comes from. -/
theorem readMethod_eq_some {heads : List (Found Text)} {found : Found MethodHead} {m : Method}
    (h : readMethod heads found = some m) :
    ∃ behind attributes, splitAttributes found.behind = (behind, attributes) ∧
      m.anchor = attributes ++ firstLine found.ahead ∧
      m.offset = found.start - attributes.length := by
  simp only [readMethod, Option.bind_eq_bind, Option.pure_def] at h
  split at h
  · simp at h
  · simp only [Option.bind_eq_some_iff, Option.some.injEq, Prod.exists] at h
    obtain ⟨_, _, _, -, -, -, rfl⟩ := h
    exact ⟨_, _, rfl, rfl, rfl⟩

theorem exists_stands_of_readMethod {source : Text} {heads : List (Found Text)}
    {found : Found MethodHead} {m : Method} (hfound : found.StandsIn readMethod? source)
    (h : readMethod heads found = some m) :
    ∃ front attributes rest, m.Stands source front rest ∧ AttributeLines attributes ∧
      m.anchor = attributes ++ firstLine found.ahead ∧
      found.behind.reverse = front ++ attributes := by
  obtain ⟨behind, attributes, hsplit, hanchor, hoffset⟩ := readMethod_eq_some h
  obtain ⟨hbehind, hstarts, hattributes⟩ := splitAttributes_spec hfound.startsLine hsplit
  obtain ⟨rest, hahead, hends⟩ := exists_rest_of_firstLine found.ahead
  refine ⟨behind.reverse, attributes, rest, ⟨?_, ?_, ?_, hends, ?_⟩, hattributes, hanchor, hbehind⟩
  · rw [hfound.source_eq, hbehind, hanchor]
    conv_lhs => rw [hahead]
    simp
  · have hlength := congrArg List.length hbehind
    simp only [List.length_reverse, List.length_append] at hlength
    rw [hoffset, hfound.start_eq, List.length_reverse]
    omega
  · exact lineStartsAfter_reverse_iff.2 hstarts
  · rw [hanchor]
    exact .intro hattributes (isDeclarationLine_of_readMethod? hfound.read_eq)

/-- The attributes of a declaration do not reach up to the declaration line of another one that
stands above it. -/
theorem length_add_le_of_stands {source above ahead front attributes below : Text}
    (habove : source = above ++ ahead) (hline : LineStartsAfter above)
    (hdeclares : IsDeclarationLine (firstLine ahead))
    (hbelow : source = front ++ attributes ++ below) (hfront : LineStartsAfter front)
    (hattributes : AttributeLines attributes)
    (hlt : above.length < front.length + attributes.length) :
    above.length + (firstLine ahead).length ≤ front.length := by
  obtain ⟨rest, hahead, -⟩ := exists_rest_of_firstLine ahead
  have hsource : above ++ ahead = front ++ (attributes ++ below) := by
    rw [← habove, hbelow, List.append_assoc]
  rcases List.append_eq_append_iff.1 hsource with ⟨y, rfl, hy⟩ | ⟨x, rfl, hx⟩
  · by_cases hne : y = []
    · -- the line above would be the first of the attribute lines
      rw [hne, List.nil_append] at hy
      have hattributes' : attributes ≠ [] := by
        rintro rfl
        simp [hne] at hlt
      exact absurd ⟨rest, by rw [← hahead, hy]⟩
        (hdeclares.not_isPrefix_attributes hattributes hattributes')
    · rw [lineStartsAfter_append_iff _ hne] at hfront
      obtain ⟨before, rfl⟩ := eq_append_newline_of_lineStartsAfter hfront hne
      by_contra hlong
      simp only [List.length_append, List.length_singleton] at hlong
      have hwithin : before ++ ['\n'] <+: firstLine ahead := by
        refine List.prefix_of_prefix_length_le ⟨_, hy.symm⟩ ⟨rest, hahead.symm⟩ ?_
        simp only [List.length_append, List.length_singleton]
        omega
      exact hdeclares.newline_not_mem (hwithin.subset (by simp))
  · -- a line start inside the attribute lines is followed by the rest of them
    have hx' : x.length < attributes.length := by
      simp only [List.length_append] at hlt
      omega
    obtain ⟨later, rfl⟩ : x <+: attributes :=
      List.prefix_of_prefix_length_le ⟨_, hx.symm⟩ (List.prefix_append _ below) hx'.le
    have hlater : AttributeLines later := by
      by_cases hne : x = []
      · simpa [hne] using hattributes
      · rw [lineStartsAfter_append_iff _ hne] at hline
        exact (hattributes.of_append hline).2
    have hlaterne : later ≠ [] := by
      rintro rfl
      simp at hx'
    have hstarts : firstLine ahead <+: later ++ below := by
      rw [List.append_assoc] at hx
      exact ⟨rest, by rw [← hahead, List.append_cancel_left hx]⟩
    exact absurd hstarts (hdeclares.not_isPrefix_attributes hlater hlaterne)

/-- The anchors of the methods of a source follow one another without overlap. -/
theorem pairwise_readMethods (source : Text) (heads : List (Found Text)) :
    (readMethods source heads).Pairwise fun m n => m.offset + m.anchor.length ≤ n.offset := by
  have hscan := (pairwise_scan readMethod? source).imp_of_mem
    (S := fun f g => f.StandsIn readMethod? source ∧ g.StandsIn readMethod? source ∧
      f.start < g.start)
    fun hf hg hlt => ⟨standsIn_of_mem_scan hf, standsIn_of_mem_scan hg, hlt.1⟩
  refine hscan.filterMap _ fun f g hfg m hm n hn => ?_
  obtain ⟨hf, hg, hlt⟩ := hfg
  obtain ⟨front, attributes, rest, hstands, -, hanchor, hbehind⟩ :=
    exists_stands_of_readMethod hf hm
  obtain ⟨front', attributes', rest', hstands', hattributes', hanchor', hbehind'⟩ :=
    exists_stands_of_readMethod hg hn
  have hstart : f.start = front.length + attributes.length := by
    rw [hf.start_eq, ← List.length_reverse, hbehind, List.length_append]
  have hstart' : g.start = front'.length + attributes'.length := by
    rw [hg.start_eq, ← List.length_reverse, hbehind', List.length_append]
  have hle := length_add_le_of_stands hf.source_eq
    (lineStartsAfter_reverse_iff.2 hf.startsLine) (isDeclarationLine_of_readMethod? hf.read_eq)
    (hg.source_eq.trans (by rw [hbehind'])) hstands'.starts hattributes'
    (by rw [hbehind, List.length_append]; omega)
  rw [hbehind, List.length_append] at hle
  rw [← hstands.length_eq, ← hstands'.length_eq, hanchor, List.length_append]
  omega

theorem exists_stands_of_mem_readMethods {source : Text} {heads : List (Found Text)} {m : Method}
    (h : m ∈ readMethods source heads) : ∃ front rest, m.Stands source front rest := by
  obtain ⟨found, hfound, hm⟩ := List.mem_filterMap.1 h
  obtain ⟨front, -, rest, hstands, -⟩ :=
    exists_stands_of_readMethod (standsIn_of_mem_scan hfound) hm
  exact ⟨front, rest, hstands⟩

end PhpDoc
