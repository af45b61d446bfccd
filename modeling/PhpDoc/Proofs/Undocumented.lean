import Mathlib
import PhpDoc.Source.ClassDecl
import PhpDoc.Proofs.Anchors
import PhpDoc.Proofs.ReaderReach

/-!
# Which methods get a block

A method gets a block at the line of its declaration.  Whether it does can be read off the source
there: a method head is read at the start of the line, no head from an earlier line goes on into it,
the method is public, has parameters or a returned type, belongs to the class, and no doc comment
stands above it.

A scan leaves out what an earlier find covers.  Method heads end at their first parenthesis, so a
head that starts inside another one ends with it, and it does not matter which of the two is found.
-/

namespace PhpDoc

/-! ## What a scan finds -/

section Scan

variable {α : Type} {read : Text → Option (α × Text)}

/-- What can be read at a line start is found there, unless an earlier find covers the place. -/
theorem exists_mem_scanFrom {offset skip : Nat} {behind front ahead rest : Text} {value : α}
    (hne : ahead ≠ []) (hline : startsLine (front.reverse ++ behind) = true)
    (hread : read ahead = some (value, rest)) :
    front.length < skip ∨
      (∃ f ∈ scanFrom read offset behind skip (front ++ ahead), f.start = offset + front.length) ∨
      ∃ g ∈ scanFrom read offset behind skip (front ++ ahead),
        g.start < offset + front.length ∧ offset + front.length < g.start + g.length := by
  -- `skip` is what the last find still covers, so it may reach beyond the place
  induction front generalizing offset skip behind with
  | nil =>
      obtain ⟨c, ahead, rfl⟩ := List.exists_cons_of_ne_nil hne
      cases skip with
      | succ skip => exact Or.inl (Nat.succ_pos skip)
      | zero =>
          refine Or.inr (Or.inl ?_)
          have hbehind : startsLine behind = true := hline
          rw [List.nil_append, scanFrom, if_pos hbehind, hread]
          exact ⟨_, List.mem_cons_self, rfl⟩
  | cons c front ih =>
      have hline' : startsLine (front.reverse ++ (c :: behind)) = true := by simpa using hline
      have hoffset : offset + 1 + front.length = offset + (c :: front).length := by
        simp only [List.length_cons]
        omega
      cases skip with
      | succ skip =>
          rw [List.cons_append, scanFrom]
          rcases @ih (offset + 1) skip (c :: behind) hline' with hskip | hfound
          · exact Or.inl (Nat.succ_lt_succ hskip)
          · rw [hoffset] at hfound
            exact Or.inr hfound
      | zero =>
          rw [List.cons_append, scanFrom]
          split
          · next value' rest' hfirst =>
              rcases @ih (offset + 1)
                ((⟨offset, behind, c :: (front ++ ahead), rest', value'⟩ : Found α).length - 1)
                (c :: behind) hline' with hskip | ⟨f, hf, hstart⟩ | ⟨g, hg, hcovers⟩
              · have hlength : (c :: front).length <
                    (⟨offset, behind, c :: (front ++ ahead), rest', value'⟩ : Found α).length := by
                  rw [List.length_cons]
                  omega
                refine Or.inr (Or.inr ⟨_, List.mem_cons_self, ?_, ?_⟩)
                · exact Nat.lt_add_of_pos_right (Nat.succ_pos _)
                · exact Nat.add_lt_add_left hlength offset
              · exact Or.inr (Or.inl ⟨f, List.mem_cons_of_mem _ hf, hstart.trans hoffset⟩)
              · rw [hoffset] at hcovers
                exact Or.inr (Or.inr ⟨g, List.mem_cons_of_mem _ hg, hcovers⟩)
          · rcases @ih (offset + 1) 0 (c :: behind) hline' with hskip | hfound
            · exact absurd hskip (Nat.not_lt_zero _)
            · rw [hoffset] at hfound
              exact Or.inr hfound

/-- Two finds of a scan do not overlap. -/
theorem start_add_length_le {source : Text} {f g : Found α} (hf : f ∈ scan read source)
    (hg : g ∈ scan read source) (hlt : f.start < g.start) : f.start + f.length ≤ g.start := by
  obtain ⟨i, hi, rfl⟩ := List.getElem_of_mem hf
  obtain ⟨j, hj, rfl⟩ := List.getElem_of_mem hg
  have hpairs := List.pairwise_iff_getElem.1 (pairwise_scan read source)
  rcases Nat.lt_trichotomy i j with hij | rfl | hji
  · exact (hpairs i j hi hj hij).2
  · exact absurd hlt (Nat.lt_irrefl _)
  · exact absurd (hpairs j i hj hi hji).1 (Nat.lt_asymm hlt)

/-- The place of a find cuts the source in two. -/
theorem Found.StandsIn.eq_mk {source above ahead : Text} {f : Found α}
    (h : f.StandsIn read source) (hsource : source = above ++ ahead)
    (hstart : f.start = above.length) :
    f = ⟨above.length, above.reverse, ahead, f.rest, f.value⟩ := by
  have hcut := List.append_inj (h.source_eq.symm.trans hsource) (by
    rw [List.length_reverse, ← h.start_eq, hstart])
  obtain ⟨rfl, hahead⟩ := hcut
  cases f
  simp_all

end Scan

/-! ## Method heads -/

namespace LeadsTo

variable {text rest rest' : Text}

/-- What follows the first parenthesis is determined. -/
theorem paren_unique (h : LeadsTo '(' text ('(' :: rest)) (h' : LeadsTo '(' text ('(' :: rest')) :
    rest = rest' := by
  obtain ⟨front, rfl, hfront⟩ := h
  obtain ⟨front', heq, hfront'⟩ := h'
  have hdrop : ∀ {front : Text}, '(' ∉ front → ∀ rest : Text,
      (front ++ '(' :: rest).dropWhile (· != '(') = '(' :: rest := by
    intro front hfront rest
    refine Text.dropWhile_append_stop (fun c hc => ?_) (by simp)
    rw [bne_iff_ne]
    rintro rfl
    exact hfront hc
  have hsame := congrArg (List.dropWhile (· != '(')) heq
  rw [hdrop hfront, hdrop hfront'] at hsame
  exact (List.cons.inj hsame).2

/-- A text that starts before the parenthesis leads to it. -/
theorem of_inside {between : Text} (h : LeadsTo '(' (between ++ text) ('(' :: rest))
    (hlength : rest.length < text.length) : LeadsTo '(' text ('(' :: rest) := by
  obtain ⟨front, heq, hfront⟩ := h
  rcases List.append_eq_append_iff.1 heq with ⟨more, rfl, rfl⟩ | ⟨more, rfl, hrest⟩
  · exact ⟨more, rfl, fun hmem => hfront (List.mem_append_right _ hmem)⟩
  · have hnil : more = [] := by
      have hlengths := congrArg List.length hrest
      simp only [List.length_append, List.length_cons] at hlengths
      exact List.eq_nil_of_length_eq_zero (by omega)
    rw [hnil, List.nil_append] at hrest
    rw [← hrest]
    exact refl _

end LeadsTo

/-- Where a method head can be read, a scan finds it, or finds one around it that ends with it. -/
theorem exists_mem_scan_of_readMethod? {above ahead rest : Text} {head : MethodHead}
    (hstarts : LineStartsAfter above) (hread : readMethod? ahead = some (head, rest)) :
    ∃ g ∈ scan readMethod? (above ++ ahead), g.start ≤ above.length ∧ g.rest = rest := by
  have hleaves := (isLineReader_readMethod?.leaves hread).2
  have hne : ahead ≠ [] := List.ne_nil_of_length_pos (Nat.zero_lt_of_lt hleaves)
  have hline : startsLine (above.reverse ++ []) = true := by
    rw [List.append_nil, ← lineStartsAfter_reverse_iff, List.reverse_reverse]
    exact hstarts
  rcases @exists_mem_scanFrom _ _ 0 0 _ _ _ _ _ hne hline hread with
    hskip | ⟨g, hg, hstart⟩ | ⟨g, hg, hlt, hcovers⟩
  · exact absurd hskip (Nat.not_lt_zero _)
  · rw [Nat.zero_add] at hstart
    have hstands := standsIn_of_mem_scan hg
    have heq := hstands.eq_mk rfl hstart
    have hread' := hstands.read_eq
    rw [heq] at hread'
    have hsame := Option.some.inj (hread'.symm.trans hread)
    exact ⟨g, hg, hstart.le, congrArg Prod.snd hsame⟩
  · rw [Nat.zero_add] at hlt hcovers
    have hstands := standsIn_of_mem_scan hg
    have hsource := hstands.source_eq
    refine ⟨g, hg, hlt.le, ?_⟩
    rw [hstands.start_eq, ← List.length_reverse] at hlt
    obtain ⟨between, rfl⟩ : g.behind.reverse <+: above :=
      List.prefix_of_prefix_length_le ⟨_, hsource.symm⟩ (List.prefix_append _ _) hlt.le
    rw [List.append_assoc, List.append_cancel_left_eq] at hsource
    have hlong : g.rest.length < ahead.length := by
      rw [hstands.start_eq, Found.length, ← hsource] at hcovers
      simp only [List.length_append, List.length_reverse] at hcovers
      omega
    have hleads := leadsTo_of_readMethod? (Or.inl rfl) hstands.read_eq
    rw [← hsource] at hleads
    exact (hleads.of_inside hlong).paren_unique (leadsTo_of_readMethod? (Or.inl rfl) hread)

/-- A method is declared on the line between the two texts: its head can be read there, and no head
that starts on an earlier line goes on into the line. -/
structure IsMethodHead (above ahead : Text) (head : MethodHead) (rest : Text) : Prop where
  starts : LineStartsAfter above
  read_eq : readMethod? ahead = some (head, rest)
  fresh : ∀ earlier between head' rest', above = earlier ++ between → between ≠ [] →
    LineStartsAfter earlier → readMethod? (between ++ ahead) = some (head', rest') →
    ahead.length ≤ rest'.length

/-- A scan finds exactly the method heads that no earlier one goes on into. -/
theorem mem_scan_readMethod?_iff {above ahead rest : Text} {head : MethodHead} :
    (⟨above.length, above.reverse, ahead, rest, head⟩ : Found MethodHead) ∈
      scan readMethod? (above ++ ahead) ↔ IsMethodHead above ahead head rest := by
  constructor
  · intro hf
    have hstands := standsIn_of_mem_scan hf
    refine ⟨?_, hstands.read_eq, fun earlier between head' rest' habove hne hearlier hread => ?_⟩
    · have hline := lineStartsAfter_reverse_iff.2 hstands.startsLine
      rwa [List.reverse_reverse] at hline
    · obtain ⟨g, hg, hstart, rfl⟩ := exists_mem_scan_of_readMethod? hearlier hread
      rw [← List.append_assoc, ← habove] at hg
      have hlt : g.start < above.length := by
        refine lt_of_le_of_lt hstart ?_
        rw [habove, List.length_append]
        exact Nat.lt_add_of_pos_right (List.length_pos_of_ne_nil hne)
      have hapart := start_add_length_le hg hf hlt
      have hlengths := congrArg List.length (standsIn_of_mem_scan hg).source_eq
      rw [(standsIn_of_mem_scan hg).start_eq, Found.length] at hapart
      simp only [List.length_append, List.length_reverse] at hlengths
      dsimp only at hapart
      omega
  · intro h
    obtain ⟨g, hg, hstart, rfl⟩ := exists_mem_scan_of_readMethod? h.starts h.read_eq
    have hstands := standsIn_of_mem_scan hg
    rcases Nat.lt_or_eq_of_le hstart with hlt | hsame
    · -- an earlier head would go on into the line
      exfalso
      have hsource := hstands.source_eq
      rw [hstands.start_eq, ← List.length_reverse] at hlt
      obtain ⟨between, habove⟩ : g.behind.reverse <+: above :=
        List.prefix_of_prefix_length_le ⟨_, hsource.symm⟩ (List.prefix_append _ _) hlt.le
      rw [← habove, List.append_assoc, List.append_cancel_left_eq] at hsource
      have hread := hstands.read_eq
      rw [← hsource] at hread
      have hne : between ≠ [] := by
        rintro rfl
        rw [← habove, List.append_nil] at hlt
        exact Nat.lt_irrefl _ hlt
      have hle := h.fresh _ between _ _ habove.symm hne
        (lineStartsAfter_reverse_iff.2 hstands.startsLine) hread
      exact absurd (isLineReader_readMethod?.leaves h.read_eq).2 (Nat.not_lt.2 hle)
    · have heq := hstands.eq_mk rfl hsame
      have hread := hstands.read_eq
      rw [heq] at hread
      have hvalue : g.value = head :=
        congrArg Prod.fst (Option.some.inj (hread.symm.trans h.read_eq))
      rw [← hvalue, ← heq]
      exact hg

/-! ## Doc comments above -/

/-- A doc comment stands above, with nothing but blanks and attribute lines after it. -/
def HasDocAbove (above : Text) : Prop :=
  ∃ front comment gap attributes, above = front ++ comment ++ gap ++ attributes ∧
    IsDocComment comment ∧ (∀ c ∈ gap, isBlank c = true) ∧
    LineStartsAfter (front ++ comment ++ gap) ∧ AttributeLines attributes

/-- The last mark of a text that is blank after a doc comment is the slash of the comment. -/
theorem IsDocComment.endsPlain {comment gap : Text} (h : IsDocComment comment)
    (hgap : ∀ c ∈ gap, isBlank c = true) (front : Text) : EndsPlain (front ++ comment ++ gap) := by
  intro before line htext _ _
  by_contra hattribute
  rw [Bool.not_eq_false, isAttributeLine, Bool.and_eq_true, Text.endsWith,
    List.isPrefixOf_iff_prefix, List.isPrefixOf_iff_prefix, List.reverse_prefix] at hattribute
  obtain ⟨-, inner, hinner⟩ := hattribute
  -- the last mark is a bracket on the one side and a slash on the other
  have hbracket : (Text.trimEnd (front ++ comment ++ gap)).getLast? = some ']' := by
    obtain ⟨blanks, -, hline⟩ := Text.exists_blanks_append_trimStart (line ++ ['\n'])
    have hne : (line ++ ['\n']).trimStart.trimEnd ≠ [] := by
      rw [← Text.trim, ← hinner]
      simp
    rw [htext, hline, ← List.append_assoc, Text.trimEnd_append hne, ← Text.trim, ← hinner]
    simp
  have hslash : (Text.trimEnd (front ++ comment ++ gap)).getLast? = some '/' := by
    obtain ⟨body, rfl⟩ := h.closes
    have hlast : (front ++ (body ++ commentEnd)).getLast? = some '/' := by simp [commentEnd]
    rw [Text.trimEnd_append_of_blank hgap, Text.trimEnd_eq_self, hlast]
    intro c hc
    obtain rfl : '/' = c := Option.some.inj (hlast.symm.trans hc)
    decide
  rw [hbracket] at hslash
  contradiction

theorem isSome_precedingDoc?_iff {above : Text} (hstarts : LineStartsAfter above) :
    (precedingDoc? (splitAttributes above.reverse).1).isSome = true ↔ HasDocAbove above := by
  constructor
  · intro h
    obtain ⟨d, hd⟩ := Option.isSome_iff_exists.1 h
    obtain ⟨front, hfront, hgap, hcomment⟩ := precedingDoc?_spec hd
    have hline : startsLine above.reverse = true := by
      rwa [← lineStartsAfter_reverse_iff, List.reverse_reverse]
    cases hsplit : splitAttributes above.reverse with
    | mk behind attributes =>
        obtain ⟨habove, hplain, hattributes⟩ := splitAttributes_spec hline hsplit
        rw [hsplit] at hfront
        rw [List.reverse_reverse, hfront] at habove
        rw [← lineStartsAfter_reverse_iff, hfront] at hplain
        exact ⟨front, d.comment, d.gap, _, habove, hcomment, hgap, hplain, hattributes⟩
  · rintro ⟨front, comment, gap, attributes, rfl, hcomment, hgap, hline, hattributes⟩
    have hplain : startsLine (front ++ comment ++ gap).reverse = true := by
      rwa [← lineStartsAfter_reverse_iff, List.reverse_reverse]
    rw [splitAttributes_append hattributes hplain (hcomment.endsPlain hgap front),
      precedingDoc?_append hcomment hgap]
    rfl

/-! ## Methods -/

/-- Where the declaration line of a method starts. -/
def Method.lineStart (m : Method) : Nat :=
  m.offset + (m.anchor.length - m.signature.declarationLine.length)

theorem readMethod_eq_some_iff {heads : List (Found Text)} {found : Found MethodHead} {m : Method} :
    readMethod heads found = some m ↔
      ("private".toList ∉ found.value.modifiers ∧ "protected".toList ∉ found.value.modifiers) ∧
      ∃ list after parameters, enclosed? found.rest = some (list, after) ∧
        readParameters? list = some parameters ∧
        m = ⟨⟨found.value.name, parameters, returnType? after, firstLine found.ahead,
            (precedingDoc? (splitAttributes found.behind).1).map PrecedingDoc.comment,
            scopeAt heads found.start⟩,
          (splitAttributes found.behind).2 ++ firstLine found.ahead,
          found.start - (splitAttributes found.behind).2.length⟩ := by
  simp only [readMethod, Option.bind_eq_bind, Option.pure_def]
  by_cases hhidden : (found.value.modifiers.contains "private".toList ||
      found.value.modifiers.contains "protected".toList) = true
  · rw [if_pos hhidden]
    rw [Bool.or_eq_true, List.contains_iff_mem, List.contains_iff_mem] at hhidden
    constructor
    · intro h
      simp at h
    · rintro ⟨⟨hprivate, hprotected⟩, -⟩
      exact absurd hhidden (not_or.2 ⟨hprivate, hprotected⟩)
  · rw [if_neg hhidden]
    rw [Bool.or_eq_true, List.contains_iff_mem, List.contains_iff_mem, not_or] at hhidden
    simp only [Option.bind_eq_some_iff, Prod.exists, Option.some.injEq, hhidden,
      not_false_eq_true, and_self, true_and]
    constructor
    · rintro ⟨list, after, hlist, parameters, hparameters, rfl⟩
      exact ⟨list, after, parameters, hlist, hparameters, rfl⟩
    · rintro ⟨list, after, parameters, hlist, hparameters, rfl⟩
      exact ⟨list, after, hlist, parameters, hparameters, rfl⟩

/-- On the line between the two texts, a method of the class is declared that lacks a block: it is
public, it has parameters or a returned type, and no doc comment stands above it. -/
inductive Undocumented (className above ahead : Text) : Prop
  | intro {head : MethodHead} {rest list after : Text} {parameters : List Parameter}
      (hhead : IsMethodHead above ahead head rest)
      (hpublic : "private".toList ∉ head.modifiers ∧ "protected".toList ∉ head.modifiers)
      (hlist : enclosed? rest = some (list, after))
      (hparameters : readParameters? list = some parameters)
      (hcontent : parameters ≠ [] ∨ returnType? after ≠ none)
      (hscope : scopeAt (scan readTypeHead? (above ++ ahead)) above.length = className)
      (hdoc : ¬ HasDocAbove above)

theorem Method.lineStart_eq {heads : List (Found Text)} {found : Found MethodHead} {m : Method}
    {source : Text} (hfound : found.StandsIn readMethod? source)
    (h : readMethod heads found = some m) : m.lineStart = found.start := by
  obtain ⟨-, list, after, parameters, -, -, rfl⟩ := readMethod_eq_some_iff.1 h
  have habove := (splitAttributes_spec hfound.startsLine (Prod.mk.eta).symm).1
  have hlengths := congrArg List.length habove
  rw [List.length_reverse, List.length_append, ← hfound.start_eq] at hlengths
  rw [lineStart]
  dsimp only
  rw [List.length_append, Nat.add_sub_cancel]
  omega

/-- A doc comment is never blank, so a method is documented as soon as one stands above it. -/
theorem documented_iff {above : Text} (hstarts : LineStartsAfter above) {m : Signature}
    (hdoc : m.doc = (precedingDoc? (splitAttributes above.reverse).1).map PrecedingDoc.comment) :
    m.documented = true ↔ HasDocAbove above := by
  rw [← isSome_precedingDoc?_iff hstarts, Signature.documented, hdoc]
  cases hd : precedingDoc? (splitAttributes above.reverse).1 with
  | none => simp
  | some d =>
      obtain ⟨-, -, -, hcomment⟩ := precedingDoc?_spec hd
      simp [hcomment.trim_eq, hcomment.ne_nil]

theorem methods_of_read {path source : Text} {decl : ClassDecl}
    (h : ClassDecl.read path source = .ok decl) :
    decl.methods = readMethods source (scan readTypeHead? source) := by
  obtain ⟨home, head, -, -, rfl⟩ := ClassDecl.exists_heads_of_read h
  rfl

/-- A line gets a method block exactly when a method of the class is declared there that lacks
one. -/
theorem exists_block_iff {path above ahead : Text} {decl : ClassDecl}
    (h : ClassDecl.read path (above ++ ahead) = .ok decl) :
    (∃ m ∈ decl.methods, m.lineStart = above.length ∧
        m.signature.block? decl.name decl.imports ≠ none) ↔
      Undocumented decl.name above ahead := by
  rw [methods_of_read h, readMethods]
  constructor
  · rintro ⟨m, hm, hstart, hblock⟩
    obtain ⟨found, hfound, hread⟩ := List.mem_filterMap.1 hm
    have hstands := standsIn_of_mem_scan hfound
    rw [Method.lineStart_eq hstands hread] at hstart
    rw [hstands.eq_mk rfl hstart] at hfound hread
    have hhead := mem_scan_readMethod?_iff.1 hfound
    obtain ⟨hpublic, list, after, parameters, hlist, hparameters, rfl⟩ :=
      readMethod_eq_some_iff.1 hread
    rw [Ne, Signature.block?_eq_none_iff, Classical.not_imp, Classical.not_imp] at hblock
    obtain ⟨hscope, hcontent, hdoc⟩ := hblock
    exact .intro hhead hpublic hlist hparameters hcontent hscope
      (mt (documented_iff hhead.starts rfl).2 hdoc)
  · rintro @⟨head, rest, list, after, parameters, hhead, hpublic, hlist, hparameters, hcontent,
      hscope, hdoc⟩
    have hfound := mem_scan_readMethod?_iff.2 hhead
    have hread := (@readMethod_eq_some_iff (scan readTypeHead? (above ++ ahead))
      ⟨above.length, above.reverse, ahead, rest, head⟩ _).2
      ⟨hpublic, list, after, parameters, hlist, hparameters, rfl⟩
    refine ⟨_, List.mem_filterMap.2 ⟨_, hfound, hread⟩,
      Method.lineStart_eq (standsIn_of_mem_scan hfound) hread, ?_⟩
    rw [Ne, Signature.block?_eq_none_iff]
    exact fun hnone => mt (documented_iff hhead.starts rfl).1 hdoc (hnone hscope hcontent)

end PhpDoc
