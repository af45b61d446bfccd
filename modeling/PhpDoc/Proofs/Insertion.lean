import Mathlib
import PhpDoc.Proofs.Anchors
import PhpDoc.Sync.Merge

/-!
# Merging is insertion

Blocks are merged one after the other, and each one looks for its place again in the text that the
earlier ones have made.  All the same the result is what one gets by replacing the old class block
and inserting every method block at the offset where the anchor was read, in one go.

The step lemma says that one method splice adds one insertion.  It rests on two facts: the anchors
stand in the order of the methods, so an insertion never changes the text from a later anchor on;
and an anchor at a line start is always found, so the only occurrence found is the one that was
read.
-/

namespace PhpDoc

/-! ## Insertions -/

/-- What is inserted before the character at the offset. -/
def additionsAt (additions : List (Nat × Text)) (offset : Nat) : Text :=
  (additions.filter fun addition => addition.1 == offset).flatMap Prod.snd

/-- The text, whose first character stands at `offset`, with every addition inserted before the
character at its offset. -/
def insertedFrom (additions : List (Nat × Text)) : (offset : Nat) → Text → Text
  | _, [] => []
  | offset, c :: text =>
    additionsAt additions offset ++ c :: insertedFrom additions (offset + 1) text

theorem insertedFrom_append (additions : List (Nat × Text)) (offset : Nat) (front rest : Text) :
    insertedFrom additions offset (front ++ rest) =
      insertedFrom additions offset front ++
        insertedFrom additions (offset + front.length) rest := by
  induction front generalizing offset with
  | nil => rfl
  | cons c front ih =>
      rw [List.cons_append, insertedFrom, insertedFrom, ih, List.length_cons]
      simp [Nat.add_assoc, Nat.add_comm 1]

theorem additionsAt_of_lt {additions : List (Nat × Text)} {offset : Nat}
    (h : ∀ addition ∈ additions, addition.1 < offset) : additionsAt additions offset = [] := by
  have hnone : additions.filter (fun addition => addition.1 == offset) = [] := by
    rw [List.filter_eq_nil_iff]
    intro addition hmem heq
    have hlt := h addition hmem
    rw [beq_iff_eq] at heq
    omega
  rw [additionsAt, hnone, List.flatMap_nil]

theorem insertedFrom_of_lt {additions : List (Nat × Text)} {offset : Nat}
    (h : ∀ addition ∈ additions, addition.1 < offset) (text : Text) :
    insertedFrom additions offset text = text := by
  induction text generalizing offset with
  | nil => rfl
  | cons c text ih =>
      have hnext : ∀ addition ∈ additions, addition.1 < offset + 1 := fun addition hmem =>
        Nat.lt_succ_of_lt (h addition hmem)
      rw [insertedFrom, additionsAt_of_lt h, ih hnext, List.nil_append]

theorem additionsAt_concat (additions : List (Nat × Text)) (o : Nat) (t : Text) (offset : Nat) :
    additionsAt (additions ++ [(o, t)]) offset =
      additionsAt additions offset ++ if o = offset then t else [] := by
  by_cases h : o = offset <;> simp [additionsAt, h]

theorem insertedFrom_concat_of_outside (additions : List (Nat × Text)) {o offset : Nat}
    {text : Text} (h : o < offset ∨ offset + text.length ≤ o) (t : Text) :
    insertedFrom (additions ++ [(o, t)]) offset text = insertedFrom additions offset text := by
  induction text generalizing offset with
  | nil => rfl
  | cons c text ih =>
      rw [List.length_cons] at h
      have hne : o ≠ offset := by omega
      have hnext : o < offset + 1 ∨ offset + 1 + text.length ≤ o := by omega
      rw [insertedFrom, insertedFrom, additionsAt_concat, if_neg hne, List.append_nil, ih hnext]

/-- An addition after all others is inserted in front of an otherwise unchanged text. -/
theorem insertedFrom_concat_self {additions : List (Nat × Text)} {offset : Nat}
    (h : ∀ addition ∈ additions, addition.1 < offset) {text : Text} (hne : text ≠ []) (t : Text) :
    insertedFrom (additions ++ [(offset, t)]) offset text = t ++ text := by
  obtain ⟨c, more, rfl⟩ := List.exists_cons_of_ne_nil hne
  have hnext : ∀ addition ∈ additions ++ [(offset, t)], addition.1 < offset + 1 := by
    intro addition hmem
    rcases List.mem_append.1 hmem with hmem | hmem
    · exact Nat.lt_succ_of_lt (h addition hmem)
    · rw [List.mem_singleton.1 hmem]
      exact Nat.lt_succ_self offset
  rw [insertedFrom, additionsAt_concat, additionsAt_of_lt h, if_pos rfl, insertedFrom_of_lt hnext,
    List.nil_append]

theorem insertedFrom_ne_nil (additions : List (Nat × Text)) (offset : Nat) {text : Text}
    (h : text ≠ []) : insertedFrom additions offset text ≠ [] := by
  obtain ⟨c, more, rfl⟩ := List.exists_cons_of_ne_nil h
  simp [insertedFrom]

theorem lineStartsAfter_insertedFrom (additions : List (Nat × Text)) (offset : Nat) {text : Text}
    (h : LineStartsAfter text) : LineStartsAfter (insertedFrom additions offset text) := by
  by_cases hne : text = []
  · rw [hne]
    exact lineStartsAfter_nil
  · -- the last character stays the last one
    obtain ⟨before, rfl⟩ := eq_append_newline_of_lineStartsAfter h hne
    rw [insertedFrom_append, insertedFrom, insertedFrom, ← List.append_assoc]
    simp [LineStartsAfter]

/-! ## One method -/

/-- A text whose middle is replaced, with additions on both sides of it. -/
def woven (additions : List (Nat × Text)) (front previous replacement rest : Text) : Text :=
  insertedFrom additions 0 front ++ replacement ++
    insertedFrom additions (front.length + previous.length) rest

/-- The method stands outside the replaced text. -/
def Method.IsApart (m : Method) (front previous : Text) : Prop :=
  m.offset + m.anchor.length ≤ front.length ∨ front.length + previous.length ≤ m.offset

instance (m : Method) (front previous : Text) : Decidable (m.IsApart front previous) :=
  inferInstanceAs (Decidable (_ ∨ _))

/-- The anchor stands in the woven text as a line of its own, and an addition at its offset goes
directly in front of it. -/
def Method.StandsWoven (m : Method) (additions : List (Nat × Text))
    (front previous replacement rest : Text) : Prop :=
  ∃ head tail, LineStartsAfter head ∧ (∀ c ∈ tail.head?, c = '\n' ∨ c = '\r') ∧
    woven additions front previous replacement rest = head ++ m.anchor ++ tail ∧
    ∀ t, woven (additions ++ [(m.offset, t)]) front previous replacement rest =
      head ++ t ++ m.anchor ++ tail

section

variable {m : Method} {source front previous rest above below : Text}
  {additions : List (Nat × Text)}

theorem standsWoven_of_left (replacement : Text) (hstands : m.Stands source above below)
    (hsource : source = front ++ previous ++ rest) (hfront : LineStartsAfter front)
    (hleft : m.offset + m.anchor.length ≤ front.length)
    (hbefore : ∀ addition ∈ additions, addition.1 < m.offset) :
    m.StandsWoven additions front previous replacement rest := by
  have hne := hstands.isAnchor.ne_nil
  have hpos : 0 < m.anchor.length := List.length_pos_of_ne_nil hne
  have hlength := hstands.length_eq
  have hparts : above ++ m.anchor ++ below = front ++ previous ++ rest :=
    hstands.source_eq.symm.trans hsource
  obtain ⟨middle, rfl⟩ : above ++ m.anchor <+: front := by
    have hwhole : above ++ m.anchor <+: front ++ previous ++ rest := ⟨below, hparts⟩
    have hfirst : front <+: front ++ previous ++ rest := ⟨previous ++ rest, by simp⟩
    refine List.prefix_of_prefix_length_le hwhole hfirst ?_
    rw [List.length_append]
    omega
  have hbelow : below = middle ++ (previous ++ rest) := by
    simpa [List.append_assoc] using hparts
  -- the anchor does not end a line, and the replaced text starts one
  have hmiddle : middle ≠ [] := by
    rintro rfl
    rw [List.append_nil] at hfront
    exact hstands.isAnchor.not_lineStartsAfter above hfront
  refine ⟨insertedFrom additions 0 above,
    middle ++ replacement ++
      insertedFrom additions ((above ++ m.anchor ++ middle).length + previous.length) rest,
    lineStartsAfter_insertedFrom _ _ hstands.starts, ?_, ?_, fun t => ?_⟩
  · obtain ⟨c, more, rfl⟩ := List.exists_cons_of_ne_nil hmiddle
    intro d hd
    exact hstands.ends d (by simpa [hbelow] using hd)
  · rw [woven, List.append_assoc above, insertedFrom_append, Nat.zero_add, hlength,
      insertedFrom_of_lt hbefore]
    simp
  · have hpast : m.offset < (above ++ (m.anchor ++ middle)).length + previous.length := by
      simp only [List.length_append]
      omega
    rw [woven, List.append_assoc above, insertedFrom_append, Nat.zero_add, hlength,
      insertedFrom_concat_of_outside additions (Or.inr (by omega)),
      insertedFrom_concat_self hbefore (by simp [hne]),
      insertedFrom_concat_of_outside additions (Or.inl hpast)]
    simp

theorem standsWoven_of_right (replacement : Text) (hstands : m.Stands source above below)
    (hsource : source = front ++ previous ++ rest) (hprevious : ¬ LineStartsAfter previous)
    (hright : front.length + previous.length ≤ m.offset)
    (hbefore : ∀ addition ∈ additions, addition.1 < m.offset) :
    m.StandsWoven additions front previous replacement rest := by
  have hne := hstands.isAnchor.ne_nil
  have hlength := hstands.length_eq
  have hparts : above ++ m.anchor ++ below = front ++ previous ++ rest :=
    hstands.source_eq.symm.trans hsource
  obtain ⟨middle, rfl⟩ : front ++ previous <+: above := by
    have hwhole : above <+: front ++ previous ++ rest := ⟨m.anchor ++ below, by simp [← hparts]⟩
    have hfirst : front ++ previous <+: front ++ previous ++ rest := ⟨rest, rfl⟩
    refine List.prefix_of_prefix_length_le hfirst hwhole ?_
    rw [List.length_append]
    omega
  obtain rfl : middle ++ (m.anchor ++ below) = rest := by
    simpa [List.append_assoc] using hparts
  -- the replaced text does not end a line, and the anchor starts one
  have hmiddle : middle ≠ [] := by
    rintro rfl
    have hstarts := hstands.starts
    have hprevious' : previous ≠ [] := by
      rintro rfl
      exact hprevious lineStartsAfter_nil
    rw [List.append_nil, lineStartsAfter_append_iff _ hprevious'] at hstarts
    exact hprevious hstarts
  have hoffset : front.length + previous.length + middle.length = m.offset := by
    rw [← hlength, List.length_append, List.length_append]
  refine ⟨insertedFrom additions 0 front ++ replacement ++
    insertedFrom additions (front.length + previous.length) middle, below, ?_, hstands.ends, ?_,
    fun t => ?_⟩
  · have hstarts := (lineStartsAfter_append_iff _ hmiddle).1 hstands.starts
    rw [lineStartsAfter_append_iff _ (insertedFrom_ne_nil _ _ hmiddle)]
    exact lineStartsAfter_insertedFrom _ _ hstarts
  · rw [woven, insertedFrom_append, hoffset, insertedFrom_of_lt hbefore]
    simp
  · rw [woven, insertedFrom_append, hoffset, insertedFrom_concat_self hbefore (by simp [hne]),
      insertedFrom_concat_of_outside additions (Or.inr (by omega)),
      insertedFrom_concat_of_outside additions (Or.inr (by omega))]
    simp

end

/-- What a method adds to its source: its block, at the offset of its anchor. -/
def ClassDecl.addition? (decl : ClassDecl) (m : Method) : Option (Nat × Text) :=
  (m.signature.block? decl.name decl.imports).map fun block =>
    (m.offset, decl.withNewlines block ++ decl.newline)

theorem endsName_of_ends {tail : Text} (h : ∀ c ∈ tail.head?, c = '\n' ∨ c = '\r') :
    endsName tail = true := by
  cases tail with
  | nil => rfl
  | cons c tail =>
      have hnewline : (isAlphanumeric '\n' || '\n' == '_') = false := by decide
      have hreturn : (isAlphanumeric '\r' || '\r' == '_') = false := by decide
      rcases h c rfl with rfl | rfl
      · rw [endsName, List.head?_cons, Option.any_some, hnewline, Bool.not_false]
      · rw [endsName, List.head?_cons, Option.any_some, hreturn, Bool.not_false]

/-- A method splice that succeeds replaces the anchor that was read. -/
theorem spliceRequired_anchor {anchor head tail replacement text : Text} (hanchor : IsAnchor anchor)
    (hhead : LineStartsAfter head) (htail : ∀ c ∈ tail.head?, c = '\n' ∨ c = '\r')
    (h : spliceRequired (head ++ anchor ++ tail) anchor replacement = .ok text) :
    text = head ++ replacement ++ tail := by
  obtain ⟨head', tail', hparts, honly, rfl⟩ := spliceRequired_eq_ok_iff.1 h
  have hmem : head.length ∈ anchoredOccurrences (head ++ anchor ++ tail) anchor :=
    mem_anchoredOccurrences hanchor.ne_nil hhead (endsName_of_ends htail)
      fun u v heq hlt => hanchor.apart hhead heq hlt
  rw [honly, List.mem_singleton] at hmem
  rw [List.append_assoc, List.append_assoc] at hparts
  obtain ⟨rfl, hrest⟩ := List.append_inj hparts hmem
  rw [List.append_cancel_left hrest]

namespace ClassDecl

variable {decl : ClassDecl} {source front previous replacement rest : Text}

/-- Splicing the block of one method adds its addition to the woven text. -/
theorem spliceMethod_woven {m : Method} {additions : List (Nat × Text)} {text : Text}
    (hstands : ∃ above below, m.Stands source above below)
    (hsource : source = front ++ previous ++ rest) (hfront : LineStartsAfter front)
    (hprevious : ¬ LineStartsAfter previous)
    (hapart : (decl.addition? m).isSome → m.IsApart front previous)
    (hbefore : ∀ addition ∈ additions, addition.1 < m.offset)
    (h : decl.spliceMethod (woven additions front previous replacement rest) m = .ok text) :
    text = woven (additions ++ (decl.addition? m).toList) front previous replacement rest := by
  obtain ⟨above, below, hstands⟩ := hstands
  rw [spliceMethod] at h
  cases hblock : m.signature.block? decl.name decl.imports with
  | none =>
      simp only [hblock, Except.ok.injEq] at h
      simp [addition?, hblock, h]
  | some block =>
      have haddition : decl.addition? m =
          some (m.offset, decl.withNewlines block ++ decl.newline) := by
        rw [addition?, hblock, Option.map_some]
      have hwoven : m.StandsWoven additions front previous replacement rest := by
        rcases hapart (by rw [haddition]; rfl) with hleft | hright
        · exact standsWoven_of_left replacement hstands hsource hfront hleft hbefore
        · exact standsWoven_of_right replacement hstands hsource hprevious hright hbefore
      obtain ⟨head, tail, hhead, htail, heq, hadd⟩ := hwoven
      simp only [hblock, heq] at h
      rw [spliceRequired_anchor hstands.isAnchor hhead htail h, haddition, Option.toList_some, hadd]
      simp

/-- Splicing the blocks of methods that stand in order, after all additions made so far, adds the
additions of them all. -/
theorem foldlM_spliceMethod_woven {methods : List Method} {additions : List (Nat × Text)}
    {text : Text} (hstands : ∀ m ∈ methods, ∃ above below, m.Stands source above below)
    (horder : methods.Pairwise fun m n => m.offset + m.anchor.length ≤ n.offset)
    (hsource : source = front ++ previous ++ rest) (hfront : LineStartsAfter front)
    (hprevious : ¬ LineStartsAfter previous)
    (hapart : ∀ m ∈ methods, (decl.addition? m).isSome → m.IsApart front previous)
    (hbefore : ∀ addition ∈ additions, ∀ m ∈ methods, addition.1 < m.offset)
    (h : methods.foldlM decl.spliceMethod (woven additions front previous replacement rest) =
      .ok text) :
    text = woven (additions ++ methods.filterMap decl.addition?) front previous replacement
      rest := by
  induction methods generalizing additions with
  | nil =>
      simp only [List.foldlM_nil, pure, Except.pure, Except.ok.injEq] at h
      simp [h]
  | cons m methods ih =>
      obtain ⟨hfirst, horder⟩ := List.pairwise_cons.1 horder
      cases hm : decl.spliceMethod (woven additions front previous replacement rest) m with
      | error fault => simp [List.foldlM_cons, hm, bind, Except.bind] at h
      | ok next =>
          have hnext := spliceMethod_woven (hstands m List.mem_cons_self) hsource hfront hprevious
            (hapart m List.mem_cons_self)
            (fun addition hmem => hbefore addition hmem m List.mem_cons_self) hm
          rw [List.foldlM_cons, hm, hnext] at h
          -- the additions so far still come before every later method
          have hlater : ∀ addition ∈ additions ++ (decl.addition? m).toList,
              ∀ n ∈ methods, addition.1 < n.offset := by
            intro addition hmem n hn
            rcases List.mem_append.1 hmem with hmem | hmem
            · exact hbefore addition hmem n (List.mem_cons_of_mem _ hn)
            · obtain ⟨block, -, rfl⟩ := Option.map_eq_some_iff.1 (Option.mem_toList.1 hmem)
              obtain ⟨above, below, hm⟩ := hstands m List.mem_cons_self
              have hpos := List.length_pos_of_ne_nil hm.isAnchor.ne_nil
              have hle := hfirst n hn
              dsimp only
              omega
          have hall := ih (fun n hn => hstands n (List.mem_cons_of_mem _ hn)) horder
            (fun n hn => hapart n (List.mem_cons_of_mem _ hn)) hlater h
          rw [hall, List.append_assoc]
          cases hadd : decl.addition? m <;> simp [hadd]

/-! ## The whole merge -/

/-- The text that a class block replaces ends with the name of the class. -/
theorem exists_previous_eq {path : Text} (h : read path source = .ok decl) :
    decl.name ≠ [] ∧ ∃ front, decl.previous = front ++ decl.name := by
  obtain ⟨home, head, -, hhead, rfl⟩ := exists_heads_of_read h
  obtain ⟨hne, front, hahead⟩ := exists_front_of_readHead? hhead.read_eq
  have hanchor : (ofHead path source home.value head).anchor =
      (splitAttributes head.behind).2 ++ front ++ head.value := by
    rw [anchor_ofHead, Found.text_eq hahead, List.append_assoc]
  refine ⟨hne, ?_⟩
  rw [previous, hanchor]
  split
  · next doc _ =>
      exact ⟨doc ++ (ofHead path source home.value head).separator ++
        ((splitAttributes head.behind).2 ++ front), by simp; rfl⟩
  · exact ⟨_, rfl⟩

theorem not_lineStartsAfter_previous {path : Text} (h : read path source = .ok decl) :
    ¬ LineStartsAfter decl.previous := by
  obtain ⟨hne, front, hprevious⟩ := exists_previous_eq h
  rw [hprevious, lineStartsAfter_append_iff _ hne]
  intro hstarts
  obtain ⟨before, hbefore⟩ := eq_append_newline_of_lineStartsAfter hstarts hne
  exact absurd (isIdentifierChar_of_mem_name h '\n' (by simp [hbefore])) (by decide)

/-- Merging replaces the only place of the old class block, and then splices the methods. -/
theorem spliceBlocks_eq_ok {block : ClassBlock} {text : Text}
    (h : decl.spliceBlocks source block = .ok text) :
    ∃ front rest, source = front ++ decl.previous ++ rest ∧
      anchoredOccurrences source decl.previous = [front.length] ∧
      decl.methods.foldlM decl.spliceMethod
        (front ++ decl.replacement block.render ++ rest) = .ok text := by
  rw [spliceBlocks] at h
  cases hclass : spliceRequired source decl.previous (decl.replacement block.render) with
  | error fault => simp [hclass, bind, Except.bind] at h
  | ok next =>
      obtain ⟨front, rest, hsource, honly, rfl⟩ := spliceRequired_eq_ok_iff.1 hclass
      refine ⟨front, rest, hsource, honly, ?_⟩
      rwa [hclass] at h

/-- What all methods add to their source. -/
def additions (decl : ClassDecl) : List (Nat × Text) :=
  decl.methods.filterMap decl.addition?

theorem exists_stands_of_mem_methods {path : Text} (h : read path source = .ok decl) :
    ∀ m ∈ decl.methods, ∃ above below, m.Stands source above below := by
  obtain ⟨home, head, -, -, rfl⟩ := exists_heads_of_read h
  exact fun m hm => exists_stands_of_mem_readMethods hm

theorem pairwise_methods {path : Text} (h : read path source = .ok decl) :
    decl.methods.Pairwise fun m n => m.offset + m.anchor.length ≤ n.offset := by
  obtain ⟨home, head, -, -, rfl⟩ := exists_heads_of_read h
  exact pairwise_readMethods _ _

end ClassDecl

section

variable {σ : Type} [SchemaSource σ]

theorem mergeSource_eq_ok {settings : Settings} {cache cache' : SchemaCache σ} {tree : FileTree}
    {path : Path} {kind : ClassKind} {source : Text} {merged : MergedSource}
    (h : mergeSource settings cache tree path kind source = (.ok merged, cache')) :
    ∃ decl, ClassDecl.read path.text source = .ok decl ∧
      decl.spliceBlocks source (decl.classBlock kind settings
        (decl.discovery kind settings cache tree).1) = .ok merged.text := by
  rw [mergeSource] at h
  split at h
  · simp at h
  · next decl hread =>
      refine ⟨decl, hread, ?_⟩
      simp only [Prod.mk.injEq] at h
      obtain ⟨hmerged, -⟩ := h
      cases hsplice : decl.spliceBlocks source (decl.classBlock kind settings
          (decl.discovery kind settings cache tree).1) with
      | error fault => simp [hsplice, Except.map] at hmerged
      | ok text =>
          rw [hsplice, Except.map, Except.ok.injEq] at hmerged
          rw [← hmerged]

/-- **Merging is insertion.**  A merge that succeeds replaces one place of the old class block.  If
no method that gets a block stands in that place, the result is the source with the new class block
there and with every method block inserted at the offset of its anchor, and nothing else changes. -/
theorem mergeSource_text_eq_inserted (settings : Settings) (cache cache' : SchemaCache σ)
    (tree : FileTree) (path : Path) (kind : ClassKind) (source : Text) (merged : MergedSource)
    (h : mergeSource settings cache tree path kind source = (.ok merged, cache')) :
    ∃ decl front rest, ClassDecl.read path.text source = .ok decl ∧
      source = front ++ decl.previous ++ rest ∧
      anchoredOccurrences source decl.previous = [front.length] ∧
      (∀ m ∈ decl.methods, m.anchor <+: source.drop m.offset) ∧
      ((∀ m ∈ decl.methods, (decl.addition? m).isSome → m.IsApart front decl.previous) →
        merged.text =
          insertedFrom decl.additions 0 front ++
            decl.replacement (decl.classBlock kind settings
              (decl.discovery kind settings cache tree).1).render ++
            insertedFrom decl.additions (front.length + decl.previous.length) rest) := by
  obtain ⟨decl, hread, hsplice⟩ := mergeSource_eq_ok h
  obtain ⟨front, rest, hsource, honly, hmethods⟩ := ClassDecl.spliceBlocks_eq_ok hsplice
  have hstands := ClassDecl.exists_stands_of_mem_methods hread
  refine ⟨decl, front, rest, hread, hsource, honly, fun m hm => ?_, fun hapart => ?_⟩
  · obtain ⟨above, below, hm⟩ := hstands m hm
    rw [hm.source_eq, ← hm.length_eq, List.append_assoc, List.drop_left]
    exact List.prefix_append _ _
  · have hfront : LineStartsAfter front := by
      rw [hsource] at honly
      exact lineStartsAfter_of_mem_anchoredOccurrences (honly ▸ List.mem_singleton_self _)
    have hempty : front ++ decl.replacement (decl.classBlock kind settings
        (decl.discovery kind settings cache tree).1).render ++ rest =
        woven [] front decl.previous (decl.replacement (decl.classBlock kind settings
          (decl.discovery kind settings cache tree).1).render) rest := by
      rw [woven, insertedFrom_of_lt (by simp), insertedFrom_of_lt (by simp)]
    rw [hempty] at hmethods
    exact ClassDecl.foldlM_spliceMethod_woven hstands (ClassDecl.pairwise_methods hread) hsource
      hfront (ClassDecl.not_lineStartsAfter_previous hread) hapart (by simp) hmethods

end

/-- Two methods without doc comments, one of them under an attribute. -/
def twoMethods : Text :=
  ("<?php\nnamespace A;\nclass X\n\x7b\n    #[Pure]\n    public function f(int $a)\n" ++
    "    public function g(): int\n\x7d\n").toList

theorem twoMethods_text_eq_inserted : ∃ merged, ∃ cache' : SchemaCache, ∃ decl front rest,
    mergeSource .default (.fresh ⟨[]⟩ ∅) (.empty []) ⟨"X.php".toList⟩ .plain twoMethods =
      (.ok merged, cache') ∧
    ClassDecl.read "X.php".toList twoMethods = .ok decl ∧
    twoMethods = front ++ decl.previous ++ rest ∧
    (∀ m ∈ decl.methods, (decl.addition? m).isSome → m.IsApart front decl.previous) ∧
    decl.additions.map Prod.fst = [29, 71] ∧
    merged.text =
      insertedFrom decl.additions 0 front ++
        decl.replacement (decl.classBlock .plain .default (.discovered decl.properties)).render ++
        insertedFrom decl.additions (front.length + decl.previous.length) rest := by
  have hok : (mergeSource .default (.fresh ⟨[]⟩ ∅ : SchemaCache) (.empty []) ⟨"X.php".toList⟩ .plain
      twoMethods).1.isOk = true := by decide +kernel
  have hparts : (ClassDecl.read "X.php".toList twoMethods).map (fun decl => (decl.previous,
      decl.methods.map (fun m => (m.offset, m.anchor.length)), decl.additions.map Prod.fst)) =
      .ok ("class X".toList, [(29, 41), (71, 28)], [29, 71]) := by rfl
  have hfound : anchoredOccurrences twoMethods "class X".toList = [19] := by decide
  rcases hmerge : mergeSource .default (.fresh ⟨[]⟩ ∅ : SchemaCache) (.empty [])
    ⟨"X.php".toList⟩ .plain twoMethods with ⟨fault | merged, cache'⟩
  · rw [hmerge] at hok
    contradiction
  · obtain ⟨decl, front, rest, hread, hsource, honly, -, htext⟩ :=
      mergeSource_text_eq_inserted _ _ _ _ _ _ _ _ hmerge
    rw [hread, Except.map, Except.ok.injEq, Prod.mk.injEq, Prod.mk.injEq] at hparts
    obtain ⟨hprevious, hmethods, hadditions⟩ := hparts
    rw [hprevious, hfound, List.singleton_inj] at honly
    have hapart : ∀ m ∈ decl.methods, (decl.addition? m).isSome →
        m.IsApart front decl.previous := by
      intro m hm _
      have hplace := List.mem_map_of_mem (f := fun m : Method => (m.offset, m.anchor.length)) hm
      rw [hmethods, List.mem_cons, List.mem_singleton, Prod.mk.injEq, Prod.mk.injEq] at hplace
      right
      rw [← honly, hprevious, show ("class X".toList : Text).length = 7 from rfl]
      omega
    exact ⟨merged, cache', decl, front, rest, rfl, hread, hsource, hapart, hadditions, htext hapart⟩

end PhpDoc
