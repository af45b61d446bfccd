import Mathlib
import PhpDoc.Block.Property
import PhpDoc.Proofs.Columns

/-!
# What a merge of properties writes

The merge goes through the facts one by one and marks the lines that facts have taken.  Its result
can be said without the marks: for each name the line of its first fact, which is the first existing
line that describes the fact if there is one; after those, every other existing line about a name
that was not found, once.

The invariant of the merge is that a taken line is about a name already met and has been written.
So a fact with a new name never meets a taken line, and a taken line is never written twice.
-/

namespace PhpDoc

/-! ## The result in words -/

/-- The facts whose names are new, each name at its first place. -/
def freshFacts : (seen : List Text) → List PropertyFact → List PropertyFact
  | _, [] => []
  | seen, fact :: facts =>
    if seen.contains fact.name then freshFacts seen facts
    else fact :: freshFacts (fact.name :: seen) facts

/-- The line of a fact: the first existing one that describes it, or its own. -/
def factLine (existing : List Text) (fact : PropertyFact) : Text :=
  (existing.find? fun line => describe? line == some (fact.type, fact.name)).getD fact.render

/-- The lines of the facts. -/
def factLines (existing : List Text) (facts : List PropertyFact) : List Text :=
  (freshFacts [] facts).map (factLine existing)

/-- Whether a line is about a property that is not among the facts. -/
def isUndiscovered (facts : List PropertyFact) (line : Text) : Bool :=
  (describe? line).all fun declared => !(facts.map PropertyFact.name).contains declared.2

/-- The existing lines that stay beside the lines of the facts. -/
def keptLines (existing : List Text) (facts : List PropertyFact) : List Text :=
  (existing.filter fun line =>
    isUndiscovered facts line && !(factLines existing facts).contains line).eraseDups

/-! ## Taking a line -/

theorem takeSlot?_eq_some {fact : PropertyFact} {slots slots' : List Slot} {line : Text}
    (h : takeSlot? fact slots = some (line, slots')) :
    ∃ front slot back, slots = front ++ slot :: back ∧ slot.line = line ∧
      slot.declared = some (fact.type, fact.name) ∧
      slots' = front ++ { slot with taken := true } :: back ∧
      ∀ s ∈ front, s.taken = true ∨ s.declared ≠ some (fact.type, fact.name) := by
  induction slots generalizing slots' with
  | nil => simp [takeSlot?] at h
  | cons slot slots ih =>
      rw [takeSlot?] at h
      split at h
      · next hcond =>
          simp only [Option.some.injEq, Prod.mk.injEq] at h
          simp only [Bool.and_eq_true, beq_iff_eq] at hcond
          exact ⟨[], slot, slots, rfl, h.1, hcond.2, h.2.symm, by simp⟩
      · next hcond =>
          simp only [Option.map_eq_some_iff, Prod.mk.injEq] at h
          obtain ⟨⟨line', more⟩, htake, rfl, rfl⟩ := h
          obtain ⟨front, taken, back, rfl, hline, hdecl, rfl, hfront⟩ := ih htake
          refine ⟨slot :: front, taken, back, rfl, hline, hdecl, rfl, ?_⟩
          intro s hs
          rcases List.mem_cons.1 hs with rfl | hs
          · by_cases htaken : s.taken = true
            · exact Or.inl htaken
            · refine Or.inr fun hs => hcond ?_
              simp [htaken, hs]
          · exact hfront s hs

theorem takeSlot?_eq_none {fact : PropertyFact} {slots : List Slot}
    (h : takeSlot? fact slots = none) :
    ∀ s ∈ slots, s.taken = true ∨ s.declared ≠ some (fact.type, fact.name) := by
  induction slots with
  | nil => simp
  | cons slot slots ih =>
      rw [takeSlot?] at h
      split at h
      · contradiction
      · next hcond =>
          intro s hs
          rcases List.mem_cons.1 hs with rfl | hs
          · by_cases htaken : s.taken = true
            · exact Or.inl htaken
            · refine Or.inr fun hs => hcond ?_
              simp [htaken, hs]
          · exact ih (by simpa using h) s hs

/-! ## The invariant -/

namespace PropertyMerge

/-- The slots are those of the existing lines, and a taken line is about a name already met and has
been written. -/
structure Sound (existing : List Text) (m : PropertyMerge) : Prop where
  lines_eq : m.slots.map Slot.line = existing
  declared_eq : ∀ s ∈ m.slots, s.declared = describe? s.line
  taken_met : ∀ s ∈ m.slots, s.taken = true → ∃ d, s.declared = some d ∧ d.2 ∈ m.names
  taken_written : ∀ s ∈ m.slots, s.taken = true → s.line ∈ m.lines

theorem sound_start (existing : List Text) : (start existing).Sound existing where
  lines_eq := by simp [start, Function.comp_def]
  declared_eq := by
    intro s hs
    obtain ⟨line, -, rfl⟩ := List.mem_map.1 hs
    rfl
  taken_met := by
    intro s hs
    obtain ⟨line, -, rfl⟩ := List.mem_map.1 hs
    simp
  taken_written := by
    intro s hs
    obtain ⟨line, -, rfl⟩ := List.mem_map.1 hs
    simp

/-- A fact with a new name meets no taken line. -/
theorem Sound.declared_ne_of_taken {existing : List Text} {m : PropertyMerge}
    (hm : m.Sound existing) {fact : PropertyFact} (hnew : fact.name ∉ m.names) {s : Slot}
    (hs : s ∈ m.slots) (h : s.taken = true ∨ s.declared ≠ some (fact.type, fact.name)) :
    s.declared ≠ some (fact.type, fact.name) := by
  rcases h with htaken | hdecl
  · obtain ⟨d, hd, hmet⟩ := hm.taken_met s hs htaken
    rw [hd]
    rintro heq
    obtain rfl := Option.some.inj heq
    exact hnew hmet
  · exact hdecl

/-- A fact with a new name is described by no line of which every slot is taken or says otherwise. -/
theorem Sound.find?_lines_eq_none {existing : List Text} {m : PropertyMerge}
    (hm : m.Sound existing) {fact : PropertyFact} (hnew : fact.name ∉ m.names) {slots : List Slot}
    (hsub : ∀ s ∈ slots, s ∈ m.slots)
    (hfree : ∀ s ∈ slots, s.taken = true ∨ s.declared ≠ some (fact.type, fact.name)) :
    (slots.map Slot.line).find? (fun line => describe? line == some (fact.type, fact.name)) =
      none := by
  rw [List.find?_eq_none]
  intro line hline
  obtain ⟨s, hs, rfl⟩ := List.mem_map.1 hline
  have hne := hm.declared_ne_of_taken hnew (hsub s hs) (hfree s hs)
  simpa [← hm.declared_eq s (hsub s hs)] using hne

/-- Meeting a name and writing a line keeps a merge sound. -/
theorem Sound.addLine {existing : List Text} {m : PropertyMerge} (hm : m.Sound existing)
    (name line : Text) :
    Sound existing ⟨name :: m.names, m.slots, m.lines ++ [line]⟩ where
  lines_eq := hm.lines_eq
  declared_eq := hm.declared_eq
  taken_met := by
    intro s hs htaken
    obtain ⟨d, hd, hmet⟩ := hm.taken_met s hs htaken
    exact ⟨d, hd, List.mem_cons_of_mem _ hmet⟩
  taken_written := by
    intro s hs htaken
    exact List.mem_append_left _ (hm.taken_written s hs htaken)

/-- A line about a name that has been met may be taken once it is written. -/
theorem Sound.take {existing names lines : List Text} {front back : List Slot} {slot : Slot}
    (hm : Sound existing ⟨names, front ++ slot :: back, lines⟩) {type name : Text}
    (hdecl : slot.declared = some (type, name)) (hmet : name ∈ names)
    (hwritten : slot.line ∈ lines) :
    Sound existing ⟨names, front ++ { slot with taken := true } :: back, lines⟩ := by
  have hslot : slot ∈ front ++ slot :: back := by simp
  have hold : ∀ s ∈ front ++ { slot with taken := true } :: back,
      s = { slot with taken := true } ∨ s ∈ front ++ slot :: back := by
    intro s hs
    simp only [List.mem_append, List.mem_cons] at hs ⊢
    tauto
  refine ⟨?_, ?_, ?_, ?_⟩
  · rw [← hm.lines_eq]
    simp
  · intro s hs
    rcases hold s hs with rfl | hs
    · exact hm.declared_eq slot hslot
    · exact hm.declared_eq s hs
  · intro s hs htaken
    rcases hold s hs with rfl | hs
    · exact ⟨_, hdecl, hmet⟩
    · exact hm.taken_met s hs htaken
  · intro s hs htaken
    rcases hold s hs with rfl | hs
    · exact hwritten
    · exact hm.taken_written s hs htaken

/-- Adding a fact with a new name writes its line. -/
theorem Sound.addFact {existing : List Text} {m : PropertyMerge} (hm : m.Sound existing)
    {fact : PropertyFact} (hnew : fact.name ∉ m.names) :
    (m.addFact fact).Sound existing ∧ (m.addFact fact).names = fact.name :: m.names ∧
      (m.addFact fact).lines = m.lines ++ [factLine existing fact] := by
  rw [PropertyMerge.addFact, if_neg hnew]
  cases htake : takeSlot? fact m.slots with
  | none =>
      have hfind : existing.find? (fun line => describe? line == some (fact.type, fact.name)) =
          none := by
        rw [← hm.lines_eq]
        exact hm.find?_lines_eq_none hnew (fun _ hs => hs) (takeSlot?_eq_none htake)
      exact ⟨hm.addLine _ _, rfl, by simp [factLine, hfind]⟩
  | some pair =>
      obtain ⟨line, slots⟩ := pair
      obtain ⟨front, slot, back, hslots, rfl, hdecl, rfl, hfront⟩ := takeSlot?_eq_some htake
      have hfind : existing.find? (fun line => describe? line == some (fact.type, fact.name)) =
          some slot.line := by
        have hsub : ∀ s ∈ front, s ∈ m.slots := fun s hs => by simp [hslots, hs]
        have hnone := hm.find?_lines_eq_none hnew hsub hfront
        rw [← hm.lines_eq, hslots, List.map_append, List.map_cons, List.find?_append, hnone,
          Option.none_or, List.find?_cons_of_pos]
        simp [← hm.declared_eq slot (by simp [hslots]), hdecl]
      have hwritten := hm.addLine fact.name slot.line
      rw [hslots] at hwritten
      exact ⟨hwritten.take hdecl List.mem_cons_self (by simp), rfl, by simp [factLine, hfind]⟩

/-- All facts together write the lines of those with new names. -/
theorem Sound.foldl_addFact {existing : List Text} {m : PropertyMerge} (hm : m.Sound existing)
    (facts : List PropertyFact) :
    let final := facts.foldl PropertyMerge.addFact m
    final.Sound existing ∧
      (∀ name, name ∈ final.names ↔ name ∈ m.names ∨ name ∈ facts.map PropertyFact.name) ∧
      final.lines = m.lines ++ (freshFacts m.names facts).map (factLine existing) := by
  induction facts generalizing m with
  | nil => exact ⟨hm, by simp, by simp [freshFacts]⟩
  | cons fact facts ih =>
      by_cases hnew : fact.name ∈ m.names
      · have hskip : m.addFact fact = m := if_pos hnew
        obtain ⟨hsound, hnames, hlines⟩ := ih hm
        simp only [List.foldl_cons, hskip]
        refine ⟨hsound, fun name => ?_, ?_⟩
        · rw [hnames, List.map_cons, List.mem_cons]
          constructor
          · exact Or.imp_right Or.inr
          · rintro (h | rfl | h)
            · exact Or.inl h
            · exact Or.inl hnew
            · exact Or.inr h
        · rw [hlines, freshFacts, if_pos (List.contains_iff_mem.2 hnew)]
      · obtain ⟨hstep, hstepNames, hstepLines⟩ := hm.addFact hnew
        obtain ⟨hsound, hnames, hlines⟩ := ih hstep
        simp only [List.foldl_cons]
        refine ⟨hsound, fun name => ?_, ?_⟩
        · rw [hnames, hstepNames, List.map_cons, List.mem_cons, List.mem_cons]
          tauto
        · rw [hlines, hstepLines, hstepNames, freshFacts, if_neg (mt List.contains_iff_mem.1 hnew)]
          simp

/-! ## The lines that stay -/

/-- Adding the lines that satisfy `p` and are not there yet adds each of them once. -/
theorem foldl_addNew_eq (p : Text → Bool) (lines written : List Text) :
    lines.foldl (fun w l => if p l && !w.contains l then w ++ [l] else w) written =
      written ++ (lines.filter fun l => p l && !written.contains l).eraseDups := by
  induction lines using List.reverseRecOn with
  | nil => simp
  | append_singleton lines line ih =>
      rw [List.foldl_concat, ih, List.filter_append, List.eraseDups_append]
      by_cases hp : p line = true ∧ line ∉ written
      · have hsingle : [line].filter (fun l => p l && !written.contains l) = [line] := by
          simp [hp]
        rw [hsingle]
        by_cases hmem : line ∈ lines
        · simp [List.removeAll, hmem, hp]
        · simp [List.removeAll, hmem, hp, List.eraseDups_cons]
      · have hsingle : [line].filter (fun l => p l && !written.contains l) = [] := by
          simpa using hp
        rw [hsingle, if_neg]
        · simp [List.removeAll]
        · simp only [Bool.and_eq_true, Bool.not_eq_true', List.contains_eq_mem,
            decide_eq_false_iff_not, not_and, not_not] at hp ⊢
          exact fun h => List.mem_append_left _ (hp h)

/-- The marks do not matter once the lines of the facts are written. -/
theorem Sound.foldl_keeps {existing : List Text} {m : PropertyMerge} (hm : m.Sound existing)
    {facts : List PropertyFact}
    (hnames : ∀ name, name ∈ m.names ↔ name ∈ facts.map PropertyFact.name) :
    m.finish = m.lines ++ (existing.filter fun line =>
      isUndiscovered facts line && !m.lines.contains line).eraseDups := by
  rw [← foldl_addNew_eq, finish]
  have hgeneral : ∀ (slots : List Slot) (written : List Text), (∀ s ∈ slots, s ∈ m.slots) →
      (∀ l ∈ m.lines, l ∈ written) →
      slots.foldl (fun w s => if m.keeps w s then w ++ [s.line] else w) written =
        (slots.map Slot.line).foldl
          (fun w l => if isUndiscovered facts l && !w.contains l then w ++ [l] else w) written := by
    intro slots
    induction slots with
    | nil => intros; rfl
    | cons s slots ih =>
        intro written hslots hwritten
        have hs : s ∈ m.slots := hslots s List.mem_cons_self
        have hkeeps : m.keeps written s =
            (isUndiscovered facts s.line && !written.contains s.line) := by
          have hall : (s.declared.all fun d => !m.names.contains d.2) =
              isUndiscovered facts s.line := by
            rw [isUndiscovered, hm.declared_eq s hs]
            cases describe? s.line with
            | none => rfl
            | some d => simp [hnames]
          by_cases htaken : s.taken = true
          · have hin : s.line ∈ written := hwritten _ (hm.taken_written s hs htaken)
            simp [keeps, htaken, hin]
          · rw [keeps, hall]
            simp [htaken, Bool.and_comm]
        have hmore : ∀ l ∈ m.lines,
            l ∈ if m.keeps written s then written ++ [s.line] else written := by
          intro l hl
          split
          · exact List.mem_append_left _ (hwritten l hl)
          · exact hwritten l hl
        rw [List.foldl_cons, List.map_cons, List.foldl_cons,
          ih _ (fun s' hs' => hslots s' (List.mem_cons_of_mem _ hs')) hmore, hkeeps]
  rw [hgeneral m.slots m.lines (fun _ h => h) (fun _ h => h), hm.lines_eq]

/-- What a merge writes: the lines of the facts, and the lines that stay. -/
theorem finish_foldl_addFact (existing : List Text) (facts : List PropertyFact) :
    (facts.foldl PropertyMerge.addFact (start existing)).finish =
      factLines existing facts ++ keptLines existing facts := by
  obtain ⟨hsound, hnames, hlines⟩ := (sound_start existing).foldl_addFact facts
  have hnames' : ∀ name, name ∈ (facts.foldl PropertyMerge.addFact (start existing)).names ↔
      name ∈ facts.map PropertyFact.name := by
    intro name
    rw [hnames]
    simp [start]
  have hlines' : (facts.foldl PropertyMerge.addFact (start existing)).lines =
      factLines existing facts := by
    rw [hlines]
    rfl
  rw [hsound.foldl_keeps hnames', hlines']
  rfl

end PropertyMerge

theorem mem_of_mem_freshFacts {seen : List Text} {facts : List PropertyFact} {fact : PropertyFact}
    (h : fact ∈ freshFacts seen facts) : fact ∈ facts := by
  induction facts generalizing seen with
  | nil => simp [freshFacts] at h
  | cons first facts ih =>
      rw [freshFacts] at h
      split at h
      · exact List.mem_cons_of_mem _ (ih h)
      · rcases List.mem_cons.1 h with rfl | h
        · exact List.mem_cons_self
        · exact List.mem_cons_of_mem _ (ih h)

theorem factLine_cases (existing : List Text) (fact : PropertyFact) :
    factLine existing fact ∈ existing ∨ factLine existing fact = fact.render := by
  cases h : existing.find? fun line => describe? line == some (fact.type, fact.name) with
  | none => exact Or.inr (by rw [factLine, h, Option.getD_none])
  | some line => exact Or.inl (by simpa [factLine, h] using List.mem_of_find?_eq_some h)

theorem mem_keptLines {existing : List Text} {facts : List PropertyFact} {line : Text} :
    line ∈ keptLines existing facts ↔
      line ∈ existing ∧ isUndiscovered facts line = true ∧ line ∉ factLines existing facts := by
  rw [keptLines, List.mem_eraseDups, List.mem_filter]
  simp

/-- Every line of a merge is an existing one or the line of a fact, before it is aligned. -/
theorem mem_reconcile {existing : List Text} {discovery : Discovery} {line : Text}
    (h : line ∈ reconcile existing discovery) :
    line ∈ existing ∨ ∃ facts width l, discovery = .discovered facts ∧
      line = alignLine width l ∧ (l ∈ existing ∨ ∃ fact ∈ facts, l = fact.render) := by
  cases discovery with
  | unavailable reason => exact Or.inl h
  | discovered facts =>
      obtain ⟨width, l, hl, rfl⟩ := mem_align h
      refine Or.inr ⟨facts, width, l, rfl, rfl, ?_⟩
      rw [PropertyMerge.finish_foldl_addFact, List.mem_append] at hl
      rcases hl with hl | hl
      · obtain ⟨fact, hfact, rfl⟩ := List.mem_map.1 hl
        rcases factLine_cases existing fact with hold | hnew
        · exact Or.inl hold
        · exact Or.inr ⟨fact, mem_of_mem_freshFacts hfact, hnew⟩
      · exact Or.inl (mem_keptLines.1 hl).1

/-! ## One line for each name -/

/-- The names of the facts, each at its first place. -/
def discoveredNames (facts : List PropertyFact) : List Text :=
  (facts.map PropertyFact.name).eraseDups

/-- The first fact about a name. -/
def firstFact? (facts : List PropertyFact) (name : Text) : Option PropertyFact :=
  facts.find? fun fact => fact.name == name

theorem isSome_firstFact? {facts : List PropertyFact} {name : Text}
    (h : name ∈ facts.map PropertyFact.name) : (firstFact? facts name).isSome = true := by
  obtain ⟨fact, hfact, rfl⟩ := List.mem_map.1 h
  exact List.find?_isSome.2 ⟨fact, hfact, beq_self_eq_true _⟩

theorem freshFacts_concat (seen : List Text) (facts : List PropertyFact) (fact : PropertyFact) :
    freshFacts seen (facts ++ [fact]) = freshFacts seen facts ++
      if fact.name ∈ seen ∨ fact.name ∈ facts.map PropertyFact.name then [] else [fact] := by
  induction facts generalizing seen with
  | nil => by_cases h : fact.name ∈ seen <;> simp [freshFacts, h]
  | cons first facts ih =>
      rw [List.cons_append, freshFacts, freshFacts]
      split
      · next hseen =>
          rw [List.contains_iff_mem] at hseen
          have hiff : (fact.name ∈ seen ∨ fact.name ∈ (first :: facts).map PropertyFact.name) ↔
              (fact.name ∈ seen ∨ fact.name ∈ facts.map PropertyFact.name) := by
            rw [List.map_cons, List.mem_cons]
            refine ⟨?_, Or.imp_right Or.inr⟩
            rintro (h | h | h)
            · exact Or.inl h
            · exact Or.inl (h ▸ hseen)
            · exact Or.inr h
          simp only [ih, hiff]
      · have hiff : (fact.name ∈ first.name :: seen ∨ fact.name ∈ facts.map PropertyFact.name) ↔
            (fact.name ∈ seen ∨ fact.name ∈ (first :: facts).map PropertyFact.name) := by
          rw [List.map_cons, List.mem_cons, List.mem_cons]
          tauto
        simp only [ih, hiff, List.cons_append]

theorem discoveredNames_concat (facts : List PropertyFact) (fact : PropertyFact) :
    discoveredNames (facts ++ [fact]) = discoveredNames facts ++
      if fact.name ∈ facts.map PropertyFact.name then [] else [fact.name] := by
  rw [discoveredNames, List.map_append, List.eraseDups_append, ← discoveredNames]
  congr 1
  rw [List.map_singleton, List.removeAll, List.filter_singleton]
  by_cases hname : fact.name ∈ facts.map PropertyFact.name
  · rw [if_pos hname, List.elem_eq_mem, decide_eq_true hname]
    rfl
  · rw [if_neg hname, List.elem_eq_mem, decide_eq_false hname]
    simp [List.eraseDups_cons]

/-- The facts with new names are the first facts about the names. -/
theorem map_some_freshFacts (facts : List PropertyFact) :
    (freshFacts [] facts).map some = (discoveredNames facts).map (firstFact? facts) := by
  induction facts using List.reverseRecOn with
  | nil => rfl
  | append_singleton facts fact ih =>
      have hearlier : (discoveredNames facts).map (firstFact? (facts ++ [fact])) =
          (discoveredNames facts).map (firstFact? facts) := by
        refine List.map_congr_left fun name hname => ?_
        have hsome := isSome_firstFact? (List.mem_eraseDups.1 hname)
        rw [firstFact?, List.find?_append]
        exact Option.or_of_isSome hsome
      rw [freshFacts_concat, discoveredNames_concat, List.map_append, List.map_append, ih, hearlier]
      by_cases hname : fact.name ∈ facts.map PropertyFact.name
      · rw [if_pos hname, if_pos (Or.inr hname)]
        rfl
      · have hnone : facts.find? (fun f => f.name == fact.name) = none := by
          rw [List.find?_eq_none]
          intro f hf heq
          exact hname (eq_of_beq heq ▸ List.mem_map_of_mem hf)
        have hlater : firstFact? (facts ++ [fact]) fact.name = some fact := by
          rw [firstFact?, List.find?_append, hnone, Option.none_or]
          simp
        rw [if_neg hname, if_neg (by simpa using hname), List.map_singleton, List.map_singleton,
          hlater]

theorem map_name_freshFacts (facts : List PropertyFact) :
    (freshFacts [] facts).map PropertyFact.name = discoveredNames facts := by
  induction facts using List.reverseRecOn with
  | nil => rfl
  | append_singleton facts fact ih =>
      rw [freshFacts_concat, discoveredNames_concat, List.map_append, ih]
      by_cases hname : fact.name ∈ facts.map PropertyFact.name
      · rw [if_pos hname, if_pos (Or.inr hname), List.map_nil]
      · rw [if_neg hname, if_neg (by simpa using hname), List.map_singleton]

/-- Lines about names that were not found stay. -/
theorem mem_lines_of_isUndiscovered {existing : List Text} {facts : List PropertyFact} {line : Text}
    (hline : line ∈ existing) (h : isUndiscovered facts line = true) :
    line ∈ factLines existing facts ++ keptLines existing facts := by
  by_cases hfact : line ∈ factLines existing facts
  · exact List.mem_append_left _ hfact
  · exact List.mem_append_right _ (mem_keptLines.2 ⟨hline, h, hfact⟩)

/-- The line of a fact that no existing line describes is the one it came with, or else one made of
its type and name. -/
theorem PropertyFact.render_eq (fact : PropertyFact) :
    fact.render =
      fact.sourceLine.getD (" * @property ".toList ++ fact.type ++ " $".toList ++ fact.name) := by
  rw [render, tagLine]
  congr 1
  simp

/-- Each name that was found has the line of the first fact about it. -/
theorem forall₂_factLines (existing : List Text) (facts : List PropertyFact) :
    List.Forall₂ (fun name line => ∃ fact, firstFact? facts name = some fact ∧
      line = factLine existing fact) (discoveredNames facts) (factLines existing facts) := by
  have hsome := map_some_freshFacts facts
  rw [← map_name_freshFacts, factLines, List.forall₂_map_left_iff, List.forall₂_map_right_iff,
    List.forall₂_same]
  intro fact hfact
  rw [← map_name_freshFacts, List.map_map] at hsome
  exact ⟨fact, (List.map_inj_left.1 hsome fact hfact).symm, rfl⟩

/-- **What a merge writes, without its marks.**  One line for each name that was found, in the order
in which the names were first found: the first existing line that says what the first fact about the
name says, or else the line which that fact came with, or else a line made of its type and name.
Then each other existing line about a name that was not found, in its order and once.  All of it is
aligned, and no line about a name that was not found is lost. -/
theorem reconcile_eq_align_lines (existing : List Text) (facts : List PropertyFact) :
    ∃ found kept : List Text,
      reconcile existing (.discovered facts) = align (found ++ kept) none ∧
      List.Forall₂ (fun name line => ∃ fact, firstFact? facts name = some fact ∧
          line = (existing.find? fun old => describe? old == some (fact.type, fact.name)).getD
            (fact.sourceLine.getD
              (" * @property ".toList ++ fact.type ++ " $".toList ++ fact.name)))
        (discoveredNames facts) found ∧
      kept = (existing.filter fun line =>
        isUndiscovered facts line && !found.contains line).eraseDups ∧
      ∀ line ∈ existing, isUndiscovered facts line = true → line ∈ found ++ kept := by
  refine ⟨factLines existing facts, keptLines existing facts, ?_, ?_, rfl,
    fun line hline h => mem_lines_of_isUndiscovered hline h⟩
  · rw [reconcile, PropertyMerge.finish_foldl_addFact]
  · refine (forall₂_factLines existing facts).imp ?_
    rintro name line ⟨fact, hfact, rfl⟩
    exact ⟨fact, hfact, by rw [factLine, PropertyFact.render_eq]⟩

end PhpDoc
