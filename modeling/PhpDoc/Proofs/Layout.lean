import Mathlib
import PhpDoc.Proofs.LineEndings
import PhpDoc.Proofs.Regrouping

/-!
# How an assembled block is laid out

Separators come from three sources: the flags of the order, the place before the groups that the
order does not name, and lines of the groups themselves.  Spacing reads them with two flags, whether
another line has been written and whether a separator is due, and writes a separator only when a
further line follows.  So none touches a delimiter or another separator, and what is left are the
lines of the groups in the order of their keys.
-/

namespace PhpDoc

/-! ## Spacing -/

/-- The lines of a list that are no separators. -/
def contentLines (lines : List Text) : List Text :=
  lines.filter fun line => line ≠ separatorLine

@[simp] theorem contentLines_nil : contentLines [] = [] := rfl

@[simp] theorem contentLines_separator_cons (rest : List Text) :
    contentLines (separatorLine :: rest) = contentLines rest := by
  simp [contentLines]

theorem contentLines_cons {line : Text} (h : line ≠ separatorLine) (rest : List Text) :
    contentLines (line :: rest) = line :: contentLines rest := by
  simp [contentLines, h]

theorem contentLines_append (front rest : List Text) :
    contentLines (front ++ rest) = contentLines front ++ contentLines rest :=
  List.filter_append front rest

theorem separatorLine_not_mem_contentLines {lines : List Text} :
    separatorLine ∉ contentLines lines := by
  simp [contentLines]

theorem contentLines_eq_filterMap (lines : List Text) :
    contentLines lines = lines.filterMap (Option.guard fun line => line ≠ separatorLine) :=
  (congrFun List.filterMap_eq_filter lines).symm

theorem guard_separatorLine :
    Option.guard (fun line => decide (line ≠ separatorLine)) separatorLine = none := by
  simp [Option.guard]

theorem contentLines_spaceOut (started due : Bool) (lines : List Text) :
    contentLines (spaceOut started due lines) = contentLines lines := by
  simp only [contentLines_eq_filterMap, filterMap_spaceOut _ guard_separatorLine]

/-- The flags of spacing after one more line. -/
def spacingAfter (flags : Bool × Bool) (line : Text) : Bool × Bool :=
  if line = separatorLine then (flags.1, flags.1) else (true, false)

/-- Spacing goes on behind the first lines with the flags that they leave. -/
theorem spaceOut_append (started due : Bool) (front rest : List Text) :
    spaceOut started due (front ++ rest) = spaceOut started due front ++
      spaceOut (front.foldl spacingAfter (started, due)).1
        (front.foldl spacingAfter (started, due)).2 rest := by
  induction front generalizing started due with
  | nil => simp [spaceOut]
  | cons line front ih =>
      rw [List.cons_append, spaceOut, spaceOut, List.foldl_cons, spacingAfter]
      split
      · exact ih started started
      · split
        · rw [ih true false]
          rfl
        · rw [ih true false]
          rfl

theorem foldl_spacingAfter_fst (flags : Bool × Bool) (lines : List Text) :
    (lines.foldl spacingAfter flags).1 = (flags.1 || !(contentLines lines).isEmpty) := by
  induction lines generalizing flags with
  | nil => simp
  | cons line lines ih =>
      rw [List.foldl_cons, ih, spacingAfter]
      by_cases hline : line = separatorLine
      · simp [hline]
      · simp [hline, contentLines_cons hline]

/-- Spaced lines start with a separator only when one was due. -/
theorem head?_spaceOut (lines : List Text) :
    (spaceOut false false lines).head? = (contentLines lines).head? := by
  induction lines with
  | nil => rfl
  | cons line lines ih =>
      rw [spaceOut]
      by_cases hline : line = separatorLine
      · rw [if_pos hline, hline, contentLines_separator_cons, ih]
      · rw [if_neg hline, contentLines_cons hline]
        rfl

/-- When a separator is due and another line follows, exactly one is written before that line. -/
theorem exists_spaceOut_due {lines : List Text} {next : Text}
    (h : (contentLines lines).head? = some next) :
    ∃ rest, spaceOut true true lines = separatorLine :: next :: rest := by
  induction lines with
  | nil => simp at h
  | cons line lines ih =>
      rw [spaceOut]
      by_cases hline : line = separatorLine
      · rw [if_pos hline]
        exact ih (by simpa [hline] using h)
      · rw [contentLines_cons hline, List.head?_cons, Option.some.injEq] at h
        rw [if_neg hline, h]
        exact ⟨_, rfl⟩

/-- Spaced lines never end with a separator. -/
theorem getLast?_spaceOut (started due : Bool) (lines : List Text) :
    (spaceOut started due lines).getLast? = (contentLines lines).getLast? := by
  induction lines generalizing started due with
  | nil => rfl
  | cons line lines ih =>
      rw [spaceOut]
      by_cases hline : line = separatorLine
      · rw [if_pos hline, ih, hline, contentLines_separator_cons]
      · have hlast : (line :: spaceOut true false lines).getLast? =
            (line :: contentLines lines).getLast? := by
          rw [List.getLast?_cons, List.getLast?_cons, ih]
        rw [if_neg hline, contentLines_cons hline]
        split
        · rw [List.getLast?_cons_cons, hlast]
        · exact hlast

/-- One separator never follows another. -/
theorem isChain_spaceOut (started due : Bool) (lines : List Text) :
    (spaceOut started due lines).IsChain
      fun line next => line = separatorLine → next ≠ separatorLine := by
  induction lines generalizing started due with
  | nil => exact List.isChain_nil
  | cons line lines ih =>
      rw [spaceOut]
      by_cases hline : line = separatorLine
      · rw [if_pos hline]
        exact ih started started
      · have hrest : (line :: spaceOut true false lines).IsChain
            fun line next => line = separatorLine → next ≠ separatorLine :=
          List.isChain_cons.2 ⟨fun _ _ heq => absurd heq hline, ih true false⟩
        rw [if_neg hline]
        split
        · exact List.isChain_cons_cons.2 ⟨fun _ => hline, hrest⟩
        · exact hrest

/-! ## Lines between line feeds -/

/-- Joined lines stand between the line feeds of the text. -/
theorem Text.pieces_joinLines {ls : List Text} (hne : ls ≠ []) (h : ∀ line ∈ ls, '\n' ∉ line) :
    pieces '\n' (joinLines ls) = ls :=
  pieces_intercalate hne h

namespace TagGroups

/-! ## The lines of a block -/

/-- The lines under the given keys, one key after the other, without separators. -/
def contentUnder (g : TagGroups) (keys : List Text) : List Text :=
  keys.flatMap fun key => contentLines (g.lines key)

theorem contentLines_bodyLines (g : TagGroups) (order : GroupOrder) :
    contentLines (g.bodyLines order) = g.contentUnder (g.writtenKeys order) := by
  simp only [contentLines_eq_filterMap, contentUnder, filterMap_bodyLines _ guard_separatorLine]

theorem contentLines_orderedLines (g : TagGroups) (key : Text) (separated : Bool) :
    contentLines (g.orderedLines key separated) = contentLines (g.lines key) := by
  rw [orderedLines]
  split
  · next hnil => rw [List.isEmpty_iff.1 hnil]
  · split
    · simp [contentLines_append]
    · rfl

theorem contentLines_flatMap_orderedLines (g : TagGroups) (order : GroupOrder) :
    contentLines (order.flatMap fun (key, separated) => g.orderedLines key separated) =
      g.contentUnder (order.map Prod.fst) := by
  induction order with
  | nil => rfl
  | cons entry order ih =>
      rw [List.flatMap_cons, contentLines_append, contentLines_orderedLines, ih]
      rfl

/-- The lines of a block, given those between its delimiters. -/
structure IsLaidOut (g : TagGroups) (order : GroupOrder) (inner : List Text) : Prop where
  /-- No separator follows the opening delimiter. -/
  starts : inner.head? ≠ some separatorLine
  /-- No separator precedes the closing delimiter. -/
  ends : inner.getLast? ≠ some separatorLine
  /-- No separator follows another. -/
  apart : inner.IsChain fun line next => line = separatorLine → next ≠ separatorLine
  /-- The other lines are those of the keys of the order, and then those of all other keys. -/
  content : contentLines inner =
    g.contentUnder (order.map Prod.fst) ++ g.contentUnder (g.unordered order)
  /-- One separator stands between the last line of a group that asks for it and the next line. -/
  separated : ∀ earlier key later last next, order = earlier ++ (key, true) :: later →
    (contentLines (g.lines key)).getLast? = some last →
    (g.contentUnder (later.map Prod.fst) ++ g.contentUnder (g.unordered order)).head? = some next →
    ∃ front rest, inner = front ++ last :: separatorLine :: next :: rest ∧
      contentLines (front ++ [last]) =
        g.contentUnder (earlier.map Prod.fst) ++ contentLines (g.lines key) ∧
      contentLines (next :: rest) =
        g.contentUnder (later.map Prod.fst) ++ g.contentUnder (g.unordered order)

theorem contentUnder_append (g : TagGroups) (front rest : List Text) :
    g.contentUnder (front ++ rest) = g.contentUnder front ++ g.contentUnder rest :=
  List.flatMap_append

/-- The separator after a group with lines stands between what precedes it in the body and what
follows it. -/
theorem exists_bodyLines_eq (g : TagGroups) {order earlier later : GroupOrder} {key : Text}
    (horder : order = earlier ++ (key, true) :: later) (hlines : g.lines key ≠ []) :
    ∃ front rest, g.bodyLines order = front ++ separatorLine :: rest ∧
      contentLines front = g.contentUnder (earlier.map Prod.fst) ++ contentLines (g.lines key) ∧
      contentLines rest =
        g.contentUnder (later.map Prod.fst) ++ g.contentUnder (g.unordered order) := by
  have hgroup : g.orderedLines key true = g.lines key ++ [separatorLine] := by
    rw [orderedLines, if_neg (by simpa using hlines), if_pos rfl]
  have hunordered : contentLines (g.unorderedLines order) =
      g.contentUnder (g.unordered order) := by
    have hall := g.contentLines_bodyLines order
    rw [bodyLines, contentLines_append, contentLines_flatMap_orderedLines, writtenKeys,
      contentUnder_append] at hall
    exact List.append_cancel_left hall
  refine ⟨(earlier.flatMap fun (key, separated) => g.orderedLines key separated) ++ g.lines key,
    (later.flatMap fun (key, separated) => g.orderedLines key separated) ++
      g.unorderedLines order, ?_, ?_, ?_⟩
  · have hordered : (order.flatMap fun (key, separated) => g.orderedLines key separated) =
        (earlier.flatMap fun (key, separated) => g.orderedLines key separated) ++
          (g.lines key ++ separatorLine ::
            later.flatMap fun (key, separated) => g.orderedLines key separated) := by
      simp [horder, hgroup]
    rw [bodyLines, hordered]
    simp
  · rw [contentLines_append, contentLines_flatMap_orderedLines]
  · rw [contentLines_append, contentLines_flatMap_orderedLines, hunordered]

/-- Spacing keeps one of the separators behind a group, when another line follows. -/
theorem separated_spaceOut {front rest : List Text} {last next : Text}
    (hlast : (contentLines front).getLast? = some last)
    (hnext : (contentLines rest).head? = some next) :
    ∃ before after, spaceOut false false (front ++ separatorLine :: rest) =
        before ++ last :: separatorLine :: next :: after ∧
      contentLines (before ++ [last]) = contentLines front ∧
      contentLines (next :: after) = contentLines rest := by
  have hstarted : (front.foldl spacingAfter (false, false)).1 = true := by
    rw [foldl_spacingAfter_fst]
    cases hfront : contentLines front with
    | nil => simp [hfront] at hlast
    | cons line more => rfl
  have hflags : (front ++ [separatorLine]).foldl spacingAfter (false, false) = (true, true) := by
    rw [List.foldl_append, List.foldl_cons, List.foldl_nil, spacingAfter, if_pos rfl, hstarted]
  obtain ⟨after, hafter⟩ := exists_spaceOut_due hnext
  have hlast' : (spaceOut false false (front ++ [separatorLine])).getLast? = some last := by
    rw [getLast?_spaceOut, contentLines_append, contentLines_separator_cons, contentLines_nil,
      List.append_nil, hlast]
  obtain ⟨before, hbefore⟩ := List.getLast?_eq_some_iff.1 hlast'
  refine ⟨before, after, ?_, ?_, ?_⟩
  · rw [← List.singleton_append, ← List.append_assoc, spaceOut_append, hflags, hafter, hbefore]
    simp
  · rw [← hbefore, contentLines_spaceOut, contentLines_append, contentLines_separator_cons,
      contentLines_nil, List.append_nil]
  · rw [← contentLines_spaceOut true true rest, hafter, contentLines_separator_cons]

theorem isLaidOut_spaceOut (g : TagGroups) (order : GroupOrder) :
    g.IsLaidOut order (spaceOut false false (g.bodyLines order)) where
  starts := by
    rw [head?_spaceOut]
    exact fun hhead => separatorLine_not_mem_contentLines (List.mem_of_mem_head? hhead)
  ends := by
    rw [getLast?_spaceOut]
    exact fun hlast => separatorLine_not_mem_contentLines (List.mem_of_getLast? hlast)
  apart := isChain_spaceOut false false _
  content := by
    rw [contentLines_spaceOut, contentLines_bodyLines, writtenKeys, contentUnder_append]
  separated := by
    intro earlier key later last next horder hlast hnext
    have hlines : g.lines key ≠ [] := by
      intro hnil
      simp [hnil] at hlast
    obtain ⟨front, rest, hbody, hfront, hrest⟩ := g.exists_bodyLines_eq horder hlines
    rw [hbody, ← hfront, ← hrest]
    refine separated_spaceOut ?_ (hrest ▸ hnext)
    rw [hfront, List.getLast?_append, hlast, Option.some_or]

/-- **Layout of assembled blocks.**  Between its delimiters a block has the lines of the groups, those
that the order names in its sequence and then the others in order of first appearance.  A separator
touches neither a delimiter nor another separator, and exactly one stands behind a group that asks
for it when another line follows.  The lines are those between the line feeds of the text; when none
of them ends in a carriage return, they are also what reading the text line by line gives. -/
theorem isLaidOut_assemble (g : TagGroups) (order : GroupOrder)
    (hg : ∀ key, ∀ line ∈ g.lines key, '\n' ∉ line) :
    ∃ inner, (g.assemble order).pieces '\n' = openingLine :: inner ++ [closingLine] ∧
      ((∀ key, ∀ line ∈ g.lines key, line.getLast? ≠ some '\r') →
        (g.assemble order).lines = openingLine :: inner ++ [closingLine]) ∧
      g.IsLaidOut order inner := by
  have hinner : ∀ line ∈ spaceOut false false (g.bodyLines order),
      line = separatorLine ∨ ∃ key, line ∈ g.lines key := fun line hline =>
    (mem_of_mem_spaceOut hline).elim Or.inl mem_bodyLines
  refine ⟨spaceOut false false (g.bodyLines order), ?_, fun hreturn => ?_,
    g.isLaidOut_spaceOut order⟩
  · refine Text.pieces_joinLines (by simp) fun line hline => ?_
    simp only [List.cons_append, List.mem_cons, List.mem_append, List.not_mem_nil, or_false] at hline
    rcases hline with rfl | hline | rfl
    · decide
    · rcases hinner line hline with rfl | ⟨key, hkey⟩
      · decide
      · exact hg key line hkey
    · decide
  · rw [lines_assemble order hg, Text.map_dropReturn_eq_self fun line hline => ?_]
    rcases hinner line hline with rfl | ⟨key, hkey⟩
    · decide
    · exact hreturn key line hkey

theorem exists_entry_of_mem_lines {g : TagGroups} {key line : Text} (h : line ∈ g.lines key) :
    ∃ entry ∈ g.groups.entries, line ∈ entry.2 := by
  rw [TagGroups.lines] at h
  cases hfound : g.groups.get? key with
  | none => simp [hfound] at h
  | some found =>
      obtain ⟨entry, hentry, heq⟩ :=
        List.exists_of_findSome?_eq_some (show List.findSome? _ g.groups.entries = _ from hfound)
      obtain rfl : entry.2 = found := by simpa using (Option.ite_none_right_eq_some.1 heq).2
      exact ⟨entry, hentry, by simpa [hfound] using h⟩

/-- Groups with a line that is a separator, a group of separators only, and empty groups. -/
def sparseGroups : TagGroups :=
  ((((empty.push "@see".toList separatorLine).push commentKey " * Words".toList).push
    commentKey separatorLine).set "@param".toList []).push "@author".toList " * @author A".toList

/-- An order that names a group twice, and an empty one. -/
def sparseOrder : GroupOrder :=
  [("@param".toList, true), (commentKey, true), (commentKey, false)]

theorem sparseGroups_isLaidOut :
    (∀ key, ∀ line ∈ sparseGroups.lines key, '\n' ∉ line ∧ line.getLast? ≠ some '\r') ∧
      sparseGroups.assemble sparseOrder =
        "/**\n * Words\n *\n * Words\n *\n * @author A\n */".toList ∧
      ∃ inner, (sparseGroups.assemble sparseOrder).lines = openingLine :: inner ++ [closingLine] ∧
        sparseGroups.IsLaidOut sparseOrder inner := by
  have hlines : ∀ key, ∀ line ∈ sparseGroups.lines key,
      '\n' ∉ line ∧ line.getLast? ≠ some '\r' := by
    intro key line hline
    have hentries : ∀ entry ∈ sparseGroups.groups.entries, ∀ line ∈ entry.2,
        '\n' ∉ line ∧ line.getLast? ≠ some '\r' := by decide
    obtain ⟨entry, hentry, hmem⟩ := exists_entry_of_mem_lines hline
    exact hentries entry hentry line hmem
  obtain ⟨inner, -, hread, hlaid⟩ := isLaidOut_assemble sparseGroups sparseOrder
    fun key line hline => (hlines key line hline).1
  exact ⟨hlines, by decide, inner, hread fun key line hline => (hlines key line hline).2, hlaid⟩

end TagGroups
end PhpDoc
