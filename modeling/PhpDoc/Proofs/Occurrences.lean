import Mathlib
import PhpDoc.Splice
import PhpDoc.Proofs.Texts

/-!
# Where a splice may replace a text

An offset that a splice finds is an occurrence at a line start that runs into no longer name.  The
search goes from left to right and does not look inside an occurrence, so conversely such an
occurrence is found when no earlier one reaches into it.  A splice that succeeds replaces the only
occurrence it found.
-/

namespace PhpDoc

/-- A line starts after the text. -/
def LineStartsAfter (front : Text) : Prop :=
  ∀ c ∈ front.getLast?, c = '\n'

instance : DecidablePred LineStartsAfter := fun front =>
  Option.decidableForallMem front.getLast?

theorem lineStartsAfter_nil : LineStartsAfter [] := by simp [LineStartsAfter]

theorem lineStartsAfter_append_iff (front : Text) {rest : Text} (hne : rest ≠ []) :
    LineStartsAfter (front ++ rest) ↔ LineStartsAfter rest := by
  rw [LineStartsAfter, LineStartsAfter, List.getLast?_append_of_ne_nil front hne]

theorem eq_append_newline_of_lineStartsAfter {front : Text} (h : LineStartsAfter front)
    (hne : front ≠ []) : ∃ before, front = before ++ ['\n'] := by
  obtain ⟨before, c, rfl⟩ := (List.eq_nil_or_concat front).resolve_left hne
  obtain rfl : c = '\n' := h c (by simp)
  exact ⟨before, by simp⟩

/-- An offset that the search gives is the start of an occurrence, at a line start and with no name
running on after it. -/
theorem exists_of_mem_anchoredFrom {needle text : Text} {offset skip o : Nat} {fresh : Bool}
    (h : o ∈ anchoredFrom needle offset fresh skip text) :
    ∃ front rest, text = front ++ needle ++ rest ∧ o = offset + front.length ∧
      (front = [] → fresh = true) ∧ LineStartsAfter front ∧ endsName rest = true := by
  induction text generalizing offset skip fresh with
  | nil => simp [anchoredFrom] at h
  | cons c text ih =>
      -- an occurrence in the rest of the text, with the first character put in front of it
      have hlater : ∀ skip', o ∈ anchoredFrom needle (offset + 1) (c == '\n') skip' text →
          ∃ front rest, c :: text = front ++ needle ++ rest ∧ o = offset + front.length ∧
            (front = [] → fresh = true) ∧ LineStartsAfter front ∧ endsName rest = true := by
        intro skip' hmem
        obtain ⟨front, rest, rfl, rfl, hfresh, hline, hends⟩ := ih hmem
        refine ⟨c :: front, rest, rfl, by simp only [List.length_cons]; omega, by simp, ?_, hends⟩
        cases front with
        | nil => simpa [LineStartsAfter] using hfresh rfl
        | cons d front => exact (lineStartsAfter_append_iff [c] (by simp)).2 hline
      cases skip with
      | succ skip =>
          rw [anchoredFrom] at h
          exact hlater skip h
      | zero =>
          rw [anchoredFrom] at h
          split at h
          · next rest hafter =>
              dsimp only at h
              split at h
              · next hok =>
                  rcases List.mem_cons.1 h with rfl | h
                  · rw [Bool.and_eq_true] at hok
                    refine ⟨[], rest, (Text.after?_eq_some_iff _ _ _).1 hafter, rfl, fun _ => hok.1,
                      lineStartsAfter_nil, hok.2⟩
                  · exact hlater _ h
              · exact hlater _ h
          · exact hlater _ h

/-- An occurrence at a line start, with no name running on after it and none before it that reaches
into it, is found. -/
theorem mem_anchoredFrom {needle front rest : Text} {offset skip : Nat} {fresh : Bool}
    (hne : needle ≠ []) (hskip : skip ≤ front.length) (hfresh : front = [] → fresh = true)
    (hline : LineStartsAfter front) (hends : endsName rest = true)
    (hapart : ∀ u v, front ++ needle ++ rest = u ++ needle ++ v → u.length < front.length →
      u.length + needle.length ≤ front.length) :
    offset + front.length ∈ anchoredFrom needle offset fresh skip (front ++ needle ++ rest) := by
  induction front generalizing offset skip fresh with
  | nil =>
      obtain rfl : skip = 0 := by simpa using hskip
      obtain ⟨c, more, rfl⟩ := List.exists_cons_of_ne_nil hne
      have hafter : Text.after? (c :: more) (c :: (more ++ rest)) = some rest :=
        (Text.after?_eq_some_iff _ _ _).2 rfl
      simp [anchoredFrom, hafter, hfresh rfl, hends]
  | cons c front ih =>
      have hline' : LineStartsAfter front := by
        by_cases hnil : front = []
        · rw [hnil]
          exact lineStartsAfter_nil
        · exact (lineStartsAfter_append_iff [c] hnil).1 hline
      have hfresh' : front = [] → (c == '\n') = true := by
        rintro rfl
        simpa [LineStartsAfter] using hline
      have hapart' : ∀ u v, front ++ needle ++ rest = u ++ needle ++ v →
          u.length < front.length → u.length + needle.length ≤ front.length := by
        intro u v huv hlt
        have hle := hapart (c :: u) v (by simpa using huv) (by simpa using hlt)
        simp only [List.length_cons] at hle
        omega
      have hlater : ∀ skip' ≤ front.length, offset + (c :: front).length ∈
          anchoredFrom needle (offset + 1) (c == '\n') skip' (front ++ needle ++ rest) := by
        intro skip' hskip'
        have hmem := @ih (offset + 1) skip' (c == '\n') hskip' hfresh' hline' hapart'
        rwa [List.length_cons, ← Nat.add_assoc, Nat.add_right_comm]
      cases skip with
      | succ skip =>
          rw [List.cons_append, List.cons_append, anchoredFrom]
          exact hlater skip (by simpa using hskip)
      | zero =>
          rw [List.cons_append, List.cons_append, anchoredFrom]
          split
          · next rest' hafter =>
              have hle := hapart [] rest' ((Text.after?_eq_some_iff _ _ _).1 hafter) (by simp)
              have hmem := hlater (needle.length - 1)
                (by simp only [List.length_nil, List.length_cons] at hle; omega)
              dsimp only
              split
              · exact List.mem_cons_of_mem _ hmem
              · exact hmem
          · exact hlater 0 (by simp)

theorem anchoredOccurrences_of_ne_nil {needle : Text} (hne : needle ≠ []) (source : Text) :
    anchoredOccurrences source needle = anchoredFrom needle 0 true 0 source := by
  rw [anchoredOccurrences, if_neg (by simpa using hne)]

theorem ne_nil_of_mem_anchoredOccurrences {source needle : Text} {o : Nat}
    (h : o ∈ anchoredOccurrences source needle) : needle ≠ [] := by
  rintro rfl
  simp [anchoredOccurrences] at h

theorem exists_of_mem_anchoredOccurrences {source needle : Text} {o : Nat}
    (h : o ∈ anchoredOccurrences source needle) :
    ∃ front rest, source = front ++ needle ++ rest ∧ o = front.length ∧ LineStartsAfter front ∧
      endsName rest = true := by
  rw [anchoredOccurrences_of_ne_nil (ne_nil_of_mem_anchoredOccurrences h)] at h
  obtain ⟨front, rest, heq, ho, -, hline, hends⟩ := exists_of_mem_anchoredFrom h
  exact ⟨front, rest, heq, by omega, hline, hends⟩

theorem lineStartsAfter_of_mem_anchoredOccurrences {front needle rest : Text}
    (h : front.length ∈ anchoredOccurrences (front ++ needle ++ rest) needle) :
    LineStartsAfter front := by
  obtain ⟨front', rest', heq, hlength, hline, -⟩ := exists_of_mem_anchoredOccurrences h
  rw [List.append_assoc, List.append_assoc] at heq
  rw [(List.append_inj heq hlength).1]
  exact hline

theorem mem_anchoredOccurrences {needle front rest : Text} (hne : needle ≠ [])
    (hline : LineStartsAfter front) (hends : endsName rest = true)
    (hapart : ∀ u v, front ++ needle ++ rest = u ++ needle ++ v → u.length < front.length →
      u.length + needle.length ≤ front.length) :
    front.length ∈ anchoredOccurrences (front ++ needle ++ rest) needle := by
  rw [anchoredOccurrences_of_ne_nil hne]
  have hmem := @mem_anchoredFrom needle front rest 0 0 true hne (Nat.zero_le _) (fun _ => rfl)
    hline hends hapart
  rwa [Nat.zero_add] at hmem

theorem replaceAt_append (front middle rest replacement : Text) :
    replaceAt (front ++ middle ++ rest) front.length middle.length replacement =
      front ++ replacement ++ rest := by
  have hdrop : (front ++ middle ++ rest).drop (front.length + middle.length) = rest := by
    rw [← List.length_append, List.drop_left]
  rw [replaceAt, hdrop, List.append_assoc front, List.take_left]

theorem spliceRequired_of_singleton {source previous : Text} {o : Nat}
    (h : anchoredOccurrences source previous = [o]) (replacement : Text) :
    spliceRequired source previous replacement =
      .ok (replaceAt source o previous.length replacement) := by
  simp [spliceRequired, splice, h, bind, Except.bind]

/-- A required splice succeeds when it finds one occurrence, and then replaces that one. -/
theorem spliceRequired_eq_ok_iff {source previous replacement text : Text} :
    spliceRequired source previous replacement = .ok text ↔
      ∃ front rest, source = front ++ previous ++ rest ∧
        anchoredOccurrences source previous = [front.length] ∧
        text = front ++ replacement ++ rest := by
  constructor
  · intro h
    cases hoccurrences : anchoredOccurrences source previous with
    | nil => simp [spliceRequired, splice, hoccurrences, bind, Except.bind] at h
    | cons o more =>
        cases more with
        | cons o' more => simp [spliceRequired, splice, hoccurrences, bind, Except.bind] at h
        | nil =>
            obtain ⟨front, rest, rfl, rfl, -, -⟩ :=
              exists_of_mem_anchoredOccurrences (hoccurrences ▸ List.mem_singleton_self o)
            rw [spliceRequired_of_singleton hoccurrences, replaceAt_append] at h
            exact ⟨front, rest, rfl, rfl, (Except.ok.inj h).symm⟩
  · rintro ⟨front, rest, rfl, hoccurrences, rfl⟩
    rw [spliceRequired_of_singleton hoccurrences, replaceAt_append]

end PhpDoc
