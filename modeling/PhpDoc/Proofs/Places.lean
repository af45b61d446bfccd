import Mathlib
import PhpDoc.Proofs.Occurrences

/-!
# All places of a text

The places of a text in a source are the offsets at which it occurs, a line starts, and no name runs
on after it.  The search of a splice skips whatever overlaps an occurrence that it has met, even one
that is no place.  It still gives every place of a text that cannot overlap itself at a line start,
so the splice of such a text goes by the number of its places.
-/

namespace PhpDoc

/-- The text occurs at the offset, a line starts there, and no name runs on after the occurrence. -/
structure IsPlace (source needle : Text) (offset : Nat) : Prop where
  occurs : needle <+: source.drop offset
  starts : offset = 0 ∨ source[offset - 1]? = some '\n'
  ends : (source[offset + needle.length]?.all fun c => !isAlphanumeric c && c != '_') = true

instance (source needle : Text) : DecidablePred (IsPlace source needle) := fun offset =>
  decidable_of_iff (needle <+: source.drop offset ∧
      (offset = 0 ∨ source[offset - 1]? = some '\n') ∧
      (source[offset + needle.length]?.all fun c => !isAlphanumeric c && c != '_') = true)
    ⟨fun h => ⟨h.1, h.2.1, h.2.2⟩, fun h => ⟨h.occurs, h.starts, h.ends⟩⟩

/-- All places of the text in the source. -/
def places (source needle : Text) : Finset Nat :=
  (Finset.range source.length).filter (IsPlace source needle)

/-- Behind one of its line feeds the text starts over: something follows the line feed, and it is
what the text begins with. -/
def OverlapsAtLineStart (needle : Text) : Prop :=
  ∃ n < needle.length, needle[n]? = some '\n' ∧ needle.drop (n + 1) ≠ [] ∧
    needle.drop (n + 1) <+: needle

instance : DecidablePred OverlapsAtLineStart := fun needle =>
  inferInstanceAs (Decidable (∃ n < needle.length, needle[n]? = some '\n' ∧
    needle.drop (n + 1) ≠ [] ∧ needle.drop (n + 1) <+: needle))

theorem newline_mem_of_overlapsAtLineStart {needle : Text} (h : OverlapsAtLineStart needle) :
    '\n' ∈ needle := by
  obtain ⟨n, -, hnewline, -, -⟩ := h
  exact List.mem_of_getElem? hnewline

theorem overlapsAtLineStart_append {front rest : Text} (hne : rest ≠ [])
    (h : rest <+: front ++ '\n' :: rest) : OverlapsAtLineStart (front ++ '\n' :: rest) := by
  have hdrop : (front ++ '\n' :: rest).drop (front.length + 1) = rest := by
    rw [← List.drop_drop, List.drop_left]
    rfl
  refine ⟨front.length, by simp, by simp, ?_, ?_⟩
  · rwa [hdrop]
  · rwa [hdrop]

theorem exists_of_overlapsAtLineStart {needle : Text} (h : OverlapsAtLineStart needle) :
    ∃ front rest, needle = front ++ rest ∧ front ≠ [] ∧ LineStartsAfter front ∧ rest ≠ [] ∧
      rest <+: needle := by
  obtain ⟨n, -, hnewline, hne, hover⟩ := h
  have hlast : needle.take (n + 1) = needle.take n ++ ['\n'] := by
    rw [List.take_add_one, hnewline]
    rfl
  refine ⟨needle.take (n + 1), needle.drop (n + 1), (List.take_append_drop _ _).symm, ?_, ?_, hne,
    hover⟩
  · rw [hlast]
    simp
  · rw [hlast]
    simp [LineStartsAfter]

/-! ## Places as divisions of the source -/

theorem endsName_eq_all (rest : Text) :
    endsName rest = rest.head?.all fun c => !isAlphanumeric c && c != '_' := by
  cases rest with
  | nil => rfl
  | cons c rest => simp [endsName, bne]

theorem isPlace_iff {source needle : Text} {offset : Nat} (hne : needle ≠ []) :
    IsPlace source needle offset ↔ ∃ front rest, source = front ++ needle ++ rest ∧
      offset = front.length ∧ LineStartsAfter front ∧ endsName rest = true := by
  have hlast : ∀ front rest : Text, (front.length = 0 ∨
      (front ++ needle ++ rest)[front.length - 1]? = some '\n') ↔ LineStartsAfter front := by
    intro front rest
    rcases List.eq_nil_or_concat front with rfl | ⟨before, c, rfl⟩
    · simp [LineStartsAfter]
    · simp [LineStartsAfter]
  have hnext : ∀ front rest : Text,
      (front ++ needle ++ rest)[front.length + needle.length]? = rest.head? := by
    intro front rest
    rw [← List.length_append, List.getElem?_append_right le_rfl, Nat.sub_self,
      List.head?_eq_getElem?]
  constructor
  · rintro ⟨⟨rest, hrest⟩, hstarts, hends⟩
    have hinside : offset ≤ source.length := by
      by_contra hout
      rw [List.drop_of_length_le (by omega), List.append_eq_nil_iff] at hrest
      exact hne hrest.1
    obtain ⟨front, hfront, rfl⟩ : ∃ front, source = front ++ needle ++ rest ∧
        offset = front.length :=
      ⟨source.take offset, by rw [List.append_assoc, hrest, List.take_append_drop],
        (List.length_take_of_le hinside).symm⟩
    rw [hfront, hlast] at hstarts
    rw [hfront, hnext] at hends
    exact ⟨front, rest, hfront, rfl, hstarts, (endsName_eq_all rest).trans hends⟩
  · rintro ⟨front, rest, rfl, rfl, hstarts, hends⟩
    refine ⟨?_, (hlast front rest).2 hstarts, ?_⟩
    · rw [List.append_assoc, List.drop_left]
      exact List.prefix_append _ _
    · rw [hnext, ← endsName_eq_all]
      exact hends

theorem mem_places {source needle : Text} (hne : needle ≠ []) {offset : Nat} :
    offset ∈ places source needle ↔ IsPlace source needle offset := by
  rw [places, Finset.mem_filter, and_iff_right_iff_imp, isPlace_iff hne]
  rintro ⟨front, rest, rfl, rfl, -, -⟩
  have hlength := List.length_pos_of_ne_nil hne
  rw [Finset.mem_range, List.length_append, List.length_append]
  omega

/-! ## The search gives every place -/

/-- An occurrence that reaches into a later one at a line start makes the text start over behind one
of its line feeds. -/
theorem apart_of_not_overlapsAtLineStart {needle front rest u v : Text}
    (hself : ¬ OverlapsAtLineStart needle) (hfront : LineStartsAfter front)
    (heq : front ++ needle ++ rest = u ++ needle ++ v) (hlt : u.length < front.length) :
    u.length + needle.length ≤ front.length := by
  by_contra hreaches
  rw [List.append_assoc, List.append_assoc] at heq
  obtain ⟨w, rfl, hw⟩ : ∃ w, front = u ++ w ∧ needle ++ v = w ++ (needle ++ rest) := by
    rcases List.append_eq_append_iff.1 heq with ⟨w, hu, -⟩ | ⟨w, hfront, hneedle⟩
    · rw [hu, List.length_append] at hlt
      omega
    · exact ⟨w, hfront, hneedle⟩
  rw [List.length_append] at hlt hreaches
  have hwne : w ≠ [] := by
    rintro rfl
    simp at hlt
  -- the earlier occurrence is `w` and then a part of the later one
  obtain ⟨s, rfl, hs⟩ : ∃ s, needle = w ++ s ∧ needle ++ rest = s ++ v := by
    rcases List.append_eq_append_iff.1 hw with ⟨s, hwneedle, -⟩ | ⟨s, hneedle, hlater⟩
    · rw [hwneedle, List.length_append] at hreaches
      omega
    · exact ⟨s, hneedle, hlater⟩
  obtain ⟨before, rfl⟩ :=
    eq_append_newline_of_lineStartsAfter ((lineStartsAfter_append_iff u hwne).1 hfront) hwne
  have hs' : s <+: before ++ ['\n'] ++ s :=
    List.prefix_of_prefix_length_le ⟨v, hs.symm⟩ (List.prefix_append _ rest)
      (List.suffix_append _ s).length_le
  rw [← List.append_cons] at hself hs'
  refine hself (overlapsAtLineStart_append ?_ hs')
  rintro rfl
  simp at hreaches

theorem mem_anchoredOccurrences_iff {source needle : Text} (hne : needle ≠ [])
    (hself : ¬ OverlapsAtLineStart needle) {offset : Nat} :
    offset ∈ anchoredOccurrences source needle ↔ IsPlace source needle offset := by
  rw [isPlace_iff hne]
  refine ⟨exists_of_mem_anchoredOccurrences, ?_⟩
  rintro ⟨front, rest, rfl, rfl, hstarts, hends⟩
  exact mem_anchoredOccurrences hne hstarts hends fun u v =>
    apart_of_not_overlapsAtLineStart hself hstarts

theorem pairwise_anchoredFrom (needle : Text) (offset : Nat) (fresh : Bool) (skip : Nat)
    (text : Text) : (anchoredFrom needle offset fresh skip text).Pairwise (· < ·) := by
  induction text generalizing offset fresh skip with
  | nil => simp [anchoredFrom]
  | cons c text ih =>
      cases skip with
      | succ skip =>
          rw [anchoredFrom]
          exact ih _ _ _
      | zero =>
          rw [anchoredFrom]
          split
          · dsimp only
            split
            · refine List.pairwise_cons.2 ⟨fun o ho => ?_, ih _ _ _⟩
              obtain ⟨front, rest, -, rfl, -, -, -⟩ := exists_of_mem_anchoredFrom ho
              omega
            · exact ih _ _ _
          · exact ih _ _ _

theorem pairwise_anchoredOccurrences (source needle : Text) :
    (anchoredOccurrences source needle).Pairwise (· < ·) := by
  rw [anchoredOccurrences]
  split
  · exact List.Pairwise.nil
  · exact pairwise_anchoredFrom needle 0 true 0 source

/-- The search gives the places from left to right. -/
theorem anchoredOccurrences_eq_sort {needle : Text} (hne : needle ≠ [])
    (hself : ¬ OverlapsAtLineStart needle) (source : Text) :
    anchoredOccurrences source needle = (places source needle).sort (· ≤ ·) := by
  have hsorted := pairwise_anchoredOccurrences source needle
  have hset : (anchoredOccurrences source needle).toFinset = places source needle := by
    ext offset
    rw [List.mem_toFinset, mem_anchoredOccurrences_iff hne hself, mem_places hne]
  rw [← hset, (List.toFinset_sort (· ≤ ·) (hsorted.imp Nat.ne_of_lt)).2 (hsorted.imp Nat.le_of_lt)]

/-! ## Splices -/

theorem splice_of_two_le {source previous : Text} (replacement : Text)
    (h : 2 ≤ (anchoredOccurrences source previous).length) :
    splice source previous replacement =
      .error (.ambiguousSplice (anchoredOccurrences source previous).length) := by
  rw [splice]
  split
  · next heq => simp [heq] at h
  · next heq => simp [heq] at h
  · rfl

theorem spliceRequired_eq_bind (source previous replacement : Text) :
    spliceRequired source previous replacement =
      (splice source previous replacement).bind fun patch =>
        if patch.matched then .ok patch.text else .error .noSpliceMatch :=
  rfl

/-- A splice of a text that cannot overlap itself at a line start goes by its places: without any
nothing is replaced, the only one is replaced, and several are a fault that gives their number.  A
required splice gives a text exactly when there is one place. -/
theorem splice_exact (source previous replacement : Text) (hne : previous ≠ [])
    (hself : '\n' ∈ previous → ¬ OverlapsAtLineStart previous) :
    (∀ p, p ∈ places source previous ↔ IsPlace source previous p) ∧
    (places source previous = ∅ →
      splice source previous replacement = .ok ⟨false, source⟩) ∧
    (∀ p, places source previous = {p} →
      splice source previous replacement =
        .ok ⟨true, source.take p ++ replacement ++ source.drop (p + previous.length)⟩) ∧
    (2 ≤ (places source previous).card →
      splice source previous replacement =
        .error (.ambiguousSplice (places source previous).card)) ∧
    ∀ text, spliceRequired source previous replacement = .ok text ↔
      ∃ p, places source previous = {p} ∧
        text = source.take p ++ replacement ++ source.drop (p + previous.length) := by
  have hfound := anchoredOccurrences_eq_sort hne
    (fun hover => hself (newline_mem_of_overlapsAtLineStart hover) hover) source
  have hnone (h : places source previous = ∅) :
      splice source previous replacement = .ok ⟨false, source⟩ := by
    rw [splice, hfound, h, Finset.sort_empty]
  have hone (p : Nat) (h : places source previous = {p}) :
      splice source previous replacement =
        .ok ⟨true, source.take p ++ replacement ++ source.drop (p + previous.length)⟩ := by
    rw [splice, hfound, h, Finset.sort_singleton]
    rfl
  have hmany (h : 2 ≤ (places source previous).card) :
      splice source previous replacement =
        .error (.ambiguousSplice (places source previous).card) := by
    have hlength : (anchoredOccurrences source previous).length =
        (places source previous).card := by rw [hfound, Finset.length_sort]
    rw [splice_of_two_le replacement (hlength ▸ h), hlength]
  refine ⟨fun p => mem_places hne, hnone, hone, hmany, fun text => ⟨fun h => ?_, ?_⟩⟩
  · rw [spliceRequired_eq_bind] at h
    rcases Nat.lt_trichotomy (places source previous).card 1 with hlt | heq | hgt
    · rw [hnone (Finset.card_eq_zero.1 (by omega))] at h
      contradiction
    · obtain ⟨p, hp⟩ := Finset.card_eq_one.1 heq
      rw [hone p hp] at h
      exact ⟨p, hp, (Except.ok.inj h).symm⟩
    · rw [hmany hgt] at h
      contradiction
  · rintro ⟨p, hp, rfl⟩
    rw [spliceRequired_eq_bind, hone p hp]
    rfl

/-- An attributed class head, which the head of another class starts with. -/
def attributedHead : Text := "#[A]\nclass User".toList

/-- A source with the attributed head and a longer one. -/
def twoHeads : Text := "#[A]\nclass UserList\n#[A]\nclass User\n".toList

theorem splice_exact_twoHeads :
    ¬ OverlapsAtLineStart attributedHead ∧ places twoHeads attributedHead = {20} ∧
      splice twoHeads attributedHead "final class User".toList =
        .ok ⟨true, "#[A]\nclass UserList\nfinal class User\n".toList⟩ :=
  have hplaces : places twoHeads attributedHead = {20} := by decide +kernel
  have hself : ¬ OverlapsAtLineStart attributedHead := by decide
  ⟨hself, hplaces,
    (splice_exact twoHeads attributedHead _ (by decide) fun _ => hself).2.2.1 20 hplaces⟩

end PhpDoc
