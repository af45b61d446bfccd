import Mathlib
import PhpDoc.Block.TagGroups
import PhpDoc.Proofs.Texts

/-!
# Laws of tag groups

A keyed list answers for the key that was changed last and keeps every other key and the order of
first appearance.  The groups of a block follow from the list of its read lines: the lines under a
key are the read lines with that key, and the keys are those of the read lines without repetitions.
-/

namespace PhpDoc

/-! ## Keyed lists -/

namespace Keyed

variable {κ α : Type} [DecidableEq κ]

/-- The first value under a key in a list of entries. -/
def lookup (key : κ) (entries : List (κ × α)) : Option α :=
  entries.findSome? fun (k, a) => if k = key then some a else none

theorem lookup_append (key : κ) (entries more : List (κ × α)) :
    lookup key (entries ++ more) = (lookup key entries).or (lookup key more) :=
  List.findSome?_append

theorem lookup_cons (key : κ) (e : κ × α) (entries : List (κ × α)) :
    lookup key (e :: entries) = if e.1 = key then some e.2 else lookup key entries := by
  by_cases h : e.1 = key <;> simp [lookup, h]

theorem lookup_eq_none_iff (key : κ) (entries : List (κ × α)) :
    lookup key entries = none ↔ key ∉ entries.map Prod.fst := by
  induction entries with
  | nil => simp [lookup]
  | cons e rest ih =>
      rw [lookup_cons]
      by_cases h : e.1 = key
      · simp [h]
      · rw [if_neg h, ih]
        simp [Ne.symm h]

theorem lookup_eq_some_iff {entries : List (κ × α)} (h : (entries.map Prod.fst).Nodup) (key : κ)
    (a : α) : lookup key entries = some a ↔ (key, a) ∈ entries := by
  induction entries with
  | nil => simp [lookup]
  | cons e rest ih =>
      obtain ⟨k, b⟩ := e
      have hrest := List.nodup_cons.1 h
      rw [lookup_cons, List.mem_cons, Prod.mk.injEq]
      by_cases hk : k = key
      · subst hk
        have hnot : (k, a) ∉ rest := fun hmem => hrest.1 (List.mem_map.2 ⟨(k, a), hmem, rfl⟩)
        simp [hnot, eq_comm]
      · rw [if_neg hk, ih hrest.2]
        simp [Ne.symm hk]

theorem lookup_alterEntries (key k : κ) (change : Option α → α) (entries : List (κ × α)) :
    lookup k (alterEntries key change entries) =
      if k = key then some (change (lookup key entries)) else lookup k entries := by
  induction entries with
  | nil => by_cases h : k = key <;> simp [lookup, alterEntries, h, eq_comm]
  | cons e rest ih =>
      obtain ⟨e, a⟩ := e
      simp only [lookup] at ih
      by_cases he : e = key
      · subst he
        by_cases hk : k = e
        · simp [lookup, alterEntries, hk]
        · simp [lookup, alterEntries, hk, Ne.symm hk]
      · by_cases hk : k = e
        · subst hk
          simp [lookup, alterEntries, he]
        · simp [lookup, alterEntries, he, Ne.symm hk, ih]

theorem get?_alter (m : Keyed κ α) (key k : κ) (change : Option α → α) :
    (m.alter key change).get? k = if k = key then some (change (m.get? key)) else m.get? k :=
  lookup_alterEntries key k change m.entries

theorem get?_eq_none_iff (m : Keyed κ α) (k : κ) : m.get? k = none ↔ k ∉ m.keys :=
  lookup_eq_none_iff k m.entries

theorem get?_eq_some_iff (m : Keyed κ α) (k : κ) (a : α) : m.get? k = some a ↔ (k, a) ∈ m.entries :=
  lookup_eq_some_iff m.nodup k a

theorem mem_keys_of_get? {m : Keyed κ α} {k : κ} {a : α} (h : m.get? k = some a) : k ∈ m.keys :=
  List.mem_map_of_mem ((m.get?_eq_some_iff k a).1 h)

theorem size_eq_card {m : Keyed κ α} {keys : Finset κ}
    (h : ∀ key, m.get? key = none ↔ key ∉ keys) : m.size = keys.card := by
  have hkeys : m.keys.toFinset = keys := by
    ext key
    rw [List.mem_toFinset, ← not_iff_not, ← get?_eq_none_iff, h]
  rw [← hkeys, Keyed.keys, List.toFinset_card_of_nodup m.nodup, List.length_map, Keyed.size]

theorem keys_alterEntries_of_mem {key : κ} (change : Option α → α) {entries : List (κ × α)}
    (h : key ∈ entries.map Prod.fst) :
    (alterEntries key change entries).map Prod.fst = entries.map Prod.fst := by
  induction entries with
  | nil => simp at h
  | cons e rest ih =>
      by_cases he : e.1 = key
      · simp [alterEntries, he]
      · have hrest : key ∈ rest.map Prod.fst := by simpa [Ne.symm he] using h
        simp [alterEntries, he, ih hrest]

theorem keys_alterEntries_of_not_mem {key : κ} (change : Option α → α) {entries : List (κ × α)}
    (h : key ∉ entries.map Prod.fst) :
    (alterEntries key change entries).map Prod.fst = entries.map Prod.fst ++ [key] := by
  induction entries with
  | nil => simp [alterEntries]
  | cons e rest ih =>
      obtain ⟨he, hrest⟩ : key ≠ e.1 ∧ key ∉ rest.map Prod.fst := by
        simpa only [List.map_cons, List.mem_cons, not_or] using h
      simp [alterEntries, Ne.symm he, ih hrest]

/-- Changing a present key keeps the order of first appearance. -/
theorem keys_alter_of_mem (m : Keyed κ α) {key : κ} (change : Option α → α) (h : key ∈ m.keys) :
    (m.alter key change).keys = m.keys :=
  keys_alterEntries_of_mem change h

/-- A new key goes to the end. -/
theorem keys_alter_of_not_mem (m : Keyed κ α) {key : κ} (change : Option α → α)
    (h : key ∉ m.keys) : (m.alter key change).keys = m.keys ++ [key] :=
  keys_alterEntries_of_not_mem change h

end Keyed

/-! ## Groups -/

namespace TagGroups

@[simp] theorem lines_empty (key : Text) : empty.lines key = [] := rfl

theorem lines_set (g : TagGroups) (key k : Text) (lines : List Text) :
    (g.set key lines).lines k = if k = key then lines else g.lines k := by
  by_cases h : k = key <;> simp [set, TagGroups.lines, Keyed.set, Keyed.get?_alter, h]

@[simp] theorem lines_set_self (g : TagGroups) (key : Text) (lines : List Text) :
    (g.set key lines).lines key = lines := by
  rw [lines_set, if_pos rfl]

theorem lines_set_of_ne (g : TagGroups) {key k : Text} (h : k ≠ key) (lines : List Text) :
    (g.set key lines).lines k = g.lines k := by
  rw [lines_set, if_neg h]

theorem keys_set (g : TagGroups) (key : Text) (lines : List Text) :
    (g.set key lines).keys = if key ∈ g.keys then g.keys else g.keys ++ [key] := by
  split_ifs with h
  · exact Keyed.keys_alter_of_mem g.groups _ h
  · exact Keyed.keys_alter_of_not_mem g.groups _ h

theorem lines_push (g : TagGroups) (key k line : Text) :
    (g.push key line).lines k = if k = key then g.lines key ++ [line] else g.lines k := by
  by_cases h : k = key <;> simp [push, TagGroups.lines, Keyed.get?_alter, h]

theorem keys_push (g : TagGroups) (key line : Text) :
    (g.push key line).keys = if key ∈ g.keys then g.keys else g.keys ++ [key] := by
  split_ifs with h
  · exact Keyed.keys_alter_of_mem g.groups _ h
  · exact Keyed.keys_alter_of_not_mem g.groups _ h

theorem mem_keys_of_mem_lines {g : TagGroups} {key line : Text} (h : line ∈ g.lines key) :
    key ∈ g.keys := by
  by_contra hkey
  have hnone : g.groups.get? key = none := (Keyed.get?_eq_none_iff g.groups key).2 hkey
  simp [TagGroups.lines, hnone] at h

theorem has_iff (g : TagGroups) (key : Text) : g.has key = true ↔ g.lines key ≠ [] := by
  simp [has]

end TagGroups

/-- The lines that stand under a key in a list of read lines. -/
def linesUnder (key : Text) (pairs : List (Text × Text)) : List Text :=
  (pairs.filter fun pair => pair.1 = key).map Prod.snd

theorem linesUnder_append (key : Text) (front back : List (Text × Text)) :
    linesUnder key (front ++ back) = linesUnder key front ++ linesUnder key back := by
  simp [linesUnder]

theorem linesUnder_singleton (key k line : Text) :
    linesUnder key [(k, line)] = if k = key then [line] else [] := by
  by_cases h : k = key <;> simp [linesUnder, h]

theorem mem_linesUnder {key line : Text} {pairs : List (Text × Text)} :
    line ∈ linesUnder key pairs ↔ (key, line) ∈ pairs := by
  simp [linesUnder]

namespace TagGroups

/-- The groups that a list of read lines builds. -/
def ofPairs (pairs : List (Text × Text)) : TagGroups :=
  pairs.foldl (fun g (key, line) => g.push key line) .empty

theorem ofPairs_concat (pairs : List (Text × Text)) (pair : Text × Text) :
    ofPairs (pairs ++ [pair]) = (ofPairs pairs).push pair.1 pair.2 := by
  simp [ofPairs]

theorem lines_ofPairs (pairs : List (Text × Text)) (key : Text) :
    (ofPairs pairs).lines key = linesUnder key pairs := by
  induction pairs using List.reverseRecOn with
  | nil => rfl
  | append_singleton pairs pair ih =>
      obtain ⟨k, line⟩ := pair
      rw [ofPairs_concat, lines_push, linesUnder_append, linesUnder_singleton]
      by_cases h : key = k
      · subst h
        simp [ih]
      · simp [h, Ne.symm h, ih]

theorem keys_ofPairs (pairs : List (Text × Text)) :
    (ofPairs pairs).keys = (pairs.map Prod.fst).eraseDups := by
  induction pairs using List.reverseRecOn with
  | nil => rfl
  | append_singleton pairs pair ih =>
      rw [ofPairs_concat, keys_push, ih, List.map_append, List.eraseDups_append]
      by_cases h : pair.1 ∈ pairs.map Prod.fst
      · rw [if_pos (List.mem_eraseDups.2 h)]
        simp [List.removeAll, h]
      · rw [if_neg (mt List.mem_eraseDups.1 h)]
        simp [List.removeAll, h, List.eraseDups_cons]

theorem ofBlock_eq_ofPairs (block : Text) :
    ofBlock block = ofPairs (block.lines.filterMap classify) := rfl

end TagGroups
end PhpDoc
