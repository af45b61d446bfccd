/-!
# Keyed lists

A keyed list holds values under distinct keys, in the order in which the keys first appeared.
Changing the value of a present key keeps its place; a new key goes to the end.
-/

namespace PhpDoc

/-- Values under distinct keys in order of first appearance. -/
structure Keyed (κ α : Type) where
  /-- The keys with their values. -/
  entries : List (κ × α)
  /-- No key occurs twice. -/
  nodup : (entries.map Prod.fst).Nodup
deriving DecidableEq

namespace Keyed

variable {κ α : Type} [DecidableEq κ]

/-- The value of `key` becomes `change` of its present value; a new key goes to the end. -/
def alterEntries (key : κ) (change : Option α → α) : List (κ × α) → List (κ × α)
  | [] => [(key, change none)]
  | (k, a) :: rest =>
    if k = key then (k, change (some a)) :: rest else (k, a) :: alterEntries key change rest

theorem mem_keys_alterEntries (key k : κ) (change : Option α → α) (entries : List (κ × α)) :
    k ∈ (alterEntries key change entries).map Prod.fst ↔ k = key ∨ k ∈ entries.map Prod.fst := by
  induction entries with
  | nil => simp [alterEntries]
  | cons e rest ih =>
    by_cases h : e.1 = key
    · simp [alterEntries, h]
    · simp only [alterEntries, h, if_false, List.map_cons, List.mem_cons, ih]
      exact or_left_comm

theorem nodup_alterEntries (key : κ) (change : Option α → α) (entries : List (κ × α))
    (h : (entries.map Prod.fst).Nodup) :
    ((alterEntries key change entries).map Prod.fst).Nodup := by
  induction entries with
  | nil => simp [alterEntries]
  | cons e rest ih =>
    obtain ⟨k, a⟩ := e
    have h' := List.nodup_cons.1 h
    unfold alterEntries
    split
    · exact h
    · next hk =>
      refine List.nodup_cons.2 ⟨fun hm => ?_, ih h'.2⟩
      rcases (mem_keys_alterEntries key k change rest).1 hm with heq | hmem
      · exact hk heq
      · exact h'.1 hmem

/-- No keys at all. -/
def empty : Keyed κ α := ⟨[], List.nodup_nil⟩

instance : EmptyCollection (Keyed κ α) := ⟨empty⟩

/-- The value of `key` becomes `change` of its present value. -/
def alter (m : Keyed κ α) (key : κ) (change : Option α → α) : Keyed κ α :=
  ⟨alterEntries key change m.entries, nodup_alterEntries key change m.entries m.nodup⟩

/-- The value of `key` becomes `a`. -/
def set (m : Keyed κ α) (key : κ) (a : α) : Keyed κ α :=
  m.alter key fun _ => a

/-- The value of `key`. -/
def get? (m : Keyed κ α) (key : κ) : Option α :=
  m.entries.findSome? fun (k, a) => if k = key then some a else none

/-- The keys in order of first appearance. -/
def keys (m : Keyed κ α) : List κ :=
  m.entries.map Prod.fst

/-- How many keys there are. -/
def size (m : Keyed κ α) : Nat :=
  m.entries.length

/-- The keyed list that setting the given pairs one after the other builds. -/
def ofList (pairs : List (κ × α)) : Keyed κ α :=
  pairs.foldl (fun m (k, a) => m.set k a) ∅

end Keyed

end PhpDoc
