import Mathlib
import PhpDoc.Block.Layout
import PhpDoc.Proofs.Reading

/-!
# Reading an assembled block

An assembled block is read back into the groups it was made from: every line stands under its key
again, and the keys come in the order in which they were written.  Separators and delimiters are
read as nothing, so how the lines are spaced out does not matter.  A block that was read, assembled
and read again is therefore assembled into the same text.
-/

namespace PhpDoc

/-! ## Spacing -/

theorem filterMap_spaceOut {β : Type} (f : Text → Option β) (hf : f separatorLine = none)
    (started due : Bool) (lines : List Text) :
    (spaceOut started due lines).filterMap f = lines.filterMap f := by
  induction lines generalizing started due with
  | nil => rfl
  | cons line rest ih =>
      rw [spaceOut]
      split
      · next hline => rw [ih, hline, List.filterMap_cons, hf]
      · split
        · simp only [List.filterMap_cons, hf, ih]
        · simp only [List.filterMap_cons, ih]

theorem mem_of_mem_spaceOut {started due : Bool} {lines : List Text} {line : Text}
    (h : line ∈ spaceOut started due lines) : line = separatorLine ∨ line ∈ lines := by
  induction lines generalizing started due with
  | nil => simp [spaceOut] at h
  | cons next rest ih =>
      rw [spaceOut] at h
      split at h
      · exact (ih h).imp_right (List.mem_cons_of_mem _)
      · split at h
        · rcases List.mem_cons.1 h with rfl | h
          · exact Or.inl rfl
          · rcases List.mem_cons.1 h with rfl | h
            · exact Or.inr List.mem_cons_self
            · exact (ih h).imp_right (List.mem_cons_of_mem _)
        · rcases List.mem_cons.1 h with rfl | h
          · exact Or.inr List.mem_cons_self
          · exact (ih h).imp_right (List.mem_cons_of_mem _)

/-! ## Lists of lines under keys -/

/-- The lines of the given keys, each under its key. -/
def underKeys (keys : List Text) (f : Text → List Text) : List (Text × Text) :=
  keys.flatMap fun key => (f key).map fun line => (key, line)

theorem linesUnder_underKeys {keys : List Text} (hkeys : keys.Nodup) (f : Text → List Text)
    (key : Text) : linesUnder key (underKeys keys f) = if key ∈ keys then f key else [] := by
  induction keys with
  | nil => rfl
  | cons k keys ih =>
      obtain ⟨hk, hkeys⟩ := List.nodup_cons.1 hkeys
      have hcons : underKeys (k :: keys) f =
          ((f k).map fun line => (k, line)) ++ underKeys keys f := rfl
      have hhead : linesUnder key ((f k).map fun line => (k, line)) =
          if k = key then f k else [] := by
        by_cases h : k = key
        · simp [linesUnder, h, List.filter_map, Function.comp_def]
        · simp [linesUnder, h]
      rw [hcons, linesUnder_append, hhead, ih hkeys]
      by_cases h : k = key
      · subst h
        simp [hk]
      · simp [h, Ne.symm h]

theorem keys_underKeys {keys : List Text} (hkeys : keys.Nodup) (f : Text → List Text) :
    ((underKeys keys f).map Prod.fst).eraseDups = keys.filter fun key => !(f key).isEmpty := by
  induction keys with
  | nil => rfl
  | cons k keys ih =>
      obtain ⟨hk, hkeys⟩ := List.nodup_cons.1 hkeys
      have hmap : (underKeys (k :: keys) f).map Prod.fst =
          List.replicate (f k).length k ++ (underKeys keys f).map Prod.fst := by
        simp [underKeys, Function.comp_def, List.map_const']
      cases hf : f k with
      | nil => simpa [hmap, hf] using ih hkeys
      | cons line more =>
          have hmem : ∀ p ∈ (underKeys keys f).map Prod.fst, p ∈ keys := by
            intro p hp
            simp only [underKeys, List.mem_map, List.mem_flatMap] at hp
            obtain ⟨_, ⟨k', hk', line', -, rfl⟩, rfl⟩ := hp
            exact hk'
          have hfilter : ((underKeys keys f).map Prod.fst).filter (fun b => !b == k) =
              (underKeys keys f).map Prod.fst :=
            List.filter_eq_self.2 fun p hp => by
              have : p ≠ k := fun h => hk (h ▸ hmem p hp)
              simpa using this
          have hrep : (List.replicate more.length k).filter (fun b => !b == k) = [] := by
            simp
          rw [hmap, hf, List.length_cons, List.replicate_succ, List.cons_append,
            List.eraseDups_cons, List.filter_append, hrep, hfilter, List.nil_append, ih hkeys]
          simp [hf]

/-! ## Assembled blocks -/

namespace TagGroups

/-- The keys in the order in which an assembled block writes them. -/
def writtenKeys (g : TagGroups) (order : GroupOrder) : List Text :=
  order.map Prod.fst ++ g.unordered order

theorem nodup_writtenKeys (g : TagGroups) {order : GroupOrder}
    (horder : (order.map Prod.fst).Nodup) : (g.writtenKeys order).Nodup := by
  refine List.nodup_append.2 ⟨horder, g.groups.nodup.filter _, ?_⟩
  rintro key hkey other hother rfl
  have hnot := (List.mem_filter.1 hother).2
  simp only [Bool.not_eq_true', List.contains_eq_mem, decide_eq_false_iff_not] at hnot
  exact hnot hkey

theorem mem_writtenKeys_of_mem_lines {g : TagGroups} {key line : Text} (order : GroupOrder)
    (h : line ∈ g.lines key) : key ∈ g.writtenKeys order := by
  by_cases hkey : key ∈ order.map Prod.fst
  · exact List.mem_append_left _ hkey
  · refine List.mem_append_right _ (List.mem_filter.2 ⟨mem_keys_of_mem_lines h, ?_⟩)
    simpa using hkey

/-- The lines of a body, up to separators, are those of the written keys in order. -/
theorem filterMap_bodyLines {β : Type} (f : Text → Option β) (hf : f separatorLine = none)
    (g : TagGroups) (order : GroupOrder) :
    (g.bodyLines order).filterMap f =
      (g.writtenKeys order).flatMap fun key => (g.lines key).filterMap f := by
  have hordered : ∀ key separated,
      (g.orderedLines key separated).filterMap f = (g.lines key).filterMap f := by
    intro key separated
    rw [orderedLines]
    split
    · next hnil => rw [List.isEmpty_iff.1 hnil]
    · split
      · simp [hf]
      · rfl
  have hunordered : (g.unorderedLines order).filterMap f =
      (g.unordered order).flatMap fun key => (g.lines key).filterMap f := by
    rw [unorderedLines]
    split
    · next hnil => simp [List.isEmpty_iff.1 hnil]
    · simp [hf, List.filterMap_flatMap]
  rw [bodyLines, List.filterMap_append, hunordered, writtenKeys, List.flatMap_append,
    List.filterMap_flatMap, List.flatMap_map]
  simp only [hordered]

theorem mem_bodyLines {g : TagGroups} {order : GroupOrder} {line : Text}
    (h : line ∈ g.bodyLines order) : line = separatorLine ∨ ∃ key, line ∈ g.lines key := by
  rw [or_iff_not_imp_left]
  intro hline
  -- read off membership with a reader that only keeps this one line
  let f : Text → Option Text := fun l => if l = line then some l else none
  have hf : f separatorLine = none := if_neg (Ne.symm hline)
  have hmem : line ∈ (g.bodyLines order).filterMap f :=
    List.mem_filterMap.2 ⟨line, h, if_pos rfl⟩
  rw [filterMap_bodyLines f hf] at hmem
  obtain ⟨key, -, hkey⟩ := List.mem_flatMap.1 hmem
  obtain ⟨l, hl, heq⟩ := List.mem_filterMap.1 hkey
  by_cases hll : l = line
  · exact ⟨key, hll ▸ hl⟩
  · simp [f, hll] at heq

theorem lines_assemble {g : TagGroups} (order : GroupOrder)
    (hg : ∀ key, ∀ line ∈ g.lines key, '\n' ∉ line) :
    (g.assemble order).lines =
      openingLine :: (spaceOut false false (g.bodyLines order)).map Text.dropReturn ++
        [closingLine] := by
  have hbody : ∀ line ∈ openingLine :: spaceOut false false (g.bodyLines order), '\n' ∉ line := by
    intro line hline
    rcases List.mem_cons.1 hline with rfl | hline
    · decide
    · rcases mem_of_mem_spaceOut hline with rfl | hline
      · decide
      · rcases mem_bodyLines hline with rfl | ⟨key, hkey⟩
        · decide
        · exact hg key line hkey
  rw [assemble, Text.lines_joinLines hbody (by decide) (by decide)]
  rfl

/-- What is read in an assembled block: the lines of the written keys, each under its key. -/
theorem readLines_assemble {g : TagGroups} (hg : g.AllReadBack) (order : GroupOrder) :
    (g.assemble order).lines.filterMap classify =
      underKeys (g.writtenKeys order) fun key => (g.lines key).map Text.dropReturn := by
  have hsep : (classify ∘ Text.dropReturn) separatorLine = none := by decide
  have hopen : classify openingLine = none := by decide
  have hclose : classify closingLine = none := by decide
  rw [lines_assemble order fun key line hline => (hg key line hline).newline_not_mem,
    List.filterMap_append, List.filterMap_cons, hopen, List.filterMap_map,
    filterMap_spaceOut _ hsep, filterMap_bodyLines _ hsep]
  simp only [List.filterMap_cons, hclose, List.filterMap_nil, List.append_nil, underKeys,
    List.map_map]
  refine List.flatMap_congr fun key _ => ?_
  have hread : ∀ line ∈ g.lines key,
      (classify ∘ Text.dropReturn) line = some (key, Text.dropReturn line) :=
    fun line hline => (hg key line hline).classify_eq
  rw [List.filterMap_congr hread, List.filterMap_eq_map']
  rfl

/-- Every line of an assembled block is read back under its key. -/
theorem lines_ofBlock_assemble {g : TagGroups} (hg : g.AllReadBack) {order : GroupOrder}
    (horder : (order.map Prod.fst).Nodup) (key : Text) :
    (ofBlock (g.assemble order)).lines key = (g.lines key).map Text.dropReturn := by
  rw [lines_ofBlock, readLines_assemble hg, linesUnder_underKeys (g.nodup_writtenKeys horder)]
  split
  · rfl
  · next hkey =>
      cases hlines : g.lines key with
      | nil => rfl
      | cons line more =>
          exact absurd (mem_writtenKeys_of_mem_lines order
            (hlines ▸ List.mem_cons_self : line ∈ g.lines key)) hkey

/-- The keys of an assembled block come in the order in which they are written. -/
theorem keys_ofBlock_assemble {g : TagGroups} (hg : g.AllReadBack) {order : GroupOrder}
    (horder : (order.map Prod.fst).Nodup) :
    (ofBlock (g.assemble order)).keys = (g.writtenKeys order).filter g.has := by
  rw [ofBlock_eq_ofPairs, keys_ofPairs, readLines_assemble hg,
    keys_underKeys (g.nodup_writtenKeys horder)]
  refine List.filter_congr fun key _ => ?_
  rw [List.isEmpty_map, has]

/-- Of the keys that the order does not name, those with lines come back in their order. -/
theorem unordered_ofBlock_assemble {g : TagGroups} (hg : g.AllReadBack) {order : GroupOrder}
    (horder : (order.map Prod.fst).Nodup) :
    (ofBlock (g.assemble order)).unordered order = (g.unordered order).filter g.has := by
  have hnamed : (order.map Prod.fst).filter
      (fun key => !(order.map Prod.fst).contains key) = [] := by
    refine List.filter_eq_nil_iff.2 fun key hkey => ?_
    rw [List.contains_iff_mem.2 hkey, Bool.not_true]
    exact Bool.false_ne_true
  have hunnamed : (g.unordered order).filter
      (fun key => !(order.map Prod.fst).contains key) = g.unordered order :=
    List.filter_eq_self.2 fun key hkey => (List.mem_filter.1 hkey).2
  rw [unordered, keys_ofBlock_assemble hg horder, List.filter_comm, writtenKeys,
    List.filter_append, hnamed, hunnamed, List.nil_append]

/-! ## Regrouping -/

theorem assemble_congr {g g' : TagGroups} {order : GroupOrder}
    (hlines : ∀ key, g.lines key = g'.lines key) (hunordered : g.unordered order = g'.unordered order) :
    g.assemble order = g'.assemble order := by
  have hsame : g.lines = g'.lines := funext hlines
  have hordered : ∀ key separated, g.orderedLines key separated = g'.orderedLines key separated := by
    intro key separated
    rw [orderedLines, hsame, orderedLines]
  simp only [assemble, bodyLines, unorderedLines, hunordered, hsame, hordered]

/-- Every group of a block that was read has a line. -/
theorem has_of_mem_keys_ofBlock {block key : Text} (h : key ∈ (ofBlock block).keys) :
    (ofBlock block).has key = true := by
  rw [ofBlock_eq_ofPairs, keys_ofPairs, List.mem_eraseDups, List.mem_map] at h
  obtain ⟨⟨k, line⟩, hmem, rfl⟩ := h
  rw [has_iff, ofBlock_eq_ofPairs, lines_ofPairs]
  exact List.ne_nil_of_mem (mem_linesUnder.2 hmem)

theorem filter_has_unordered_ofBlock (block : Text) (order : GroupOrder) :
    ((ofBlock block).unordered order).filter (ofBlock block).has =
      (ofBlock block).unordered order :=
  List.filter_eq_self.2 fun _ hkey => has_of_mem_keys_ofBlock (List.mem_filter.1 hkey).1

theorem getLast?_ne_return_of_mem_lines {block key line : Text}
    (h : ∀ l ∈ block.lines, l.getLast? ≠ some '\r') (hline : line ∈ (ofBlock block).lines key) :
    line.getLast? ≠ some '\r' := by
  obtain ⟨source, hsource, hclass⟩ := mem_lines_ofBlock.1 hline
  exact getLast?_ne_return_of_classify (h source hsource) hclass

/-- **Regrouping an assembled block loses nothing.**  Every key has the same lines as before; the keys
are those of the order that have lines, in its sequence, and then the others in their order of first
appearance; and the block that is assembled from what was read is the same block. -/
theorem regroup_assembled {block : Text} {order : GroupOrder}
    (hblock : ∀ line ∈ block.lines, line.getLast? ≠ some '\r')
    (horder : (order.map Prod.fst).Nodup) :
    (∀ key, (ofBlock ((ofBlock block).assemble order)).lines key = (ofBlock block).lines key) ∧
      (ofBlock ((ofBlock block).assemble order)).keys =
        (order.map Prod.fst).filter (ofBlock block).has ++ (ofBlock block).unordered order ∧
      (ofBlock ((ofBlock block).assemble order)).assemble order =
        (ofBlock block).assemble order := by
  have hback : (ofBlock block).AllReadBack := allReadBack_ofBlock hblock
  have hlines : ∀ key,
      (ofBlock ((ofBlock block).assemble order)).lines key = (ofBlock block).lines key := by
    intro key
    rw [lines_ofBlock_assemble hback horder]
    exact Text.map_dropReturn_eq_self fun line hline =>
      getLast?_ne_return_of_mem_lines hblock hline
  refine ⟨hlines, ?_, assemble_congr hlines ?_⟩
  · rw [keys_ofBlock_assemble hback horder, writtenKeys, List.filter_append,
      filter_has_unordered_ofBlock]
  · rw [unordered_ofBlock_assemble hback horder, filter_has_unordered_ofBlock]

/-- A block with a tag beside its opening delimiter that comes back later, a line that ends in a
carriage return and a line feed, and a line without a star. -/
def crowdedBlock : Text :=
  ("/** @see B\r\n *  words\n * @param int $a\n aside\n *\n * @see A\n" ++
    "\t*\t@return\n * @param\n **/").toList

/-- An order with a key that the block does not have. -/
def crowdedOrder : GroupOrder :=
  [("@param".toList, true), ("@deprecated".toList, false), (commentKey, true)]

theorem crowdedBlock_regroup_assembled :
    (∀ line ∈ crowdedBlock.lines, line.getLast? ≠ some '\r') ∧
      (crowdedOrder.map Prod.fst).Nodup ∧
      (ofBlock ((ofBlock crowdedBlock).assemble crowdedOrder)).lines "@see".toList =
        [" * @see B".toList, " * @see A".toList] ∧
      (ofBlock ((ofBlock crowdedBlock).assemble crowdedOrder)).keys =
        ["@param".toList, commentKey, "@see".toList, "@return".toList] ∧
      (ofBlock ((ofBlock crowdedBlock).assemble crowdedOrder)).assemble crowdedOrder =
        (ofBlock crowdedBlock).assemble crowdedOrder := by
  have hblock : ∀ line ∈ crowdedBlock.lines, line.getLast? ≠ some '\r' := by decide
  have horder : (crowdedOrder.map Prod.fst).Nodup := by decide
  obtain ⟨hlines, hkeys, hagain⟩ := regroup_assembled hblock horder
  exact ⟨hblock, horder, (hlines "@see".toList).trans (by decide), hkeys.trans (by decide), hagain⟩

end TagGroups
end PhpDoc
