import Mathlib
import PhpDoc.Project.ClassFile
import PhpDoc.Proofs.Files

/-!
# Paths that go down

The path of a file below a directory is that of the directory with the names on the way written
behind it.  It takes the steps of the directory's path and then the names, whatever slashes the path
is written with, and it leads to the location of the directory with the names added.  Files below
one directory therefore come in the order of their names, and different files have different paths.

The start of a path ends with its last step that is not a name.  Two paths with one start lead to the
same place only if they take the same steps.  With different starts this fails: a path from the top
and a path from the working directory can lead to one place.
-/

namespace PhpDoc

/-- What a file or a directory can be called. -/
@[mk_iff]
structure IsFileName (name : Text) : Prop where
  ne_nil : name ≠ []
  ne_here : name ≠ ['.']
  ne_up : name ≠ ['.', '.']
  slash_not_mem : '/' ∉ name
  null_not_mem : Char.ofNat 0 ∉ name
  byteSize_le : name.byteSize ≤ Path.maxNameBytes

instance : DecidablePred IsFileName := fun name =>
  decidable_of_iff' _ (isFileName_iff name)

/-- Whether a step is one to a name. -/
def Component.isName : Component → Bool
  | name _ => true
  | _ => false

/-! ## The steps of a joined path -/

namespace Path

theorem step?_of_isFileName {name : Text} (h : IsFileName name) :
    step? name = some (.name name) := by
  rw [step?, if_neg, if_neg h.ne_up]
  simp [isIdle, h.ne_nil, h.ne_here]

theorem segments_ne_nil (p : Path) : p.segments ≠ [] :=
  Text.pieces_ne_nil '/' p.text

/-- A path is a first segment, from which it starts, and the steps behind it. -/
theorem components_of_segments {p : Path} {first : Text} {rest : List Text}
    (h : p.segments = first :: rest) :
    p.components = (p.leadingStep? first).toList ++ rest.filterMap step? := by
  rw [components, h]

/-- Steps are added behind a slash; how many slashes there are does not matter. -/
theorem components_append_slash {text : Text} (hne : text ≠ []) (rest : Text) :
    components ⟨text ++ '/' :: rest⟩ =
      components ⟨text⟩ ++ (Text.pieces '/' rest).filterMap step? := by
  obtain ⟨first, more, hfirst⟩ := List.exists_cons_of_ne_nil (segments_ne_nil ⟨text⟩)
  have hsegments : segments ⟨text ++ '/' :: rest⟩ = first :: (more ++ Text.pieces '/' rest) := by
    have hpieces : Text.pieces '/' text = first :: more := hfirst
    rw [segments, Text.pieces_append_separator, hpieces, List.cons_append]
  have hlead : leadingStep? ⟨text ++ '/' :: rest⟩ first = leadingStep? ⟨text⟩ first := by
    rw [leadingStep?, leadingStep?, List.head?_append_of_ne_nil _ hne]
  rw [components_of_segments hsegments, components_of_segments hfirst, hlead,
    List.filterMap_append, List.append_assoc]

/-- A leading slash is the step to the top. -/
theorem components_slash (rest : Text) :
    components ⟨'/' :: rest⟩ = .top :: (Text.pieces '/' rest).filterMap step? :=
  rfl

/-- A path that does not start at the top adds its steps; a dot at its start is none. -/
theorem components_join {base p : Path} (hbase : base.text ≠ []) (hp : p.text.head? ≠ some '/') :
    (base.join p).components = base.components ++ p.segments.filterMap step? := by
  have hempty : base.text.isEmpty = false := by simpa using hbase
  rw [join, if_neg hp, hempty, Bool.false_or]
  split
  · next hslash =>
      -- the slash at the end of the base is the one between the two
      obtain ⟨front, hfront⟩ : ['/'] <:+ base.text :=
        List.reverse_prefix.1 (List.isPrefixOf_iff_prefix.1 hslash)
      have hjoined : base.text ++ p.text = front ++ '/' :: p.text := by
        rw [← hfront, List.append_assoc, List.singleton_append]
      have hbase' : base = ⟨front ++ '/' :: []⟩ := by
        rw [hfront]
      rw [hjoined, hbase']
      cases front with
      | nil => rfl
      | cons c front =>
          rw [components_append_slash (List.cons_ne_nil c front),
            components_append_slash (List.cons_ne_nil c front), List.append_assoc]
          rfl
  · exact components_append_slash hbase p.text

theorem text_ne_nil_of_isUsable {p : Path} (h : p.isUsable = true) : p.text ≠ [] := by
  rintro hnil
  simp [isUsable, hnil] at h

theorem text_join_ne_nil {base p : Path} (hp : p.text ≠ []) : (base.join p).text ≠ [] := by
  rw [join]
  split
  · exact hp
  · split <;> simp [hp]

end Path

/-! ## The path of a file below a directory -/

namespace ClassFile

theorem pathBelow_cons (base : Path) (name : Text) (names : Location) :
    pathBelow base (name :: names) = pathBelow (base.join ⟨name⟩) names :=
  rfl

/-- The path takes the steps of the directory's path and then the names. -/
theorem components_pathBelow {base : Path} (hbase : base.text ≠ []) {names : Location}
    (hnames : ∀ name ∈ names, IsFileName name) :
    (pathBelow base names).components = base.components ++ names.map .name := by
  induction names generalizing base with
  | nil => simp [pathBelow]
  | cons name names ih =>
      have hname := hnames name List.mem_cons_self
      have hsegments : Path.segments ⟨name⟩ = [name] := Text.pieces_of_not_mem hname.slash_not_mem
      have hhead : name.head? ≠ some '/' := fun h => hname.slash_not_mem (List.mem_of_mem_head? h)
      rw [pathBelow_cons, ih (Path.text_join_ne_nil hname.ne_nil) fun other hother =>
          hnames other (List.mem_cons_of_mem _ hother),
        Path.components_join hbase hhead, hsegments, List.filterMap_cons,
        Path.step?_of_isFileName hname]
      simp

theorem null_not_mem_pathBelow {base : Path} (hbase : Char.ofNat 0 ∉ base.text) {names : Location}
    (hnames : ∀ name ∈ names, IsFileName name) : Char.ofNat 0 ∉ (pathBelow base names).text := by
  induction names generalizing base with
  | nil => exact hbase
  | cons name names ih =>
      have hname := (hnames name List.mem_cons_self).null_not_mem
      refine ih ?_ fun other hother => hnames other (List.mem_cons_of_mem _ hother)
      simp only [Path.join]
      split
      · exact hname
      · split
        · exact List.not_mem_append hbase hname
        · exact List.not_mem_append hbase (List.not_mem_cons_of_ne_of_not_mem (by decide) hname)

theorem text_pathBelow_ne_nil {base : Path} (hbase : base.text ≠ []) {names : Location}
    (hnames : ∀ name ∈ names, IsFileName name) : (pathBelow base names).text ≠ [] := by
  induction names generalizing base with
  | nil => exact hbase
  | cons name names ih =>
      have hname := (hnames name List.mem_cons_self).ne_nil
      exact ih (Path.text_join_ne_nil hname) fun other hother =>
        hnames other (List.mem_cons_of_mem _ hother)

/-- Only its length can keep the path of something below a usable path from being usable. -/
theorem isUsable_pathBelow_iff {base : Path} (hbase : base.isUsable = true) {names : Location}
    (hnames : ∀ name ∈ names, IsFileName name) :
    (pathBelow base names).isUsable = true ↔
      (pathBelow base names).text.byteSize ≤ Path.maxBytes := by
  have hne := text_pathBelow_ne_nil (Path.text_ne_nil_of_isUsable hbase) hnames
  have hnull : Char.ofNat 0 ∉ base.text := by
    simp only [Path.isUsable, Bool.and_eq_true] at hbase
    simpa using hbase.2
  simp [Path.isUsable, hne, null_not_mem_pathBelow hnull hnames]

end ClassFile

/-! ## Where a path that goes down leads -/

namespace FileTree

variable {tree : FileTree}

theorem follow?_append (start : Location) (steps more : List Component) :
    tree.follow? start (steps ++ more) =
      (tree.follow? start steps).bind fun next => tree.follow? next more := by
  induction steps generalizing start with
  | nil => rfl
  | cons step steps ih =>
      cases step <;> simp only [List.cons_append, follow?, ih]
      case name name =>
        split
        · split <;> rfl
        · rfl
      all_goals split <;> rfl

/-- Names lead to the location that they are added to. -/
theorem eq_append_of_follow?_names {start location : Location} {names : Location}
    (h : tree.follow? start (names.map .name) = some location) : location = start ++ names := by
  induction names generalizing start with
  | nil =>
      rw [List.map_nil, follow?, Option.some.injEq] at h
      rw [← h, List.append_nil]
  | cons name names ih =>
      obtain ⟨next, hnext, hname⟩ := exists_next_of_follow? h
      rw [ih hnext, hname name rfl, List.append_assoc, List.singleton_append]

theorem isBelow_append {directory names : Location} (hne : names ≠ []) :
    isBelow directory (directory ++ names) = true := by
  have hpos : 0 < names.length := List.length_pos_of_ne_nil hne
  simp [isBelow, hpos]

/-- Every location on the way to something that is listed is a directory. -/
theorem isDirectoryAt_of_mem_keys {directory names : Location}
    (h : directory ++ names ∈ tree.entries.keys) (hne : names ≠ []) :
    tree.isDirectoryAt directory = true := by
  have hany : (tree.entries.keys.any (isBelow directory)) = true :=
    List.any_eq_true.2 ⟨_, h, isBelow_append hne⟩
  rw [isDirectoryAt, any_isBelow_eq, hany, Bool.or_true, Bool.true_or]

theorem follow?_names_of_mem_keys {start names : Location} (h : start ++ names ∈ tree.entries.keys)
    (hnames : ∀ name ∈ names, IsFileName name) :
    tree.follow? start (names.map .name) = some (start ++ names) := by
  induction names generalizing start with
  | nil => rw [List.map_nil, follow?, List.append_nil]
  | cons name names ih =>
      have hname := hnames name List.mem_cons_self
      have hmore : start ++ [name] ++ names ∈ tree.entries.keys := by
        rwa [List.append_assoc, List.singleton_append]
      rw [List.map_cons, follow?, if_pos (isDirectoryAt_of_mem_keys h (List.cons_ne_nil _ _)),
        if_pos hname.byteSize_le, ih hmore fun other hother =>
          hnames other (List.mem_cons_of_mem _ hother), List.append_assoc, List.singleton_append]

/-- Where the steps of a path lead, however long its text is. -/
def destination? (tree : FileTree) (p : Path) : Option Location :=
  tree.follow? tree.workingDirectory p.components

end FileTree

/-! ## The start of a path -/

namespace Path

/-- The steps up to the last one that is not a name. -/
def start (p : Path) : List Component :=
  p.components.rdropWhile Component.isName

/-- After its start a path takes names alone. -/
theorem exists_names (p : Path) :
    ∃ names : Location, p.components = p.start ++ names.map Component.name := by
  have hnames : p.components.rtakeWhile Component.isName ∈ Set.range (List.map Component.name) := by
    rw [Set.range_list_map]
    intro step hstep
    have hname := List.mem_rtakeWhile_imp hstep
    cases step with
    | name name => exact ⟨name, rfl⟩
    | _ => contradiction
  obtain ⟨names, hnames⟩ := hnames
  refine ⟨names, ?_⟩
  rw [hnames, start, List.rdropWhile_append_rtakeWhile]

/-- Names at the end do not belong to the start. -/
theorem rdropWhile_append_of_isName (steps : List Component) {more : List Component}
    (hmore : ∀ step ∈ more, step.isName = true) :
    (steps ++ more).rdropWhile Component.isName = steps.rdropWhile Component.isName := by
  induction more using List.reverseRecOn with
  | nil => rw [List.append_nil]
  | append_singleton more step ih =>
      rw [← List.append_assoc, List.rdropWhile_concat_pos _ _ _ (hmore step (by simp))]
      exact ih fun other hother => hmore other (List.mem_append_left _ hother)

theorem isName_of_step? {segment : Text} {step : Component} (h : step? segment = some step)
    (hup : step ≠ .up) : step.isName = true := by
  rw [step?] at h
  split at h
  · contradiction
  · split at h
    · exact absurd (Option.some.inj h).symm hup
    · rw [← Option.some.inj h]
      rfl

theorem isName_of_mem_filterMap {segments : List Text} (hup : .up ∉ segments.filterMap step?) :
    ∀ step ∈ segments.filterMap step?, step.isName = true := by
  intro step hstep
  obtain ⟨segment, -, hsegment⟩ := List.mem_filterMap.1 hstep
  exact isName_of_step? hsegment fun heq => hup (heq ▸ hstep)

theorem up_not_mem_filterMap {p : Path} (hp : p.text.head? ≠ some '/')
    (hup : .up ∉ p.components) : .up ∉ p.segments.filterMap step? := by
  obtain ⟨first, rest, hfirst⟩ := List.exists_cons_of_ne_nil p.segments_ne_nil
  rw [components_of_segments hfirst, leadingStep?, if_neg hp] at hup
  rw [hfirst, List.filterMap_cons]
  split at hup
  · next hdot =>
      rw [hdot]
      exact fun hmem => hup (List.mem_append_right _ hmem)
  · cases hstep : step? first <;> simpa [hstep] using hup

/-- Behind a path that is not empty, a path without steps up starts where that path does, or at the
top. -/
theorem start_join {base p : Path} (hbase : base.text ≠ []) (hup : .up ∉ p.components) :
    (base.join p).start = if p.text.head? = some '/' then [.top] else base.start := by
  split
  · next htop =>
      obtain ⟨rest, hrest⟩ := List.head?_eq_some_iff.1 htop
      have hcomponents : p.components = [.top] ++ (Text.pieces '/' rest).filterMap step? := by
        rw [show p = ⟨'/' :: rest⟩ from hrest ▸ rfl]
        exact components_slash rest
      rw [hcomponents, List.mem_append, not_or] at hup
      rw [join, if_pos htop, start, hcomponents,
        rdropWhile_append_of_isName _ (isName_of_mem_filterMap hup.2)]
      rfl
  · next htop =>
      rw [start, components_join hbase htop,
        rdropWhile_append_of_isName _ (isName_of_mem_filterMap (up_not_mem_filterMap htop hup)),
        start]

end Path

/-- Paths with one start that lead to the same place are the same. -/
theorem FileTree.same_of_destination? {tree : FileTree} {p q : Path} (hstart : p.start = q.start)
    {location : Location} (hp : tree.destination? p = some location)
    (hq : tree.destination? q = some location) : p.same q = true := by
  obtain ⟨names, hnames⟩ := p.exists_names
  obtain ⟨names', hnames'⟩ := q.exists_names
  rw [destination?, hnames, follow?_append, Option.bind_eq_some_iff] at hp
  rw [destination?, hnames', ← hstart, follow?_append, Option.bind_eq_some_iff] at hq
  obtain ⟨place, hplace, hdown⟩ := hp
  obtain ⟨place', hplace', hdown'⟩ := hq
  obtain rfl : place = place' := Option.some.inj (hplace.symm.trans hplace')
  have heq : place ++ names = place ++ names' := by
    rw [← eq_append_of_follow?_names hdown, ← eq_append_of_follow?_names hdown']
  rw [Path.same, hnames, hnames', hstart, List.append_cancel_left heq, beq_self_eq_true]

theorem ClassFile.start_pathBelow {base : Path} (hbase : base.text ≠ []) {names : Location}
    (hnames : ∀ name ∈ names, IsFileName name) : (pathBelow base names).start = base.start := by
  rw [Path.start, components_pathBelow hbase hnames,
    Path.rdropWhile_append_of_isName _ (by simp [Component.isName]), Path.start]

/-! ## The order of paths -/

theorem Text.le_iff (a b : Text) : Text.le a b = true ↔ a ≤ b := by
  rw [le_iff_eq_or_lt]
  induction a generalizing b with
  | nil => cases b <;> simp [Text.le]
  | cons c a ih =>
      cases b with
      | nil => simp [Text.le]
      | cons d b =>
          rw [Text.le, List.cons_lt_cons_iff, List.cons.injEq]
          split
          · next heq => simp [heq, ih]
          · next hne =>
              simp only [decide_eq_true_eq, hne, false_and, false_or, or_false]
              exact Iff.rfl

theorem Location.le_iff (a b : Location) : Location.le a b = true ↔ a ≤ b := by
  rw [le_iff_eq_or_lt]
  induction a generalizing b with
  | nil => cases b <;> simp [Location.le]
  | cons c a ih =>
      cases b with
      | nil => simp [Location.le]
      | cons d b =>
          rw [Location.le, List.cons_lt_cons_iff, List.cons.injEq]
          split
          · next heq => simp [heq, ih]
          · next hne => simp [hne, Text.le_iff, le_iff_eq_or_lt]

/-- Different locations are in strict order when they are sorted. -/
theorem Location.pairwise_mergeSort {locations : List Location} (h : locations.Nodup) :
    (locations.mergeSort Location.le).Pairwise (· < ·) := by
  have hsorted : (locations.mergeSort Location.le).Pairwise fun a b => Location.le a b = true := by
    refine List.pairwise_mergeSort ?_ ?_ locations
    · intro a b c hab hbc
      rw [Location.le_iff] at hab hbc ⊢
      exact le_trans hab hbc
    · intro a b
      rw [Bool.or_eq_true, Location.le_iff, Location.le_iff]
      exact le_total a b
  have hnodup := (List.mergeSort_perm locations Location.le).nodup_iff.2 h
  refine (hsorted.and hnodup).imp fun hboth => ?_
  exact lt_of_le_of_ne ((Location.le_iff _ _).1 hboth.1) hboth.2

/-- The place of a kind of step in the order of steps. -/
def Component.rank : Component → Nat
  | top => 0
  | here => 1
  | up => 2
  | name _ => 3

/-- The order of steps: names come last and are ordered as texts. -/
def Component.Precedes : Component → Component → Prop
  | name a, name b => a < b
  | a, b => a.rank < b.rank

/-- The order of paths, step by step. -/
def Path.Precedes (p q : Path) : Prop :=
  List.Lex Component.Precedes p.components q.components

theorem Component.not_precedes_self (c : Component) : ¬ c.Precedes c := by
  cases c <;> simp [Precedes]

theorem Path.not_same_of_precedes {p q : Path} (h : p.Precedes q) : p.same q = false := by
  refine beq_eq_false_iff_ne.2 fun heq => ?_
  rw [Precedes, heq] at h
  exact List.lex_irrefl Component.not_precedes_self _ h

/-- Below one directory the paths come in the order of the locations. -/
theorem ClassFile.precedes_pathBelow {base : Path} (hbase : base.text ≠ []) {a b : Location}
    (ha : ∀ name ∈ a, IsFileName name) (hb : ∀ name ∈ b, IsFileName name) (h : a < b) :
    (pathBelow base a).Precedes (pathBelow base b) := by
  have hnames : List.Lex Component.Precedes (a.map .name) (b.map .name) := by
    have hlex : List.Lex (· < ·) a b := h
    clear ha hb h
    induction hlex with
    | nil => exact List.Lex.nil
    | cons _ ih => exact List.Lex.cons ih
    | rel hlt => exact List.Lex.rel hlt
  rw [Path.Precedes, components_pathBelow hbase ha, components_pathBelow hbase hb]
  exact List.Lex.append_left _ hnames _

end PhpDoc
