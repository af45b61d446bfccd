import Mathlib
import PhpDoc.Project.FileTree
import PhpDoc.Proofs.Groups

/-!
# Writing and reading files

A run changes a file tree only by writing texts over files that it has read.  So every tree on the
way lists the same locations and has its directories at the same ones, and every path leads where it
led at the start.  Only the locations that were written to can hold something else; a text that was
written is read back, and a file with one extension is never among the files with another one.
-/

namespace PhpDoc
namespace FileTree

/-- The tree with another text in a file that it has. -/
def withText (tree : FileTree) (location : Location) (text : Text) : FileTree :=
  { tree with entries := tree.entries.set location (.file ⟨.text text, true⟩) }

section

variable {tree : FileTree} {location : Location} {file : File}

theorem get?_withText (other : Location) (text : Text) :
    (tree.withText location text).entries.get? other =
      if other = location then some (.file ⟨.text text, true⟩) else tree.entries.get? other :=
  Keyed.get?_alter _ _ _ _

/-- What a readable file holds is listed at its location. -/
theorem get?_of_entryAt? (h : tree.entryAt? location = some (.file file)) :
    tree.isDirectoryAt location = false ∧ tree.entries.get? location = some (.file file) := by
  rw [entryAt?] at h
  split at h
  · simp at h
  · next hdirectory => exact ⟨by simpa using hdirectory, h⟩

theorem keys_withText (h : tree.entries.get? location = some (.file file)) (text : Text) :
    (tree.withText location text).entries.keys = tree.entries.keys :=
  Keyed.keys_alter_of_mem _ _ (Keyed.mem_keys_of_get? h)

theorem any_isBelow_eq (tree : FileTree) (other : Location) :
    (tree.entries.entries.any fun (below, _) => isBelow other below) =
      tree.entries.keys.any (isBelow other) := by
  rw [Keyed.keys, List.any_map]
  rfl

end

/-! ## Trees that differ in the texts of files -/

/-- The trees list the same locations, have directories at the same ones, and hold the same at every
location that is not among `changed`. -/
structure AgreesOutside (changed : List Location) (tree tree' : FileTree) : Prop where
  workingDirectory_eq : tree'.workingDirectory = tree.workingDirectory
  keys_eq : tree'.entries.keys = tree.entries.keys
  directory_iff : ∀ location, tree'.entries.get? location = some .directory ↔
    tree.entries.get? location = some .directory
  get?_eq : ∀ location, location ∉ changed →
    tree'.entries.get? location = tree.entries.get? location

namespace AgreesOutside

variable {changed : List Location} {tree tree' : FileTree}

theorem refl (tree : FileTree) : AgreesOutside [] tree tree :=
  ⟨rfl, rfl, fun _ => Iff.rfl, fun _ _ => rfl⟩

theorem trans {more : List Location} {tree'' : FileTree} (h : AgreesOutside changed tree tree')
    (h' : AgreesOutside more tree' tree'') : AgreesOutside (changed ++ more) tree tree'' where
  workingDirectory_eq := h'.workingDirectory_eq.trans h.workingDirectory_eq
  keys_eq := h'.keys_eq.trans h.keys_eq
  directory_iff location := (h'.directory_iff location).trans (h.directory_iff location)
  get?_eq location hnot := by
    rw [List.mem_append, not_or] at hnot
    rw [h'.get?_eq location hnot.2, h.get?_eq location hnot.1]

/-- A text written over a file changes what that one location holds. -/
theorem of_withText {location : Location} {file : File}
    (h : tree.entries.get? location = some (.file file)) (text : Text) :
    AgreesOutside [location] tree (tree.withText location text) where
  workingDirectory_eq := rfl
  keys_eq := keys_withText h text
  directory_iff other := by
    rw [get?_withText]
    split
    · next heq => simp [heq, h]
    · rfl
  get?_eq other hnot := by
    rw [get?_withText, if_neg (by simpa using hnot)]

/-! ## Where paths lead -/

theorem isDirectoryAt_eq (h : AgreesOutside changed tree tree') (location : Location) :
    tree'.isDirectoryAt location = tree.isDirectoryAt location := by
  have hlisted : (tree'.entries.get? location == some .directory) =
      (tree.entries.get? location == some .directory) := by
    rw [Bool.eq_iff_iff, beq_iff_eq, beq_iff_eq, h.directory_iff]
  rw [isDirectoryAt, isDirectoryAt, any_isBelow_eq, any_isBelow_eq, h.keys_eq, hlisted]

theorem follow?_eq (h : AgreesOutside changed tree tree') (start : Location)
    (steps : List Component) : tree'.follow? start steps = tree.follow? start steps := by
  induction steps generalizing start with
  | nil => rfl
  | cons step steps ih => cases step <;> simp only [follow?, h.isDirectoryAt_eq, ih]

theorem locate?_eq (h : AgreesOutside changed tree tree') (p : Path) :
    tree'.locate? p = tree.locate? p := by
  rw [locate?, locate?, h.workingDirectory_eq, h.follow?_eq]

theorem entryAt?_eq (h : AgreesOutside changed tree tree') {location : Location}
    (hnot : location ∉ changed) : tree'.entryAt? location = tree.entryAt? location := by
  rw [entryAt?, entryAt?, h.isDirectoryAt_eq, h.get?_eq location hnot]

/-! ## What is read and written -/

variable {p : Path}

theorem find?_eq (h : AgreesOutside changed tree tree')
    (hnot : ∀ location ∈ tree.locate? p, location ∉ changed) : tree'.find? p = tree.find? p := by
  have hentry : (tree'.locate? p).bind tree'.entryAt? = (tree.locate? p).bind tree.entryAt? := by
    rw [h.locate?_eq]
    cases hlocate : tree.locate? p with
    | none => rfl
    | some location => exact h.entryAt?_eq (hnot location hlocate)
  rw [find?, find?, hentry]

theorem readText?_eq (h : AgreesOutside changed tree tree')
    (hnot : ∀ location ∈ tree.locate? p, location ∉ changed) :
    tree'.readText? p = tree.readText? p := by
  rw [readText?, readText?, h.find?_eq hnot]

theorem isSome_writeText?_eq (h : AgreesOutside changed tree tree')
    (hnot : ∀ location ∈ tree.locate? p, location ∉ changed) (text : Text) :
    (tree'.writeText? p text).isSome = (tree.writeText? p text).isSome := by
  rw [writeText?, writeText?, Option.isSome_map, Option.isSome_map, h.locate?_eq]
  cases hlocate : tree.locate? p with
  | none => rfl
  | some location =>
      have hentry := h.entryAt?_eq (hnot location hlocate)
      simp [isWritableAt, hentry]

end AgreesOutside

/-! ## Files that are written over -/

/-- A text is written to a path that leads to a place where it can be written, and goes there. -/
theorem writeText?_eq_some_iff {tree tree' : FileTree} {p : Path} {text : Text} :
    tree.writeText? p text = some tree' ↔ ∃ location, tree.locate? p = some location ∧
      tree.isWritableAt p location = true ∧ tree' = tree.withText location text := by
  simp only [writeText?, Option.map_eq_some_iff, Option.filter_eq_some_iff]
  constructor
  · rintro ⟨location, ⟨hlocate, hwritable⟩, rfl⟩
    exact ⟨location, hlocate, hwritable, rfl⟩
  · rintro ⟨location, hlocate, hwritable, rfl⟩
    exact ⟨location, ⟨hlocate, hwritable⟩, rfl⟩

/-- A path from which a text is read leads to a file with that text, and asks for no directory. -/
theorem exists_file_of_readText? {tree : FileTree} {p : Path} {source : Text}
    (h : tree.readText? p = some source) :
    ∃ location writable, tree.locate? p = some location ∧
      tree.entryAt? location = some (.file ⟨.text source, writable⟩) ∧
      p.wantsDirectory = false := by
  rw [readText?, find?] at h
  cases hlocate : tree.locate? p with
  | none => simp [hlocate] at h
  | some location =>
      rw [hlocate, Option.bind_some] at h
      cases hentry : tree.entryAt? location with
      | none => simp [hentry] at h
      | some entry =>
          cases entry with
          | directory => simp [hentry] at h
          | file file =>
              obtain ⟨contents, writable⟩ := file
              cases hpath : p.wantsDirectory with
              | true => simp [hentry, hpath] at h
              | false =>
                  cases contents with
                  | bytes bytes => simp [hentry, hpath] at h
                  | text text =>
                      obtain rfl : text = source := by simpa [hentry, hpath] using h
                      exact ⟨location, writable, rfl, hentry, rfl⟩

/-- A path to a file leads to whatever file is at its location later. -/
theorem AgreesOutside.find?_eq_some {changed : List Location} {tree tree' : FileTree} {p : Path}
    {location : Location} {old new : File} (h : AgreesOutside changed tree tree')
    (hlocate : tree.locate? p = some location) (hentry : tree.entryAt? location = some (.file old))
    (hpath : p.wantsDirectory = false) (hget : tree'.entries.get? location = some (.file new)) :
    tree'.find? p = some (.file new) := by
  have hentry' : tree'.entryAt? location = some (.file new) := by
    rw [entryAt?, h.isDirectoryAt_eq, (get?_of_entryAt? hentry).1, hget]
    rfl
  rw [find?, h.locate?_eq, hlocate, Option.bind_some, hentry']
  simp [hpath]

/-! ## Extensions -/

/-- A first step leads to a location from which the others are followed, and a name leads to one
that ends with it. -/
theorem exists_next_of_follow? {tree : FileTree} {step : Component} {steps : List Component}
    {start location : Location} (h : tree.follow? start (step :: steps) = some location) :
    ∃ next, tree.follow? next steps = some location ∧
      ∀ name, step = .name name → next = start ++ [name] := by
  unfold follow? at h
  split at h
  · cases step with
    | top => exact ⟨_, h, by simp⟩
    | here => exact ⟨_, h, by simp⟩
    | up => exact ⟨_, h, by simp⟩
    | name name =>
        dsimp only at h
        split at h
        · exact ⟨_, h, by simp⟩
        · contradiction
  · contradiction

/-- A last step to a name leads to a location with that name. -/
theorem getLast?_of_follow? {tree : FileTree} {steps : List Component} {start location : Location}
    {name : Text} (hlast : steps.getLast? = some (.name name))
    (h : tree.follow? start steps = some location) : location.getLast? = some name := by
  induction steps generalizing start with
  | nil => simp at hlast
  | cons step steps ih =>
      obtain ⟨next, hnext, hname⟩ := exists_next_of_follow? h
      cases steps with
      | nil =>
          rw [List.getLast?_singleton, Option.some.injEq] at hlast
          rw [follow?, Option.some.injEq] at hnext
          rw [← hnext, hname name hlast, List.getLast?_concat]
      | cons other steps =>
          rw [List.getLast?_cons_cons] at hlast
          exact ih hlast hnext

/-- The extension of the last name of a location. -/
def extensionOf? (location : Location) : Option Text :=
  location.getLast?.bind fun name => (Path.splitExtension name).2

/-- The location that a path with an extension leads to has that extension. -/
theorem extensionOf?_of_locate? {tree : FileTree} {p : Path} {location : Location}
    (h : tree.locate? p = some location) {extension : Text}
    (hextension : p.extension? = some extension) :
    extensionOf? location = some extension := by
  obtain ⟨name, hname, hsplit⟩ := Option.bind_eq_some_iff.1 hextension
  have hlast : p.components.getLast? = some (.name name) := by
    rw [Path.fileName?] at hname
    split at hname
    · next name' hlast => rw [hlast, Option.some.inj hname]
    · contradiction
  rw [locate?] at h
  split at h
  · rw [extensionOf?, getLast?_of_follow? hlast h, Option.bind_some, hsplit]
  · contradiction

end FileTree
end PhpDoc
