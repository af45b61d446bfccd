import Mathlib
import PhpDoc.Project.ClassFile

/-!
# The class files of a project

Asking for one class gives the class files with the stem of that name, in the order in which all
class files come.  Sorting does not get in the way, because it comes before the choice; nor does the
rule that a path is listed once, because equal paths have equal stems.
-/

namespace PhpDoc
namespace ClassFile

/-- The extension of class files. -/
def fileExtension : Text := "php".toList

/-- Paths with the same steps have the same stem. -/
theorem stem?_eq_of_same {p q : Path} (h : p.same q = true) : p.stem? = q.stem? := by
  have hcomponents : p.components = q.components := by simpa [Path.same] using h
  rw [Path.stem?, Path.stem?, Path.fileName?, Path.fileName?, hcomponents]

/-! ## Each path once -/

section

variable {keep : Path → Bool}

/-- Adding a path and choosing by path can be done in either order. -/
theorem filter_add (hkeep : ∀ p q : Path, p.same q = true → keep p = keep q) (kind : ClassKind)
    (files : List ClassFile) (p : Path) :
    (add kind files p).filter (fun file => keep file.path) =
      if keep p then add kind (files.filter fun file => keep file.path) p
      else files.filter fun file => keep file.path := by
  rw [add, add]
  cases hp : keep p with
  | false => split <;> simp [hp]
  | true =>
      -- a file with the same path is chosen as well, so the path is new to both lists or to neither
      have hany : ((files.filter fun file => keep file.path).any fun file => file.path.same p) =
          files.any fun file => file.path.same p := by
        rw [List.any_filter]
        refine List.any_congr rfl fun file => ?_
        cases hsame : file.path.same p with
        | false => simp
        | true => simp [hkeep _ _ hsame, hp]
      rw [hany]
      split <;> simp [hp]

theorem filter_foldl_add (hkeep : ∀ p q : Path, p.same q = true → keep p = keep q)
    (kind : ClassKind) (files : List ClassFile) (paths : List Path) :
    (paths.foldl (add kind) files).filter (fun file => keep file.path) =
      (paths.filter keep).foldl (add kind) (files.filter fun file => keep file.path) := by
  induction paths generalizing files with
  | nil => rfl
  | cons p paths ih =>
      rw [List.foldl_cons, ih, filter_add hkeep]
      cases hp : keep p <;> simp [hp]

end

/-! ## One class -/

variable (tree : FileTree) (root : Path) (settings : Settings)

theorem pathsBelow_some (base : Path) (name : Text) :
    pathsBelow tree base (some name) =
      (pathsBelow tree base none).filter fun p => p.stem? == some name := by
  rw [pathsBelow, pathsBelow]
  cases tree.directory? base with
  | none => rfl
  | some directory =>
      dsimp only
      rw [List.filter_filter]
      refine List.filter_congr fun p _ => ?_
      simp [isWanted, Bool.and_comm]

/-- The files of one class are the class files with its stem. -/
theorem discover_some (name : Text) :
    discover tree root settings (some name) =
      (discover tree root settings none).filter fun file => file.path.stem? == some name := by
  have hkeep : ∀ p q : Path, p.same q = true →
      (p.stem? == some name) = (q.stem? == some name) :=
    fun p q h => by rw [stem?_eq_of_same h]
  rw [discover, discover, filter_foldl_add hkeep, filter_foldl_add hkeep, pathsBelow_some,
    pathsBelow_some]
  rfl

/-! ## The extension -/

theorem extension?_of_mem_pathsBelow {base p : Path} {className : Option Text}
    (h : p ∈ pathsBelow tree base className) : p.extension? = some fileExtension := by
  rw [pathsBelow] at h
  split at h
  · simp at h
  · have hwanted := (List.mem_filter.1 h).2
    simp only [isWanted, Bool.and_eq_true, beq_iff_eq] at hwanted
    exact hwanted.1

theorem mem_foldl_add {kind : ClassKind} {files : List ClassFile} {paths : List Path}
    {file : ClassFile} (h : file ∈ paths.foldl (add kind) files) :
    file ∈ files ∨ file.path ∈ paths := by
  induction paths generalizing files with
  | nil => exact Or.inl h
  | cons p paths ih =>
      rcases ih h with hfile | hpath
      · rw [add] at hfile
        split at hfile
        · exact Or.inl hfile
        · rcases List.mem_append.1 hfile with hfile | hfile
          · exact Or.inl hfile
          · rw [List.mem_singleton.1 hfile]
            exact Or.inr List.mem_cons_self
      · exact Or.inr (List.mem_cons_of_mem _ hpath)

/-- Every class file has the extension of class files. -/
theorem extension?_of_mem_discover {className : Option Text} {file : ClassFile}
    (h : file ∈ discover tree root settings className) :
    file.path.extension? = some fileExtension := by
  rcases mem_foldl_add h with hmodel | hpath
  · rcases mem_foldl_add hmodel with hnone | hpath
    · simp at hnone
    · exact extension?_of_mem_pathsBelow tree hpath
  · exact extension?_of_mem_pathsBelow tree hpath

/-! ## Trees in order -/

/-- Where the files of a directory are listed in order, they are not sorted anew. -/
theorem pathsBelow_of_sorted {base : Path} {directory : Location}
    (hdirectory : tree.directory? base = some directory)
    (hsorted : ((tree.filesBelow directory).filter (isReachable base)).Pairwise
      fun a b => Location.le a b = true) (className : Option Text) :
    pathsBelow tree base className =
      (((tree.filesBelow directory).filter (isReachable base)).map (pathBelow base)).filter
        (isWanted className) := by
  rw [pathsBelow, hdirectory]
  dsimp only
  rw [List.mergeSort_of_pairwise hsorted]

end ClassFile
end PhpDoc
