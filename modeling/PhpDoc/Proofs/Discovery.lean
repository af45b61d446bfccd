import Mathlib
import PhpDoc.Proofs.ClassFiles
import PhpDoc.Proofs.Descent

/-!
# Every class file once

Two directories are searched, and they may lie in one another.  The listing of a project leads to
each class file that is reached from one of them exactly once; it is a model exactly when it is
reached from the directory of the models.  Models come first, and each kind comes in the order of
paths.

A file is reached when the directory that holds it can be opened, for which its path must not be too
long.  Where a file is reached from both directories, their paths have to start alike: a file is
recognised by its path, and paths with different starts can lead to one file.
-/

namespace PhpDoc

/-! ## Files below a directory -/

namespace FileTree

/-- The names in the tree are names of files, and a listed location with something below it is
listed as a directory. -/
structure IsDirectoryTree (tree : FileTree) : Prop where
  isFileName : ∀ location ∈ tree.entries.keys, ∀ name ∈ location, IsFileName name
  directory_of_isDirectoryAt : ∀ location ∈ tree.entries.keys,
    tree.isDirectoryAt location = true → tree.entries.get? location = some .directory

/-- A file with the extension of class files is at the location. -/
def IsClassFileAt (tree : FileTree) (location : Location) : Prop :=
  (∃ file, tree.entryAt? location = some (.file file)) ∧
    extensionOf? location = some ClassFile.fileExtension

/-- The location lies below the directory that the path leads to, and the path that goes on to the
directory that holds it is not too long. -/
def Reaches (tree : FileTree) (base : Path) (location : Location) : Prop :=
  ∃ directory names, tree.directory? base = some directory ∧ names ≠ [] ∧
    location = directory ++ names ∧
    (ClassFile.pathBelow base names.dropLast).text.byteSize ≤ Path.maxBytes

/-- Where a class file is reached from both directories, their paths start alike. -/
def StartsAlike (tree : FileTree) (models classes : Path) : Prop :=
  ∀ location, tree.IsClassFileAt location → tree.Reaches models location →
    tree.Reaches classes location → models.start = classes.start

/-- Roots without steps up start alike if both or none of them is written from the top, or if the
path before them only goes down from the top. -/
theorem startsAlike_join (tree : FileTree) {root models classes : Path} (hroot : root.text ≠ [])
    (hmodels : .up ∉ models.components) (hclasses : .up ∉ classes.components)
    (h : (models.text.head? = some '/' ↔ classes.text.head? = some '/') ∨ root.start = [.top]) :
    tree.StartsAlike (root.join models) (root.join classes) := by
  intro location _ _ _
  rw [Path.start_join hroot hmodels, Path.start_join hroot hclasses]
  rcases h with h | h
  · simp only [h]
  · rw [h, ite_self, ite_self]

/-- The names from a directory on to what is listed, if that is a file below the directory. -/
def below? (directory : Location) (listed : Location × Entry) : Option Location :=
  match listed.2 with
  | .file _ =>
    if isBelow directory listed.1 then some (listed.1.drop directory.length) else none
  | .directory => none

section

variable {tree : FileTree} {directory names : Location}

theorem below?_eq_some_iff {listed : Location × Entry} :
    below? directory listed = some names ↔
      names ≠ [] ∧ listed.1 = directory ++ names ∧ ∃ file, listed.2 = .file file := by
  obtain ⟨location, entry⟩ := listed
  cases entry with
  | directory => simp [below?]
  | file file =>
      simp only [below?, Entry.file.injEq, exists_eq', and_true]
      constructor
      · intro h
        split at h
        · next hbelow =>
            simp only [isBelow, Bool.and_eq_true, List.isPrefixOf_iff_prefix,
              decide_eq_true_eq] at hbelow
            obtain ⟨⟨more, rfl⟩, hlength⟩ := hbelow
            rw [List.drop_left, Option.some.injEq] at h
            subst h
            exact ⟨by rintro rfl; simp at hlength, rfl⟩
        · contradiction
      · rintro ⟨hne, rfl⟩
        rw [if_pos (isBelow_append hne), List.drop_left]

theorem filesBelow_eq (tree : FileTree) (directory : Location) :
    tree.filesBelow directory = tree.entries.entries.filterMap (below? directory) :=
  rfl

theorem mem_filesBelow_iff :
    names ∈ tree.filesBelow directory ↔
      names ≠ [] ∧ ∃ file, tree.entries.get? (directory ++ names) = some (.file file) := by
  simp only [filesBelow_eq, List.mem_filterMap, below?_eq_some_iff, Keyed.get?_eq_some_iff]
  constructor
  · rintro ⟨⟨location, entry⟩, hmem, hne, rfl, file, rfl⟩
    exact ⟨hne, file, hmem⟩
  · rintro ⟨hne, file, hmem⟩
    exact ⟨_, hmem, hne, rfl, file, rfl⟩

theorem nodup_filesBelow (tree : FileTree) (directory : Location) :
    (tree.filesBelow directory).Nodup := by
  have hlisted : tree.entries.entries.Pairwise fun a b => a.1 ≠ b.1 :=
    List.pairwise_map.1 tree.entries.nodup
  refine hlisted.filterMap _ fun a b hne names hnames names' hnames' heq => hne ?_
  rw [(below?_eq_some_iff.1 hnames).2.1, (below?_eq_some_iff.1 hnames').2.1, heq]

/-- The directory of a path is where its steps lead. -/
theorem destination?_of_directory? {base : Path} (h : tree.directory? base = some directory) :
    base.isUsable = true ∧ tree.destination? base = some directory := by
  rw [directory?, Option.filter_eq_some_iff, locate?] at h
  obtain ⟨hlocate, -⟩ := h
  split at hlocate
  · next husable => exact ⟨husable, hlocate⟩
  · contradiction

namespace IsDirectoryTree

theorem isFileName_of_mem_filesBelow (htree : tree.IsDirectoryTree)
    (h : names ∈ tree.filesBelow directory) : ∀ name ∈ names, IsFileName name := by
  obtain ⟨-, file, hfile⟩ := mem_filesBelow_iff.1 h
  intro name hname
  exact htree.isFileName _ (Keyed.mem_keys_of_get? hfile) name (List.mem_append_right _ hname)

/-- A file that is listed can be found. -/
theorem entryAt?_eq (htree : tree.IsDirectoryTree) {location : Location} {file : File}
    (h : tree.entries.get? location = some (.file file)) :
    tree.entryAt? location = some (.file file) := by
  rw [entryAt?, if_neg, h]
  intro hdirectory
  have hlisted := htree.directory_of_isDirectoryAt _ (Keyed.mem_keys_of_get? h) hdirectory
  simp [h] at hlisted

end IsDirectoryTree

end

end FileTree

/-! ## The paths below a directory -/

namespace ClassFile

section

variable {tree : FileTree} {base p : Path} {directory names : Location}

/-- The path of a file below a directory leads to it. -/
theorem destination?_pathBelow (htree : tree.IsDirectoryTree)
    (hdirectory : tree.directory? base = some directory)
    (hnames : names ∈ tree.filesBelow directory) :
    tree.destination? (pathBelow base names) = some (directory ++ names) := by
  obtain ⟨husable, hbase⟩ := FileTree.destination?_of_directory? hdirectory
  obtain ⟨-, file, hfile⟩ := FileTree.mem_filesBelow_iff.1 hnames
  have hnames' := htree.isFileName_of_mem_filesBelow hnames
  rw [FileTree.destination?] at hbase
  rw [FileTree.destination?, components_pathBelow (Path.text_ne_nil_of_isUsable husable) hnames',
    FileTree.follow?_append, hbase, Option.bind_some,
    FileTree.follow?_names_of_mem_keys (Keyed.mem_keys_of_get? hfile) hnames']

theorem extension?_pathBelow (hbase : base.text ≠ []) (hne : names ≠ [])
    (hnames : ∀ name ∈ names, IsFileName name) (directory : Location) :
    (pathBelow base names).extension? = FileTree.extensionOf? (directory ++ names) := by
  obtain ⟨front, last, rfl⟩ : ∃ front last, names = front ++ [last] :=
    ⟨_, _, (List.dropLast_append_getLast hne).symm⟩
  rw [Path.extension?, Path.fileName?, components_pathBelow hbase hnames, List.map_append,
    ← List.append_assoc, List.map_singleton, List.getLast?_concat, FileTree.extensionOf?,
    ← List.append_assoc, List.getLast?_concat]

theorem mem_pathsBelow_iff :
    p ∈ pathsBelow tree base none ↔
      ∃ directory names, tree.directory? base = some directory ∧
        names ∈ tree.filesBelow directory ∧ isReachable base names = true ∧
        pathBelow base names = p ∧ p.extension? = some fileExtension := by
  rw [pathsBelow]
  cases tree.directory? base with
  | none => simp
  | some directory =>
      simp only [List.mem_filter, List.mem_map, List.mem_mergeSort, isWanted, Option.all_none,
        Bool.and_true, beq_iff_eq, Option.some.injEq]
      constructor
      · rintro ⟨⟨names, ⟨hnames, hreachable⟩, hp⟩, hextension⟩
        exact ⟨directory, names, rfl, hnames, hreachable, hp, hextension⟩
      · rintro ⟨_, names, rfl, hnames, hreachable, hp, hextension⟩
        exact ⟨⟨names, ⟨hnames, hreachable⟩, hp⟩, hextension⟩

/-- Each path that is found leads to a class file that is reached. -/
theorem reaches_of_mem_pathsBelow (htree : tree.IsDirectoryTree)
    (h : p ∈ pathsBelow tree base none) :
    ∃ location, tree.destination? p = some location ∧ tree.IsClassFileAt location ∧
      tree.Reaches base location := by
  obtain ⟨directory, names, hdirectory, hnames, hreachable, rfl, hextension⟩ :=
    mem_pathsBelow_iff.1 h
  obtain ⟨husable, -⟩ := FileTree.destination?_of_directory? hdirectory
  obtain ⟨hne, file, hfile⟩ := FileTree.mem_filesBelow_iff.1 hnames
  have hnames' := htree.isFileName_of_mem_filesBelow hnames
  refine ⟨directory ++ names, destination?_pathBelow htree hdirectory hnames,
    ⟨⟨file, htree.entryAt?_eq hfile⟩, ?_⟩, directory, names, hdirectory, hne, rfl, ?_⟩
  · rw [← extension?_pathBelow (Path.text_ne_nil_of_isUsable husable) hne hnames', hextension]
  · exact (isUsable_pathBelow_iff husable fun name hname =>
      hnames' name (List.mem_of_mem_dropLast hname)).1 hreachable

/-- Each class file that is reached is found. -/
theorem exists_mem_pathsBelow (htree : tree.IsDirectoryTree) {location : Location}
    (hfile : tree.IsClassFileAt location) (hreaches : tree.Reaches base location) :
    ∃ p ∈ pathsBelow tree base none, tree.destination? p = some location := by
  obtain ⟨directory, names, hdirectory, hne, rfl, hsize⟩ := hreaches
  obtain ⟨⟨file, hentry⟩, hextension⟩ := hfile
  have hnames : names ∈ tree.filesBelow directory :=
    FileTree.mem_filesBelow_iff.2 ⟨hne, file, (FileTree.get?_of_entryAt? hentry).2⟩
  obtain ⟨husable, -⟩ := FileTree.destination?_of_directory? hdirectory
  have hnames' := htree.isFileName_of_mem_filesBelow hnames
  have hreachable : isReachable base names = true :=
    (isUsable_pathBelow_iff husable fun name hname =>
      hnames' name (List.mem_of_mem_dropLast hname)).2 hsize
  refine ⟨pathBelow base names, mem_pathsBelow_iff.2 ⟨directory, names, hdirectory, hnames,
    hreachable, rfl, ?_⟩, destination?_pathBelow htree hdirectory hnames⟩
  rw [extension?_pathBelow (Path.text_ne_nil_of_isUsable husable) hne hnames' directory, hextension]

theorem start_of_mem_pathsBelow (htree : tree.IsDirectoryTree)
    (h : p ∈ pathsBelow tree base none) : p.start = base.start := by
  obtain ⟨directory, names, hdirectory, hnames, -, rfl, -⟩ := mem_pathsBelow_iff.1 h
  obtain ⟨husable, -⟩ := FileTree.destination?_of_directory? hdirectory
  exact start_pathBelow (Path.text_ne_nil_of_isUsable husable)
    (htree.isFileName_of_mem_filesBelow hnames)

/-- The paths below a directory come in strict order. -/
theorem pairwise_pathsBelow (htree : tree.IsDirectoryTree) (base : Path) :
    (pathsBelow tree base none).Pairwise Path.Precedes := by
  rw [pathsBelow]
  split
  · exact List.Pairwise.nil
  · next directory hdirectory =>
      obtain ⟨husable, -⟩ := FileTree.destination?_of_directory? hdirectory
      have hbase := Path.text_ne_nil_of_isUsable husable
      have hnodup := (tree.nodup_filesBelow directory).filter (isReachable base)
      refine (List.pairwise_map.2 ?_).filter _
      refine (Location.pairwise_mergeSort hnodup).imp_of_mem fun ha hb hlt => ?_
      rw [List.mem_mergeSort, List.mem_filter] at ha hb
      exact precedes_pathBelow hbase (htree.isFileName_of_mem_filesBelow ha.1)
        (htree.isFileName_of_mem_filesBelow hb.1) hlt

end

/-! ## Each path once -/

/-- Paths that differ from each other are added, unless they are there already. -/
theorem foldl_add_eq (kind : ClassKind) (files : List ClassFile) {paths : List Path}
    (hpaths : paths.Pairwise fun p q => p.same q = false) :
    paths.foldl (add kind) files = files ++
      (paths.filter fun p => !files.any fun file => file.path.same p).map (⟨·, kind⟩) := by
  induction paths generalizing files with
  | nil => simp
  | cons p paths ih =>
      obtain ⟨hp, hpaths⟩ := List.pairwise_cons.1 hpaths
      rw [List.foldl_cons, ih _ hpaths, add]
      split
      · next hany => rw [List.filter_cons_of_neg (by simp [hany])]
      · next hany =>
          -- the path that was added is none of those that follow
          have hrest : (paths.filter fun q =>
              !(files ++ [ClassFile.mk p kind]).any fun file => file.path.same q) =
              paths.filter fun q => !files.any fun file => file.path.same q := by
            refine List.filter_congr fun q hq => ?_
            simp [hp q hq]
          rw [hrest, List.filter_cons_of_pos (by simpa using hany), List.map_cons,
            List.append_assoc, List.singleton_append]

/-- The paths below one directory that are not among those below the other. -/
def otherPaths (tree : FileTree) (models classes : Path) : List Path :=
  (pathsBelow tree classes none).filter fun p =>
    !(pathsBelow tree models none).any fun q => q.same p

theorem otherPaths_sublist (tree : FileTree) (models classes : Path) :
    (otherPaths tree models classes).Sublist (pathsBelow tree classes none) :=
  List.filter_sublist

/-- The class files below two directories, each with its kind. -/
def listing (tree : FileTree) (models classes : Path) : List ClassFile :=
  (pathsBelow tree models none).map (⟨·, .model⟩) ++
    (otherPaths tree models classes).map (⟨·, .plain⟩)

theorem discover_eq {tree : FileTree} (htree : tree.IsDirectoryTree) (root : Path)
    (settings : Settings) :
    discover tree root settings none =
      listing tree (root.join settings.modelsRoot) (root.join settings.classesRoot) := by
  have hdistinct (base : Path) :
      (pathsBelow tree base none).Pairwise fun p q => p.same q = false :=
    (pairwise_pathsBelow htree base).imp Path.not_same_of_precedes
  rw [discover, foldl_add_eq _ _ (hdistinct _), foldl_add_eq _ _ (hdistinct _), listing, otherPaths]
  simp [List.any_map, Function.comp_def]

/-! ## Each file once -/

section

variable {tree : FileTree} {models classes : Path}

/-- Different paths below one directory lead to different files. -/
theorem nodup_map_pathsBelow (htree : tree.IsDirectoryTree) (base : Path) :
    ((pathsBelow tree base none).map tree.destination?).Nodup := by
  refine List.pairwise_map.2 ((pairwise_pathsBelow htree base).imp_of_mem ?_)
  intro p q hp hq hprecedes heq
  obtain ⟨location, hlocation, -⟩ := reaches_of_mem_pathsBelow htree hp
  have hstart : p.start = q.start :=
    (start_of_mem_pathsBelow htree hp).trans (start_of_mem_pathsBelow htree hq).symm
  have hsame := FileTree.same_of_destination? hstart hlocation (heq ▸ hlocation)
  rw [Path.not_same_of_precedes hprecedes] at hsame
  contradiction

/-- Where the paths of the directories start alike, none of the other paths leads to a file that is
reached from the directory of the models. -/
theorem not_reaches_of_mem_otherPaths (htree : tree.IsDirectoryTree)
    (hstart : tree.StartsAlike models classes) {p : Path} (hp : p ∈ otherPaths tree models classes)
    {location : Location} (hlocation : tree.destination? p = some location) :
    ¬ tree.Reaches models location := by
  intro hmodels
  rw [otherPaths, List.mem_filter] at hp
  obtain ⟨hp, hnew⟩ := hp
  obtain ⟨location', hlocation', hfile, hclasses⟩ := reaches_of_mem_pathsBelow htree hp
  obtain rfl : location = location' := Option.some.inj (hlocation.symm.trans hlocation')
  -- the file was found below the directory of the models, on a path with the same start
  obtain ⟨q, hq, hqlocation⟩ := exists_mem_pathsBelow htree hfile hmodels
  have hstarts : q.start = p.start := by
    rw [start_of_mem_pathsBelow htree hq, start_of_mem_pathsBelow htree hp,
      hstart location hfile hmodels hclasses]
  have hsame := FileTree.same_of_destination? hstarts hqlocation hlocation
  have hany : ((pathsBelow tree models none).any fun q => q.same p) = true :=
    List.any_eq_true.2 ⟨q, hq, hsame⟩
  simp [hany] at hnew

/-- Each class file that is reached is at the end of a path below the directory of the models or of
one of the other paths. -/
theorem some_mem_destinations (htree : tree.IsDirectoryTree) {location : Location}
    (hfile : tree.IsClassFileAt location)
    (hreaches : tree.Reaches models location ∨ tree.Reaches classes location) :
    some location ∈ (pathsBelow tree models none ++ otherPaths tree models classes).map
      tree.destination? := by
  rcases hreaches with hmodels | hclasses
  · obtain ⟨p, hp, hlocation⟩ := exists_mem_pathsBelow htree hfile hmodels
    exact List.mem_map.2 ⟨p, List.mem_append_left _ hp, hlocation⟩
  · obtain ⟨p, hp, hlocation⟩ := exists_mem_pathsBelow htree hfile hclasses
    by_cases hany : ((pathsBelow tree models none).any fun q => q.same p) = true
    · obtain ⟨q, hq, hsame⟩ := List.any_eq_true.1 hany
      refine List.mem_map.2 ⟨q, List.mem_append_left _ hq, ?_⟩
      rw [← hlocation, FileTree.destination?, beq_iff_eq.1 hsame, FileTree.destination?]
    · have hother : p ∈ otherPaths tree models classes :=
        List.mem_filter.2 ⟨hp, by simpa using hany⟩
      exact List.mem_map.2 ⟨p, List.mem_append_right _ hother, hlocation⟩

/-- No two of these paths lead to one file. -/
theorem nodup_destinations (htree : tree.IsDirectoryTree)
    (hstart : tree.StartsAlike models classes) :
    ((pathsBelow tree models none ++ otherPaths tree models classes).map
      tree.destination?).Nodup := by
  have hother := otherPaths_sublist tree models classes
  rw [List.map_append, List.nodup_append]
  refine ⟨nodup_map_pathsBelow htree models,
    (nodup_map_pathsBelow htree classes).sublist (hother.map _), ?_⟩
  rintro _ hp _ hq rfl
  obtain ⟨p, hp, hdestination⟩ := List.mem_map.1 hp
  obtain ⟨q, hq, heq⟩ := List.mem_map.1 hq
  obtain ⟨location, hlocation, -, hmodels⟩ := reaches_of_mem_pathsBelow htree hp
  exact not_reaches_of_mem_otherPaths htree hstart hq
    (heq.trans (hdestination.symm.trans hlocation)) hmodels

/-- Each entry of the listing leads to a class file, and tells from where it is reached. -/
theorem exists_destination_of_mem_listing (htree : tree.IsDirectoryTree)
    (hstart : tree.StartsAlike models classes) {file : ClassFile}
    (h : file ∈ listing tree models classes) :
    ∃ location, tree.destination? file.path = some location ∧ tree.IsClassFileAt location ∧
      (tree.Reaches models location ∨ tree.Reaches classes location) ∧
      (file.kind = .model ↔ tree.Reaches models location) := by
  rcases List.mem_append.1 h with h | h
  · obtain ⟨p, hp, rfl⟩ := List.mem_map.1 h
    obtain ⟨location, hlocation, hfile, hmodels⟩ := reaches_of_mem_pathsBelow htree hp
    exact ⟨location, hlocation, hfile, Or.inl hmodels, by simp [hmodels]⟩
  · obtain ⟨p, hp, rfl⟩ := List.mem_map.1 h
    obtain ⟨location, hlocation, hfile, hclasses⟩ :=
      reaches_of_mem_pathsBelow htree ((otherPaths_sublist tree models classes).subset hp)
    have hmodels := not_reaches_of_mem_otherPaths htree hstart hp hlocation
    exact ⟨location, hlocation, hfile, Or.inr hclasses, by simp [hmodels]⟩

theorem map_destination?_listing (tree : FileTree) (models classes : Path) :
    (listing tree models classes).map (fun file => tree.destination? file.path) =
      (pathsBelow tree models none ++ otherPaths tree models classes).map tree.destination? := by
  simp [listing, Function.comp_def]

end

/-- The files list the class files that are reached from two directories. -/
structure IsListing (tree : FileTree) (models classes : Path) (files : List ClassFile) : Prop where
  /-- Each entry leads to a class file that is reached, and tells from where. -/
  leads : ∀ file ∈ files, ∃ location, tree.destination? file.path = some location ∧
    tree.IsClassFileAt location ∧
    (tree.Reaches models location ∨ tree.Reaches classes location) ∧
    (file.kind = .model ↔ tree.Reaches models location)
  /-- Each class file that is reached is listed once. -/
  once : ∀ location, tree.IsClassFileAt location →
    (tree.Reaches models location ∨ tree.Reaches classes location) →
    (files.map fun file => tree.destination? file.path).count (some location) = 1
  /-- The models come first, and each kind is in order. -/
  ordered : ∃ modelPaths plainPaths : List Path,
    files = modelPaths.map (⟨·, .model⟩) ++ plainPaths.map (⟨·, .plain⟩) ∧
    modelPaths.Pairwise Path.Precedes ∧ plainPaths.Pairwise Path.Precedes

/-- **Every class file once.**  The class files of a project list the class files that are reached
from its two directories, and the files of one class are those with its stem. -/
theorem discover_lists_once (tree : FileTree) (root : Path) (settings : Settings)
    (htree : tree.IsDirectoryTree)
    (hstart : tree.StartsAlike (root.join settings.modelsRoot) (root.join settings.classesRoot)) :
    IsListing tree (root.join settings.modelsRoot) (root.join settings.classesRoot)
      (discover tree root settings none) ∧
    ∀ name, discover tree root settings (some name) =
      (discover tree root settings none).filter fun file => file.path.stem? == some name := by
  refine ⟨?_, discover_some tree root settings⟩
  rw [discover_eq htree]
  refine ⟨fun file hfile => exists_destination_of_mem_listing htree hstart hfile,
    fun location hfile hreaches => ?_, _, _, rfl, pairwise_pathsBelow htree _,
    (pairwise_pathsBelow htree _).sublist (otherPaths_sublist tree _ _)⟩
  rw [map_destination?_listing]
  exact List.count_eq_one_of_mem (nodup_destinations htree hstart)
    (some_mem_destinations htree hfile hreaches)

/-- The working directory. -/
def here : Path := ⟨".".toList⟩

/-- Settings with the given directories. -/
def withRoots (modelsRoot classesRoot : Text) : Settings :=
  { Settings.default with modelsRoot := ⟨modelsRoot⟩, classesRoot := ⟨classesRoot⟩ }

/-- A file without text. -/
def blankFile : File :=
  ⟨.text [], true⟩

/-- A model that lies below the directory of the other classes as well. -/
def nestedModel : Location :=
  ["srv".toList, "app".toList, "Models".toList, "User.php".toList]

/-- A directory with another class, a file of another kind and the directory of the models. -/
def nestedRoots : FileTree :=
  (((FileTree.empty ["srv".toList]).place nestedModel (.file blankFile)).place
    ["srv".toList, "app".toList, "Base.php".toList] (.file blankFile)).place
    ["srv".toList, "app".toList, "notes.txt".toList] (.file blankFile)

theorem nestedRoots_discover_lists_once :
    nestedRoots.IsDirectoryTree ∧
    nestedRoots.StartsAlike (here.join ⟨"./app//Models/".toList⟩) (here.join ⟨"app".toList⟩) ∧
    nestedRoots.Reaches (here.join ⟨"./app//Models/".toList⟩) nestedModel ∧
    nestedRoots.Reaches (here.join ⟨"app".toList⟩) nestedModel ∧
    IsListing nestedRoots (here.join ⟨"./app//Models/".toList⟩) (here.join ⟨"app".toList⟩)
      (discover nestedRoots here (withRoots "./app//Models/".toList "app".toList) none) ∧
    discover nestedRoots here (withRoots "./app//Models/".toList "app".toList)
        (some "User".toList) =
      (discover nestedRoots here (withRoots "./app//Models/".toList "app".toList) none).filter
        fun file => file.path.stem? == some "User".toList := by
  have htree : nestedRoots.IsDirectoryTree := ⟨by decide +kernel, by decide +kernel⟩
  have hstart : nestedRoots.StartsAlike (here.join ⟨"./app//Models/".toList⟩)
      (here.join ⟨"app".toList⟩) :=
    FileTree.startsAlike_join nestedRoots (by decide) (by decide +kernel) (by decide +kernel)
      (by decide)
  have hlisting := discover_lists_once nestedRoots here
    (withRoots "./app//Models/".toList "app".toList) htree hstart
  refine ⟨htree, hstart, ?_, ?_, hlisting.1, hlisting.2 _⟩
  · exact ⟨["srv".toList, "app".toList, "Models".toList], ["User.php".toList], by decide +kernel,
      by decide, rfl, by decide +kernel⟩
  · exact ⟨["srv".toList, "app".toList], ["Models".toList, "User.php".toList], by decide +kernel,
      by decide, rfl, by decide +kernel⟩

/-- A class file in a directory with a long name. -/
def deepModel : Location :=
  ["app".toList, List.replicate 250 'd', "User.php".toList]

def deepTree : FileTree :=
  (FileTree.empty []).place deepModel (.file blankFile)

/-- The directory of the models with many slashes behind it. -/
def slashedRoot : Text :=
  "app".toList ++ List.replicate 3900 '/'

theorem discover_deepTree :
    discover deepTree here (withRoots slashedRoot "lib".toList) none = [] := by
  have hdirectory : deepTree.directory? (here.join ⟨slashedRoot⟩) = some ["app".toList] := by
    decide +kernel
  have hreachable : (deepTree.filesBelow ["app".toList]).filter
      (isReachable (here.join ⟨slashedRoot⟩)) = [] := by
    decide +kernel
  have hmodels : pathsBelow deepTree (here.join ⟨slashedRoot⟩) none = [] := by
    rw [pathsBelow_of_sorted deepTree hdirectory (hreachable ▸ List.Pairwise.nil), hreachable]
    rfl
  have hclasses : deepTree.directory? (here.join ⟨"lib".toList⟩) = none := by decide +kernel
  have hplain : pathsBelow deepTree (here.join ⟨"lib".toList⟩) none = [] := by
    rw [pathsBelow, hclasses]
  simp only [discover, withRoots, hmodels, hplain, List.foldl_nil]

def sharedModel : Location :=
  ["srv".toList, "app".toList, "User.php".toList]

def sharedTree : FileTree :=
  (FileTree.empty ["srv".toList]).place sharedModel (.file blankFile)

theorem discover_sharedTree :
    discover sharedTree here (withRoots "/srv/app".toList "app".toList) none =
      [⟨⟨"/srv/app/User.php".toList⟩, .model⟩, ⟨⟨"./app/User.php".toList⟩, .plain⟩] := by
  have hmodels : sharedTree.directory? (here.join ⟨"/srv/app".toList⟩) =
      some ["srv".toList, "app".toList] := by decide +kernel
  have hclasses : sharedTree.directory? (here.join ⟨"app".toList⟩) =
      some ["srv".toList, "app".toList] := by decide +kernel
  have hmodelPaths := pathsBelow_of_sorted sharedTree hmodels (by decide +kernel) none
  have hclassPaths := pathsBelow_of_sorted sharedTree hclasses (by decide +kernel) none
  simp only [discover, withRoots, hmodelPaths, hclassPaths]
  decide +kernel

/-- A class file below the directory of the models is not listed when the directory that holds it
has too long a path, and a file that is reached from the top and from the working directory is listed
as a model and as another class. -/
theorem deepModel_not_listed_sharedModel_listed_twice :
    (deepTree.IsDirectoryTree ∧
      .up ∉ (withRoots slashedRoot "lib".toList).modelsRoot.components ∧
      .up ∉ (withRoots slashedRoot "lib".toList).classesRoot.components ∧
      deepTree.directory? (here.join ⟨slashedRoot⟩) = some ["app".toList] ∧
      deepTree.IsClassFileAt deepModel ∧ FileTree.isBelow ["app".toList] deepModel = true ∧
      discover deepTree here (withRoots slashedRoot "lib".toList) none = []) ∧
    sharedTree.IsDirectoryTree ∧
      .up ∉ (withRoots "/srv/app".toList "app".toList).modelsRoot.components ∧
      .up ∉ (withRoots "/srv/app".toList "app".toList).classesRoot.components ∧
      (discover sharedTree here (withRoots "/srv/app".toList "app".toList) none).map
          (fun file => (sharedTree.destination? file.path, file.kind)) =
        [(some sharedModel, .model), (some sharedModel, .plain)] := by
  refine ⟨⟨⟨by decide +kernel, by decide +kernel⟩, by decide +kernel, by decide +kernel,
    by decide +kernel, ⟨⟨blankFile, by decide +kernel⟩, by decide +kernel⟩,
    by decide +kernel, discover_deepTree⟩, ⟨by decide +kernel, by decide +kernel⟩,
    by decide +kernel, by decide +kernel, ?_⟩
  rw [discover_sharedTree]
  decide +kernel

end ClassFile

end PhpDoc
