import Stencil.Proofs.SourceTree
import Stencil.Proofs.SourceTree.Lines

/-!
The files of a tree as modules. No two files have one path, each unit is in the file of its path and
declared from its root on, and nothing else is declared.
-/

namespace Stencil

/-- What has a key of its own is alone under that key. -/
theorem filter_eq_singleton {α β : Type} [BEq β] [LawfulBEq β] {key : α → β} {xs : List α} {a : α}
    (distinct : (xs.map key).Nodup) (member : a ∈ xs) : xs.filter (key · == key a) = [a] := by
  obtain ⟨before, after, rfl⟩ := List.append_of_mem member
  rw [List.map_append, List.map_cons, List.nodup_middle, List.nodup_cons] at distinct
  have apart : ∀ x ∈ before ++ after, ¬ (key x == key a) = true := by
    intro x other same
    refine distinct.1 ?_
    rw [← beq_iff_eq.mp same, ← List.map_append]
    exact List.mem_map_of_mem other
  rw [List.forall_mem_append] at apart
  have here : (key a == key a) = true := beq_self_eq_true _
  rw [List.filter_append, List.filter_cons_of_pos (p := (key · == key a)) here,
    List.filter_eq_nil_iff.mpr apart.1, List.filter_eq_nil_iff.mpr apart.2]
  rfl

namespace SourceTree

section Sorted

variable {α : Type} [BEq α] [LawfulBEq α] [LinearOrder α] {precedes : α → α → Bool}

theorem pairwise_dropRepeats {xs : List α} (increasing : xs.Pairwise (· ≤ ·)) :
    (dropRepeats xs).Pairwise (· < ·) := by
  fun_induction dropRepeats xs with
  | case1 a b rest _ ih => exact ih increasing.tail
  | case2 a b rest apart ih =>
      refine List.Pairwise.cons ?_ (ih increasing.tail)
      intro c later
      rw [List.pairwise_cons, List.forall_mem_cons] at increasing
      have first : a < b := lt_of_le_of_ne increasing.1.1 (mt beq_iff_eq.mpr apart)
      rcases List.mem_cons.mp (mem_dropRepeats.mp later) with rfl | later
      · exact first
      · exact lt_of_lt_of_le first (List.rel_of_pairwise_cons increasing.2 later)
  | case3 xs short =>
      rcases xs with _ | ⟨a, _ | ⟨b, rest⟩⟩
      · exact .nil
      · exact List.pairwise_singleton _ _
      · exact absurd rfl (short a b rest)

/-- A sorted list has each member once. -/
theorem nodup_sorted (order : ∀ {a b}, precedes a b = true ↔ a < b) (xs : List α) :
    (sorted precedes xs).Nodup := by
  have increasing : (xs.mergeSort fun a b => !precedes b a).Pairwise (· ≤ ·) :=
    pairwise_mergeSort_of_key (not_precedes_iff order) xs
  exact (pairwise_dropRepeats increasing).nodup

end Sorted

variable {tree : SourceTree} {directory : List Text} {child : Text}

theorem nodup_directories (tree : SourceTree) : tree.directories.Nodup :=
  nodup_sorted Text.listPrecedes_iff _

theorem nodup_children (tree : SourceTree) (directory : List Text) :
    (tree.children directory).Nodup :=
  nodup_sorted Text.precedes_iff _

theorem declared_of_segment {u : CodeUnit} (isUnit : u ∈ tree.units.units) {k : Nat}
    (inner : 1 ≤ k) (segment : u.name.segments[k]? = some child) :
    u.name.segments.take k ∈ tree.directories ∧
      child ∈ tree.children (u.name.segments.take k) := by
  obtain ⟨below, -⟩ := List.getElem?_eq_some_iff.mp segment
  have length : (u.name.segments.take k).length = k := by
    rw [List.length_take]
    omega
  constructor
  · refine mem_directories.mpr ⟨u, isUnit, ?_, List.take_prefix _ _, ?_⟩
    · exact List.ne_nil_of_length_pos (by omega)
    · intro whole
      rw [whole] at length
      omega
  · refine mem_children.mpr ⟨u, isUnit, ?_⟩
    have next : u.name.segments.take k ++ [child] = u.name.segments.take (k + 1) := by
      rw [List.take_add_one, segment]
      rfl
    rw [next]
    exact List.take_prefix _ _

theorem exists_file_of_child (paths : ∀ u ∈ tree.units.units, IsModulePath u.name.segments)
    (isDirectory : directory ∈ tree.directories) (isChild : child ∈ tree.children directory) :
    ∃ file ∈ tree.files,
      file.path = Text.joinWith ['/'] directory ++ "/".toList ++ child ++ ".rs".toList ∨
      file.path = Text.joinWith ['/'] directory ++ "/".toList ++ child ++ "/mod.rs".toList := by
  obtain ⟨u, isUnit, within⟩ := mem_children.mp isChild
  have nonempty := (isModulePath_of_mem_directories paths isDirectory).nonempty
  have joined : Text.joinWith ['/'] (directory ++ [child]) =
      Text.joinWith ['/'] directory ++ "/".toList ++ child := by
    rw [Text.joinWith_append_singleton _ nonempty, List.append_assoc]
    rfl
  rw [← joined]
  by_cases whole : directory ++ [child] = u.name.segments
  · rw [whole]
    obtain ⟨file, isFile, path⟩ := (exists_file_iff paths).mpr (.inl ⟨u, isUnit, rfl⟩)
    exact ⟨file, isFile, .inl path⟩
  · have isInner : directory ++ [child] ∈ tree.directories :=
      mem_directories.mpr ⟨u, isUnit, List.append_ne_nil_of_right_ne_nil _ (List.cons_ne_nil _ _),
        within, whole⟩
    obtain ⟨file, isFile, path⟩ := (exists_file_iff paths).mpr (.inr ⟨_, isInner, rfl⟩)
    exact ⟨file, isFile, .inr path⟩

section Named

variable (named : tree.units.IsNamed)

include named

theorem nodup_paths : (tree.files.map (·.path)).Nodup := by
  have paths := named.isModulePath
  rw [files, List.map_append, List.map_map, List.map_map, List.nodup_append]
  refine ⟨List.Nodup.map_on ?_ tree.nodup_directories,
    List.Nodup.map_on ?_ named.isKeyed.nodup_map_name.of_map, ?_⟩
  · intro directory isDirectory other isOther same
    have isPath := isModulePath_of_mem_directories paths isDirectory
    have isPath' := isModulePath_of_mem_directories paths isOther
    rw [Function.comp_apply, Function.comp_apply, path_moduleFile tree isPath,
      path_moduleFile tree isPath'] at same
    exact isPath.joinWith_injective isPath' (List.append_cancel_right same)
  · intro u isU v isV same
    rw [Function.comp_apply, Function.comp_apply, path_unitFile (paths u isU),
      path_unitFile (paths v isV)] at same
    have segments := (paths u isU).joinWith_injective (paths v isV) (List.append_cancel_right same)
    exact named.isKeyed.eq_of_name isU isV
      ((named.given u isU).eq_of_segments (named.given v isV) segments)
  · rintro path isModule other isUnit rfl
    obtain ⟨directory, isDirectory, rfl⟩ := List.mem_map.mp isModule
    obtain ⟨u, isU, same⟩ := List.mem_map.mp isUnit
    rw [Function.comp_apply, Function.comp_apply, path_unitFile (paths u isU),
      path_moduleFile tree (isModulePath_of_mem_directories paths isDirectory)] at same
    exact (paths u isU).unitPath_ne _ same

theorem unitFile_eq {u : CodeUnit} (h : u ∈ tree.units.units) :
    unitFile u = ⟨Text.joinWith ['/'] u.name.segments ++ ".rs".toList, u.code⟩ := by
  rw [← path_unitFile (named.isModulePath u h)]
  rfl

theorem filter_unitFile {u : CodeUnit} (h : u ∈ tree.units.units) :
    tree.files.filter (·.path == Text.joinWith ['/'] u.name.segments ++ ".rs".toList) =
      [⟨Text.joinWith ['/'] u.name.segments ++ ".rs".toList, u.code⟩] := by
  have member : unitFile u ∈ tree.files := List.mem_append_right _ (List.mem_map_of_mem h)
  have only := filter_eq_singleton (nodup_paths named) member
  rw [unitFile_eq named h] at only
  exact only

theorem filter_moduleFile (h : directory ∈ tree.directories) :
    tree.files.filter (·.path == Text.joinWith ['/'] directory ++ "/mod.rs".toList) =
      [tree.moduleFile directory] := by
  have member : tree.moduleFile directory ∈ tree.files :=
    List.mem_append_left _ (List.mem_map_of_mem h)
  have only := filter_eq_singleton (nodup_paths named) member
  rw [path_moduleFile tree (isModulePath_of_mem_directories named.isModulePath h)] at only
  exact only

/-- Only a directory has a file that is named as module files are. -/
theorem exists_directory_of_path {file : GeneratedFile} (h : file ∈ tree.files) {path : Text}
    (isModule : file.path = path ++ "/mod.rs".toList) : ∃ directory ∈ tree.directories,
      file = tree.moduleFile directory ∧ path = Text.joinWith ['/'] directory := by
  have paths := named.isModulePath
  rcases List.mem_append.mp h with inDirectory | isUnit
  · obtain ⟨directory, isDirectory, rfl⟩ := List.mem_map.mp inDirectory
    rw [path_moduleFile tree (isModulePath_of_mem_directories paths isDirectory)] at isModule
    exact ⟨directory, isDirectory, rfl, (List.append_cancel_right isModule).symm⟩
  · obtain ⟨u, isU, rfl⟩ := List.mem_map.mp isUnit
    rw [path_unitFile (paths u isU)] at isModule
    exact absurd isModule ((paths u isU).unitPath_ne path)

end Named

/-- Files that form a closed tree of modules around some units. -/
structure IsModuleTree (units : List CodeUnit) (files : List GeneratedFile) : Prop where
  distinct : (files.map (·.path)).Nodup
  /-- A unit is in the only file with its path. -/
  own : ∀ u ∈ units,
    files.filter (·.path == Text.joinWith ['/'] u.name.segments ++ ".rs".toList) =
      [⟨Text.joinWith ['/'] u.name.segments ++ ".rs".toList, u.code⟩]
  /-- Each module on the way to a unit declares the next one, once. -/
  declared : ∀ u ∈ units, ∀ k child, 1 ≤ k → u.name.segments[k]? = some child →
    ∃ file,
      files.filter
          (·.path == Text.joinWith ['/'] (u.name.segments.take k) ++ "/mod.rs".toList) = [file] ∧
        file.lines.count ("pub mod ".toList ++ child ++ ";".toList) = 1
  /-- What is declared leads to a unit, and has a file. -/
  witnessed : ∀ file ∈ files, ∀ directory child : Text,
    file.path = directory ++ "/mod.rs".toList →
    "pub mod ".toList ++ child ++ ";".toList ∈ file.lines →
      (∃ u ∈ units, ∃ outer, directory = Text.joinWith ['/'] outer ∧
        outer ++ [child] <+: u.name.segments) ∧
      ∃ other ∈ files, other.path = directory ++ "/".toList ++ child ++ ".rs".toList ∨
        other.path = directory ++ "/".toList ++ child ++ "/mod.rs".toList
  /-- Module files come first, and then the files of the units. -/
  modulesFirst : ∃ modules,
    files = modules ++
      units.map (fun u => ⟨Text.joinWith ['/'] u.name.segments ++ ".rs".toList, u.code⟩) ∧
    (∀ file ∈ modules, "/mod.rs".toList <:+ file.path) ∧
    ∀ u ∈ units, ¬ "/mod.rs".toList <:+ Text.joinWith ['/'] u.name.segments ++ ".rs".toList

/-- The files of a tree form a closed tree of modules around its units, whatever was added. -/
theorem isModuleTree_files {sets : List UnitSet} (given : ∀ set ∈ sets, set.IsNamed)
    (added : empty.addAll sets = .ok tree) : IsModuleTree tree.units.units tree.files := by
  have named := isNamed_of_addAll given added
  have paths := named.isModulePath
  refine ⟨nodup_paths named, fun u => filter_unitFile named, ?_, ?_, ?_⟩
  · intro u isUnit k child inner segment
    obtain ⟨isDirectory, isChild⟩ := declared_of_segment isUnit inner segment
    refine ⟨_, filter_moduleFile named isDirectory, ?_⟩
    rw [count_declaration named]
    exact List.count_eq_one_of_mem (tree.nodup_children _) isChild
  · intro file isFile path child isModule declared
    obtain ⟨directory, isDirectory, rfl, rfl⟩ := exists_directory_of_path named isFile isModule
    have isChild : child ∈ tree.children directory := by
      rw [← List.count_pos_iff, ← count_declaration named, List.count_pos_iff]
      exact declared
    obtain ⟨u, isUnit, within⟩ := mem_children.mp isChild
    exact ⟨⟨u, isUnit, directory, rfl, within⟩, exists_file_of_child paths isDirectory isChild⟩
  · refine ⟨tree.directories.map tree.moduleFile, ?_, ?_, ?_⟩
    · rw [files, List.map_congr_left fun u isUnit => unitFile_eq named isUnit]
    · intro file isModule
      obtain ⟨directory, isDirectory, rfl⟩ := List.mem_map.mp isModule
      rw [path_moduleFile tree (isModulePath_of_mem_directories paths isDirectory)]
      exact List.suffix_append _ _
    · rintro u isUnit ⟨path, same⟩
      exact (paths u isUnit).unitPath_ne path same.symm

def homePage : CodeUnit :=
  ⟨Naming.standard.qualify .template "pages/home.html", "pages/home.html", "pub struct Template;"⟩

/-- A page of another root whose units have no suffix. -/
def siteMap : CodeUnit :=
  ⟨(⟨"site", [], ".rtag", ".rlayout"⟩ : Naming).qualify .template "map.html", "map.html",
    "pub struct Template;"⟩

def twoRoots : List UnitSet := [UnitSet.empty.finalize homePage, UnitSet.empty.finalize siteMap]

theorem isNamed_twoRoots : ∀ set ∈ twoRoots, set.IsNamed := by
  have home : homePage.name.IsGiven := ⟨.standard, "pages/home.html".toList, by decide, rfl⟩
  have map : siteMap.name.IsGiven :=
    ⟨⟨"site", [], ".rtag", ".rlayout"⟩, "map.html".toList, by decide, rfl⟩
  rw [twoRoots, List.forall_mem_cons, List.forall_mem_singleton]
  exact ⟨.finalize_empty home, .finalize_empty map⟩

def pagesTree : SourceTree := ⟨{ slots := [.ofUnit homePage, .ofUnit siteMap] }⟩

theorem addAll_twoRoots : empty.addAll twoRoots = .ok pagesTree := by decide

theorem isModuleTree_files_twoRoots : IsModuleTree [homePage, siteMap] pagesTree.files :=
  isModuleTree_files isNamed_twoRoots addAll_twoRoots

end SourceTree

end Stencil
