import Stencil.Proofs.FileTree.Installing
import Stencil.Proofs.SourceTree.ModuleTree

/-!
The files of a tree as source files below a directory. Each has a place of its own, and none is
where another one needs a directory.
-/

namespace Stencil

namespace Path

variable {path directory : Text}

/-- The path of a source file in a module's directory. -/
def IsSource (path : Text) : Prop :=
  ∃ outer stem, IsModulePath outer ∧ stem ≠ [] ∧ stem.all Text.isWordChar = true ∧
    path = Text.joinWith ['/'] outer ++ '/' :: (stem ++ ".rs".toList)

theorem IsSource.exists_splitOn (h : IsSource path) : ∃ outer name,
    List.splitOn '/' path = outer ++ [name] ∧ IsModulePath outer ∧ IsEntry name ∧ '.' ∈ name := by
  obtain ⟨outer, stem, modules, nonempty, words, rfl⟩ := h
  have noSlash : '/' ∉ stem ++ ".rs".toList := by
    rw [List.mem_append, not_or]
    refine ⟨fun member => ?_, by decide⟩
    exact absurd (List.all_eq_true.mp words '/' member) (by decide)
  have dot : '.' ∈ stem ++ ".rs".toList := List.mem_append_right stem (by decide)
  refine ⟨outer, stem ++ ".rs".toList, ?_, modules, ?_, dot⟩
  · rw [List.splitOn_append_cons_self, modules.splitOn_joinWith, List.splitOn_eq_singleton noSlash]
  · obtain ⟨c, rest, rfl⟩ := List.exists_cons_of_ne_nil nonempty
    have word := List.all_eq_true.mp words c List.mem_cons_self
    refine ⟨List.cons_ne_nil _ _, ?_, ?_⟩ <;> rintro same <;>
      rw [(List.cons.inj same).1] at word <;> exact absurd word (by decide)

theorem IsSource.entries (h : IsSource path) : ∀ part ∈ List.splitOn '/' path, IsEntry part := by
  obtain ⟨outer, name, parts, modules, entry, -⟩ := h.exists_splitOn
  rw [parts, List.forall_mem_append, List.forall_mem_singleton]
  refine ⟨fun part member => ?_, entry⟩
  have isName := modules.names part member
  refine ⟨isName.nonempty, ?_, ?_⟩ <;> rintro rfl <;>
    exact isName.notMem (c := '.') (by decide) List.mem_cons_self

/-- Below any directory, a source file is in the directory of its modules. -/
theorem IsSource.exists_isBelow (h : IsSource path) (directory : Text) :
    ∃ parent name, IsBelow (push directory path) parent name := by
  obtain ⟨front, whole⟩ := exists_push directory (head?_ne_of_entries h.entries)
  obtain ⟨outer, stem, modules, nonempty, words, rfl⟩ := h
  obtain ⟨before, c, joined, word⟩ := modules.exists_joinWith_eq
  have noSlash : '/' ∉ stem ++ ".r".toList := by
    rw [List.mem_append, not_or]
    refine ⟨fun member => ?_, by decide⟩
    exact absurd (List.all_eq_true.mp words '/' member) (by decide)
  have below := isBelow_append (directory ++ front ++ before) (d := 's') word (by decide) noSlash
  have same : directory ++ front ++ (before ++ [c] ++ '/' :: (stem ++ ".rs".toList)) =
      directory ++ front ++ before ++ [c] ++ '/' :: (stem ++ ".r".toList ++ ['s']) := by
    simp only [List.append_assoc]
    rfl
  rw [whole, joined, same]
  exact ⟨_, _, below⟩

theorem splitOn_injective {path other : Text}
    (h : List.splitOn '/' path = List.splitOn '/' other) : path = other := by
  have joined := congrArg (List.intercalate ['/']) h
  rw [List.intercalate_splitOn, List.intercalate_splitOn] at joined
  exact joined

/-- No source file is where another one needs a directory. -/
theorem IsSource.eq_of_within {other : Text} (h : IsSource path) (h' : IsSource other)
    (within : List.splitOn '/' path <+: List.splitOn '/' other) : path = other := by
  obtain ⟨outer, name, parts, -, -, dot⟩ := h.exists_splitOn
  obtain ⟨outer', name', parts', modules, -⟩ := h'.exists_splitOn
  obtain ⟨rest, whole⟩ := within
  by_cases same : rest = []
  · rw [same, List.append_nil] at whole
    exact splitOn_injective whole
  · have cut := congrArg List.dropLast whole
    rw [List.dropLast_append_of_ne_nil same, parts', List.dropLast_concat, parts] at cut
    have member : name ∈ outer' := by
      rw [← cut]
      exact List.mem_append_left _ (List.mem_append_right outer (List.mem_singleton_self name))
    exact absurd dot ((modules.names name member).notMem (by decide))

theorem IsSource.eq_of_place {other : Text} (h : IsSource path) (h' : IsSource other)
    (same : place (push directory path) = place (push directory other)) : path = other := by
  rw [place_push directory h.entries, place_push directory h'.entries] at same
  exact splitOn_injective (List.append_cancel_left same)

end Path

namespace GeneratedFile

def target (file : GeneratedFile) (directory : Text) : Text := Path.push directory file.path

def way (file : GeneratedFile) (directory : Text) : List Text :=
  List.splitOn '/' (file.target directory)

def place (file : GeneratedFile) (directory : Text) : List Text :=
  Path.place (file.target directory)

end GeneratedFile

/-- Source files with paths of their own. -/
structure AreSources (files : List GeneratedFile) : Prop where
  isSource : ∀ file ∈ files, Path.IsSource file.path
  distinct : (files.map (·.path)).Nodup

namespace AreSources

variable {file : GeneratedFile} {files more : List GeneratedFile}

theorem head (h : AreSources (file :: files)) : Path.IsSource file.path :=
  h.isSource file List.mem_cons_self

theorem tail (h : AreSources (file :: files)) : AreSources files :=
  ⟨fun other member => h.isSource other (List.mem_cons_of_mem file member),
    (List.nodup_cons.mp h.distinct).2⟩

theorem initial (h : AreSources (files ++ more)) : AreSources files := by
  refine ⟨fun file member => h.isSource file (List.mem_append_left more member), ?_⟩
  have distinct := h.distinct
  rw [List.map_append] at distinct
  exact distinct.of_append_left

theorem apart (h : AreSources (files ++ file :: more)) :
    ∀ other ∈ files, other.path ≠ file.path := by
  intro other member same
  have distinct := h.distinct
  rw [List.map_append, List.map_cons, List.nodup_append] at distinct
  exact distinct.2.2 other.path (List.mem_map_of_mem member) file.path List.mem_cons_self same

/-- Different files have different places. -/
theorem place_notMem (h : AreSources (file :: files)) (directory : Text) :
    file.place directory ∉ files.map (·.place directory) := by
  intro member
  obtain ⟨other, isOther, same⟩ := List.mem_map.mp member
  have paths := (h.tail.isSource other isOther).eq_of_place h.head same
  exact (List.nodup_cons.mp h.distinct).1 (List.mem_map.mpr ⟨other, isOther, paths⟩)

end AreSources

namespace SourceTree

variable {tree : SourceTree}

theorem isSource_moduleFile {directory : List Text} (h : IsModulePath directory) :
    Path.IsSource (tree.moduleFile directory).path := by
  rw [path_moduleFile tree h]
  exact ⟨directory, "mod".toList, h, by decide, by decide, rfl⟩

theorem isSource_unitFile {u : CodeUnit} (given : u.name.IsGiven) :
    Path.IsSource (unitFile u).path := by
  have modules := given.isModulePath
  obtain ⟨root, rest, segments⟩ := given.exists_segments
  obtain ⟨outer, last, split⟩ : ∃ outer last, u.name.kind.directory :: rest = outer ++ [last] :=
    ⟨_, _, (List.dropLast_concat_getLast (List.cons_ne_nil _ _)).symm⟩
  rw [split, ← List.cons_append] at segments
  have nonempty : root :: outer ≠ [] := List.cons_ne_nil root outer
  rw [path_unitFile modules]
  rw [segments] at modules ⊢
  have isName := modules.names last (List.mem_append_right _ (List.mem_singleton_self last))
  refine ⟨root :: outer, last, ?_, isName.nonempty, isName.isWord, ?_⟩
  · exact modules.initial nonempty (List.prefix_append _ _)
  · rw [Text.joinWith_append_singleton ['/'] nonempty, List.append_assoc, List.append_assoc]
    rfl

theorem areSources_files (named : tree.units.IsNamed) : AreSources tree.files := by
  refine ⟨fun file member => ?_, nodup_paths named⟩
  rcases List.mem_append.mp member with isModule | isUnit
  · obtain ⟨directory, isDirectory, rfl⟩ := List.mem_map.mp isModule
    exact isSource_moduleFile (isModulePath_of_mem_directories named.isModulePath isDirectory)
  · obtain ⟨u, inTree, rfl⟩ := List.mem_map.mp isUnit
    exact isSource_unitFile (named.given u inTree)

end SourceTree

end Stencil
