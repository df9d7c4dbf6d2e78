import Mathlib.Data.List.Induction
import Mathlib.Data.List.TakeWhile
import Stencil.Proofs.Naming
import Stencil.SourceTree

/-!
The files of a tree by their paths. A module path is written with slashes and can be read back. A
unit has the file of its own path, and each directory that leads to a unit has a module file.
-/

namespace Stencil

namespace Text

theorem joinWith_append_singleton (sep : Text) {ts : List Text} (nonempty : ts ≠ []) (t : Text) :
    joinWith sep (ts ++ [t]) = joinWith sep ts ++ (sep ++ t) := by
  induction ts with
  | nil => exact absurd rfl nonempty
  | cons first rest ih =>
      cases rest with
      | nil =>
          simp only [joinWith, List.cons_append, List.nil_append, List.intercalate_cons_cons,
            List.intercalate_singleton, List.append_assoc]
      | cons second rest =>
          have tail := ih (List.cons_ne_nil second rest)
          simp only [joinWith, List.cons_append] at tail
          simp only [joinWith, List.cons_append, List.intercalate_cons_cons, tail,
            List.append_assoc]

theorem mem_joinWith {sep : Text} {ts : List Text} {c : Char} (h : c ∈ joinWith sep ts) :
    c ∈ sep ∨ ∃ t ∈ ts, c ∈ t := by
  induction ts with
  | nil => cases h
  | cons first rest ih =>
      cases rest with
      | nil =>
          rw [joinWith, List.intercalate_singleton] at h
          exact .inr ⟨first, List.mem_cons_self, h⟩
      | cons second rest =>
          rw [joinWith, List.intercalate_cons_cons, List.mem_append, List.mem_append] at h
          rcases h with (inFirst | inSep) | later
          · exact .inr ⟨first, List.mem_cons_self, inFirst⟩
          · exact .inl inSep
          · exact (ih later).imp_right fun ⟨t, member, inText⟩ =>
              ⟨t, List.mem_cons_of_mem first member, inText⟩

end Text

namespace Path

theorem stem_of_not_mem {name : Text} (noDot : '.' ∉ name) : stem name = name := by
  have none : name.reverse.dropWhile (· != '.') = [] := by
    rw [List.dropWhile_eq_nil_iff]
    intro c member
    rw [bne_iff_ne]
    rintro rfl
    exact noDot (List.mem_reverse.mp member)
  rw [stem, none]

/-- A path without dots that does not end in a slash is given an extension at its end. -/
theorem setExtension_of_not_mem {before : Text} {c : Char} (noSlash : c ≠ '/')
    (noDot : '.' ∉ before ++ [c]) (extension : Text) :
    setExtension extension (before ++ [c]) = before ++ [c] ++ '.' :: extension := by
  have isDot : c ≠ '.' := by
    rintro rfl
    exact noDot (List.mem_append_right _ (List.mem_singleton_self _))
  have whole : dropTrailing (before ++ [c]).reverse = (before ++ [c]).reverse := by
    rw [List.reverse_concat]
    unfold dropTrailing
    split
    · next same => exact absurd (List.cons.inj same).1 noSlash
    · next same => exact absurd (List.cons.inj same).1 isDot
    · rfl
  have parts : ((before ++ [c]).reverse.dropWhile (· != '/')).reverse ++
      ((before ++ [c]).reverse.takeWhile (· != '/')).reverse = before ++ [c] := by
    rw [← List.reverse_append, List.takeWhile_append_dropWhile, List.reverse_reverse]
  have nonempty : ((before ++ [c]).reverse.takeWhile (· != '/')).reverse ≠ [] := by
    rw [List.reverse_concat, List.takeWhile_cons_of_pos (p := (· != '/')) (bne_iff_ne.mpr noSlash),
      List.reverse_cons]
    exact List.append_ne_nil_of_right_ne_nil _ (List.cons_ne_nil _ _)
  rw [setExtension, splitName?, whole]
  generalize ((before ++ [c]).reverse.dropWhile (· != '/')).reverse = directory at parts
  generalize ((before ++ [c]).reverse.takeWhile (· != '/')).reverse = name at parts nonempty
  have noDotName : '.' ∉ name := fun member => noDot (parts ▸ List.mem_append_right _ member)
  have regular : (name.isEmpty || name == ['.'] || name == ['.', '.']) = false := by
    simp only [Bool.or_eq_false_iff, List.isEmpty_eq_false_iff, beq_eq_false_iff_ne]
    refine ⟨⟨nonempty, ?_⟩, ?_⟩ <;> rintro rfl <;> exact noDotName List.mem_cons_self
  rw [regular]
  simp only [Bool.false_eq_true, if_false, stem_of_not_mem noDotName, parts]

end Path

theorem SourceKind.directory_injective : Function.Injective SourceKind.directory := by
  intro kind other same
  cases kind <;> cases other <;> first | rfl | exact absurd same (by decide)

/-- Module names, at least one, from the outermost module on. -/
structure IsModulePath (segments : List Text) : Prop where
  nonempty : segments ≠ []
  names : ∀ segment ∈ segments, IsModuleName segment

theorem IsModuleName.notMem {name : Text} (h : IsModuleName name) {c : Char}
    (other : Text.isWordChar c = false) : c ∉ name := by
  intro member
  rw [List.all_eq_true.mp h.isWord c member] at other
  cases other

namespace IsModulePath

variable {segments others : List Text}

theorem initial (h : IsModulePath segments) (nonempty : others ≠ [])
    (within : others <+: segments) : IsModulePath others :=
  ⟨nonempty, fun segment member => h.names segment (within.mem member)⟩

theorem notMem_joinWith (h : IsModulePath segments) {sep : Text} {c : Char} (noSep : c ∉ sep)
    (noWord : Text.isWordChar c = false) (within : others ⊆ segments) :
    c ∉ Text.joinWith sep others := by
  intro member
  rcases Text.mem_joinWith member with inSep | ⟨segment, isSegment, inSegment⟩
  · exact noSep inSep
  · exact (h.names segment (within isSegment)).notMem noWord inSegment

theorem splitOn_joinWith (h : IsModulePath segments) :
    List.splitOn '/' (Text.joinWith ['/'] segments) = segments := by
  apply List.splitOn_intercalate '/' _ h.nonempty
  intro segment member
  exact (h.names segment member).notMem (by decide)

theorem joinWith_injective (h : IsModulePath segments) (h' : IsModulePath others)
    (same : Text.joinWith ['/'] segments = Text.joinWith ['/'] others) : segments = others := by
  rw [← h.splitOn_joinWith, same, h'.splitOn_joinWith]

/-- The name of module files is reserved, so no module path ends in it. -/
theorem joinWith_ne (h : IsModulePath segments) (path : Text) :
    Text.joinWith ['/'] segments ≠ path ++ '/' :: "mod".toList := by
  intro same
  have split := h.splitOn_joinWith
  rw [same, List.splitOn_append_cons_self] at split
  have member : "mod".toList ∈ segments := by
    rw [← split]
    exact List.mem_append_right _ (List.mem_singleton_self _)
  exact absurd (h.names _ member).isFree (by decide)

theorem unitPath_ne (h : IsModulePath segments) (path : Text) :
    Text.joinWith ['/'] segments ++ ".rs".toList ≠ path ++ "/mod.rs".toList := by
  intro same
  have ending : Text.joinWith ['/'] segments ++ ".rs".toList =
      path ++ '/' :: "mod".toList ++ ".rs".toList := by
    rw [same, List.append_assoc]
    rfl
  exact h.joinWith_ne path (List.append_cancel_right ending)

theorem exists_joinWith_eq (h : IsModulePath segments) : ∃ before c,
    Text.joinWith ['/'] segments = before ++ [c] ∧ Text.isWordChar c = true := by
  obtain ⟨outer, last, rfl⟩ : ∃ outer last, segments = outer ++ [last] :=
    ⟨_, _, (List.dropLast_concat_getLast h.nonempty).symm⟩
  have name := h.names last (List.mem_append_right _ (List.mem_singleton_self _))
  obtain ⟨start, c, rfl⟩ : ∃ start c, last = start ++ [c] :=
    ⟨_, _, (List.dropLast_concat_getLast name.nonempty).symm⟩
  have word : Text.isWordChar c = true :=
    List.all_eq_true.mp name.isWord c (List.mem_append_right _ (List.mem_singleton_self _))
  cases outer with
  | nil => exact ⟨start, c, List.intercalate_singleton, word⟩
  | cons first rest =>
      rw [Text.joinWith_append_singleton _ (List.cons_ne_nil first rest), ← List.append_assoc,
        ← List.append_assoc]
      exact ⟨_, c, rfl, word⟩

theorem push (h : IsModulePath segments) {component : Text}
    (relative : component.head? ≠ some '/') :
    Path.push (Text.joinWith ['/'] segments) component =
      Text.joinWith ['/'] segments ++ '/' :: component := by
  obtain ⟨before, c, whole, word⟩ := h.exists_joinWith_eq
  have proper : ¬ ((before ++ [c]).isEmpty || decide ((before ++ [c]).getLast? = some '/')) = true := by
    rw [Bool.or_eq_true, List.isEmpty_iff, decide_eq_true_eq, List.getLast?_concat]
    rintro (empty | slash)
    · exact List.concat_ne_nil c before (List.concat_eq_append ▸ empty)
    · cases slash
      exact absurd word (by decide)
  rw [Path.push, whole, if_neg relative, if_neg proper]

theorem ofComponents (h : IsModulePath segments) :
    Path.ofComponents segments = Text.joinWith ['/'] segments := by
  obtain ⟨nonempty, names⟩ := h
  induction segments using List.reverseRecOn with
  | nil => exact absurd rfl nonempty
  | append_singleton outer last ih =>
      have name := names last (List.mem_append_right _ (List.mem_singleton_self _))
      have relative : last.head? ≠ some '/' := by
        intro slash
        exact name.notMem (by decide) (List.mem_of_head? slash)
      rw [Path.ofComponents_append_singleton]
      cases outer with
      | nil =>
          rw [Path.push, if_neg relative]
          exact List.intercalate_singleton.symm
      | cons first rest =>
          have within : ∀ segment ∈ first :: rest, IsModuleName segment :=
            fun segment member => names segment (List.mem_append_left _ member)
          have outerPath : IsModulePath (first :: rest) := ⟨List.cons_ne_nil _ _, within⟩
          rw [ih outerPath.nonempty within, outerPath.push relative,
            Text.joinWith_append_singleton _ outerPath.nonempty]
          rfl

theorem filePath {name : QualifiedName} (h : IsModulePath name.segments) :
    name.filePath = Text.joinWith ['/'] name.segments ++ ".rs".toList := by
  have noDot : '.' ∉ Text.joinWith ['/'] name.segments :=
    h.notMem_joinWith (by decide) (by decide) fun _ member => member
  obtain ⟨before, c, whole, word⟩ := h.exists_joinWith_eq
  have noSlash : c ≠ '/' := by
    rintro rfl
    exact absurd word (by decide)
  rw [QualifiedName.filePath, h.ofComponents, whole]
  rw [whole] at noDot
  exact Path.setExtension_of_not_mem noSlash noDot _

end IsModulePath

namespace SourceTree

variable {tree : SourceTree}

theorem mem_dropRepeats {α : Type} [BEq α] [LawfulBEq α] {a : α} {xs : List α} :
    a ∈ dropRepeats xs ↔ a ∈ xs := by
  fun_induction dropRepeats xs with
  | case1 b c rest same ih =>
      rw [ih, beq_iff_eq.mp same]
      simp only [List.mem_cons, or_self_left]
  | case2 b c rest _ ih => rw [List.mem_cons, ih, ← List.mem_cons]
  | case3 => rfl

theorem mem_sorted {α : Type} [BEq α] [LawfulBEq α] {precedes : α → α → Bool} {a : α}
    {xs : List α} : a ∈ sorted precedes xs ↔ a ∈ xs := by
  rw [sorted, mem_dropRepeats, List.mem_mergeSort]

theorem mem_directoriesOf {directory segments : List Text} :
    directory ∈ directoriesOf segments ↔
      directory ≠ [] ∧ directory <+: segments ∧ directory ≠ segments := by
  rw [directoriesOf, List.mem_map]
  constructor
  · rintro ⟨k, inRange, rfl⟩
    have short := List.mem_range.mp inRange
    have length : (segments.take (k + 1)).length = k + 1 := by
      rw [List.length_take]
      omega
    refine ⟨?_, List.take_prefix _ _, ?_⟩
    · exact List.ne_nil_of_length_pos (by omega)
    · intro whole
      rw [whole] at length
      omega
  · rintro ⟨nonempty, within, proper⟩
    have positive := List.length_pos_iff.mpr nonempty
    have short : directory.length < segments.length :=
      lt_of_le_of_ne within.length_le fun same => proper (within.eq_of_length same)
    refine ⟨directory.length - 1, List.mem_range.mpr (by omega), ?_⟩
    rw [Nat.sub_add_cancel positive]
    exact (List.prefix_iff_eq_take.mp within).symm

theorem mem_directories {directory : List Text} : directory ∈ tree.directories ↔
    ∃ u ∈ tree.units.units, directory ≠ [] ∧ directory <+: u.name.segments ∧
      directory ≠ u.name.segments := by
  rw [directories, mem_sorted, List.mem_flatMap]
  simp only [mem_directoriesOf]

theorem isModulePath_of_mem_directories
    (paths : ∀ u ∈ tree.units.units, IsModulePath u.name.segments) {directory : List Text}
    (h : directory ∈ tree.directories) : IsModulePath directory := by
  obtain ⟨u, member, nonempty, within, -⟩ := mem_directories.mp h
  exact (paths u member).initial nonempty within

theorem path_moduleFile (tree : SourceTree) {directory : List Text} (h : IsModulePath directory) :
    (tree.moduleFile directory).path =
      Text.joinWith ['/'] directory ++ "/mod.rs".toList := by
  have relative : "mod.rs".toList.head? ≠ some '/' := by decide
  change Path.push (Path.ofComponents directory) "mod.rs".toList = _
  rw [h.ofComponents]
  exact h.push relative

theorem path_unitFile {u : CodeUnit} (h : IsModulePath u.name.segments) :
    (unitFile u).path = Text.joinWith ['/'] u.name.segments ++ ".rs".toList := h.filePath

/-- The paths of the files of a tree, if the names of its units are module paths. -/
theorem exists_file_iff (paths : ∀ u ∈ tree.units.units, IsModulePath u.name.segments)
    {path : Text} : (∃ file ∈ tree.files, file.path = path) ↔
      (∃ u ∈ tree.units.units, Text.joinWith ['/'] u.name.segments ++ ".rs".toList = path) ∨
      ∃ directory ∈ tree.directories,
        Text.joinWith ['/'] directory ++ "/mod.rs".toList = path := by
  have modulePath {directory : List Text} (h : directory ∈ tree.directories) :=
    path_moduleFile tree (isModulePath_of_mem_directories paths h)
  have unitPath {u : CodeUnit} (h : u ∈ tree.units.units) := path_unitFile (paths u h)
  constructor
  · rintro ⟨file, member, rfl⟩
    rcases List.mem_append.mp member with isModule | isUnit
    · obtain ⟨directory, isDirectory, rfl⟩ := List.mem_map.mp isModule
      exact .inr ⟨directory, isDirectory, (modulePath isDirectory).symm⟩
    · obtain ⟨u, inTree, rfl⟩ := List.mem_map.mp isUnit
      exact .inl ⟨u, inTree, (unitPath inTree).symm⟩
  · rintro (⟨u, inTree, rfl⟩ | ⟨directory, isDirectory, rfl⟩)
    · exact ⟨_, List.mem_append_right _ (List.mem_map_of_mem inTree), unitPath inTree⟩
    · exact ⟨_, List.mem_append_left _ (List.mem_map_of_mem isDirectory), modulePath isDirectory⟩

end SourceTree

end Stencil
