import Stencil.Proofs.CommandLine.GenerateTree
import Stencil.Proofs.SourceTree.Paths

/-!
Modules that two files give. A unit whose path leads on to another unit has a file of its own and,
as a directory, a module file. Under the standard naming this takes a source in a folder that is
named as a unit is.
-/

namespace Stencil

namespace Naming

variable {naming : Naming} {kind other : SourceKind} {path further : Text}

/-- A name leads on to another if the other's source is in a folder that is named as the unit. -/
theorem segments_prefix_iff :
    (naming.qualify kind path).segments <+: (naming.qualify other further).segments ∧
        (naming.qualify kind path).segments ≠ (naming.qualify other further).segments ↔
      kind = other ∧ (Path.folders path).map moduleName ++ [naming.unitName (Path.final path)] <+:
        (Path.folders further).map moduleName := by
  simp only [segments_qualify, List.cons_prefix_cons, List.prefix_concat_iff, ne_eq,
    List.cons.injEq, true_and, SourceKind.directory_injective.eq_iff, not_and]
  constructor
  · rintro ⟨⟨rfl, same | within⟩, proper⟩
    · exact absurd same (proper rfl)
    · exact ⟨rfl, within⟩
  · rintro ⟨rfl, within⟩
    refine ⟨⟨rfl, .inr within⟩, ?_⟩
    intro _ same
    have length := within.length_le
    rw [same, List.length_append, List.length_singleton] at length
    omega

end Naming

namespace SourceTree

/-- A tree made by adding what templates were generated into under the standard naming. -/
inductive Built : SourceTree → Prop
  | empty : Built .empty
  | add {tree after : SourceTree} {c : Compiler} {name : Text} {units : UnitSet} :
      Built tree → c.naming = .standard → (c.generate name).result = .ok (.units units) →
      tree.add units = .ok after → Built after

/-- Whether a tree has both of the files that may give a module. -/
def Doubled (tree : SourceTree) (path : Text) : Prop :=
  (∃ file ∈ tree.files, file.path = path ++ ".rs".toList) ∧
    ∃ file ∈ tree.files, file.path = path ++ "/mod.rs".toList

variable {tree after : SourceTree}

namespace Built

theorem name_of_mem_slots (built : Built tree) : ∀ slot ∈ tree.units.slots,
    slot.name = Naming.standard.qualify slot.name.kind slot.source := by
  induction built with
  | empty =>
      intro _ member
      cases member
  | @add _ _ c _ _ _ standard generated added ih =>
      have holds := Compiler.holds_of_generate generated
      intro slot member
      rw [UnitSet.mem_slots_of_merge (add_eq_ok_iff.mp added)] at member
      rcases member with old | ⟨new, -⟩
      · exact ih slot old
      · obtain ⟨r, -, rfl⟩ := (holds.mem_slots slot).mp new
        rw [Compiler.source_slotOf, ← standard]
        rfl

theorem isKeyed (built : Built tree) : tree.units.IsKeyed := by
  induction built with
  | empty =>
      intro _ member
      cases member
  | add _ _ generated added ih =>
      obtain ⟨order, covers⟩ := Compiler.covers_of_generate generated
      exact ih.merge covers.isKeyed (add_eq_ok_iff.mp added)

theorem name_eq (built : Built tree) {u : CodeUnit} (h : u ∈ tree.units.units) :
    u.name = Naming.standard.qualify u.name.kind u.source :=
  built.name_of_mem_slots _ (built.isKeyed.mem_units_iff.mp h)

theorem isModulePath (built : Built tree) :
    ∀ u ∈ tree.units.units, IsModulePath u.name.segments := by
  intro u member
  rw [built.name_eq member]
  exact ⟨List.cons_ne_nil _ _, Naming.isModuleName_of_mem_segments (by decide)⟩

theorem doubled_iff (built : Built tree) {path : Text} : Doubled tree path ↔
    ∃ u ∈ tree.units.units, ∃ v ∈ tree.units.units,
      path = Text.joinWith ['/'] u.name.segments ∧
        u.name.segments <+: v.name.segments ∧ u.name.segments ≠ v.name.segments := by
  have paths := built.isModulePath
  rw [Doubled, exists_file_iff paths, exists_file_iff paths]
  constructor
  · rintro ⟨own, ⟨v, isV, same⟩ | ⟨directory, isDirectory, same⟩⟩
    · exact absurd same ((paths v isV).unitPath_ne path)
    · have isPath := isModulePath_of_mem_directories paths isDirectory
      obtain rfl := List.append_cancel_right same
      rcases own with ⟨u, isU, same⟩ | ⟨outer, -, same⟩
      · have whole := (paths u isU).joinWith_injective isPath (List.append_cancel_right same)
        obtain ⟨v, isV, -, within, proper⟩ := mem_directories.mp isDirectory
        rw [← whole] at within proper
        exact ⟨u, isU, v, isV, by rw [whole], within, proper⟩
      · exact absurd same.symm (isPath.unitPath_ne _)
  · rintro ⟨u, isU, v, isV, rfl, within, proper⟩
    have nonempty := (paths u isU).nonempty
    exact ⟨.inl ⟨u, isU, rfl⟩,
      .inr ⟨u.name.segments, mem_directories.mpr ⟨v, isV, nonempty, within, proper⟩, rfl⟩⟩

theorem prefix_iff (built : Built tree) {u v : CodeUnit} (isU : u ∈ tree.units.units)
    (isV : v ∈ tree.units.units) :
    u.name.segments <+: v.name.segments ∧ u.name.segments ≠ v.name.segments ↔
      u.name.kind = v.name.kind ∧
        (Path.folders u.source).map moduleName ++
            [Naming.standard.unitName (Path.final u.source)] <+:
          (Path.folders v.source).map moduleName := by
  have nameU := congrArg QualifiedName.segments (built.name_eq isU)
  have nameV := congrArg QualifiedName.segments (built.name_eq isV)
  rw [nameU, nameV]
  exact Naming.segments_prefix_iff

/-- The trees of the command line are built in this way. -/
theorem of_generateTree {c : Compiler} {names : List Text} (built : Built tree)
    (standard : c.naming = .standard) (done : CommandLine.generateTree c tree names = .ok after) :
    Built after := by
  induction names generalizing tree with
  | nil =>
      cases done
      exact built
  | cons name names ih =>
      rcases CommandLine.generateTree_cons_eq_ok_iff.mp done with
        ⟨-, rest⟩ | ⟨units, next, generated, added, rest⟩
      · exact ih built rest
      · exact ih (built.add standard generated added) rest

end Built

/-- The trees that are built under the standard naming have two files for a module if and only if
the path of a unit leads on to that of another. This takes two sources of one kind, where one is in
a folder that gets the name of the other's unit, so in a folder whose module name has the suffix of
units. -/
theorem doubled_iff_folder_named_as_unit (tree : SourceTree) (built : Built tree) (path : Text) :
    (Doubled tree path ↔ ∃ u ∈ tree.units.units, ∃ v ∈ tree.units.units,
      path = Text.joinWith ['/'] u.name.segments ∧
        u.name.segments <+: v.name.segments ∧ u.name.segments ≠ v.name.segments) ∧
    (∀ u ∈ tree.units.units, ∀ v ∈ tree.units.units,
      (u.name.segments <+: v.name.segments ∧ u.name.segments ≠ v.name.segments ↔
        u.name.kind = v.name.kind ∧
          (Path.folders u.source).map moduleName ++
              [Naming.standard.unitName (Path.final u.source)] <+:
            (Path.folders v.source).map moduleName)) ∧
    ((∀ u ∈ tree.units.units, ∀ folder ∈ Path.folders u.source,
      ¬ Naming.standard.unitSuffix <:+ moduleName folder) → ¬ Doubled tree path) := by
  refine ⟨built.doubled_iff, fun u isU v isV => built.prefix_iff isU isV, ?_⟩
  intro plain doubled
  obtain ⟨u, isU, v, isV, -, leadsOn⟩ := built.doubled_iff.mp doubled
  obtain ⟨-, within⟩ := (built.prefix_iff isU isV).mp leadsOn
  have unit := within.mem (List.mem_append_right _ (List.mem_singleton_self _))
  obtain ⟨folder, isFolder, named⟩ := List.mem_map.mp unit
  apply plain v isV folder isFolder
  rw [named]
  exact Naming.suffix_unitName_standard _

/-- Templates that call nothing, with names of their own, can be built into one tree. -/
theorem exists_built_of_no_calls {c : Compiler} {names : List Text}
    (standard : c.naming = .standard)
    (pages : ∀ name ∈ names, c.sources.find? name ≠ some [] ∧ c.Readable (.template name) ∧
      c.calls (.template name) = [])
    (distinct : (names.map fun name => c.nameOf (.template name)).Nodup) :
    ∃ tree, Built tree ∧ c.Holds tree.units { r | ∃ name ∈ names, r = .template name } := by
  have alone (name : Text) (isPage : name ∈ names) (r : Reference) :
      ¬ c.Reaches (.template name) r := by
    have order : DepthFirst c.calls [] (c.calls (.template name)) [] := by
      rw [(pages name isPage).2.2]
      exact .done
    intro reaches
    cases order.mem_iff.mpr reaches
  have needed : c.neededBy names = { r | ∃ name ∈ names, r = .template name } := by
    ext r
    constructor
    · rintro ⟨name, isPage, -, same | reaches⟩
      · exact ⟨name, isPage, same⟩
      · exact absurd reaches (alone name isPage r)
    · rintro ⟨name, isPage, same⟩
      exact ⟨name, isPage, (pages name isPage).1, .inl same⟩
  have each : ∀ name ∈ names, ∃ generated, (c.generate name).result = .ok generated := by
    intro name isPage
    obtain ⟨nonempty, readable, -⟩ := pages name isPage
    have sound := Compiler.sound_reaches (fun r reaches => absurd reaches (alone name isPage r))
      (fun r q reaches _ _ _ => absurd reaches (alone name isPage r))
    obtain ⟨units, done⟩ := Compiler.exists_generate nonempty readable sound
    exact ⟨_, done⟩
  have apart : Set.InjOn c.nameOf (c.neededBy names) := by
    rw [needed]
    rintro _ ⟨name, isPage, rfl⟩ _ ⟨name', isPage', rfl⟩ same
    rw [List.inj_on_of_nodup_map distinct isPage isPage' same]
  obtain ⟨tree, done⟩ := CommandLine.exists_generateTree_iff.mpr ⟨each, apart⟩
  have holds := CommandLine.holds_generateTree Compiler.Holds.empty done
  rw [Set.empty_union, needed] at holds
  exact ⟨tree, Built.empty.of_generateTree standard done, holds⟩

def pageAndFolder : Compiler where
  naming := .standard
  sources := ⟨[("foo".toList, "@param m: u8\nx".toList),
    ("foo/bar".toList, "@param m: u8\ny".toList)]⟩

theorem not_doubled_pageAndFolder : ∃ tree, Built tree ∧
    (∃ u ∈ tree.units.units, u.source = "foo".toList) ∧
    (∃ u ∈ tree.units.units, u.source = "foo/bar".toList) ∧ ∀ path, ¬ Doubled tree path := by
  have pages : ∀ name ∈ ["foo".toList, "foo/bar".toList],
      pageAndFolder.sources.find? name ≠ some [] ∧ pageAndFolder.Readable (.template name) ∧
        pageAndFolder.calls (.template name) = [] := by decide +kernel
  have distinct : (["foo".toList, "foo/bar".toList].map
      fun name => pageAndFolder.nameOf (.template name)).Nodup := by decide +kernel
  have plain : ∀ name ∈ ["foo".toList, "foo/bar".toList], ∀ folder ∈ Path.folders name,
      ¬ Naming.standard.unitSuffix <:+ moduleName folder := by decide +kernel
  obtain ⟨tree, built, holds⟩ := exists_built_of_no_calls rfl pages distinct
  have unit (name : Text) (isPage : name ∈ ["foo".toList, "foo/bar".toList]) :
      ∃ u ∈ tree.units.units, u.source = name := by
    obtain ⟨u, member, -, source⟩ :=
      holds.exists_unit ⟨name, isPage, rfl⟩ (pages name isPage).2.1
    exact ⟨u, member, source⟩
  refine ⟨tree, built, unit _ (by decide), unit _ (by decide), ?_⟩
  intro path
  apply (doubled_iff_folder_named_as_unit tree built path).2.2
  intro u member
  obtain ⟨slot, isSlot, unit⟩ := UnitSet.mem_units_iff.mp member
  obtain ⟨_, ⟨name, isPage, rfl⟩, rfl⟩ := (holds.mem_slots slot).mp isSlot
  rw [← Slot.source_of_unit? unit, Compiler.source_slotOf]
  exact plain name isPage

/-- A page beside a folder with the name of the page's unit. -/
def pageAndUnitFolder : Compiler where
  naming := .standard
  sources := ⟨[("foo".toList, "@param m: u8\nx".toList),
    ("foo_rtpl/bar".toList, "@param m: u8\ny".toList)]⟩

/-- No name collides, and yet the page's unit has a file and a module file. -/
theorem exists_doubled_pageAndUnitFolder : ∃ tree, Built tree ∧
    Doubled tree "rtpl/templates/foo_rtpl".toList := by
  have pages : ∀ name ∈ ["foo".toList, "foo_rtpl/bar".toList],
      pageAndUnitFolder.sources.find? name ≠ some [] ∧
        pageAndUnitFolder.Readable (.template name) ∧
        pageAndUnitFolder.calls (.template name) = [] := by decide +kernel
  have distinct : (["foo".toList, "foo_rtpl/bar".toList].map
      fun name => pageAndUnitFolder.nameOf (.template name)).Nodup := by decide +kernel
  obtain ⟨tree, built, holds⟩ := exists_built_of_no_calls rfl pages distinct
  have unit (name : Text) (isPage : name ∈ ["foo".toList, "foo_rtpl/bar".toList]) :=
    holds.exists_unit ⟨name, isPage, rfl⟩ (pages name isPage).2.1
  obtain ⟨u, isU, nameU, -⟩ := unit "foo".toList (by decide)
  obtain ⟨v, isV, nameV, -⟩ := unit "foo_rtpl/bar".toList (by decide)
  refine ⟨tree, built, built.doubled_iff.mpr ⟨u, isU, v, isV, ?_⟩⟩
  rw [nameU, nameV]
  decide +kernel

end SourceTree

end Stencil
