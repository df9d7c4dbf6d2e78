import Mathlib.Data.List.Forall2
import Stencil.Backend
import Stencil.Proofs.SourceTree.ModuleTree
import Stencil.Proofs.Text.Cutting

/-!
The tables of templates, read back from the files of roots. A table has the templates of its root in
order, and a backend that has what is in the tables of a tree takes each set that was added to it.
-/

namespace Stencil

namespace SourceTree

def entryStart : Text := "        (\""

def entryEnd : Text := "rtpl_runtime::Constructor),"

/-- The module path and the constructor that an entry of a table has. -/
def readRow? (line : Text) : Option (Text × Text) :=
  (line.dropPrefix? entryStart).bind fun body =>
    (Text.breakOn? "\", ".toList body).bind fun entry =>
      (Text.breakOn? " as ".toList entry.2).bind fun value =>
        if value.2 = entryEnd then some (entry.1, value.1) else none

theorem readRow?_eq_some {path value : Text} (noQuote : '\"' ∉ path) (noBlank : ' ' ∉ value) :
    readRow? (entryStart ++ (path ++ ("\", ".toList ++ (value ++ (" as ".toList ++ entryEnd))))) =
      some (path, value) := by
  have start (rest : Text) : (entryStart ++ rest).dropPrefix? entryStart = some rest :=
    List.dropPrefix?_eq_some_iff.mpr ⟨entryStart, rfl, beq_self_eq_true _⟩
  have quote : "\", ".toList = '\"' :: ", ".toList := by decide
  have blank : " as ".toList = ' ' :: "as ".toList := by decide
  have atQuote := Text.breakOn?_append noQuote ", ".toList (value ++ (" as ".toList ++ entryEnd))
  have atBlank := Text.breakOn?_append noBlank "as ".toList entryEnd
  rw [← quote] at atQuote
  rw [← blank] at atBlank
  simp only [readRow?, start, Option.bind_some, atQuote, atBlank, if_true]

def entryOf (n : QualifiedName) : Text × Text :=
  (n.modulePath, "self::".toList ++ Text.joinWith "::" n.segments.tail ++ "::new".toList)

theorem readRow?_tableEntry {n : QualifiedName} (h : IsModulePath n.segments) :
    readRow? (tableEntry n) = some (entryOf n) := by
  have middle : "\", self::".toList = "\", ".toList ++ "self::".toList := by decide
  have last : "::new as rtpl_runtime::Constructor),".toList =
      "::new".toList ++ (" as ".toList ++ entryEnd) := by decide
  have parts : tableEntry n = entryStart ++ (n.modulePath ++ ("\", ".toList ++
      ((entryOf n).2 ++ (" as ".toList ++ entryEnd)))) := by
    simp only [tableEntry_eq, middle, last, entryOf, List.append_assoc]
    rfl
  have noQuote : '\"' ∉ n.modulePath :=
    h.notMem_joinWith (by decide) (by decide) fun _ member => member
  have noBlank : ' ' ∉ (entryOf n).2 := by
    rw [entryOf, List.mem_append, List.mem_append]
    rintro ((first | rest) | last)
    · exact absurd first (by decide)
    · exact h.notMem_joinWith (by decide) (by decide) (fun _ => List.mem_of_mem_tail) rest
    · exact absurd last (by decide)
  rw [parts]
  exact readRow?_eq_some noQuote noBlank

theorem mapM_readRow? {names : List QualifiedName} (h : ∀ n ∈ names, IsModulePath n.segments) :
    (names.map tableEntry).mapM readRow? = some (names.map entryOf) := by
  induction names with
  | nil => rfl
  | cons n names ih =>
      rw [List.forall_mem_cons] at h
      rw [List.map_cons, List.mapM_cons, readRow?_tableEntry h.1, ih h.2]
      rfl

end SourceTree

namespace GeneratedFile

open SourceTree (tableHead readRow?)

def tableBody (file : GeneratedFile) : List Text :=
  ((file.lines.dropWhile (· != tableHead)).drop 1).takeWhile (· != "\x7d".toList)

def table? (file : GeneratedFile) : Option (List (Text × Text)) :=
  if file.tableBody = ["    Vec::new()".toList] then some []
  else if file.tableBody.head? = some "    vec![".toList ∧
      file.tableBody.getLast? = some "    ]".toList then
    file.tableBody.tail.dropLast.mapM readRow?
  else none

theorem tableBody_of_lines {file : GeneratedFile} {before body after : List Text}
    (lines : file.lines = before ++ tableHead :: (body ++ "\x7d".toList :: after))
    (earlier : tableHead ∉ before) (inside : "\x7d".toList ∉ body) : file.tableBody = body := by
  have skipped : ∀ line ∈ before, (line != tableHead) = true := by
    intro line member
    rw [bne_iff_ne]
    rintro rfl
    exact earlier member
  have kept : ∀ line ∈ body, (line != "\x7d".toList) = true := by
    intro line member
    rw [bne_iff_ne]
    rintro rfl
    exact inside member
  rw [tableBody, lines, List.dropWhile_append_of_pos skipped,
    List.dropWhile_cons_of_neg (by rw [bne_self_eq_false]; exact Bool.false_ne_true),
    List.drop_one, List.tail_cons, List.takeWhile_append_of_pos kept,
    List.takeWhile_cons_of_neg (by rw [bne_self_eq_false]; exact Bool.false_ne_true),
    List.append_nil]

end GeneratedFile

theorem QualifiedName.IsGiven.modulePath_eq {n : QualifiedName} (h : n.IsGiven) {root : Text}
    (first : n.segments.head? = some root) :
    n.modulePath = root ++ "::".toList ++ Text.joinWith "::" n.segments.tail := by
  obtain ⟨_, rest, segments⟩ := h.exists_segments
  rw [segments] at first
  cases first
  rw [QualifiedName.modulePath, segments, List.tail_cons, Text.joinWith,
    List.intercalate_cons_cons]
  rfl

namespace LinkedBackend

variable {μ : Type} {n : QualifiedName}

theorem isLinked_iff (b : LinkedBackend μ) :
    b.isLinked n = true ↔ n.modulePath ∈ b.table.map (·.1) := by
  rw [isLinked, List.lookup_isSome_iff, List.mem_map]
  refine exists_congr fun entry => and_congr_right fun _ => ?_
  rw [beq_iff_eq, eq_comm]

theorem build_of_linked (b : LinkedBackend μ) {set : UnitSet}
    (linked : ∀ u ∈ set.templates, u.name.modulePath ∈ b.table.map (·.1)) :
    b.build set = .ok b.artifact := by
  have none : set.templates.filter (!b.isLinked ·.name) = [] := by
    rw [List.filter_eq_nil_iff]
    intro u isTemplate missing
    rw [b.isLinked_iff.mpr (linked u isTemplate)] at missing
    cases missing
  rw [build, none]
  rfl

theorem exists_artifact_of_linked (b : LinkedBackend μ)
    (linked : n.modulePath ∈ b.table.map (·.1)) :
    ∃ r, b.artifact n = .ok r ∧ (n.modulePath, r) ∈ b.table := by
  obtain ⟨r, found⟩ := Option.isSome_iff_exists.mp (b.isLinked_iff.mpr linked)
  obtain ⟨before, after, split, -⟩ := List.lookup_eq_some_iff.mp found
  refine ⟨r, ?_, ?_⟩
  · rw [artifact, found]
  · rw [split]
    exact List.mem_append_right _ List.mem_cons_self

end LinkedBackend

namespace SourceTree

variable {tree : SourceTree} {root : Text}

/-- The entries of a table that lists the templates of a root in their order. -/
def Lists (units : List CodeUnit) (root : Text) (entries : List (Text × Text)) : Prop :=
  ∃ names : List QualifiedName,
    names.Pairwise (fun a b => a.key < b.key) ∧
    (∀ n, n ∈ names ↔
      n.kind = .template ∧ n.segments.head? = some root ∧ ∃ u ∈ units, u.name = n) ∧
    List.Forall₂ (fun n entry => entry.1 = n.modulePath ∧ ∃ rest,
      n.modulePath = root ++ "::".toList ++ rest ∧
        entry.2 = "self::".toList ++ rest ++ "::new".toList) names entries

/-- Whether a module path is in the table of a root. -/
def Tabled (files : List GeneratedFile) (path : Text) : Prop :=
  ∃ file ∈ files, ∃ root entries, '/' ∉ root ∧ file.path = root ++ "/mod.rs".toList ∧
    file.table? = some entries ∧ path ∈ entries.map (·.1)

theorem head_mem_directories {u : CodeUnit} (h : u.name.IsGiven) (isUnit : u ∈ tree.units.units)
    (first : u.name.segments.head? = some root) : [root] ∈ tree.directories := by
  obtain ⟨_, rest, segments⟩ := h.exists_segments
  rw [segments] at first
  cases first
  refine mem_directories.mpr ⟨u, isUnit, List.cons_ne_nil _ _, ?_, ?_⟩
  · rw [segments]
    exact List.prefix_append [root] _
  · rw [segments]
    exact fun short => absurd (List.cons.inj short).2 (List.cons_ne_nil _ _).symm

section Named

variable (named : tree.units.IsNamed)

include named

theorem tableBody_moduleFile {body : List Text}
    (table : tree.tableLines root = tableHead :: (body ++ ["\x7d".toList]))
    (inside : "\x7d".toList ∉ body) : (tree.moduleFile [root]).tableBody = body := by
  have earlier : tableHead ∉ [notice, []] ++ (tree.children [root]).map declaration ++ [[]] := by
    rw [List.mem_append, List.mem_append, List.mem_map]
    rintro ((first | ⟨child, -, same⟩) | blank)
    · exact absurd first (by decide)
    · have start : "pub mod ".toList <+: tableHead := same ▸ start_declaration child
      exact absurd start (by decide)
    · exact absurd blank (by decide)
  have lines : (tree.moduleFile [root]).lines =
      [notice, []] ++ (tree.children [root]).map declaration ++ [[]] ++
        tableHead :: (body ++ "\x7d".toList :: [[]]) := by
    rw [lines_moduleFile_root named root, table]
    simp only [List.append_assoc, List.cons_append, List.nil_append]
  exact GeneratedFile.tableBody_of_lines lines earlier inside

/-- The table of a root is read back from its module file. -/
theorem table?_moduleFile (root : Text) :
    (tree.moduleFile [root]).table? = some ((tree.templatesOf root).map entryOf) := by
  have paths : ∀ n ∈ tree.templatesOf root, IsModulePath n.segments := by
    intro n isTemplate
    obtain ⟨-, -, u, isUnit, rfl⟩ := mem_templatesOf.mp isTemplate
    exact named.isModulePath u isUnit
  by_cases none : tree.templatesOf root = []
  · have body := tableBody_moduleFile named (tableLines_of_nil none) (by decide)
    rw [GeneratedFile.table?, if_pos body, none]
    rfl
  · have inside : "\x7d".toList ∉
        "    vec![".toList :: ((tree.templatesOf root).map tableEntry ++ ["    ]".toList]) := by
      rw [List.mem_cons, List.mem_append, List.mem_map]
      rintro (first | ⟨n, -, same⟩ | last)
      · exact absurd first (by decide)
      · have start : "        (\"".toList <+: "\x7d".toList := by
          rw [← same, tableEntry_eq]
          exact List.prefix_append _ _
        exact absurd start (by decide)
      · exact absurd last (by decide)
    have body := tableBody_moduleFile named (tableLines_of_ne_nil none) inside
    have other : (tree.moduleFile [root]).tableBody ≠ ["    Vec::new()".toList] := by
      rw [body]
      intro same
      exact absurd (List.cons.inj same).1 (by decide)
    have framed : (tree.moduleFile [root]).tableBody.head? = some "    vec![".toList ∧
        (tree.moduleFile [root]).tableBody.getLast? = some "    ]".toList := by
      rw [body, ← List.cons_append]
      exact ⟨rfl, List.getLast?_concat⟩
    rw [GeneratedFile.table?, if_neg other, if_pos framed, body, List.tail_cons,
      List.dropLast_concat]
    exact mapM_readRow? paths

theorem pairwise_templatesOf (root : Text) :
    (tree.templatesOf root).Pairwise fun a b => a.key < b.key := by
  have distinct : (tree.templatesOf root).Nodup := by
    rw [templatesOf, (List.mergeSort_perm _ _).nodup_iff]
    exact (named.isKeyed.nodup_map_name.sublist (List.filter_sublist.map _)).filter _
  have order (a b : QualifiedName) : a.le b = true ↔ a.key ≤ b.key := QualifiedName.le_iff
  have increasing : (tree.templatesOf root).Pairwise fun a b => a.key ≤ b.key :=
    pairwise_mergeSort_of_key order _
  refine (increasing.and distinct).imp ?_
  intro a b both
  exact lt_of_le_of_ne both.1 (QualifiedName.key_injective.ne both.2)

theorem lists_templatesOf (root : Text) :
    Lists tree.units.units root ((tree.templatesOf root).map entryOf) := by
  refine ⟨tree.templatesOf root, pairwise_templatesOf named root, fun n => mem_templatesOf, ?_⟩
  rw [List.forall₂_map_right_iff, List.forall₂_same]
  intro n isTemplate
  obtain ⟨-, first, u, isUnit, rfl⟩ := mem_templatesOf.mp isTemplate
  exact ⟨rfl, _, (named.given u isUnit).modulePath_eq first, rfl⟩

/-- The tables of a tree have the module paths of its templates. -/
theorem tabled_iff {path : Text} : Tabled tree.files path ↔
    ∃ u ∈ tree.units.templates, u.name.modulePath = path := by
  constructor
  · rintro ⟨file, isFile, root, entries, noSlash, isModule, read, listed⟩
    obtain ⟨directory, isDirectory, rfl, whole⟩ := exists_directory_of_path named isFile isModule
    have isPath := isModulePath_of_mem_directories named.isModulePath isDirectory
    obtain rfl : [root] = directory := by
      rw [← isPath.splitOn_joinWith, ← whole, List.splitOn_eq_singleton noSlash]
    rw [table?_moduleFile named] at read
    cases read
    rw [List.map_map, List.mem_map] at listed
    obtain ⟨n, isTemplate, rfl⟩ := listed
    obtain ⟨kind, -, u, isUnit, rfl⟩ := mem_templatesOf.mp isTemplate
    exact ⟨u, UnitSet.mem_templates_iff.mpr ⟨isUnit, kind⟩, rfl⟩
  · rintro ⟨u, isTemplate, rfl⟩
    obtain ⟨isUnit, kind⟩ := UnitSet.mem_templates_iff.mp isTemplate
    have isPath := named.isModulePath u isUnit
    obtain ⟨root, first⟩ : ∃ root, u.name.segments.head? = some root :=
      ⟨_, List.head?_eq_some_head isPath.nonempty⟩
    have isDirectory := head_mem_directories (named.given u isUnit) isUnit first
    refine ⟨tree.moduleFile [root], List.mem_append_left _ (List.mem_map_of_mem isDirectory), root,
      _, ?_, ?_, table?_moduleFile named root, ?_⟩
    · exact (isPath.names root (List.mem_of_head? first)).notMem (by decide)
    · rw [path_moduleFile tree (isModulePath_of_mem_directories named.isModulePath isDirectory),
        Text.joinWith, List.intercalate_singleton]
    · rw [List.map_map]
      exact List.mem_map_of_mem (mem_templatesOf.mpr ⟨kind, first, u, isUnit, rfl⟩)

end Named

/-- Each root has a table of its templates, and what the tables list is enough to build every set
that was added. -/
theorem tables_link {sets : List UnitSet} (given : ∀ set ∈ sets, set.IsNamed)
    (complete : ∀ set ∈ sets, set.isComplete = true) (added : empty.addAll sets = .ok tree) :
    (∀ u ∈ tree.units.units, ∀ root, u.name.segments.head? = some root →
      ∃ file entries, tree.files.filter (·.path == root ++ "/mod.rs".toList) = [file] ∧
        file.table? = some entries ∧ Lists tree.units.units root entries) ∧
    ∀ (μ : Type) (b : LinkedBackend μ),
      (∀ path, Tabled tree.files path → path ∈ b.table.map (·.1)) →
      ∀ set ∈ sets, ∃ artifact, b.build set = .ok artifact ∧
        ∀ u ∈ set.templates, ∃ r, artifact u.name = .ok r ∧
          (u.name.modulePath, r) ∈ b.table := by
  have named := isNamed_of_addAll given added
  constructor
  · intro u isUnit root first
    have isDirectory := head_mem_directories (named.given u isUnit) isUnit first
    have only := filter_moduleFile named isDirectory
    rw [Text.joinWith, List.intercalate_singleton] at only
    exact ⟨_, _, only, table?_moduleFile named root, lists_templatesOf named root⟩
  · intro μ b linked set isSet
    have inTable : ∀ u ∈ set.templates, u.name.modulePath ∈ b.table.map (·.1) := by
      intro u isTemplate
      obtain ⟨isUnit, kind⟩ := UnitSet.mem_templates_iff.mp isTemplate
      have present : u.name ∈ tree.units.names :=
        mem_names_of_addAll added
          (.inr ⟨set, isSet, (given set isSet).isKeyed.mem_names_of_mem_units isUnit⟩)
      obtain ⟨v, isV, same⟩ :=
        UnitSet.exists_unit_of_isComplete named.isKeyed (isComplete_of_addAll complete added) present
      rw [← same]
      rw [← same] at kind
      exact linked _ ((tabled_iff named).mpr ⟨v, UnitSet.mem_templates_iff.mpr ⟨isV, kind⟩, rfl⟩)
    refine ⟨b.artifact, b.build_of_linked inTable, ?_⟩
    intro u isTemplate
    exact b.exists_artifact_of_linked (inTable u isTemplate)

def pagesBackend : LinkedBackend Unit :=
  .ofTable [("rtpl::templates::pages::home_rtpl", .nothing), ("site::templates::map", .nothing)]

theorem tables_link_twoRoots :
    (∃ file entries,
      pagesTree.files.filter (·.path == "rtpl/mod.rs".toList) = [file] ∧
        file.table? = some entries ∧ Lists [homePage, siteMap] "rtpl" entries) ∧
    ∃ artifact, pagesBackend.build (UnitSet.empty.finalize siteMap) = .ok artifact ∧
      ∃ r, artifact siteMap.name = .ok r := by
  have complete : ∀ set ∈ twoRoots, set.isComplete = true := by decide
  obtain ⟨tables, builds⟩ := tables_link isNamed_twoRoots complete addAll_twoRoots
  refine ⟨tables homePage (by decide) "rtpl".toList (by decide), ?_⟩
  have linked : ∀ path, Tabled pagesTree.files path → path ∈ pagesBackend.table.map (·.1) := by
    have keys : ∀ u ∈ [homePage, siteMap], u.name.modulePath ∈ pagesBackend.table.map (·.1) := by
      decide
    intro path tabled
    obtain ⟨u, isTemplate, rfl⟩ :=
      (tabled_iff (isNamed_of_addAll isNamed_twoRoots addAll_twoRoots)).mp tabled
    exact keys u (UnitSet.mem_templates_iff.mp isTemplate).1
  obtain ⟨artifact, built, runs⟩ :=
    builds Unit pagesBackend linked (UnitSet.empty.finalize siteMap) (by decide)
  obtain ⟨r, runs, -⟩ := runs siteMap (by decide)
  exact ⟨artifact, built, r, runs⟩

end SourceTree

end Stencil
