import Mathlib.Data.List.Count
import Stencil.Proofs.SourceTree.Adding

/-!
The lines of module files. A module file has a declaration for each child of its directory and no
other, and the one of a root has a table behind them.
-/

namespace Stencil

/-- The lines of a file. What follows the last line break is a line as well. -/
def GeneratedFile.lines (file : GeneratedFile) : List Text := List.splitOn '\n' file.contents

theorem Module.splitOn_plainLines {lines : List Text} (single : ∀ line ∈ lines, '\n' ∉ line) :
    List.splitOn '\n' (plainLines lines) = lines ++ [[]] := by
  induction lines with
  | nil => rfl
  | cons line lines ih =>
      rw [List.forall_mem_cons] at single
      have whole : plainLines (line :: lines) = line ++ '\n' :: plainLines lines := by
        rw [plainLines, List.flatMap_cons, List.append_assoc]
        rfl
      rw [whole, List.splitOn_append_cons_self, List.splitOn_eq_singleton single.1, ih single.2]
      rfl

namespace SourceTree

variable {tree : SourceTree} {directory : List Text} {child : Text}

theorem childIn?_eq_some_iff {segments : List Text} :
    childIn? directory segments = some child ↔ directory ++ [child] <+: segments := by
  rw [childIn?]
  constructor
  · intro found
    split at found
    · next within =>
        obtain ⟨rest, rfl⟩ := List.isPrefixOf_iff_prefix.mp within
        rw [List.getElem?_append_right (Nat.le_refl _), Nat.sub_self] at found
        obtain ⟨tail, rfl⟩ : ∃ tail, rest = child :: tail := by
          cases rest with
          | nil => cases found
          | cons first tail => exact ⟨tail, by rw [Option.some.inj found]⟩
        exact ⟨tail, by rw [List.append_assoc]; rfl⟩
    · cases found
  · rintro ⟨rest, rfl⟩
    have within : directory <+: directory ++ [child] ++ rest :=
      (List.prefix_append _ _).trans (List.prefix_append _ _)
    rw [if_pos (List.isPrefixOf_iff_prefix.mpr within), List.append_assoc,
      List.getElem?_append_right (Nat.le_refl _), Nat.sub_self]
    rfl

theorem mem_children : child ∈ tree.children directory ↔
    ∃ u ∈ tree.units.units, directory ++ [child] <+: u.name.segments := by
  rw [children, mem_sorted, List.mem_filterMap]
  simp only [childIn?_eq_some_iff]

def notice : Text := "// Generated by rtpl. Do not edit."

theorem declaration_eq (child : Text) :
    declaration child = "pub mod ".toList ++ child ++ ";".toList := by
  have three (a b c : Text) : List.flatten [a, b, c] = a ++ b ++ c := by
    rw [List.flatten_cons, List.flatten_cons, List.flatten_singleton, List.append_assoc]
  exact three _ _ _

theorem start_declaration (child : Text) : "pub mod ".toList <+: declaration child := by
  rw [declaration_eq, List.append_assoc]
  exact List.prefix_append _ _

theorem declaration_injective : Function.Injective declaration := by
  intro child other same
  rw [declaration_eq, declaration_eq] at same
  exact List.append_cancel_left (List.append_cancel_right same)

def tableHead : Text := "pub fn templates() -> Vec<(&'static str, rtpl_runtime::Constructor)> \x7b"

theorem tableLines_of_nil {root : Text} (none : tree.templatesOf root = []) :
    tree.tableLines root = tableHead :: (["    Vec::new()".toList] ++ ["\x7d".toList]) := by
  rw [tableLines, none]
  rfl

theorem tableLines_of_ne_nil {root : Text} (some : tree.templatesOf root ≠ []) :
    tree.tableLines root = tableHead ::
      ("    vec![".toList :: ((tree.templatesOf root).map tableEntry ++ ["    ]".toList]) ++
        ["\x7d".toList]) := by
  have entries : ((tree.templatesOf root).map tableEntry).isEmpty = false := by
    rw [List.isEmpty_eq_false_iff]
    exact mt List.map_eq_nil_iff.mp some
  simp only [tableLines, entries, Bool.false_eq_true, if_false]
  rfl

/-- The lines of tables that are no entries. -/
def tableFrame : List Text :=
  [tableHead, "    Vec::new()", "    vec![", "    ]", "\x7d"]

theorem mem_tableLines {root line : Text} (h : line ∈ tree.tableLines root) :
    line ∈ tableFrame ∨ ∃ n ∈ tree.templatesOf root, tableEntry n = line := by
  by_cases none : tree.templatesOf root = []
  · have frame : tableHead :: (["    Vec::new()".toList] ++ ["\x7d".toList]) ⊆ tableFrame := by
      decide
    rw [tableLines_of_nil none] at h
    exact .inl (frame h)
  · rw [tableLines_of_ne_nil none, List.mem_cons, List.mem_append, List.mem_cons, List.mem_append,
      List.mem_map] at h
    rcases h with rfl | (rfl | entry | last) | last
    · exact .inl (by decide)
    · exact .inl (by decide)
    · exact .inr entry
    · rw [List.mem_singleton.mp last]
      exact .inl (by decide)
    · rw [List.mem_singleton.mp last]
      exact .inl (by decide)

theorem tableEntry_eq (n : QualifiedName) : tableEntry n =
    "        (\"".toList ++ (n.modulePath ++ ("\", self::".toList ++
      (Text.joinWith "::" n.segments.tail ++ "::new as rtpl_runtime::Constructor),".toList))) := by
  have five (a b c d e : Text) : List.flatten [a, b, c, d, e] = a ++ (b ++ (c ++ (d ++ e))) := by
    rw [List.flatten_cons, List.flatten_cons, List.flatten_cons, List.flatten_cons,
      List.flatten_singleton]
  exact five _ _ _ _ _

theorem newline_notMem_tableEntry {n : QualifiedName} (h : IsModulePath n.segments) :
    '\n' ∉ tableEntry n := by
  intro member
  rw [tableEntry_eq, List.mem_append, List.mem_append, List.mem_append, List.mem_append] at member
  rcases member with first | path | middle | rest | last
  · exact absurd first (by decide)
  · exact h.notMem_joinWith (by decide) (by decide) (fun _ member => member) path
  · exact absurd middle (by decide)
  · exact h.notMem_joinWith (by decide) (by decide) (fun _ => List.mem_of_mem_tail) rest
  · exact absurd last (by decide)

theorem not_prefix_tableEntry (n : QualifiedName) :
    ¬ "pub mod ".toList <+: tableEntry n := by
  intro within
  have start : "        (\"".toList <+: tableEntry n := List.prefix_append _ _
  have short := List.prefix_of_prefix_length_le within start (by decide)
  exact absurd short (by decide)

theorem not_prefix_of_mem_tableLines {root line : Text} (h : line ∈ tree.tableLines root) :
    ¬ "pub mod ".toList <+: line := by
  rcases mem_tableLines h with frame | ⟨n, -, rfl⟩
  · have others : ∀ line ∈ tableFrame, ¬ "pub mod ".toList <+: line := by decide
    exact others line frame
  · exact not_prefix_tableEntry n

theorem exists_contents (tree : SourceTree) (directory : List Text) : ∃ table,
    (tree.moduleFile directory).contents =
      Module.plainLines ([notice, []] ++ (tree.children directory).map declaration ++ table) ∧
    ∀ line ∈ table, line = [] ∨ ∃ root, line ∈ tree.tableLines root := by
  rcases directory with _ | ⟨root, _ | ⟨second, deeper⟩⟩
  · exact ⟨[], rfl, fun _ member => absurd member List.not_mem_nil⟩
  · refine ⟨[] :: tree.tableLines root, rfl, ?_⟩
    rw [List.forall_mem_cons]
    exact ⟨.inl rfl, fun line member => .inr ⟨root, member⟩⟩
  · exact ⟨[], rfl, fun _ member => absurd member List.not_mem_nil⟩

theorem mem_templatesOf {root : Text} {n : QualifiedName} : n ∈ tree.templatesOf root ↔
    n.kind = .template ∧ n.segments.head? = some root ∧ ∃ u ∈ tree.units.units, u.name = n := by
  rw [templatesOf, List.mem_mergeSort, List.mem_filter, List.mem_map, beq_iff_eq]
  constructor
  · rintro ⟨⟨u, member, rfl⟩, first⟩
    obtain ⟨isUnit, isTemplate⟩ := UnitSet.mem_templates_iff.mp member
    exact ⟨isTemplate, first, u, isUnit, rfl⟩
  · rintro ⟨isTemplate, first, u, isUnit, rfl⟩
    exact ⟨⟨u, UnitSet.mem_templates_iff.mpr ⟨isUnit, isTemplate⟩, rfl⟩, first⟩

section Named

variable (named : tree.units.IsNamed)

include named

theorem newline_notMem_tableLines {root : Text} : ∀ line ∈ tree.tableLines root, '\n' ∉ line := by
  intro line member
  rcases mem_tableLines member with frame | ⟨n, isTemplate, rfl⟩
  · have single : ∀ line ∈ tableFrame, '\n' ∉ line := by decide
    exact single line frame
  · obtain ⟨-, -, u, isUnit, rfl⟩ := mem_templatesOf.mp isTemplate
    exact newline_notMem_tableEntry (named.isModulePath u isUnit)

theorem newline_notMem_declaration (h : child ∈ tree.children directory) :
    '\n' ∉ declaration child := by
  obtain ⟨u, isUnit, within⟩ := mem_children.mp h
  have segment : child ∈ u.name.segments :=
    within.mem (List.mem_append_right _ (List.mem_singleton_self _))
  have isName := (named.isModulePath u isUnit).names child segment
  rw [declaration_eq, List.mem_append, List.mem_append]
  rintro ((first | inName) | last)
  · exact absurd first (by decide)
  · exact isName.notMem (by decide) inName
  · exact absurd last (by decide)

/-- The lines of a module file up to its table are those of the notice and of the declarations. -/
theorem lines_of_contents {table : List Text} (single : ∀ line ∈ table, '\n' ∉ line)
    (contents : (tree.moduleFile directory).contents =
      Module.plainLines ([notice, []] ++ (tree.children directory).map declaration ++ table)) :
    (tree.moduleFile directory).lines =
      [notice, []] ++ (tree.children directory).map declaration ++ table ++ [[]] := by
  rw [GeneratedFile.lines, contents]
  apply Module.splitOn_plainLines
  rw [List.forall_mem_append, List.forall_mem_append, List.forall_mem_map]
  exact ⟨⟨by decide, fun child => newline_notMem_declaration named⟩, single⟩

theorem lines_moduleFile_root (root : Text) : (tree.moduleFile [root]).lines =
    [notice, []] ++ (tree.children [root]).map declaration ++ ([] :: tree.tableLines root) ++
      [[]] := by
  apply lines_of_contents named _ rfl
  rw [List.forall_mem_cons]
  exact ⟨by decide, newline_notMem_tableLines named⟩

theorem exists_lines_moduleFile (directory : List Text) : ∃ table,
    (tree.moduleFile directory).lines =
      [notice, []] ++ (tree.children directory).map declaration ++ table ∧
    ∀ line ∈ table, ¬ "pub mod ".toList <+: line := by
  obtain ⟨table, contents, inTable⟩ := exists_contents tree directory
  refine ⟨table ++ [[]], ?_, ?_⟩
  · rw [← List.append_assoc]
    refine lines_of_contents named (fun line member => ?_) contents
    rcases inTable line member with rfl | ⟨root, isTableLine⟩
    · exact List.not_mem_nil
    · exact newline_notMem_tableLines named line isTableLine
  · rw [List.forall_mem_append]
    refine ⟨fun line member => ?_, by decide⟩
    rcases inTable line member with rfl | ⟨root, isTableLine⟩
    · decide
    · exact not_prefix_of_mem_tableLines isTableLine

/-- A module file has a declaration for each of its children and no other. -/
theorem count_declaration (directory : List Text) (child : Text) :
    (tree.moduleFile directory).lines.count ("pub mod ".toList ++ child ++ ";".toList) =
      (tree.children directory).count child := by
  obtain ⟨table, lines, inTable⟩ := exists_lines_moduleFile named directory
  have noNotice : declaration child ∉ [notice, []] := by
    have others : ∀ line ∈ [notice, []], ¬ "pub mod ".toList <+: line := by decide
    exact fun member => others _ member (start_declaration child)
  have noTable : declaration child ∉ table :=
    fun member => inTable _ member (start_declaration child)
  rw [lines, ← declaration_eq, List.count_append, List.count_append,
    List.count_eq_zero.mpr noNotice, List.count_eq_zero.mpr noTable,
    List.count_map_of_injective _ _ declaration_injective, Nat.zero_add, Nat.add_zero]

end Named

end SourceTree

end Stencil
