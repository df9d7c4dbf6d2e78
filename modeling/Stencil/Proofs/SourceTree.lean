import Stencil.SourceTree
import Stencil.Proofs.Text.Order

/-!
The files of a tree do not depend on the order of its slots.
-/

namespace Stencil.SourceTree

variable {tree other : SourceTree}

theorem not_precedes_iff {α : Type} [LinearOrder α] {precedes : α → α → Bool}
    (order : ∀ {a b}, precedes a b = true ↔ a < b) (a b : α) :
    (!precedes b a) = true ↔ a ≤ b := by
  rw [Bool.not_eq_true', Bool.eq_false_iff, ne_eq, order, not_lt]

theorem sorted_of_perm {α : Type} [BEq α] [LinearOrder α] {precedes : α → α → Bool}
    (order : ∀ {a b}, precedes a b = true ↔ a < b) {xs ys : List α} (same : xs.Perm ys) :
    sorted precedes xs = sorted precedes ys := by
  rw [sorted, sorted, mergeSort_of_perm Function.injective_id (not_precedes_iff order) same]

theorem units_perm (same : tree.units.slots.Perm other.units.slots) :
    tree.units.units.Perm other.units.units :=
  same.filterMap Slot.unit?

theorem directories_of_perm (same : tree.units.slots.Perm other.units.slots) :
    tree.directories = other.directories :=
  sorted_of_perm Text.listPrecedes_iff ((units_perm same).flatMap_right _)

theorem children_of_perm (same : tree.units.slots.Perm other.units.slots) (directory : List Text) :
    tree.children directory = other.children directory :=
  sorted_of_perm Text.precedes_iff ((units_perm same).filterMap _)

theorem templatesOf_of_perm (same : tree.units.slots.Perm other.units.slots) (root : Text) :
    tree.templatesOf root = other.templatesOf root := by
  have templates : tree.units.templates.Perm other.units.templates := (units_perm same).filter _
  exact mergeSort_of_perm QualifiedName.key_injective (fun _ _ => QualifiedName.le_iff)
    ((templates.map _).filter _)

theorem moduleFile_of_perm (same : tree.units.slots.Perm other.units.slots) :
    tree.moduleFile = other.moduleFile := by
  funext directory
  simp only [moduleFile, tableLines, children_of_perm same, templatesOf_of_perm same]

/-- Trees with the same slots have the same files. -/
theorem files_perm (same : tree.units.slots.Perm other.units.slots) :
    tree.files.Perm other.files := by
  rw [files, files, directories_of_perm same, moduleFile_of_perm same]
  exact ((units_perm same).map unitFile).append_left _

end Stencil.SourceTree
