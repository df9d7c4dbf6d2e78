import Stencil.Naming

/-!
The segments of a name. Each is a module name: a word that is not empty and not reserved. The last
one comes from the final part of the source path and those before it from the folders of the path.
-/

namespace Stencil

structure IsModuleName (name : Text) : Prop where
  nonempty : name ≠ []
  isWord : name.all Text.isWordChar = true
  isFree : isReserved name = false

theorem isReserved_of_underscore {name : Text} (h : '_' ∈ name) : isReserved name = false := by
  have letters : reservedWords.all (fun word => !word.contains '_') = true := by decide
  rw [Bool.eq_false_iff]
  intro reserved
  have without := List.all_eq_true.mp letters name (List.contains_iff_mem.mp reserved)
  rw [List.contains_iff_mem.mpr h] at without
  cases without

/-- An underscore at the end makes a module name of a word that is none. -/
theorem isModuleName_ite {name : Text} {isWrong : Bool} (isWord : name.all Text.isWordChar = true)
    (right : isWrong = false → name ≠ [] ∧ isReserved name = false) :
    IsModuleName (if isWrong = true then name ++ ['_'] else name) := by
  cases isWrong with
  | true =>
      refine ⟨List.append_ne_nil_of_right_ne_nil _ (List.cons_ne_nil _ _), ?_, ?_⟩
      · rw [if_pos rfl, List.all_append, isWord]
        decide
      · exact isReserved_of_underscore (List.mem_append_right _ (List.mem_singleton_self _))
  | false => exact ⟨(right rfl).1, isWord, (right rfl).2⟩

theorem isModuleName_moduleName (part : Text) : IsModuleName (moduleName part) := by
  unfold moduleName
  extract_lets word name
  have isWord : word.all Text.isWordChar = true := by
    rw [List.all_map, List.all_eq_true]
    intro c _
    by_cases kept : Text.isWordChar c = true
    · rw [Function.comp_apply, if_pos kept, kept]
    · rw [Function.comp_apply, if_neg kept]
      decide
  have extended : name ≠ [] ∧ name.all Text.isWordChar = true := by
    unfold name
    split
    · refine ⟨List.cons_ne_nil _ _, ?_⟩
      rw [List.all_cons, isWord]
      decide
    · next right =>
        refine ⟨?_, isWord⟩
        intro empty
        rw [empty] at right
        exact right rfl
  exact isModuleName_ite extended.2 fun free => ⟨extended.1, free⟩

def Path.folders (path : Text) : List Text :=
  (List.splitOn '/' path).dropLast.filter (!·.isEmpty)

def Path.final (path : Text) : Text := (List.splitOn '/' path).getLast?.getD []

namespace Naming

variable {naming : Naming} {kind : SourceKind} {path : Text}

theorem isModuleName_unitName (suffix : naming.unitSuffix.all Text.isWordChar = true)
    (final : Text) : IsModuleName (naming.unitName final) := by
  unfold unitName
  extract_lets base name
  have isWord : name.all Text.isWordChar = true := by
    unfold name
    rw [List.all_append, suffix, Bool.and_true]
    split
    · rfl
    · exact (isModuleName_moduleName base).isWord
  refine isModuleName_ite isWord fun right => ?_
  rw [Bool.or_eq_false_iff, List.isEmpty_eq_false_iff] at right
  exact right

theorem segments_qualify : (naming.qualify kind path).segments =
    moduleName naming.rootModule :: kind.directory ::
      ((Path.folders path).map moduleName ++ [naming.unitName (Path.final path)]) := rfl

theorem isModuleName_of_mem_segments (suffix : naming.unitSuffix.all Text.isWordChar = true) :
    ∀ segment ∈ (naming.qualify kind path).segments, IsModuleName segment := by
  rw [segments_qualify, List.forall_mem_cons, List.forall_mem_cons]
  refine ⟨isModuleName_moduleName _, ?_, ?_⟩
  · cases kind <;> exact ⟨by decide, by decide, by decide⟩
  · intro segment member
    rcases List.mem_append.mp member with folder | final
    · obtain ⟨part, -, rfl⟩ := List.mem_map.mp folder
      exact isModuleName_moduleName part
    · rw [List.mem_singleton.mp final]
      exact isModuleName_unitName suffix _

/-- The underscore of the standard suffix keeps a name from being reserved, so the suffix ends it. -/
theorem suffix_unitName_standard (final : Text) :
    standard.unitSuffix <:+ standard.unitName final := by
  unfold unitName
  extract_lets base name
  have ends : standard.unitSuffix <:+ name := List.suffix_append _ _
  have underscore : '_' ∈ name := ends.mem (by decide)
  have right : (name.isEmpty || isReserved name) = false := by
    rw [isReserved_of_underscore underscore, Bool.or_false, List.isEmpty_eq_false_iff]
    exact List.ne_nil_of_mem underscore
  rw [right]
  exact ends

end Naming

end Stencil
