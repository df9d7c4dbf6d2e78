import Stencil.Proofs.SourceTree.Paths
import Stencil.Proofs.Text.Classes

/-!
The paths of sources that bodies call. The parts of a dotted name become the components of the path,
and the last of them takes the extension.
-/

namespace Stencil

namespace Text

theorem map_joinWith (f : Char → Char) (sep : Text) (ts : List Text) :
    (joinWith sep ts).map f = joinWith (sep.map f) (ts.map (List.map f)) := by
  induction ts with
  | nil => rfl
  | cons first rest ih =>
      cases rest with
      | nil => simp only [joinWith, List.map_singleton, List.intercalate_singleton]
      | cons second rest =>
          simp only [joinWith, List.map_cons] at ih
          simp only [joinWith, List.map_cons, List.intercalate_cons_cons, List.map_append, ih]

theorem joinWith_append_last (sep : Text) (ts : List Text) (t more : Text) :
    joinWith sep (ts ++ [t]) ++ more = joinWith sep (ts ++ [t ++ more]) := by
  by_cases empty : ts = []
  · rw [empty, List.nil_append, List.nil_append, joinWith, joinWith, List.intercalate_singleton,
      List.intercalate_singleton]
  · rw [joinWith_append_singleton sep empty, joinWith_append_singleton sep empty, List.append_assoc,
      List.append_assoc]

theorem not_mem_of_isIdentifier {part : Text} (h : isIdentifier part = true) {c : Char}
    (other : isWordChar c = false) : c ∉ part := by
  intro member
  rw [isWordChar_of_isIdentifier h c member] at other
  cases other

theorem ne_nil_of_isIdentifier {part : Text} (h : isIdentifier part = true) : part ≠ [] := by
  rintro rfl
  cases h

/-- A dotted name has a last part. -/
theorem exists_dotParts (name : Text) : ∃ outer last, dotParts name = outer ++ [last] :=
  ⟨_, _, (List.dropLast_concat_getLast (List.splitOn_ne_nil '.' name)).symm⟩

end Text

namespace Naming

variable {naming : Naming} {kind : SourceKind} {name last : Text} {outer : List Text}

theorem sourcePath_eq (dotted : Text.isDottedName name = true)
    (parts : Text.dotParts name = outer ++ [last]) :
    naming.sourcePath kind name =
      Text.joinWith ['/'] (outer ++ [last ++ naming.extension kind]) := by
  have kept : (Text.dotParts name).map (List.map fun c => if c = '.' then '/' else c) =
      Text.dotParts name := by
    refine (List.map_congr_left fun part member => ?_).trans (List.map_id _)
    refine (List.map_congr_left fun c inPart => ?_).trans (List.map_id part)
    refine if_neg ?_
    rintro rfl
    exact Text.not_mem_of_isIdentifier (List.all_eq_true.mp dotted part member) (by decide) inPart
  have whole : Text.joinWith ['.'] (Text.dotParts name) = name := List.intercalate_splitOn '.'
  have slashes : (name.map fun c => if c = '.' then '/' else c) =
      Text.joinWith ['/'] (Text.dotParts name) := by
    rw [← whole, Text.map_joinWith, whole, kept]
    rfl
  rw [sourcePath, slashes, parts, Text.joinWith_append_last]

/-- The parts of a dotted name are the components of the path. -/
theorem splitOn_sourcePath (dotted : Text.isDottedName name = true)
    (parts : Text.dotParts name = outer ++ [last]) (inside : '/' ∉ naming.extension kind) :
    List.splitOn '/' (naming.sourcePath kind name) = outer ++ [last ++ naming.extension kind] := by
  have noSlash : ∀ part ∈ outer ++ [last], '/' ∉ part := by
    rw [← parts]
    intro part member
    exact Text.not_mem_of_isIdentifier (List.all_eq_true.mp dotted part member) (by decide)
  rw [List.forall_mem_append, List.forall_mem_singleton] at noSlash
  rw [sourcePath_eq dotted parts]
  refine List.splitOn_intercalate '/' ?_
    (List.append_ne_nil_of_right_ne_nil _ (List.cons_ne_nil _ _))
  rw [List.forall_mem_append, List.forall_mem_singleton, List.mem_append, not_or]
  exact ⟨noSlash.1, noSlash.2, inside⟩

end Naming

end Stencil
