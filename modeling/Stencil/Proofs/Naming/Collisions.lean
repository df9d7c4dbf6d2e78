import Mathlib.Data.List.Forall2
import Stencil.Proofs.Naming.References
import Stencil.Proofs.Naming.Usable

/-!
When two calls lead to one module. Reserved words and a lone underscore get an underscore behind
them, and so they become one with the words that have it already. Main statement: nothing else makes
two dotted names become one, whatever the suffix is.
-/

namespace Stencil

/-- Whether a part is a reserved word or a lone underscore, and another one has an underscore
more. -/
def Marked (a b : Text) : Prop := (isReserved a = true ∨ a = ['_']) ∧ b = a ++ ['_']

/-- Whether two parts of dotted names become one. -/
def Alike (a b : Text) : Prop := a = b ∨ Marked a b ∨ Marked b a

instance (a b : Text) : Decidable (Marked a b) := inferInstanceAs (Decidable (_ ∧ _))

instance (a b : Text) : Decidable (Alike a b) := inferInstanceAs (Decidable (_ ∨ _ ∨ _))

/-- An extension that a name can be told apart from: none, or one dot and what has no slash. -/
def IsExtension (extension : Text) : Prop :=
  extension = [] ∨ ∃ rest, extension = '.' :: rest ∧ '.' ∉ rest ∧ '/' ∉ rest

theorem IsExtension.slash_not_mem {extension : Text} (h : IsExtension extension) :
    '/' ∉ extension := by
  rcases h with rfl | ⟨rest, rfl, -, noSlash⟩
  · exact List.not_mem_nil
  · exact List.not_mem_cons_of_ne_of_not_mem (by decide) noSlash

theorem Path.stem_append {name extension : Text} (content : name ≠ []) (noDot : '.' ∉ name)
    (h : IsExtension extension) : Path.stem (name ++ extension) = name := by
  rcases h with rfl | ⟨rest, rfl, single, -⟩
  · rw [List.append_nil, Path.stem_of_not_mem noDot]
  · have last : (name ++ '.' :: rest).reverse.dropWhile (· != '.') = '.' :: name.reverse := by
      rw [List.reverse_append, List.reverse_cons, List.append_assoc, List.dropWhile_append_of_pos]
      · rfl
      · intro c member
        rw [bne_iff_ne]
        rintro rfl
        exact single (List.mem_reverse.mp member)
    obtain ⟨c, t, split⟩ := List.exists_cons_of_ne_nil (mt List.reverse_eq_nil_iff.mp content)
    rw [Path.stem, last, split]
    simp only [← split, List.reverse_reverse]

/-- A letter or an underscore is no digit. -/
theorem Text.not_isDigit_of_start {c : Char} (h : (c.isAlpha || c == '_') = true) :
    c.isDigit = false := by
  rw [Bool.eq_false_iff]
  intro digit
  change (decide (48 ≤ c.val) && decide (c.val ≤ 57)) = true at digit
  change ((decide (65 ≤ c.val ∧ c.val ≤ 90) || (97 ≤ c.val && c.val ≤ 122)) || c == '_') = true at h
  simp only [Bool.or_eq_true, Bool.and_eq_true, decide_eq_true_eq, beq_iff_eq,
    UInt32.le_iff_toNat_le] at h digit
  rcases h with range | rfl
  · have large : 57 < c.val.toNat := by
      rcases range with upper | lower
      · exact Nat.lt_of_lt_of_le (by decide) upper.1
      · exact Nat.lt_of_lt_of_le (by decide) lower.1
    exact absurd digit.2 (Nat.not_le_of_lt large)
  · exact absurd digit.2 (by decide)

/-- An underscore behind what is wrong, where this is right then, makes two texts one only in the
obvious ways. -/
theorem ite_append_eq_iff (wrong : Text → Bool) {a b : Text}
    (mends : ∀ t, wrong t = true → wrong (t ++ ['_']) = false) :
    (if wrong a then a ++ ['_'] else a) = (if wrong b then b ++ ['_'] else b) ↔
      a = b ∨ (wrong a = true ∧ b = a ++ ['_']) ∨ (wrong b = true ∧ a = b ++ ['_']) := by
  constructor
  · intro same
    split at same
    · next wrongA =>
        split at same
        · exact .inl (List.append_cancel_right same)
        · exact .inr (.inl ⟨wrongA, same.symm⟩)
    · split at same
      · next wrongB => exact .inr (.inr ⟨wrongB, same⟩)
      · exact .inl same
  · rintro (rfl | ⟨wrongA, rfl⟩ | ⟨wrongB, rfl⟩)
    · rfl
    · rw [if_pos wrongA, mends a wrongA]
      rfl
    · rw [if_pos wrongB, mends b wrongB]
      rfl

theorem moduleName_of_isIdentifier {part : Text} (h : Text.isIdentifier part = true) :
    moduleName part = if part == ['_'] || isReserved part then part ++ ['_'] else part := by
  have same : (part.map fun c => if Text.isWordChar c then c else '_') = part := by
    refine (List.map_congr_left fun c member => ?_).trans (List.map_id part)
    exact if_pos (Text.isWordChar_of_isIdentifier h c member)
  have content : part.isEmpty = false :=
    List.isEmpty_eq_false_iff.mpr (Text.ne_nil_of_isIdentifier h)
  have noDigit : part.head?.any Char.isDigit = false := by
    cases part with
    | nil => rfl
    | cons first rest =>
        simp only [Text.isIdentifier, Bool.and_eq_true] at h
        exact Text.not_isDigit_of_start h.1
  rw [moduleName, same, content, noDigit, Bool.false_or, Bool.or_false]
  by_cases alone : part = ['_']
  · rw [alone]
    decide
  · rw [beq_false_of_ne alone]
    rfl

theorem moduleName_eq_iff {a b : Text} (isA : Text.isIdentifier a = true)
    (isB : Text.isIdentifier b = true) : moduleName a = moduleName b ↔ Alike a b := by
  have mends (t : Text) (wrong : (t == ['_'] || isReserved t) = true) :
      (t ++ ['_'] == ['_'] || isReserved (t ++ ['_'])) = false := by
    have underscore : '_' ∈ t ++ ['_'] := List.mem_append_right _ (List.mem_singleton_self _)
    rw [isReserved_of_underscore underscore, Bool.or_false, beq_eq_false_iff_ne]
    intro alone
    have empty : t = [] := List.append_left_eq_self.mp alone
    rw [empty] at wrong
    exact absurd wrong (by decide)
  rw [moduleName_of_isIdentifier isA, moduleName_of_isIdentifier isB,
    ite_append_eq_iff (fun t => t == ['_'] || isReserved t) mends]
  simp only [Alike, Marked, Bool.or_eq_true, beq_iff_eq, or_comm]

theorem map_moduleName_eq_iff {as bs : List Text}
    (isA : ∀ part ∈ as, Text.isIdentifier part = true)
    (isB : ∀ part ∈ bs, Text.isIdentifier part = true) :
    as.map moduleName = bs.map moduleName ↔ List.Forall₂ Alike as bs := by
  induction as generalizing bs with
  | nil => rw [List.map_nil, eq_comm, List.map_eq_nil_iff, List.forall₂_nil_left_iff]
  | cons a as ih =>
      cases bs with
      | nil => exact ⟨fun h => absurd h (List.cons_ne_nil _ _), fun h => by cases h⟩
      | cons b bs =>
          rw [List.forall_mem_cons] at isA isB
          rw [List.map_cons, List.map_cons, List.cons.injEq, List.forall₂_cons,
            moduleName_eq_iff isA.1 isB.1, ih isA.2 isB.2]

namespace Naming

variable {naming : Naming} {kind : SourceKind} {a b : Text}

/-- No name with the suffix is one that was given an underscore behind the suffix: reserved words
hold no underscore. -/
theorem append_suffix_ne {name other suffix : Text} (isName : IsModuleName name)
    (wrong : ((name ++ suffix).isEmpty || isReserved (name ++ suffix)) = true) :
    other ++ suffix ≠ name ++ suffix ++ ['_'] := by
  intro same
  rw [Bool.or_eq_true, List.isEmpty_iff] at wrong
  rcases wrong with empty | reserved
  · exact isName.nonempty (List.append_eq_nil_iff.mp empty).1
  · have ends : suffix <:+ name ++ suffix ++ ['_'] := ⟨other, same⟩
    rcases List.suffix_concat_iff.mp ends with rfl | ⟨rest, rfl, -⟩
    · rw [List.append_nil, isName.isFree] at reserved
      cases reserved
    · have underscore : '_' ∈ name ++ (rest ++ ['_']) :=
        List.mem_append_right _ (List.mem_append_right _ (List.mem_singleton_self _))
      rw [isReserved_of_underscore underscore] at reserved
      cases reserved

/-- The suffix tells units apart as their names are told apart. -/
theorem unitName_eq_iff (contentA : a ≠ []) (contentB : b ≠ []) :
    naming.unitName a = naming.unitName b ↔
      moduleName (Path.stem a) = moduleName (Path.stem b) := by
  have mends (t : Text) (_ : (t.isEmpty || isReserved t) = true) :
      ((t ++ ['_']).isEmpty || isReserved (t ++ ['_'])) = false := by
    have underscore : '_' ∈ t ++ ['_'] := List.mem_append_right _ (List.mem_singleton_self _)
    rw [isReserved_of_underscore underscore, Bool.or_false, List.isEmpty_eq_false_iff]
    exact List.ne_nil_of_mem underscore
  have stemA : ¬ (Path.stem a).isEmpty = true :=
    mt List.isEmpty_iff.mp (mt Path.stem_eq_nil_iff.mp contentA)
  have stemB : ¬ (Path.stem b).isEmpty = true :=
    mt List.isEmpty_iff.mp (mt Path.stem_eq_nil_iff.mp contentB)
  simp only [unitName, if_neg stemA, if_neg stemB]
  rw [ite_append_eq_iff (fun t => t.isEmpty || isReserved t) mends]
  constructor
  · rintro (same | ⟨wrong, same⟩ | ⟨wrong, same⟩)
    · exact List.append_cancel_right same
    · exact absurd same (append_suffix_ne (isModuleName_moduleName _) wrong)
    · exact absurd same (append_suffix_ne (isModuleName_moduleName _) wrong)
  · intro same
    rw [same]
    exact .inl rfl

/-- The module that a call leads to is named after the parts of the dotted name. -/
theorem exists_segments_sourcePath {name last : Text} {outer : List Text}
    (extension : IsExtension (naming.extension kind)) (dotted : Text.isDottedName name = true)
    (parts : Text.dotParts name = outer ++ [last]) : ∃ final,
    (naming.qualify kind (naming.sourcePath kind name)).segments =
      moduleName naming.rootModule :: kind.directory ::
        (outer.map moduleName ++ [naming.unitName final]) ∧
      final ≠ [] ∧ Path.stem final = last := by
  have identifiers := List.all_eq_true.mp dotted
  rw [parts, List.forall_mem_append, List.forall_mem_singleton] at identifiers
  have content := Text.ne_nil_of_isIdentifier identifiers.2
  have noDot : '.' ∉ _ := Text.not_mem_of_isIdentifier identifiers.2 (by decide)
  have components := splitOn_sourcePath dotted parts extension.slash_not_mem
  have folders : Path.folders (naming.sourcePath kind name) = outer := by
    rw [Path.folders, components, List.dropLast_concat, List.filter_eq_self]
    intro part member
    rw [Bool.not_eq_true', List.isEmpty_eq_false_iff]
    exact Text.ne_nil_of_isIdentifier (identifiers.1 part member)
  have final : Path.final (naming.sourcePath kind name) = last ++ naming.extension kind := by
    rw [Path.final, components, List.getLast?_concat, Option.getD_some]
  refine ⟨last ++ naming.extension kind, ?_, List.append_ne_nil_of_left_ne_nil content _,
    Path.stem_append content noDot extension⟩
  rw [segments_qualify, folders, final]

/-- Two calls by dotted names lead to one module if and only if the names have equally many parts,
and their parts are equal or differ by the underscore that a reserved word or a lone underscore is
given. -/
theorem qualify_sourcePath_eq_iff (naming : Naming) (kind : SourceKind)
    (extension : IsExtension (naming.extension kind)) (a b : Text)
    (isA : Text.isDottedName a = true) (isB : Text.isDottedName b = true) :
    naming.qualify kind (naming.sourcePath kind a) =
        naming.qualify kind (naming.sourcePath kind b) ↔
      List.Forall₂ Alike (Text.dotParts a) (Text.dotParts b) := by
  obtain ⟨outerA, lastA, partsA⟩ := Text.exists_dotParts a
  obtain ⟨outerB, lastB, partsB⟩ := Text.exists_dotParts b
  obtain ⟨finalA, segmentsA, contentA, rfl⟩ := exists_segments_sourcePath extension isA partsA
  obtain ⟨finalB, segmentsB, contentB, rfl⟩ := exists_segments_sourcePath extension isB partsB
  have units : naming.unitName finalA = naming.unitName finalB ↔ _ :=
    unitName_eq_iff contentA contentB
  rw [← map_moduleName_eq_iff (List.all_eq_true.mp isA) (List.all_eq_true.mp isB), partsA, partsB,
    List.map_append, List.map_append, List.map_singleton, List.map_singleton]
  constructor
  · intro same
    have segments := congrArg QualifiedName.segments same
    rw [segmentsA, segmentsB, List.cons.injEq, List.cons.injEq] at segments
    obtain ⟨folders, unit⟩ := List.append_inj' segments.2.2 rfl
    rw [folders, units.mp (List.singleton_inj.mp unit)]
  · intro same
    obtain ⟨folders, unit⟩ := List.append_inj' same rfl
    have segments : (naming.qualify kind (naming.sourcePath kind a)).segments =
        (naming.qualify kind (naming.sourcePath kind b)).segments := by
      rw [segmentsA, segmentsB, folders, units.mpr (List.singleton_inj.mp unit)]
    exact congrArg (QualifiedName.mk kind) segments

theorem qualify_sourcePath_reserved :
    Naming.standard.qualify .tag (Naming.standard.sourcePath .tag "static._.a") =
      Naming.standard.qualify .tag (Naming.standard.sourcePath .tag "static_.__.a") ∧
    Naming.standard.qualify .layout (Naming.standard.sourcePath .layout "a.b") ≠
      Naming.standard.qualify .layout (Naming.standard.sourcePath .layout "a._b") := by
  have tags : IsExtension (Naming.standard.extension .tag) :=
    .inr ⟨"rtag".toList, rfl, by decide, by decide⟩
  have layouts : IsExtension (Naming.standard.extension .layout) :=
    .inr ⟨"rlayout".toList, rfl, by decide, by decide⟩
  constructor
  · apply (qualify_sourcePath_eq_iff .standard .tag tags "static._.a" "static_.__.a" (by decide)
      (by decide)).mpr
    have parts : List.Forall₂ Alike ["static".toList, ['_'], ['a']]
        ["static_".toList, "__".toList, ['a']] :=
      .cons (by decide) (.cons (by decide) (.cons (by decide) .nil))
    exact parts
  · intro same
    have parts := (qualify_sourcePath_eq_iff .standard .layout layouts "a.b" "a._b" (by decide)
      (by decide)).mp same
    have alike : Alike ['b'] ['_', 'b'] := by
      cases parts with
      | cons _ rest =>
          cases rest with
          | cons second _ => exact second
    exact absurd alike (by decide)

end Naming

end Stencil
