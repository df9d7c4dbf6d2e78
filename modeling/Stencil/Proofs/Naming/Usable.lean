import Stencil.Proofs.Naming

/-!
Which names a module can have. Parts of a path that are not empty give usable names. An empty root
module does not, and where a path has no final part, the suffix has to be a usable start by itself.
-/

namespace Stencil

/-- Whether a word can start the name of a module: it does not start as a number, and it is neither
empty nor a lone underscore. -/
structure StartsName (word : Text) : Prop where
  nonempty : word ≠ []
  noDigit : word.head?.any Char.isDigit = false
  notAlone : word ≠ ['_']

/-- Whether a module can have a name: it is an identifier, other than a lone underscore, that is not
reserved. -/
structure IsUsable (name : Text) : Prop extends StartsName name where
  isWord : name.all Text.isWordChar = true
  isFree : isReserved name = false

theorem isUsable_iff {name : Text} : IsUsable name ↔ IsModuleName name ∧ StartsName name :=
  ⟨fun h => ⟨⟨h.nonempty, h.isWord, h.isFree⟩, h.toStartsName⟩,
    fun h => ⟨h.2, h.1.isWord, h.1.isFree⟩⟩

theorem StartsName.append {word : Text} (h : StartsName word) (more : Text) :
    StartsName (word ++ more) := by
  obtain ⟨nonempty, noDigit, notAlone⟩ := h
  cases word with
  | nil => exact absurd rfl nonempty
  | cons first rest =>
      refine ⟨List.cons_ne_nil _ _, noDigit, ?_⟩
      intro alone
      obtain ⟨rfl, none⟩ := List.cons.inj alone
      rw [(List.append_eq_nil_iff.mp none).1] at notAlone
      exact notAlone rfl

theorem startsName_of_isReserved {word : Text} (h : isReserved word = true) : StartsName word := by
  have letters : reservedWords.all (fun word =>
      !word.isEmpty && !word.head?.any Char.isDigit && !(word == ['_'])) = true := by decide
  have right := List.all_eq_true.mp letters word (List.contains_iff_mem.mp h)
  simp only [Bool.and_eq_true, Bool.not_eq_true', List.isEmpty_eq_false_iff,
    beq_eq_false_iff_ne] at right
  exact ⟨right.1.1, right.1.2, right.2⟩

/-- Every part of a path gives a usable name, unless it is empty. -/
theorem isUsable_moduleName_iff {part : Text} : IsUsable (moduleName part) ↔ part ≠ [] := by
  constructor
  · rintro usable rfl
    exact usable.notAlone rfl
  · intro nonempty
    refine isUsable_iff.mpr ⟨isModuleName_moduleName part, ?_⟩
    unfold moduleName
    extract_lets word name
    have content : word ≠ [] := mt List.map_eq_nil_iff.mp nonempty
    have starts : StartsName name := by
      unfold name
      split
      · refine ⟨List.cons_ne_nil _ _, rfl, ?_⟩
        intro alone
        exact content (List.cons.inj alone).2
      · next right =>
          simp only [Bool.or_eq_true, beq_iff_eq, not_or, Bool.not_eq_true] at right
          exact ⟨content, right.2, right.1.2⟩
    split
    · exact starts.append _
    · exact starts

/-- The underscore behind a word that is empty or reserved does not make a start of one that is
none. -/
theorem startsName_ite_iff {word : Text} :
    StartsName (if word.isEmpty || isReserved word then word ++ ['_'] else word) ↔
      StartsName word := by
  cases word with
  | nil => exact ⟨fun h => absurd rfl h.notAlone, fun h => absurd rfl h.nonempty⟩
  | cons first rest =>
      rw [List.isEmpty_cons, Bool.false_or]
      split
      · next reserved =>
          have starts := startsName_of_isReserved reserved
          exact ⟨fun _ => starts, fun _ => starts.append _⟩
      · rfl

theorem Path.stem_eq_nil_iff {name : Text} : Path.stem name = [] ↔ name = [] := by
  constructor
  · intro empty
    unfold Path.stem at empty
    split at empty
    · exact absurd (List.reverse_eq_nil_iff.mp empty) (List.cons_ne_nil _ _)
    · exact empty
  · rintro rfl
    rfl

namespace Naming

variable {naming : Naming} {kind : SourceKind} {path : Text}

theorem startsName_unitName_iff {final : Text} :
    StartsName (naming.unitName final) ↔ final ≠ [] ∨ StartsName naming.unitSuffix := by
  rw [unitName, startsName_ite_iff, ne_eq, ← Path.stem_eq_nil_iff]
  by_cases empty : Path.stem final = []
  · rw [empty]
    exact (or_iff_right fun content => content rfl).symm
  · have base : StartsName (moduleName (Path.stem final)) :=
      (isUsable_moduleName_iff.mpr empty).toStartsName
    rw [if_neg (mt List.isEmpty_iff.mp empty)]
    exact ⟨fun _ => .inl empty, fun _ => base.append _⟩

theorem isUsable_directory (kind : SourceKind) : IsUsable kind.directory := by
  cases kind <;> exact ⟨⟨by decide, by decide, by decide⟩, by decide, by decide⟩

/-- The segments of a name are words that are neither empty nor reserved. They are all usable if and
only if the root module is not empty and the path has a final part, or else the suffix can start a
name. -/
theorem isUsable_segments_iff (naming : Naming) (kind : SourceKind) (path : Text)
    (suffix : naming.unitSuffix.all Text.isWordChar = true) :
    (∀ segment ∈ (naming.qualify kind path).segments, IsModuleName segment) ∧
    ((∀ segment ∈ (naming.qualify kind path).segments, IsUsable segment) ↔
      naming.rootModule ≠ [] ∧ (Path.final path ≠ [] ∨ StartsName naming.unitSuffix)) := by
  refine ⟨isModuleName_of_mem_segments suffix, ?_⟩
  rw [← startsName_unitName_iff, ← isUsable_moduleName_iff]
  constructor
  · intro usable
    rw [segments_qualify, List.forall_mem_cons, List.forall_mem_cons, List.forall_mem_append,
      List.forall_mem_singleton] at usable
    exact ⟨usable.1, usable.2.2.2.toStartsName⟩
  · rintro ⟨root, unit⟩
    rw [segments_qualify, List.forall_mem_cons, List.forall_mem_cons, List.forall_mem_append,
      List.forall_mem_singleton]
    have final : IsUsable (naming.unitName (Path.final path)) :=
      isUsable_iff.mpr ⟨isModuleName_unitName suffix _, unit⟩
    refine ⟨root, isUsable_directory kind, ?_, final⟩
    intro segment member
    obtain ⟨part, folder, rfl⟩ := List.mem_map.mp member
    have content := (List.mem_filter.mp folder).2
    rw [Bool.not_eq_true', List.isEmpty_eq_false_iff] at content
    exact isUsable_moduleName_iff.mpr content

theorem isUsable_segments_numbered :
    Naming.standard.unitSuffix.all Text.isWordChar = true ∧
    ∀ segment ∈ (Naming.standard.qualify .template "2024//_/my-page.v2.html").segments,
      IsUsable segment := by
  have suffix : Naming.standard.unitSuffix.all Text.isWordChar = true := by decide
  exact ⟨suffix, (isUsable_segments_iff .standard .template _ suffix).2.mpr
    ⟨by decide, .inl (by decide)⟩⟩

/-- Names with a segment that no module can have: an empty root module, and a path without a final
part under a suffix that is empty or starts with a digit. -/
theorem exists_unusable_segment :
    (¬ ∀ segment ∈ ({ standard with rootModule := [] }.qualify .template "page").segments,
      IsUsable segment) ∧
    (¬ ∀ segment ∈ ({ standard with unitSuffix := [] }.qualify .template "pages/").segments,
      IsUsable segment) ∧
    ¬ ∀ segment ∈ ({ standard with unitSuffix := ['1'] }.qualify .template "pages/").segments,
      IsUsable segment := by
  refine ⟨fun usable => ?_, fun usable => ?_, fun usable => ?_⟩
  · exact (usable ['_'] (by decide)).notAlone rfl
  · exact (usable ['_'] (by decide)).notAlone rfl
  · exact absurd (usable ['1'] (by decide)).noDigit (by decide)

end Naming

end Stencil
