import Stencil.Proofs.Text.Classes

/-!
Texts that are cut. Trimming takes away blanks at both ends and nothing else, and blanks put around a
trimmed text are what it takes away. Breaking a text finds the first place of a separator.
-/

namespace Stencil.Text

variable {p : Char → Bool} {s t u : Text}

theorem exists_of_dropEndWhile (p : Char → Bool) (t : Text) :
    ∃ tail, (∀ c ∈ tail, p c = true) ∧ t = dropEndWhile p t ++ tail :=
  ⟨t.rtakeWhile p, fun _ => List.mem_rtakeWhile_imp, List.rdropWhile_append_rtakeWhile.symm⟩

theorem dropEndWhile_append (all : ∀ c ∈ u, p c = true) :
    dropEndWhile p (t ++ u) = dropEndWhile p t := by
  rw [dropEndWhile, List.reverse_append, List.dropWhile_append_of_pos]
  · rfl
  · intro c member
    exact all c (List.mem_reverse.mp member)

theorem exists_of_trim (t : Text) : ∃ lead tail, (∀ c ∈ lead, isBlank c = true) ∧
    (∀ c ∈ tail, isBlank c = true) ∧ t = lead ++ (trim t ++ tail) := by
  obtain ⟨tail, blank, rest⟩ := exists_of_dropEndWhile isBlank (trimStart t)
  refine ⟨t.takeWhile isBlank, tail, fun c member => List.mem_takeWhile_imp member, blank, ?_⟩
  calc
    t = t.takeWhile isBlank ++ trimStart t := List.takeWhile_append_dropWhile.symm
    _ = t.takeWhile isBlank ++ (trim t ++ tail) := congrArg _ rest

/-- A text is trimmed if it does not start or end with a blank. -/
theorem trim_eq_self_iff : trim t = t ↔
    (∀ c ∈ t.head?, isBlank c = false) ∧ ∀ c ∈ t.getLast?, isBlank c = false := by
  constructor
  · intro trimmed
    have first : trimStart t = t := by
      have shorter : (trim t).length ≤ (trimStart t).length :=
        (List.rdropWhile_prefix isBlank (trimStart t)).length_le
      rw [trimmed] at shorter
      exact (List.dropWhile_suffix isBlank).eq_of_length_le shorter
    constructor
    · intro c isFirst
      have stops := List.head?_dropWhile_not isBlank t
      rw [show t.dropWhile isBlank = t from first, show t.head? = some c from isFirst] at stops
      exact stops
    · intro c isLast
      have nonempty : t ≠ [] := by
        rintro rfl
        cases isLast
      have stops := List.rdropWhile_eq_self_iff.mp (trimEnd_of_trim trimmed) nonempty
      rw [List.getLast?_eq_some_getLast nonempty] at isLast
      rw [Option.some.inj isLast] at stops
      exact Bool.eq_false_iff.mpr stops
  · rintro ⟨first, last⟩
    have start : trimStart t = t := by
      cases t with
      | nil => rfl
      | cons c t => exact List.dropWhile_cons_of_neg (Bool.eq_false_iff.mp (first c rfl))
    rw [trim, start]
    exact dropEndWhile_of_getLast? last

theorem trim_trim (t : Text) : trim (trim t) = trim t := by
  obtain ⟨tail, -, rest⟩ := exists_of_dropEndWhile isBlank (trimStart t)
  have start : trimStart (trim t) = trim t := by
    cases first : trim t with
    | nil => rfl
    | cons c more =>
        have stops := List.head?_dropWhile_not isBlank t
        have whole : t.dropWhile isBlank = trim t ++ tail := rest
        rw [whole, first] at stops
        exact List.dropWhile_cons_of_neg (Bool.eq_false_iff.mp stops)
  rw [trim, start]
  exact List.rdropWhile_idempotent isBlank (trimStart t)

/-- What trimming leaves of a trimmed text with blanks around it. -/
theorem trim_around (before : ∀ c ∈ s, isBlank c = true) (after : ∀ c ∈ u, isBlank c = true)
    (nonempty : t ≠ []) (trimmed : trim t = t) : trim (s ++ (t ++ u)) = t := by
  have start : trimStart (s ++ (t ++ u)) = t ++ u := by
    rw [trimStart, List.dropWhile_append_of_pos before]
    cases t with
    | nil => exact absurd rfl nonempty
    | cons c t =>
        have first := (trim_eq_self_iff.mp trimmed).1 c rfl
        exact List.dropWhile_cons_of_neg (Bool.eq_false_iff.mp first)
  rw [trim, start, trimEnd, dropEndWhile_append after]
  exact trimEnd_of_trim trimmed

theorem not_isBlank_of_isIdentifier {name : Text} (h : isIdentifier name = true) :
    ∀ c ∈ name, isBlank c = false :=
  fun c member => isBlank_of_isWordChar (isWordChar_of_isIdentifier h c member)

/-- A run of characters in a text ends within the text, or where the text ends if what follows does
not continue it. -/
theorem span_append {p : Char → Bool} {rest : Text} (t : Text)
    (stops : ∀ c ∈ rest.head?, p c = false) :
    (t ++ rest).takeWhile p = t.takeWhile p ∧ (t ++ rest).dropWhile p = t.dropWhile p ++ rest := by
  induction t with
  | nil =>
      cases rest with
      | nil => exact ⟨rfl, rfl⟩
      | cons c rest =>
          have stop : ¬ p c = true := Bool.eq_false_iff.mp (stops c rfl)
          exact ⟨List.takeWhile_cons_of_neg stop, List.dropWhile_cons_of_neg stop⟩
  | cons c t ih =>
      cases here : p c with
      | true =>
          simp only [List.cons_append, List.takeWhile_cons_of_pos here,
            List.dropWhile_cons_of_pos here, ih, and_self]
      | false =>
          have stop : ¬ p c = true := Bool.eq_false_iff.mp here
          simp only [List.cons_append, List.takeWhile_cons_of_neg stop,
            List.dropWhile_cons_of_neg stop, and_self]

theorem breakOn?_self_append (sep after : Text) :
    breakOn? sep (sep ++ after) = some ([], after) := by
  cases whole : sep ++ after with
  | nil =>
      obtain ⟨rfl, rfl⟩ := List.append_eq_nil_iff.mp whole
      rfl
  | cons c t =>
      have here : sep.isPrefixOf (c :: t) = true := by
        rw [List.isPrefixOf_iff_prefix, ← whole]
        exact List.prefix_append sep after
      rw [breakOn?, if_pos here, ← whole, List.drop_left]

/-- A text is split in front of a separator if the separator starts at no place before. -/
theorem breakOn?_eq_some_iff {sep before after : Text} :
    breakOn? sep (before ++ (sep ++ after)) = some (before, after) ↔
      ∀ back, back <:+ before → back ≠ [] → ¬ sep <+: back ++ (sep ++ after) := by
  induction before with
  | nil =>
      rw [List.nil_append, breakOn?_self_append]
      refine iff_of_true rfl ?_
      intro back isBack nonempty
      exact absurd (List.suffix_nil.mp isBack) nonempty
  | cons c before ih =>
      rw [List.cons_append, breakOn?]
      by_cases here : sep <+: c :: (before ++ (sep ++ after))
      · rw [if_pos (List.isPrefixOf_iff_prefix.mpr here)]
        refine iff_of_false ?_ ?_
        · intro same
          cases same
        · intro apart
          exact apart (c :: before) List.suffix_rfl (List.cons_ne_nil c before) here
      · rw [if_neg (mt List.isPrefixOf_iff_prefix.mp here), Option.map_eq_some_iff]
        constructor
        · rintro ⟨⟨front, back⟩, later, same⟩ other isBack nonempty
          cases same
          rcases List.suffix_cons_iff.mp isBack with rfl | isBack
          · exact here
          · exact ih.mp later other isBack nonempty
        · intro apart
          refine ⟨(before, after), ih.mpr ?_, rfl⟩
          intro back isBack nonempty
          exact apart back (isBack.trans (List.suffix_cons c before)) nonempty

/-- The first occurrence of a separator, if its first character does not occur earlier. -/
theorem breakOn?_append {c : Char} {before : Text} (apart : c ∉ before) (sep after : Text) :
    breakOn? (c :: sep) (before ++ (c :: sep ++ after)) = some (before, after) := by
  refine breakOn?_eq_some_iff.mpr ?_
  intro back isBack nonempty starts
  cases back with
  | nil => exact nonempty rfl
  | cons d back =>
      obtain ⟨rfl, -⟩ := List.cons_prefix_cons.mp starts
      exact apart (isBack.subset List.mem_cons_self)

/-- The first occurrence of a separator is the first one whatever follows it. -/
theorem breakOn?_of_eq_some {sep before after : Text} (h : breakOn? sep t = some (before, after))
    (after' : Text) : breakOn? sep (before ++ (sep ++ after')) = some (before, after') := by
  rw [eq_append_of_breakOn? h, List.append_assoc] at h
  refine breakOn?_eq_some_iff.mpr ?_
  intro back isBack nonempty starts
  have settled : sep <+: back ++ sep := by
    rw [← List.append_assoc] at starts
    refine List.prefix_of_prefix_length_le starts (List.prefix_append _ _) ?_
    rw [List.length_append]
    exact Nat.le_add_left _ _
  refine breakOn?_eq_some_iff.mp h back isBack nonempty ?_
  rw [← List.append_assoc]
  exact settled.trans (List.prefix_append _ _)

theorem breakOn?_eq_none_iff {c : Char} : breakOn? [c] t = none ↔ c ∉ t := by
  constructor
  · intro none member
    obtain ⟨before, after, rfl, apart⟩ := List.eq_append_cons_of_mem member
    have found : breakOn? [c] (before ++ c :: after) = some (before, after) :=
      breakOn?_append apart [] after
    cases none.symm.trans found
  · intro apart
    cases found : breakOn? [c] t with
    | none => rfl
    | some split =>
        refine absurd ?_ apart
        rw [eq_append_of_breakOn? found, List.append_assoc]
        exact List.mem_append_right _ List.mem_cons_self

end Stencil.Text
