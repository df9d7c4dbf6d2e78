import Mathlib.Data.List.DropRight
import Stencil.Text.Blank
import Stencil.Text.Word

/-!
Character classes: words, dotted names, and texts without blanks at their ends.
-/

namespace Stencil.Text

theorem toNat_of_isWordChar {c : Char} (h : isWordChar c = true) :
    (((65 ≤ c.toNat ∧ c.toNat ≤ 90) ∨ (97 ≤ c.toNat ∧ c.toNat ≤ 122)) ∨
      (48 ≤ c.toNat ∧ c.toNat ≤ 57)) ∨ c = '_' := by
  change (((decide (65 ≤ c.val ∧ c.val ≤ 90) || (97 ≤ c.val && c.val ≤ 122)) ||
    (48 ≤ c.val && c.val ≤ 57)) || c == '_') = true at h
  simp only [Bool.or_eq_true, Bool.and_eq_true, decide_eq_true_eq, beq_iff_eq,
    UInt32.le_iff_toNat_le] at h
  exact h

theorem isWordChar_of_le {c : Char} (large : 128 ≤ c.toNat) : isWordChar c = false := by
  rw [Bool.eq_false_iff]
  intro word
  rcases toNat_of_isWordChar word with range | rfl
  · omega
  · exact absurd large (by decide)

theorem isBlank_of_isWordChar {c : Char} (h : isWordChar c = true) : isBlank c = false := by
  rcases toNat_of_isWordChar h with range | rfl
  · simp only [isBlank, blankRanges, List.any_cons, List.any_nil, Bool.or_false,
      Bool.or_eq_false_iff, Bool.and_eq_false_iff, decide_eq_false_iff_not]
    omega
  · decide

theorem isWordChar_of_isIdentifier {name : Text} (h : isIdentifier name = true) :
    ∀ c ∈ name, isWordChar c = true := by
  cases name with
  | nil => cases h
  | cons first rest =>
      simp only [isIdentifier, Bool.and_eq_true, Bool.or_eq_true, beq_iff_eq, List.all_eq_true] at h
      intro c member
      rcases List.mem_cons.mp member with rfl | later
      · rcases h.1 with letter | underscore
        · change ((c.isAlpha || c.isDigit) || c == '_') = true
          rw [letter]
          rfl
        · simp only [isWordChar, underscore, beq_self_eq_true, Bool.or_true]
      · exact h.2 c later

/-- A character of a name is a dot or stands in one of the parts between dots. -/
theorem mem_dotParts {name : Text} {c : Char} (h : c ∈ name) :
    c = '.' ∨ ∃ part ∈ dotParts name, c ∈ part := by
  induction name with
  | nil => cases h
  | cons first rest ih =>
      rw [dotParts, List.splitOn_cons_eq_if_modifyHead]
      obtain ⟨head, tail, parts⟩ := List.exists_cons_of_ne_nil (List.splitOn_ne_nil '.' rest)
      rw [dotParts, parts] at ih
      rw [parts]
      by_cases dot : first = '.'
      · rw [if_pos (beq_iff_eq.mpr dot)]
        rcases List.mem_cons.mp h with rfl | later
        · exact .inl dot
        · rcases ih later with isDot | ⟨part, isPart, inPart⟩
          · exact .inl isDot
          · exact .inr ⟨part, List.mem_cons_of_mem _ isPart, inPart⟩
      · rw [if_neg (mt beq_iff_eq.mp dot), List.modifyHead_cons]
        rcases List.mem_cons.mp h with rfl | later
        · exact .inr ⟨_, List.mem_cons_self, List.mem_cons_self⟩
        · rcases ih later with isDot | ⟨part, isPart, inPart⟩
          · exact .inl isDot
          · rcases List.mem_cons.mp isPart with rfl | further
            · exact .inr ⟨_, List.mem_cons_self, List.mem_cons_of_mem _ inPart⟩
            · exact .inr ⟨part, List.mem_cons_of_mem _ further, inPart⟩

theorem isWordChar_of_isDottedName {name : Text} (h : isDottedName name = true) :
    ∀ c ∈ name, isWordChar c = true ∨ c = '.' := by
  intro c member
  rcases mem_dotParts member with dot | ⟨part, isPart, inPart⟩
  · exact .inr dot
  · exact .inl (isWordChar_of_isIdentifier (List.all_eq_true.mp h part isPart) c inPart)

theorem dropEndWhile_of_getLast? {p : Char → Bool} {t : Text}
    (last : ∀ c ∈ t.getLast?, p c = false) : dropEndWhile p t = t := by
  apply List.rdropWhile_eq_self_iff.mpr
  intro nonempty
  exact Bool.eq_false_iff.mp (last _ (List.getLast?_eq_some_getLast nonempty))

theorem trim_of_all_not_isBlank {t : Text} (h : ∀ c ∈ t, isBlank c = false) : trim t = t := by
  have start : trimStart t = t := by
    cases t with
    | nil => rfl
    | cons c t =>
        rw [trimStart, List.dropWhile_cons_of_neg]
        exact Bool.eq_false_iff.mp (h c List.mem_cons_self)
  rw [trim, start]
  exact dropEndWhile_of_getLast? fun c last => h c (List.mem_of_getLast? last)

theorem trimEnd_of_trim {t : Text} (h : trim t = t) : trimEnd t = t := by
  rw [← h]
  exact List.rdropWhile_idempotent isBlank (trimStart t)

theorem all_isBlank_of_trim {t : Text} (h : trim t = t) (content : t ≠ []) :
    t.all isBlank = false := by
  rw [Bool.eq_false_iff]
  intro blank
  apply content
  rw [← h, trim, trimStart, List.dropWhile_eq_nil_iff.mpr (List.all_eq_true.mp blank)]
  rfl

end Stencil.Text
