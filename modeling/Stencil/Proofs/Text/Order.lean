import Stencil.Naming
import Mathlib.Data.Char
import Mathlib.Data.List.Lex
import Mathlib.Data.Prod.Lex

/-!
The orders of texts, of lists of texts and of names are linear, so a list has only one increasing
arrangement.
-/

namespace Stencil

namespace Text

theorem precedes_iff {s t : Text} : precedes s t = true ↔ s < t := by
  have chars : (fun a b : Char => decide (a.toNat < b.toNat) = true) = (· < ·) := by
    funext a b
    rw [decide_eq_true_eq]
    exact propext (UInt32.lt_iff_toNat_lt).symm
  rw [precedes, List.lex_eq_true_iff_lex, chars]
  rfl

theorem listPrecedes_iff {s t : List Text} : listPrecedes s t = true ↔ s < t := by
  have texts : (fun a b : Text => precedes a b = true) = (· < ·) := by
    funext a b
    exact propext precedes_iff
  rw [listPrecedes, List.lex_eq_true_iff_lex, texts]
  rfl

end Text

theorem SourceKind.rank_injective : Function.Injective SourceKind.rank := by
  intro a b same
  cases a <;> cases b <;> cases same <;> rfl

namespace QualifiedName

def key (n : QualifiedName) : ℕ ×ₗ List Text := toLex (n.kind.rank, n.segments)

theorem key_injective : Function.Injective key := by
  rintro ⟨kind, segments⟩ ⟨kind', segments'⟩ same
  obtain ⟨ranks, rest⟩ := Prod.mk.inj (toLex.injective same)
  rw [mk.injEq]
  exact ⟨SourceKind.rank_injective ranks, rest⟩

theorem le_iff {a b : QualifiedName} : a.le b = true ↔ a.key ≤ b.key := by
  rw [le, key, key, Prod.Lex.toLex_le_toLex]
  by_cases same : a.kind = b.kind
  · rw [if_pos same, Bool.not_eq_true', Bool.eq_false_iff, ne_eq, Text.listPrecedes_iff, not_lt,
      same]
    constructor
    · exact fun upTo => .inr ⟨rfl, upTo⟩
    · rintro (before | ⟨_, upTo⟩)
      · exact absurd before (lt_irrefl _)
      · exact upTo
  · rw [if_neg same, decide_eq_true_eq]
    constructor
    · exact .inl
    · rintro (before | ⟨ranks, _⟩)
      · exact before
      · exact absurd (SourceKind.rank_injective ranks) same

end QualifiedName

theorem pairwise_mergeSort_of_key {α β : Type} [LinearOrder β] {key : α → β} {le : α → α → Bool}
    (order : ∀ a b, le a b = true ↔ key a ≤ key b) (xs : List α) :
    (xs.mergeSort le).Pairwise fun a b => key a ≤ key b := by
  have trans (a b c : α) (first : le a b = true) (second : le b c = true) : le a c = true := by
    rw [order] at first second ⊢
    exact first.trans second
  have total (a b : α) : (le a b || le b a) = true := by
    rw [Bool.or_eq_true, order, order]
    exact le_total (key a) (key b)
  exact (List.pairwise_mergeSort trans total xs).imp fun {a b} => (order a b).mp

/-- An order by an injective key arranges the same members in the same way. -/
theorem mergeSort_of_perm {α β : Type} [LinearOrder β] {key : α → β}
    (injective : Function.Injective key) {le : α → α → Bool}
    (order : ∀ a b, le a b = true ↔ key a ≤ key b) {xs ys : List α} (same : xs.Perm ys) :
    xs.mergeSort le = ys.mergeSort le := by
  have arranged : (xs.mergeSort le).Perm (ys.mergeSort le) :=
    (List.mergeSort_perm xs le).trans (same.trans (List.mergeSort_perm ys le).symm)
  exact arranged.eq_of_pairwise (fun a b _ _ first second => injective (first.antisymm second))
    (pairwise_mergeSort_of_key order xs) (pairwise_mergeSort_of_key order ys)

end Stencil
