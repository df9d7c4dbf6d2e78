import Stencil.Proofs.Body.Segments
import Stencil.Proofs.Code.Lookahead

/-!
How far recognition looks ahead. A directive is recognised as well with another text behind it, if
that text does not continue its word and brings no quote. At a place in front of a directive or of
the end nothing is recognised whatever directive stands there.
-/

namespace Stencil.Body

/-- Whether a text can take the place of another behind a directive: it continues no word that the
other does not continue, and it brings no quote. -/
structure Replaces (rest rest' : Text) : Prop extends Code.BringsNoQuote rest rest' where
  word : startsWord rest = false → startsWord rest' = false

/-- Whether a text is empty or starts with a character that may start a directive. -/
def StartsMarked (t : Text) : Prop := ∀ c ∈ t.head?, isMarker c = true

variable {t back rest rest' : Text} {d : Directive}

theorem StartsMarked.head?_ne (h : StartsMarked t) {c : Char} (plain : isMarker c = false) :
    t.head? ≠ some c := by
  intro first
  exact Bool.false_ne_true (plain.symm.trans (h c first))

section Found

theorem Recognition.enclosed_of_found {b : Code.Bracket} {construct : Construct}
    {make : Text → Except Cause Directive} {inner : Text}
    (found : Recognition.enclosed b construct make (inner ++ b.closing :: rest) = .found d rest)
    (brings : Code.BringsNoQuote rest rest') :
    Recognition.enclosed b construct make (inner ++ b.closing :: rest') = .found d rest' := by
  obtain ⟨other, made, closed⟩ := Recognition.exists_enclosed? found
  obtain rfl := List.append_cancel_right (Code.eq_append_of_enclosed? closed)
  simp only [Recognition.enclosed, Code.enclosed?_of_eq_some closed brings, made]

/-- A directive is recognised with another text behind it too. -/
theorem recognize_of_found (found : recognize (d.spelling ++ rest) = .found d rest)
    (replaces : Replaces rest rest') : recognize (d.spelling ++ rest') = .found d rest' := by
  have brings := replaces.toBringsNoQuote
  cases d with
  | expression inner =>
      simp only [Directive.spelling, List.cons_append, List.append_assoc, List.nil_append,
        recognize] at found ⊢
      exact Recognition.enclosed_of_found found brings
  | statement inner =>
      simp only [Directive.spelling, List.cons_append, List.append_assoc, List.nil_append,
        recognize] at found ⊢
      exact Recognition.enclosed_of_found found brings
  | comment inner =>
      simp only [Directive.spelling, List.cons_append, List.append_assoc, recognize] at found ⊢
      split at found
      · cases found
      · rename_i split
        cases found
        have same := Text.breakOn?_of_eq_some split rest'
        simp only [List.cons_append] at same
        simp only [same]
  | ifOpen inner =>
      rw [Directive.spelling, List.append_assoc, List.append_assoc, recognize_mark _ rfl] at found ⊢
      exact Recognition.enclosed_of_found found brings
  | elseIf inner =>
      rw [Directive.spelling, List.append_assoc, List.append_assoc, recognize_mark _ rfl] at found ⊢
      exact Recognition.enclosed_of_found found brings
  | elseBranch =>
      exact recognize_mark .elseWord (replaces.word (isWord_of_recognize found rfl).2)
  | forOpen inner =>
      rw [Directive.spelling, List.append_assoc, List.append_assoc, recognize_mark _ rfl] at found ⊢
      exact Recognition.enclosed_of_found found brings
  | tagCall name inner =>
      simp only [Directive.spelling, List.append_assoc, List.cons_append, List.nil_append] at found ⊢
      rw [recognize_mark _ rfl] at found ⊢
      obtain ⟨other, args, same, dotted, closed⟩ := recognizeCall_closes found
      cases same
      exact recognizeCall_of_enclosed .tagCall dotted (Code.enclosed?_of_eq_some closed brings)
  | layoutOpen name inner =>
      simp only [Directive.spelling, List.append_assoc, List.cons_append, List.nil_append] at found ⊢
      rw [recognize_mark _ rfl] at found ⊢
      obtain ⟨other, args, same, dotted, closed⟩ := recognizeCall_closes found
      cases same
      exact recognizeCall_of_enclosed .layoutOpen dotted (Code.enclosed?_of_eq_some closed brings)
  | sectionOpen inner =>
      rw [Directive.spelling, List.append_assoc, List.append_assoc, recognize_mark _ rfl] at found ⊢
      exact Recognition.enclosed_of_found found brings
  | close block =>
      exact recognize_mark block.closer (replaces.word (isWord_of_recognize found rfl).2)

end Found

section Literal

theorem Recognition.enclosed_ne_literal {b : Code.Bracket} {construct : Construct}
    {make : Text → Except Cause Directive} :
    Recognition.enclosed b construct make t ≠ .literal := by
  unfold Recognition.enclosed
  split
  · exact Recognition.noConfusion
  · split <;> exact Recognition.noConfusion

theorem not_isCallChar_of_isMarker {c : Char} (marker : isMarker c = true) :
    isCallChar c = false := by
  simp only [isMarker, List.contains_cons, List.contains_nil, Bool.or_eq_true, beq_iff_eq,
    Bool.false_eq_true, or_false] at marker
  rcases marker with rfl | rfl | rfl | rfl <;> decide

theorem recognizeCall_of_literal {make : Text → Text → Directive}
    (h : recognizeCall make (back ++ rest) = .literal) (marked : StartsMarked rest)
    (marked' : StartsMarked rest') : recognizeCall make (back ++ rest') = .literal := by
  have before := Text.span_append back fun c first => not_isCallChar_of_isMarker (marked c first)
  have after := Text.span_append back fun c first => not_isCallChar_of_isMarker (marked' c first)
  simp only [recognizeCall, before] at h
  simp only [recognizeCall, after]
  cases left : back.dropWhile isCallChar with
  | nil =>
      split
      · rename_i opens
        exact absurd (congrArg List.head? opens) (marked'.head?_ne (by decide))
      · rfl
  | cons c more =>
      rw [left] at h
      split
      · rename_i opens
        cases opens
        simp only [List.cons_append] at h
        split at h
        · exact absurd h Recognition.enclosed_ne_literal
        · cases h
      · rfl

theorem Keyword.recognize_of_other {k : Keyword} (h : k.recognize rest = .literal)
    (noParen : t.head? ≠ some '(') (noDot : t.head? ≠ some '.') : k.recognize t = .literal := by
  fun_cases Keyword.recognize k t with
  | case1 t => exact absurd rfl noParen
  | case2 t => exact absurd rfl noParen
  | case3 t => cases h
  | case4 t => exact absurd rfl noParen
  | case5 t => exact absurd rfl noDot
  | case6 t => exact absurd rfl noDot
  | case7 t => exact absurd rfl noParen
  | case8 block t => cases h
  | case9 k t => rfl

theorem Keyword.recognize_of_literal {k : Keyword} (h : k.recognize (back ++ rest) = .literal)
    (marked : StartsMarked rest) (marked' : StartsMarked rest') :
    k.recognize (back ++ rest') = .literal := by
  cases back with
  | nil => exact recognize_of_other h (marked'.head?_ne (by decide)) (marked'.head?_ne (by decide))
  | cons c back =>
      by_cases paren : c = '('
      · subst paren
        cases k with
        | tagWord => rfl
        | layoutWord => rfl
        | elseWord => cases h
        | endWord block => cases h
        | ifWord => exact absurd h Recognition.enclosed_ne_literal
        | elseIfWord => exact absurd h Recognition.enclosed_ne_literal
        | forWord => exact absurd h Recognition.enclosed_ne_literal
        | sectionWord => exact absurd h Recognition.enclosed_ne_literal
      by_cases dot : c = '.'
      · subst dot
        cases k with
        | tagWord => exact recognizeCall_of_literal h marked marked'
        | layoutWord => exact recognizeCall_of_literal h marked marked'
        | elseWord => cases h
        | endWord block => cases h
        | ifWord => rfl
        | elseIfWord => rfl
        | forWord => rfl
        | sectionWord => rfl
      · exact recognize_of_other h (mt Option.some.inj paren) (mt Option.some.inj dot)

theorem prefix_of_prefix_append {mark : Text} (plain : mark.all (!isMarker ·) = true)
    (marked : StartsMarked rest) (h : mark <+: back ++ rest) : mark <+: back := by
  induction mark generalizing back with
  | nil => exact List.nil_prefix
  | cons m mark ih =>
      simp only [List.all_cons, Bool.and_eq_true, Bool.not_eq_true'] at plain
      cases back with
      | nil =>
          obtain ⟨more, whole⟩ := h
          refine absurd ?_ (marked.head?_ne plain.1)
          rw [List.nil_append] at whole
          rw [← whole]
          rfl
      | cons c back =>
          obtain ⟨rfl, later⟩ := List.cons_prefix_cons.mp h
          exact List.cons_prefix_cons.mpr ⟨rfl, ih plain.2 later⟩

/-- Where nothing is recognised in front of a directive or of the end, nothing is with another
directive there. -/
theorem recognize_of_literal (nonempty : back ≠ []) (h : recognize (back ++ rest) = .literal)
    (marked : StartsMarked rest) (marked' : StartsMarked rest') :
    recognize (back ++ rest') = .literal := by
  cases back with
  | nil => exact absurd rfl nonempty
  | cons c back =>
      by_cases sign : c = '@'
      · subst sign
        have noWord {c : Char} (marker : isMarker c = true) : Text.isWordChar c = false :=
          (Bool.or_eq_false_iff.mp (not_isCallChar_of_isMarker marker)).1
        have before := Text.span_append back fun c first => noWord (marked c first)
        have after := Text.span_append back fun c first => noWord (marked' c first)
        simp only [List.cons_append, recognize, before] at h
        simp only [List.cons_append, recognize, after]
        cases known : Keyword.ofText? (back.takeWhile Text.isWordChar) with
        | none => rfl
        | some k =>
            simp only [known] at h
            exact Keyword.recognize_of_literal h marked marked'
      · have within {m : Char} {mark : Text} (plain : mark.all (!isMarker ·) = true)
            (starts : (m :: mark).isPrefixOf (c :: back ++ rest') = true) :
            ∃ more, c :: back = m :: (mark ++ more) := by
          obtain ⟨rfl, later⟩ := List.cons_prefix_cons.mp (List.isPrefixOf_iff_prefix.mp starts)
          obtain ⟨more, rfl⟩ := prefix_of_prefix_append plain marked' later
          exact ⟨more, rfl⟩
        apply recognize_eq_literal
        · intro starts
          obtain ⟨more, whole⟩ := within (by decide) starts
          rw [whole] at h
          exact Recognition.enclosed_ne_literal h
        · intro starts
          obtain ⟨more, whole⟩ := within (by decide) starts
          rw [whole] at h
          exact Recognition.enclosed_ne_literal h
        · intro starts
          obtain ⟨more, whole⟩ := within (by decide) starts
          rw [whole] at h
          simp only [List.cons_append, recognize] at h
          split at h <;> cases h
        · exact mt Option.some.inj sign

end Literal

end Stencil.Body
