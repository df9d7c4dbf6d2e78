import Stencil.Proofs.Body.Spelling

/-!
The division of a body is the leftmost one. A literal text holds no place where anything is
recognised, it is followed by a directive or by the end, and a directive ends where its recognition
ends.
-/

namespace Stencil.Body

/-- Whether nothing is recognised at any place of a text, with a given text behind it. -/
def Inert (text rest : Text) : Prop :=
  ∀ back, back <:+ text → back ≠ [] → recognize (back ++ rest) = .literal

def Lexeme.isText : Lexeme → Bool
  | .text _ => true
  | .directive _ => false

/-- Whether a lexeme is what recognition finds at its place, with a given text behind it. -/
def Lexeme.StandsBefore (rest : Text) : Lexeme → Prop
  | .text t => t ≠ [] ∧ Inert t rest
  | .directive d => recognize (d.spelling ++ rest) = .found d rest

/-- A text that is made up of lexemes, each of which is what recognition finds at its place. No
literal text follows another. -/
inductive Divided : Text → List Lexeme → Prop
  | nil : Divided [] []
  | cons {lexeme rest lexemes} : lexeme.StandsBefore rest →
      (∀ next ∈ lexemes.head?, ¬ (lexeme.isText = true ∧ next.isText = true)) →
      Divided rest lexemes → Divided (lexeme.spelling ++ rest) (lexeme :: lexemes)

variable {t text rest : Text} {d : Directive} {lexemes : List Lexeme}

theorem Inert.nil (rest : Text) : Inert [] rest := by
  intro back suffix nonempty
  exact absurd (List.suffix_nil.mp suffix) nonempty

theorem Inert.cons {c : Char} (here : recognize (c :: (text ++ rest)) = .literal)
    (h : Inert text rest) : Inert (c :: text) rest := by
  intro back suffix nonempty
  rcases List.suffix_cons_iff.mp suffix with rfl | later
  · exact here
  · exact h back later nonempty

theorem scan_eq_found (h : scan t = (text, .found d rest)) :
    t = text ++ (d.spelling ++ rest) ∧ Inert text (d.spelling ++ rest) ∧
      recognize (d.spelling ++ rest) = .found d rest := by
  induction t generalizing text with
  | nil => cases h
  | cons c t ih =>
      simp only [scan] at h
      split at h
      · rename_i literal
        obtain ⟨rfl, later⟩ := Prod.mk.inj h
        obtain ⟨whole, inert, found⟩ := ih (Prod.ext rfl later)
        refine ⟨congrArg (c :: ·) whole, inert.cons ?_, found⟩
        rwa [← whole]
      · obtain ⟨rfl, found⟩ := Prod.mk.inj h
        have whole := eq_append_of_recognize found
        refine ⟨whole, .nil _, ?_⟩
        rwa [← whole]

theorem inert_of_scan_literal (h : scan t = (text, .literal)) : Inert text [] := by
  induction t generalizing text with
  | nil =>
      cases h
      exact .nil []
  | cons c t ih =>
      simp only [scan] at h
      split at h
      · rename_i literal
        obtain ⟨rfl, later⟩ := Prod.mk.inj h
        have rest := eq_of_scan_literal (Prod.ext rfl later)
        refine (ih (Prod.ext rfl later)).cons ?_
        rwa [List.append_nil, rest]
      · rename_i notLiteral
        exact absurd (Prod.mk.inj h).2 notLiteral

theorem Lexeme.StandsBefore.spelling_ne_nil {lexeme : Lexeme} (h : lexeme.StandsBefore rest) :
    lexeme.spelling ≠ [] := by
  cases lexeme with
  | text text => exact h.1
  | directive d => exact d.spelling_ne_nil

theorem Divided.ofText (inert : Inert text rest)
    (apart : ∀ next ∈ lexemes.head?, next.isText = false) (h : Divided rest lexemes) :
    Divided (text ++ rest) (Lexeme.ofText text ++ lexemes) := by
  cases text with
  | nil => exact h
  | cons c text =>
      have stands : (Lexeme.text (c :: text)).StandsBefore rest := ⟨List.cons_ne_nil c text, inert⟩
      refine .cons stands ?_ h
      intro next isNext both
      exact Bool.false_ne_true ((apart next isNext).symm.trans both.2)

theorem lex_divided (clean : (lex t).fault = none) : Divided t (lex t).lexemes := by
  fun_induction lex t with
  | case1 t text scanned =>
      obtain rfl := eq_of_scan_literal scanned
      have whole : Divided (text ++ []) (Lexeme.ofText text ++ []) :=
        .ofText (inert_of_scan_literal scanned) (fun _ isNext => by cases isNext) .nil
      rwa [List.append_nil, List.append_nil] at whole
  | case2 => cases clean
  | case3 t text d rest scanned _ ih =>
      obtain ⟨whole, inert, found⟩ := scan_eq_found scanned
      have stands : (Lexeme.directive d).StandsBefore rest := found
      have behind := Divided.cons stands (fun _ _ both => Bool.false_ne_true both.1) (ih clean)
      rw [whole]
      refine .ofText inert (fun next isNext => ?_) behind
      cases Option.some.inj isNext
      rfl

theorem Inert.scan_append (h : Inert text rest) :
    scan (text ++ rest) = (text ++ (scan rest).1, (scan rest).2) := by
  induction text with
  | nil => rfl
  | cons c text ih =>
      have here : recognize (c :: (text ++ rest)) = .literal :=
        h (c :: text) List.suffix_rfl (List.cons_ne_nil c text)
      have later : Inert text rest :=
        fun back isBack nonempty => h back (isBack.trans (List.suffix_cons c text)) nonempty
      simp only [List.cons_append, scan, here, ih later]

/-- A text has no other division than its lexemes. -/
theorem Divided.lex_eq (h : Divided t lexemes) : lex t = ⟨lexemes, none⟩ := by
  induction h with
  | nil => exact lex_nil
  | @cons lexeme rest lexemes stands apart later ih =>
      cases lexeme with
      | directive d =>
          simp only [Lexeme.spelling]
          rw [lex_of_scan_found (scan_of_recognize stands), ih]
          rfl
      | text text =>
          obtain ⟨content, inert⟩ := stands
          simp only [Lexeme.spelling]
          cases later with
          | nil =>
              rw [List.append_nil]
              exact lex_text content inert.scan_append
          | @cons next behind more standsNext =>
              cases next with
              | text second => exact absurd ⟨rfl, rfl⟩ (apart _ rfl)
              | directive d =>
                  rw [lex_text_append content inert.scan_append (scan_of_recognize standsNext), ih]

theorem Divided.spelling_ne_nil (h : Divided t lexemes) :
    ∀ lexeme ∈ lexemes, lexeme.spelling ≠ [] := by
  induction h with
  | nil =>
      intro lexeme member
      cases member
  | cons stands _ _ ih =>
      intro lexeme member
      rcases List.mem_cons.mp member with rfl | later
      · exact stands.spelling_ne_nil
      · exact ih lexeme later

theorem Divided.eq_flatMap (h : Divided t lexemes) : t = lexemes.flatMap Lexeme.spelling := by
  induction h with
  | nil => rfl
  | cons _ _ _ ih => rw [List.flatMap_cons, ← ih]

end Stencil.Body
