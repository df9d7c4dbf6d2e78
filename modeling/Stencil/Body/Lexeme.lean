import Stencil.Body.Directive

/-!
A body as a sequence of literal texts and directives. Text extends as far as no directive is
recognised, so the division is the leftmost one, and the spellings of the lexemes in order are the
body.
-/

namespace Stencil.Body

inductive Lexeme where
  | text (text : Text)
  | directive (directive : Directive)
  deriving DecidableEq, Repr

def Lexeme.spelling : Lexeme → Text
  | .text t => t
  | .directive d => d.spelling

/-- A literal text as lexemes: none if it is empty. -/
def Lexeme.ofText (text : Text) : List Lexeme := if text.isEmpty then [] else [.text text]

/-- The literal text at the start, and what is recognised after it. Nothing is recognised after it
exactly when it extends to the end. -/
def scan : Text → Text × Recognition
  | [] => ([], .literal)
  | c :: t =>
      match recognize (c :: t) with
      | .literal => (c :: (scan t).1, (scan t).2)
      | found => ([], found)

theorem eq_append_of_scan {t text rest : Text} {d : Directive}
    (h : scan t = (text, .found d rest)) : t = text ++ d.spelling ++ rest := by
  induction t generalizing text with
  | nil => simp [scan] at h
  | cons c t ih =>
      simp only [scan] at h
      split at h
      · obtain ⟨rfl, h2⟩ := Prod.mk.inj h
        simpa using ih (Prod.ext rfl h2)
      · obtain ⟨rfl, h2⟩ := Prod.mk.inj h
        exact eq_append_of_recognize h2

theorem eq_of_scan_literal {t text : Text} (h : scan t = (text, .literal)) : text = t := by
  induction t generalizing text with
  | nil => exact (Prod.mk.inj h).1.symm
  | cons c t ih =>
      simp only [scan] at h
      split at h
      · obtain ⟨rfl, h2⟩ := Prod.mk.inj h
        exact congrArg (c :: ·) (ih (Prod.ext rfl h2))
      · rename_i notLiteral
        exact absurd (Prod.mk.inj h).2 notLiteral

theorem length_lt_of_scan {t text rest : Text} {d : Directive}
    (h : scan t = (text, .found d rest)) : rest.length < t.length := by
  have := List.length_pos_iff.mpr d.spelling_ne_nil
  rw [eq_append_of_scan h]
  simp only [List.length_append]
  omega

/-- The lexemes of a body, up to the first directive that cannot be read. A fault comes with the
literal text in front of that directive, which is not among the lexemes. -/
structure Lexed where
  lexemes : List Lexeme
  fault : Option (Text × Cause)
  deriving DecidableEq, Repr

def lex (t : Text) : Lexed :=
  match h : scan t with
  | (text, .literal) => ⟨Lexeme.ofText text, none⟩
  | (text, .fault cause) => ⟨[], some (text, cause)⟩
  | (text, .found d rest) =>
      have : rest.length < t.length := length_lt_of_scan h
      ⟨Lexeme.ofText text ++ .directive d :: (lex rest).lexemes, (lex rest).fault⟩
termination_by t.length

/-- Nothing is lost: without a fault the spellings of the lexemes make up the body. -/
theorem flatMap_spelling_lex {t : Text} (h : (lex t).fault = none) :
    (lex t).lexemes.flatMap Lexeme.spelling = t := by
  have ofText (text : Text) : (Lexeme.ofText text).flatMap Lexeme.spelling = text := by
    cases text <;> simp [Lexeme.ofText, Lexeme.spelling]
  fun_induction lex t with
  | case1 t text hs => simpa [ofText] using eq_of_scan_literal hs
  | case2 => cases h
  | case3 t text d rest hs _ ih =>
      simp [ofText, Lexeme.spelling, ih h, eq_append_of_scan hs]

end Stencil.Body
