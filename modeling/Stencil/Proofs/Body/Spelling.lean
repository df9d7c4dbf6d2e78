import Stencil.Body.Lexeme
import Stencil.Proofs.Code.Closed
import Stencil.Proofs.Text.Cutting

/-!
Spelled lexemes are read back. A directive whose inner text ends where its bracket closes is
recognised at its spelling, and lexemes that do not run into each other are the lexemes of what they
spell.
-/

namespace Stencil.Body

/-- Whether a text starts with a word character, and so would continue a word in front of it. -/
def startsWord (t : Text) : Bool := t.head?.any Text.isWordChar

theorem span_of_not_head {p : Char → Bool} {s t : Text} (all : ∀ c ∈ s, p c = true)
    (stop : t.head?.any p = false) : (s ++ t).takeWhile p = s ∧ (s ++ t).dropWhile p = t := by
  have stops : ∀ c ∈ t.head?, p c = false := by
    intro c first
    rwa [first, Option.any_some] at stop
  obtain ⟨taken, left⟩ := Text.span_append s stops
  rw [taken, left, List.takeWhile_eq_self_iff.mpr all, List.dropWhile_eq_nil_iff.mpr all]
  exact ⟨rfl, rfl⟩

theorem Keyword.all_isWordChar_text (k : Keyword) : k.text.all Text.isWordChar = true := by
  rcases k with _ | _ | _ | _ | _ | _ | _ | (_ | _ | _ | _) <;> decide

/-- A keyword's mark is recognised as that keyword, unless its word goes on. -/
theorem recognize_mark (k : Keyword) {t : Text} (apart : startsWord t = false) :
    recognize (k.mark ++ t) = k.recognize t := by
  obtain ⟨word, rest⟩ := span_of_not_head (List.all_eq_true.mp k.all_isWordChar_text) apart
  simp only [Keyword.mark, List.cons_append, recognize, word, rest, Keyword.ofText?_text]

theorem Recognition.enclosed_of_closed {b : Code.Bracket} {inner : Text}
    (closed : Code.Closed b inner) (construct : Construct) {make : Text → Except Cause Directive}
    {d : Directive} (made : make inner = .ok d) (rest : Text) :
    Recognition.enclosed b construct make (inner ++ b.closing :: rest) = .found d rest := by
  simp only [Recognition.enclosed, closed rest, made]

theorem Recognition.enclosed_of_content {b : Code.Bracket} {inner : Text}
    (legible : Code.Closed b inner ∧ inner.all Text.isBlank = false) (construct : Construct)
    (make : Text → Directive) (missing : Cause) (rest : Text) :
    Recognition.enclosed b construct (Directive.ofNonBlank make missing)
      (inner ++ b.closing :: rest) = .found (make inner) rest := by
  refine enclosed_of_closed legible.1 construct ?_ rest
  rw [Directive.ofNonBlank, if_neg (Bool.eq_false_iff.mp legible.2)]

theorem recognizeCall_of_enclosed (make : Text → Text → Directive) {name inner rest : Text}
    (dotted : Text.isDottedName name = true)
    (closed : Code.enclosed? .paren (inner ++ ')' :: rest) = some (inner, rest)) :
    recognizeCall make (name ++ '(' :: (inner ++ ')' :: rest)) = .found (make name inner) rest := by
  have callChars : ∀ c ∈ name, isCallChar c = true := by
    intro c member
    rcases Text.isWordChar_of_isDottedName dotted c member with word | rfl
    · rw [isCallChar, word, Bool.true_or]
    · decide
  obtain ⟨taken, left⟩ := span_of_not_head callChars
    (show ('(' :: (inner ++ ')' :: rest)).head?.any isCallChar = false by rfl)
  simp only [recognizeCall, taken, left, dotted, if_true, Recognition.enclosed, closed]

def Directive.Legible : Directive → Prop
  | .expression inner => Code.Closed .brace inner ∧ inner.all Text.isBlank = false
  | .statement inner => Code.Closed .brace inner ∧ inner.all Text.isBlank = false
  | .comment inner => ∀ rest : Text,
      Text.breakOn? ['-', '-', '%', '>'] (inner ++ ['-', '-', '%', '>'] ++ rest) =
        some (inner, rest)
  | .ifOpen inner => Code.Closed .paren inner ∧ inner.all Text.isBlank = false
  | .elseIf inner => Code.Closed .paren inner ∧ inner.all Text.isBlank = false
  | .elseBranch => True
  | .forOpen inner => Code.Closed .paren inner ∧ inner.all Text.isBlank = false
  | .tagCall name inner => Text.isDottedName name = true ∧ Code.Closed .paren inner
  | .layoutOpen name inner => Text.isDottedName name = true ∧ Code.Closed .paren inner
  | .sectionOpen inner => isSectionName (Text.trim inner) = true ∧ Code.Closed .paren inner
  | .close _ => True

def Directive.endsInWord : Directive → Bool
  | .elseBranch => true
  | .close _ => true
  | _ => false

/-- A legible directive is recognised at its spelling, unless its last word goes on. -/
theorem recognize_spelling {d : Directive} (legible : d.Legible) {rest : Text}
    (apart : d.endsInWord = true → startsWord rest = false) :
    recognize (d.spelling ++ rest) = .found d rest := by
  cases d with
  | expression inner =>
      simp only [Directive.spelling, List.cons_append, List.append_assoc, List.nil_append,
        recognize]
      exact Recognition.enclosed_of_content legible _ _ _ rest
  | statement inner =>
      simp only [Directive.spelling, List.cons_append, List.append_assoc, List.nil_append,
        recognize]
      exact Recognition.enclosed_of_content legible _ _ _ rest
  | comment inner =>
      simp only [Directive.spelling, List.cons_append, recognize, legible rest]
  | ifOpen inner =>
      rw [Directive.spelling, List.append_assoc, List.append_assoc, recognize_mark _ rfl]
      exact Recognition.enclosed_of_content legible _ _ _ rest
  | elseIf inner =>
      rw [Directive.spelling, List.append_assoc, List.append_assoc, recognize_mark _ rfl]
      exact Recognition.enclosed_of_content legible _ _ _ rest
  | elseBranch => exact recognize_mark .elseWord (apart rfl)
  | forOpen inner =>
      rw [Directive.spelling, List.append_assoc, List.append_assoc, recognize_mark _ rfl]
      exact Recognition.enclosed_of_content legible _ _ _ rest
  | tagCall name inner =>
      simp only [Directive.spelling, List.append_assoc, List.cons_append, List.nil_append]
      rw [recognize_mark _ rfl]
      exact recognizeCall_of_enclosed .tagCall legible.1 (legible.2 rest)
  | layoutOpen name inner =>
      simp only [Directive.spelling, List.append_assoc, List.cons_append, List.nil_append]
      rw [recognize_mark _ rfl]
      exact recognizeCall_of_enclosed .layoutOpen legible.1 (legible.2 rest)
  | sectionOpen inner =>
      rw [Directive.spelling, List.append_assoc, List.append_assoc, recognize_mark _ rfl]
      exact Recognition.enclosed_of_closed legible.2 _
        (by rw [Directive.ofSectionName, if_pos legible.1]) rest
  | close block => exact recognize_mark block.closer (apart rfl)

theorem recognize_of_not_marker {c : Char} (plain : isMarker c = false) (t : Text) :
    recognize (c :: t) = .literal := by
  have other {d : Char} {u : Text} (marker : isMarker d = true) : c :: t ≠ d :: u := by
    intro same
    rw [(List.cons.inj same).1, marker] at plain
    cases plain
  unfold recognize
  split
  · exact absurd ‹_› (other rfl)
  · exact absurd ‹_› (other rfl)
  · exact absurd ‹_› (other rfl)
  · exact absurd ‹_› (other rfl)
  · rfl

theorem recognize_eq_literal {t : Text} (noExpression : ¬ ['$', '{'].isPrefixOf t = true)
    (noStatement : ¬ ['!', '{'].isPrefixOf t = true)
    (noComment : ¬ ['<', '%', '-', '-'].isPrefixOf t = true) (noKeyword : t.head? ≠ some '@') :
    recognize t = .literal := by
  fun_cases recognize t with
  | case7 => rfl
  | case1 t => exact absurd rfl noExpression
  | case2 t => exact absurd rfl noStatement
  | case3 t => exact absurd rfl noComment
  | case4 t => exact absurd rfl noComment
  | case5 t => exact absurd rfl noKeyword
  | case6 t => exact absurd rfl noKeyword

theorem scan_append_of_not_marker {s : Text} (plain : s.all (!isMarker ·) = true) (t : Text) :
    scan (s ++ t) = (s ++ (scan t).1, (scan t).2) := by
  induction s with
  | nil => rfl
  | cons c s ih =>
      simp only [List.all_cons, Bool.and_eq_true, Bool.not_eq_true'] at plain
      simp only [List.cons_append, scan, recognize_of_not_marker plain.1, ih plain.2]

theorem scan_of_recognize {d : Directive} {rest : Text}
    (found : recognize (d.spelling ++ rest) = .found d rest) :
    scan (d.spelling ++ rest) = ([], .found d rest) := by
  cases spelled : d.spelling ++ rest with
  | nil => exact absurd (List.append_eq_nil_iff.mp spelled).1 d.spelling_ne_nil
  | cons c t =>
      rw [spelled] at found
      simp only [scan, found]

theorem lex_of_scan_literal {t text : Text} (h : scan t = (text, .literal)) :
    lex t = ⟨Lexeme.ofText text, none⟩ := by
  rw [lex]
  split
  · rename_i same
    cases same.symm.trans h
    rfl
  · rename_i same
    cases same.symm.trans h
  · rename_i same
    cases same.symm.trans h

theorem lex_nil : lex [] = ⟨[], none⟩ := by
  rw [lex_of_scan_literal rfl]
  rfl

theorem lex_of_scan_found {t text rest : Text} {d : Directive}
    (h : scan t = (text, .found d rest)) :
    lex t = ⟨Lexeme.ofText text ++ .directive d :: (lex rest).lexemes, (lex rest).fault⟩ := by
  rw [lex]
  split
  · rename_i same
    cases same.symm.trans h
  · rename_i same
    cases same.symm.trans h
  · rename_i same
    cases same.symm.trans h
    rfl

/-- What stands in front of a lexeme, as far as it restricts a text there: nothing or a bracket, a
keyword, or another text. -/
inductive Border where
  | bracket
  | word
  | text
  deriving DecidableEq, Repr

/-- Whether a text can stand behind a border and be read back: it has no character that may start a
directive, it does not continue a text, and it does not continue a word. -/
def Border.Admits (border : Border) (t : Text) : Prop :=
  t ≠ [] ∧ t.all (!isMarker ·) = true ∧ border ≠ .text ∧ (border = .word → startsWord t = false)

instance (border : Border) (t : Text) : Decidable (border.Admits t) :=
  inferInstanceAs (Decidable (_ ∧ _ ∧ _ ∧ (_ → _)))

def Directive.border (d : Directive) : Border := if d.endsInWord then .word else .bracket

theorem Directive.border_ne_text (d : Directive) : d.border ≠ .text := by
  unfold Directive.border
  split <;> decide

def Separated : Border → List Lexeme → Prop
  | _, [] => True
  | border, .text t :: rest => border.Admits t ∧ Separated .text rest
  | _, .directive d :: rest => d.Legible ∧ Separated d.border rest

theorem Directive.startsWord_spelling (d : Directive) (rest : Text) :
    startsWord (d.spelling ++ rest) = false := by
  cases d <;> rfl

theorem Separated.startsWord {lexemes : List Lexeme} (h : Separated .word lexemes) :
    startsWord (lexemes.flatMap Lexeme.spelling) = false := by
  cases lexemes with
  | nil => rfl
  | cons lexeme rest =>
      cases lexeme with
      | directive d => exact d.startsWord_spelling _
      | text t =>
          obtain ⟨⟨content, -, -, apart⟩, -⟩ := h
          cases t with
          | nil => exact absurd rfl content
          | cons c t => exact apart rfl

/-- A text that a scan passes over is a lexeme, with those of what follows it behind it. -/
theorem lex_text_append {t u rest : Text} {d : Directive} (content : t ≠ [])
    (passed : scan (t ++ u) = (t ++ (scan u).1, (scan u).2)) (found : scan u = ([], .found d rest)) :
    lex (t ++ u) = ⟨.text t :: (lex u).lexemes, (lex u).fault⟩ := by
  have longer : scan (t ++ u) = (t, .found d rest) := by
    rw [passed, found, List.append_nil]
  rw [lex_of_scan_found longer, lex_of_scan_found found, Lexeme.ofText, if_neg]
  · rfl
  · exact mt List.isEmpty_iff.mp content

theorem lex_text {t : Text} (content : t ≠ [])
    (passed : scan (t ++ []) = (t ++ (scan []).1, (scan []).2)) : lex t = ⟨[.text t], none⟩ := by
  have whole : scan t = (t, .literal) := by
    rwa [List.append_nil, scan, List.append_nil] at passed
  rw [lex_of_scan_literal whole, Lexeme.ofText, if_neg (mt List.isEmpty_iff.mp content)]

theorem scan_of_separated {border : Border} {d : Directive} {rest : List Lexeme}
    (h : Separated border (.directive d :: rest)) :
    scan (d.spelling ++ rest.flatMap Lexeme.spelling) =
      ([], .found d (rest.flatMap Lexeme.spelling)) := by
  refine scan_of_recognize (recognize_spelling h.1 fun endsInWord => ?_)
  have behind := h.2
  rw [Directive.border, if_pos endsInWord] at behind
  exact behind.startsWord

/-- Lexemes that can be read back are the lexemes of what they spell. -/
theorem lex_flatMap_spelling {border : Border} {lexemes : List Lexeme}
    (h : Separated border lexemes) : lex (lexemes.flatMap Lexeme.spelling) = ⟨lexemes, none⟩ := by
  induction lexemes generalizing border with
  | nil => exact lex_nil
  | cons lexeme rest ih =>
      rw [List.flatMap_cons]
      cases lexeme with
      | directive d =>
          simp only [Lexeme.spelling]
          rw [lex_of_scan_found (scan_of_separated h), ih h.2]
          rfl
      | text t =>
          -- a text ends only where a directive is recognised, so the next lexeme is looked at too
          obtain ⟨⟨content, plain, -, -⟩, behind⟩ := h
          cases rest with
          | nil =>
              simpa only [Lexeme.spelling, List.flatMap_nil, List.append_nil] using
                lex_text content (scan_append_of_not_marker plain [])
          | cons next more =>
              cases next with
              | text second => exact absurd rfl behind.1.2.2.1
              | directive d =>
                  have whole := ih behind
                  simp only [List.flatMap_cons, Lexeme.spelling] at whole ⊢
                  rw [lex_text_append content (scan_append_of_not_marker plain _)
                    (scan_of_separated behind), whole]

end Stencil.Body
