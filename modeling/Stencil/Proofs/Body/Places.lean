import Stencil.Proofs.Body.Trace
import Stencil.Proofs.Offsets.Access

/-!
Where events stand. The lexemes of a body make up its beginning, also if a directive behind them
cannot be read, and so every event that a reading gives comes from a lexeme at the place of the
event, whether the reading succeeds or fails.
-/

namespace Stencil.Body

theorem ofSource?_of_goesOn {source rest : Text} {start : Nat} (place : source.GoesOn start rest) :
    ofSource? source start = some ⟨start, rest⟩ := by
  obtain ⟨header, rfl, rfl⟩ := place
  exact ofSource?_append header rest

theorem Lexeme.flatMap_spelling_ofText (text : Text) :
    (Lexeme.ofText text).flatMap Lexeme.spelling = text := by
  cases text with
  | nil => rfl
  | cons c text => exact List.append_nil (c :: text)

theorem exists_of_scan_fault {t text : Text} {cause : Cause} (h : scan t = (text, .fault cause)) :
    ∃ faulty, t = text ++ faulty ∧ recognize faulty = .fault cause := by
  induction t generalizing text with
  | nil => cases h
  | cons c t ih =>
      simp only [scan] at h
      split at h
      · obtain ⟨rfl, later⟩ := Prod.mk.inj h
        obtain ⟨faulty, whole, fault⟩ := ih (Prod.ext rfl later)
        exact ⟨faulty, congrArg (c :: ·) whole, fault⟩
      · obtain ⟨rfl, fault⟩ := Prod.mk.inj h
        exact ⟨c :: t, rfl, fault⟩

section Fault

variable {t : Text} {cause : Cause}

/-- A directive with brackets cannot be read if they are not closed, or if nothing can be made of the
text between them. -/
theorem Recognition.enclosed_eq_fault {bracket : Code.Bracket} {construct : Construct}
    {make : Text → Except Cause Directive}
    (h : Recognition.enclosed bracket construct make t = .fault cause) :
    (cause = .unterminated construct ∧ Code.enclosed? bracket t = none) ∨
      ∃ inner, make inner = .error cause := by
  unfold Recognition.enclosed at h
  split at h
  · rename_i unclosed
    cases h
    exact .inl ⟨rfl, unclosed⟩
  · rename_i inner _ _
    split at h
    · rename_i made
      cases h
      exact .inr ⟨inner, made⟩
    · cases h

theorem Directive.ofNonBlank_eq_error {make : Text → Directive} {missing : Cause} {inner : Text}
    (h : Directive.ofNonBlank make missing inner = .error cause) : cause = missing := by
  unfold Directive.ofNonBlank at h
  split at h
  · exact (Except.error.inj h).symm
  · cases h

theorem Directive.ofSectionName_eq_error {inner : Text}
    (h : Directive.ofSectionName inner = .error cause) :
    cause = .malformedSection (Text.trim inner) := by
  unfold Directive.ofSectionName at h
  split at h
  · cases h
  · exact (Except.error.inj h).symm

end Fault

/-- Behind the lexemes stand the literal text and the directive that a fault is about. -/
theorem exists_of_lex_fault {t pending : Text} {cause : Cause}
    (h : (lex t).fault = some (pending, cause)) :
    ∃ faulty, t = (lex t).lexemes.flatMap Lexeme.spelling ++ (pending ++ faulty) ∧
      recognize faulty = .fault cause := by
  fun_induction lex t with
  | case1 => cases h
  | case2 t text cause scanned =>
      cases h
      exact exists_of_scan_fault scanned
  | case3 t text d rest scanned _ ih =>
      obtain ⟨faulty, whole, fault⟩ := ih h
      refine ⟨faulty, ?_, fault⟩
      rw [List.flatMap_append, Lexeme.flatMap_spelling_ofText, List.flatMap_cons, List.append_assoc,
        List.append_assoc, ← whole, ← List.append_assoc]
      exact eq_append_of_scan scanned

theorem exists_append_of_lex (t : Text) :
    ∃ behind, t = (lex t).lexemes.flatMap Lexeme.spelling ++ behind := by
  cases fault : (lex t).fault with
  | none => exact ⟨[], by rw [flatMap_spelling_lex fault, List.append_nil]⟩
  | some found =>
      obtain ⟨pending, cause⟩ := found
      obtain ⟨faulty, whole, -⟩ := exists_of_lex_fault fault
      exact ⟨pending ++ faulty, whole⟩

section Runs

variable {kind : SourceKind} {position stop : Nat} {nesting after : Nesting}
  {lexemes : List Lexeme} {events : List Event}

/-- Where lexemes that get through end. -/
theorem stop_of_trace (h : trace kind position nesting lexemes = (events, .ok (stop, after))) :
    stop = position + Text.byteSize (lexemes.flatMap Lexeme.spelling) := by
  induction lexemes generalizing position nesting events with
  | nil =>
      cases h
      rfl
  | cons lexeme rest ih =>
      obtain ⟨event, between, later, step, traced, rfl⟩ := trace_cons_eq_ok h
      rw [ih traced, List.flatMap_cons, Text.byteSize_append, Nat.add_assoc]

/-- The place of an event: the lexemes before it get through and give the events before it, and the
lexeme there gives the event. -/
theorem exists_place_of_trace {before later : List Event} {e : Event}
    (h : (trace kind position nesting lexemes).1 = before ++ e :: later) :
    ∃ first lexeme rest place around opened, lexemes = first ++ lexeme :: rest ∧
      trace kind position nesting first = (before, .ok (place, around)) ∧
      lexeme.effect kind place around = .ok (some (e.depth, e.payload), opened) ∧
      e.span = Span.ofRange place (place + lexeme.spelling.byteSize) ∧
      trace kind (place + lexeme.spelling.byteSize) opened rest =
        (later, (trace kind position nesting lexemes).2) := by
  induction lexemes generalizing position nesting before with
  | nil => cases before <;> cases h
  | cons lexeme rest ih =>
      cases step : lexeme.effect kind position nesting with
      | error fault =>
          simp only [trace, step] at h
          cases before <;> cases h
      | ok effect =>
          have traced := trace_cons_of_ok step
          obtain ⟨_ | entry, between⟩ := effect
          · rw [traced] at h ⊢
            obtain ⟨first, found, behind, place, around, opened, rfl, earlier, gives⟩ := ih h
            refine ⟨lexeme :: first, found, behind, place, around, opened, rfl, ?_, gives⟩
            rw [traced, earlier]
            rfl
          · rw [traced] at h ⊢
            cases before with
            | nil =>
                obtain ⟨rfl, rfl⟩ := List.cons.inj h
                exact ⟨[], lexeme, rest, position, nesting, between, rfl, rfl, step, rfl, rfl⟩
            | cons own before =>
                obtain ⟨rfl, inLater⟩ := List.cons.inj h
                obtain ⟨first, found, behind, place, around, opened, rfl, earlier, gives⟩ :=
                  ih inLater
                refine ⟨lexeme :: first, found, behind, place, around, opened, rfl, ?_, gives⟩
                rw [traced, earlier]
                rfl

/-- Lexemes that do not get through: those before the faulty one do, and give all events. -/
theorem exists_place_of_trace_error {e : Error}
    (h : trace kind position nesting lexemes = (events, .error e)) :
    ∃ first lexeme rest place around, lexemes = first ++ lexeme :: rest ∧
      trace kind position nesting first = (events, .ok (place, around)) ∧
      lexeme.effect kind place around = .error e := by
  induction lexemes generalizing position nesting events with
  | nil => cases h
  | cons lexeme rest ih =>
      cases step : lexeme.effect kind position nesting with
      | error fault =>
          simp only [trace, step] at h
          cases h
          exact ⟨[], lexeme, rest, position, nesting, rfl, rfl, step⟩
      | ok effect =>
          have traced := trace_cons_of_ok step
          rw [traced] at h
          obtain ⟨rfl, last⟩ := Prod.mk.inj h
          obtain ⟨first, found, behind, place, around, rfl, before, fails⟩ := ih (Prod.ext rfl last)
          refine ⟨lexeme :: first, found, behind, place, around, rfl, ?_, fails⟩
          rw [traced, before]

end Runs

/-- What makes an event: a lexeme at a place where it has that effect. -/
structure Lexeme.Makes (lexeme : Lexeme) (kind : SourceKind) (position : Nat) (e : Event) :
    Prop where
  span : e.span = Span.ofRange position (position + lexeme.spelling.byteSize)
  effect : ∃ nesting after, lexeme.effect kind position nesting =
    .ok (some (e.depth, e.payload), after)

theorem exists_makes_of_mem_trace {kind : SourceKind} {position : Nat} {nesting : Nesting}
    {lexemes : List Lexeme} {e : Event} (h : e ∈ (trace kind position nesting lexemes).1) :
    ∃ before lexeme later, lexemes = before ++ lexeme :: later ∧
      lexeme.Makes kind (position + Text.byteSize (before.flatMap Lexeme.spelling)) e := by
  obtain ⟨earlier, behind, split⟩ := List.append_of_mem h
  obtain ⟨before, lexeme, later, place, around, opened, whole, traced, effect, span, -⟩ :=
    exists_place_of_trace split
  refine ⟨before, lexeme, later, whole, ?_⟩
  rw [← stop_of_trace traced]
  exact ⟨span, around, opened, effect⟩

/-- Every event of a reading is made by a lexeme that stands in the source at the event's place. -/
theorem exists_makes_of_mem_read {source : Text} {body : Body} {kind : SourceKind} {e : Event}
    (place : source.GoesOn body.start body.text) (h : e ∈ (body.read kind).events) :
    ∃ (position : Nat) (lexeme : Lexeme) (rest : Text),
      source.GoesOn position (lexeme.spelling ++ rest) ∧ lexeme.Makes kind position e := by
  rw [read_eq] at h
  obtain ⟨before, lexeme, later, split, makes⟩ := exists_makes_of_mem_trace h
  obtain ⟨behind, whole⟩ := exists_append_of_lex body.text
  rw [split, List.flatMap_append, List.flatMap_cons, List.append_assoc, List.append_assoc] at whole
  rw [whole] at place
  exact ⟨_, lexeme, _, place.skip, makes⟩

end Stencil.Body
