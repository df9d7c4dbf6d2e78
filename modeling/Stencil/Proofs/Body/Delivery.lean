import Stencil.Body.OnePass
import Stencil.Body.Visitor
import Stencil.Proofs.Body.Trace
import Stencil.Proofs.Offsets.Access

/-!
Every visitor gets the same events. Main statement: with any visitor the reading in one pass and the
traversal hand over the events of the reading, one by one, up to the visitor's first failure, and end
with the error of the reading after all of them.
-/

namespace Stencil.Body

variable {ε σ : Type}

/-- Hands events over one by one. The first failure of the visitor ends it; otherwise it ends with
the given error, or well. -/
def deliver (visit : Event → EStateM ε σ Unit) (raise : Error → ε) (error : Option Error) :
    List Event → σ → EStateM.Result ε σ Unit
  | [], s =>
      match error with
      | some e => .error (raise e) s
      | none => .ok () s
  | event :: rest, s =>
      match visit event s with
      | .error e s => .error e s
      | .ok _ s => deliver visit raise error rest s

/-- The events that are handed over, which are all up to the first failure of the visitor. -/
def handed (visit : Event → EStateM ε σ Unit) : List Event → σ → List Event
  | [], _ => []
  | event :: rest, s =>
      match visit event s with
      | .error _ _ => [event]
      | .ok _ s => event :: handed visit rest s

/-- Runs an action beside a record of calls, and adds a call to the record. -/
def noting (call : Event) (act : EStateM ε σ Unit) : EStateM ε (σ × List Event) Unit := fun s =>
  match act s.1 with
  | .error e after => .error e (after, s.2 ++ [call])
  | .ok _ after => .ok () (after, s.2 ++ [call])

/-- The same visitor with a record of the calls of its handlers. An entry says which handler was
called, with which depth, texts and span. -/
def Visitor.recorded (v : Visitor ε σ) : Visitor ε (σ × List Event) where
  onText depth text span := noting ⟨depth, span, .text text⟩ (v.onText depth text span)
  onCode depth code span := noting ⟨depth, span, .code code⟩ (v.onCode depth code span)
  onStatement depth code span :=
    noting ⟨depth, span, .statement code⟩ (v.onStatement depth code span)
  onConditionStart depth condition span :=
    noting ⟨depth, span, .conditionStart condition⟩ (v.onConditionStart depth condition span)
  onConditionElseIf depth condition span :=
    noting ⟨depth, span, .conditionElseIf condition⟩ (v.onConditionElseIf depth condition span)
  onConditionElse depth span := noting ⟨depth, span, .conditionElse⟩ (v.onConditionElse depth span)
  onConditionEnd depth span := noting ⟨depth, span, .conditionEnd⟩ (v.onConditionEnd depth span)
  onLoopStart depth header span :=
    noting ⟨depth, span, .loopStart header⟩ (v.onLoopStart depth header span)
  onLoopEnd depth span := noting ⟨depth, span, .loopEnd⟩ (v.onLoopEnd depth span)
  onTagCall depth name args span :=
    noting ⟨depth, span, .tagCall name args⟩ (v.onTagCall depth name args span)
  onLayoutCall depth name args span :=
    noting ⟨depth, span, .layoutCall name args⟩ (v.onLayoutCall depth name args span)
  onSectionStart depth name span :=
    noting ⟨depth, span, .sectionStart name⟩ (v.onSectionStart depth name span)
  onSectionEnd depth span := noting ⟨depth, span, .sectionEnd⟩ (v.onSectionEnd depth span)
  onLayoutEnd depth span := noting ⟨depth, span, .layoutEnd⟩ (v.onLayoutEnd depth span)

section Sweep

variable (kind : SourceKind) (visit : Event → EStateM ε σ Unit) (raise : Error → ε)

/-- What is left of a traversal, from a position on, when its lexemes are known. -/
def resume (position : Nat) (nesting : Nesting) (lexed : Lexed) : EStateM ε σ Unit := do
  let (position, nesting) ← traverseLexemes kind visit raise position nesting lexed.lexemes
  match finalError lexed.fault position nesting with
  | some e => throw (raise e)
  | none => pure ()

theorem resume_cons (position : Nat) (nesting : Nesting) (lexeme : Lexeme) (lexemes : List Lexeme)
    (fault : Option (Text × Cause)) :
    resume kind visit raise position nesting ⟨lexeme :: lexemes, fault⟩ = (do
      let after ← step kind visit raise position nesting lexeme
      resume kind visit raise (position + lexeme.spelling.byteSize) after ⟨lexemes, fault⟩) := by
  simp only [resume, traverseLexemes, step]
  cases lexeme.effect kind position nesting with
  | error e => rfl
  | ok effect =>
      obtain ⟨_ | ⟨depth, payload⟩, after⟩ := effect
      · simp only [pure_bind]
      · simp only [bind_assoc, pure_bind]

theorem resume_ofText (position : Nat) (nesting : Nesting) (text : Text) (lexemes : List Lexeme)
    (fault : Option (Text × Cause)) :
    resume kind visit raise position nesting ⟨Lexeme.ofText text ++ lexemes, fault⟩ = (do
      let after ← flush kind visit raise position nesting text
      resume kind visit raise (position + text.byteSize) after ⟨lexemes, fault⟩) := by
  cases text with
  | nil =>
      change _ = (pure nesting >>= _)
      rw [pure_bind]
      rfl
  | cons c text => exact resume_cons kind visit raise position nesting (.text (c :: text)) lexemes fault

theorem resume_nil (position : Nat) (nesting : Nesting) (fault : Option (Text × Cause)) :
    resume kind visit raise position nesting ⟨[], fault⟩ =
      match finalError fault position nesting with
      | some e => throw (raise e)
      | none => pure () := by
  unfold resume traverseLexemes
  rw [pure_bind]

/-- The lexemes of a text that goes on after a pending one, in which nothing is recognised. -/
def lexAfter (pending t : Text) : Lexed :=
  match scan t with
  | (text, .literal) => ⟨Lexeme.ofText (pending ++ text), none⟩
  | (text, .fault cause) => ⟨[], some (pending ++ text, cause)⟩
  | (text, .found d rest) =>
      ⟨Lexeme.ofText (pending ++ text) ++ .directive d :: (lex rest).lexemes, (lex rest).fault⟩

theorem lexAfter_nil (t : Text) : lexAfter [] t = lex t := by
  fun_cases lex t with
  | case1 text scanned => simp only [lexAfter, scanned, List.nil_append]
  | case2 text cause scanned => simp only [lexAfter, scanned, List.nil_append]
  | case3 text d rest scanned => simp only [lexAfter, scanned, List.nil_append]

theorem lexAfter_literal {c : Char} {t : Text} (literal : recognize (c :: t) = .literal)
    (pending : Text) : lexAfter pending (c :: t) = lexAfter (pending ++ [c]) t := by
  have scanned : scan (c :: t) = (c :: (scan t).1, (scan t).2) := by
    rw [scan, literal]
  unfold lexAfter
  rw [scanned]
  obtain ⟨text, recognition⟩ := scan t
  cases recognition <;> simp only [List.append_assoc, List.singleton_append]

theorem lexAfter_fault {c : Char} {t : Text} {cause : Cause}
    (fault : recognize (c :: t) = .fault cause) (pending : Text) :
    lexAfter pending (c :: t) = ⟨[], some (pending, cause)⟩ := by
  simp only [lexAfter, scan, fault, List.append_nil]

theorem lexAfter_found {c : Char} {t rest : Text} {d : Directive}
    (found : recognize (c :: t) = .found d rest) (pending : Text) :
    lexAfter pending (c :: t) =
      ⟨Lexeme.ofText pending ++ .directive d :: (lex rest).lexemes, (lex rest).fault⟩ := by
  simp only [lexAfter, scan, found, List.append_nil]

theorem sweep_eq_resume (position : Nat) (nesting : Nesting) (pending t : Text) :
    sweep kind visit raise position nesting pending t =
      resume kind visit raise position nesting (lexAfter pending t) := by
  fun_induction sweep kind visit raise position nesting pending t with
  | case1 position nesting pending =>
      have lexed : lexAfter pending [] = ⟨Lexeme.ofText pending ++ [], none⟩ := by
        simp only [lexAfter, scan, List.append_nil]
      rw [lexed, resume_ofText]
      refine congrArg _ (funext fun after => ?_)
      rw [resume_nil]
      cases after with
      | nil => rfl
      | cons frame outer => rfl
  | case2 position nesting pending c t literal ih =>
      rw [lexAfter_literal literal]
      exact ih
  | case3 position nesting pending c t cause fault =>
      rw [lexAfter_fault fault, resume_nil]
      rfl
  | case4 position nesting pending c t d rest found _ here ih =>
      rw [lexAfter_found found, resume_ofText]
      refine congrArg _ (funext fun between => ?_)
      rw [resume_cons]
      refine congrArg _ (funext fun after => ?_)
      rw [ih, lexAfter_nil]
      rfl

/-- One pass over a body is its traversal. -/
theorem sweep_eq_traverse (body : Body) :
    sweep kind visit raise body.start [] [] body.text = body.traverse kind visit raise := by
  rw [sweep_eq_resume, lexAfter_nil]
  rfl

end Sweep

theorem traverse_run_eq_deliver (body : Body) (kind : SourceKind) (visit : Event → EStateM ε σ Unit)
    (raise : Error → ε) (s : σ) :
    (body.traverse kind visit raise).run s =
      deliver visit raise (body.read kind).error (body.read kind).events s := by
  rw [traverse_eq, read_eq]
  simp only
  generalize (trace kind body.start [] (lex body.text).lexemes).1 = events
  induction events generalizing s with
  | nil =>
      rw [List.forM_nil, pure_bind]
      cases body.endingError kind with
      | none => rfl
      | some e => rfl
  | cons event events ih =>
      have first : (visit event).run s = visit event s := rfl
      rw [List.forM_cons, bind_assoc, EStateM.run_bind, first, deliver]
      cases visit event s with
      | error e after => rfl
      | ok _ after => exact ih after

theorem Visitor.visit_silent (event : Event) (s : σ) :
    (silent : Visitor ε σ).visit event s = .ok () s := by
  obtain ⟨depth, span, payload⟩ := event
  cases payload <;> rfl

theorem deliver_silent (raise : Error → ε) (error : Option Error) (events : List Event) (s : σ) :
    deliver Visitor.silent.visit raise error events s =
      match error with
      | some e => .error (raise e) s
      | none => .ok () s := by
  induction events with
  | nil => rfl
  | cons event events ih =>
      rw [deliver, Visitor.visit_silent]
      exact ih

theorem Visitor.visit_recorded (v : Visitor ε σ) (event : Event) :
    v.recorded.visit event = noting event (v.visit event) := by
  obtain ⟨depth, span, payload⟩ := event
  cases payload <;> rfl

/-- The outcome of a run with something added to its last state. -/
def withRecord (record : List Event) :
    EStateM.Result ε σ Unit → EStateM.Result ε (σ × List Event) Unit
  | .error e s => .error e (s, record)
  | .ok _ s => .ok () (s, record)

theorem deliver_recorded (v : Visitor ε σ) (raise : Error → ε) (error : Option Error)
    (events record : List Event) (s : σ) :
    deliver v.recorded.visit raise error events (s, record) =
      withRecord (record ++ handed v.visit events s) (deliver v.visit raise error events s) := by
  induction events generalizing s record with
  | nil =>
      rw [handed, List.append_nil]
      cases error with
      | none => rfl
      | some e => rfl
  | cons event events ih =>
      rw [deliver, deliver, handed, Visitor.visit_recorded, noting]
      cases v.visit event s with
      | error e after => rfl
      | ok _ after =>
          refine (ih (record ++ [event]) after).trans ?_
          rw [List.append_assoc, List.singleton_append]

/-- Whether a reading is what all visitors of a body get: what any of them is handed, what one
without handlers makes of it, and which handlers of the others are called. -/
structure Delivers (body : Body) (kind : SourceKind) (reading : Reading) : Prop where
  traverse {ε σ : Type} (visit : Event → EStateM ε σ Unit) (raise : Error → ε) (s : σ) :
    (body.traverse kind visit raise).run s = deliver visit raise reading.error reading.events s
  sweep {ε σ : Type} (visit : Event → EStateM ε σ Unit) (raise : Error → ε) (s : σ) :
    (sweep kind visit raise body.start [] [] body.text).run s =
      deliver visit raise reading.error reading.events s
  silent {ε σ : Type} (raise : Error → ε) (s : σ) :
    (∃ after, (body.traverse kind Visitor.silent.visit raise).run s = .ok () after) ↔
      reading.error = none
  recorded {ε σ : Type} (v : Visitor ε σ) (raise : Error → ε) (s : σ) :
    (body.traverse kind v.recorded.visit raise).run (s, []) =
      withRecord (handed v.visit reading.events s) ((body.traverse kind v.visit raise).run s)

theorem delivers_read (body : Body) (kind : SourceKind) :
    Delivers body kind (body.read kind) where
  traverse := traverse_run_eq_deliver body kind
  sweep visit raise s := by
    rw [sweep_eq_traverse]
    exact traverse_run_eq_deliver body kind visit raise s
  silent raise s := by
    rw [traverse_run_eq_deliver, deliver_silent]
    cases (body.read kind).error with
    | none => exact iff_of_true ⟨s, rfl⟩ rfl
    | some e =>
        constructor
        · rintro ⟨_, ⟨⟩⟩
        · rintro ⟨⟩
  recorded v raise s := by
    rw [traverse_run_eq_deliver, traverse_run_eq_deliver, deliver_recorded, List.nil_append]

theorem deliver_collect (error : Option Error) (events : List Event) (kept : Array Event) :
    deliver collect id error events kept =
      match error with
      | some e => .error e (kept ++ events.toArray)
      | none => .ok () (kept ++ events.toArray) := by
  induction events generalizing kept with
  | nil =>
      rw [Array.append_empty]
      rfl
  | cons event events ih =>
      have step : deliver collect id error (event :: events) kept =
        deliver collect id error events (kept.push event) := rfl
      rw [step, ih, Array.push_eq_append, Array.append_assoc, ← List.toArray_cons]

/-- The visitor that keeps every event tells readings apart. -/
theorem Delivers.eq_read {body : Body} {kind : SourceKind} {reading : Reading}
    (h : Delivers body kind reading) : reading = body.read kind := by
  rw [read, h.traverse, deliver_collect, Array.empty_append]
  obtain ⟨events, error⟩ := reading
  cases error with
  | none => rfl
  | some e => rfl

/-- From every character boundary of a source there are one sequence of events and one ending, those
of the reading into a list, and every visitor gets just these. -/
theorem exists_delivers_of_isBoundary {source : Text} {start : Nat}
    (boundary : source.IsBoundary start) (kind : SourceKind) :
    ∃ body, ofSource? source start = some body ∧ body.start = start ∧
      ∀ reading, Delivers body kind reading ↔ reading = body.read kind := by
  obtain ⟨text, header, rfl, rfl⟩ := boundary
  refine ⟨after header text, ofSource?_append header text, rfl, ?_⟩
  intro reading
  constructor
  · exact Delivers.eq_read
  · rintro rfl
    exact delivers_read _ kind

/-- A call behind a character of two bytes, and then a block's end that closes nothing. -/
theorem exists_delivers_misplacedEnd :
    Text.IsBoundary "éa@tag.x()@endif".toList 2 ∧
      ∃ body, ofSource? "éa@tag.x()@endif".toList 2 = some body ∧ body.start = 2 ∧
        ∀ reading, Delivers body .template reading ↔
          reading = ⟨[⟨0, ⟨2, 1⟩, .text ['a']⟩, ⟨0, ⟨3, 8⟩, .tagCall ['x'] []⟩],
            some ⟨11, .unexpected (.endWord .conditional) .nothingOpen⟩⟩ := by
  have boundary : Text.IsBoundary "éa@tag.x()@endif".toList 2 :=
    ⟨"a@tag.x()@endif".toList, ['é'], by decide, by decide⟩
  obtain ⟨body, found, place, delivers⟩ := exists_delivers_of_isBoundary boundary .template
  have read : (ofSource? "éa@tag.x()@endif".toList 2).map (·.read .template) =
      some ⟨[⟨0, ⟨2, 1⟩, .text ['a']⟩, ⟨0, ⟨3, 8⟩, .tagCall ['x'] []⟩],
        some ⟨11, .unexpected (.endWord .conditional) .nothingOpen⟩⟩ := by decide +kernel
  rw [found, Option.map_some, Option.some.injEq] at read
  rw [read] at delivers
  exact ⟨boundary, body, found, place, delivers⟩

end Stencil.Body
