import Stencil.Body.Traversal

/-!
A traversal without its visitor. The lexemes of a body give one list of events and one ending, and
every traversal hands over exactly these events and then ends in that way, unless its visitor fails
before.
-/

namespace Stencil.Body

variable {ε σ : Type}

/-- The events of lexemes from a position on, and how the lexemes end: with an error, or at a
position with some blocks open. -/
def trace (kind : SourceKind) :
    Nat → Nesting → List Lexeme → List Event × Except Error (Nat × Nesting)
  | position, nesting, [] => ([], .ok (position, nesting))
  | position, nesting, lexeme :: rest =>
      let stop := position + lexeme.spelling.byteSize
      match lexeme.effect kind position nesting with
      | .error e => ([], .error e)
      | .ok (none, after) => trace kind stop after rest
      | .ok (some (depth, payload), after) =>
          let later := trace kind stop after rest
          (⟨depth, Span.ofRange position stop, payload⟩ :: later.1, later.2)

theorem trace_cons_of_ok {kind : SourceKind} {position : Nat} {nesting after : Nesting}
    {lexeme : Lexeme} {event : Option (Nat × Event.Payload)}
    (step : lexeme.effect kind position nesting = .ok (event, after)) (rest : List Lexeme) :
    trace kind position nesting (lexeme :: rest) =
      let later := trace kind (position + lexeme.spelling.byteSize) after rest
      ((event.map fun entry =>
        ⟨entry.1, Span.ofRange position (position + lexeme.spelling.byteSize), entry.2⟩).toList ++
          later.1, later.2) := by
  simp only [trace, step]
  cases event with
  | none => rfl
  | some entry => rfl

/-- Lexemes that get through start with one that does. -/
theorem trace_cons_eq_ok {kind : SourceKind} {position : Nat} {nesting : Nesting} {lexeme : Lexeme}
    {rest : List Lexeme} {events : List Event} {final : Nat × Nesting}
    (h : trace kind position nesting (lexeme :: rest) = (events, .ok final)) :
    ∃ event after later, lexeme.effect kind position nesting = .ok (event, after) ∧
      trace kind (position + lexeme.spelling.byteSize) after rest = (later, .ok final) ∧
      events = (event.map fun entry =>
        ⟨entry.1, Span.ofRange position (position + lexeme.spelling.byteSize), entry.2⟩).toList ++
          later := by
  cases step : lexeme.effect kind position nesting with
  | error e =>
      simp only [trace, step] at h
      cases h
  | ok effect =>
      rw [trace_cons_of_ok step] at h
      obtain ⟨rfl, last⟩ := Prod.mk.inj h
      exact ⟨effect.1, effect.2, _, rfl, Prod.ext rfl last, rfl⟩

theorem trace_append {kind : SourceKind} {position stop : Nat} {nesting after : Nesting}
    {lexemes : List Lexeme} {events : List Event}
    (h : trace kind position nesting lexemes = (events, .ok (stop, after))) (more : List Lexeme) :
    trace kind position nesting (lexemes ++ more) =
      (events ++ (trace kind stop after more).1, (trace kind stop after more).2) := by
  induction lexemes generalizing position nesting events with
  | nil =>
      cases h
      rfl
  | cons lexeme rest ih =>
      obtain ⟨event, between, later, step, traced, rfl⟩ := trace_cons_eq_ok h
      rw [List.cons_append, trace_cons_of_ok step, ih traced, List.append_assoc]

/-- Lexemes that get through do so up to any place between them. -/
theorem trace_append_eq_ok {kind : SourceKind} {position : Nat} {nesting : Nesting}
    {lexemes more : List Lexeme} {events : List Event} {final : Nat × Nesting}
    (h : trace kind position nesting (lexemes ++ more) = (events, .ok final)) :
    ∃ earlier place around later,
      trace kind position nesting lexemes = (earlier, .ok (place, around)) ∧
      trace kind place around more = (later, .ok final) ∧ events = earlier ++ later := by
  induction lexemes generalizing position nesting events with
  | nil => exact ⟨[], position, nesting, events, rfl, h, rfl⟩
  | cons lexeme rest ih =>
      obtain ⟨event, between, behind, step, traced, rfl⟩ := trace_cons_eq_ok h
      obtain ⟨earlier, place, around, later, first, second, rfl⟩ := ih traced
      refine ⟨_, place, around, later, ?_, second, (List.append_assoc _ earlier later).symm⟩
      rw [trace_cons_of_ok step, first]

theorem traverseLexemes_eq (kind : SourceKind) (visit : Event → EStateM ε σ Unit)
    (raise : Error → ε) (position : Nat) (nesting : Nesting) (lexemes : List Lexeme) :
    traverseLexemes kind visit raise position nesting lexemes = (do
      forM (trace kind position nesting lexemes).1 visit
      match (trace kind position nesting lexemes).2 with
      | .ok final => pure final
      | .error e => throw (raise e)) := by
  fun_induction trace kind position nesting lexemes with
  | case1 position nesting => simp only [traverseLexemes, List.forM_nil, pure_bind]
  | case2 position nesting lexeme rest e failed =>
      simp only [traverseLexemes, failed, List.forM_nil, pure_bind]
  | case3 position nesting lexeme rest stop after silent ih =>
      simp only [traverseLexemes, silent]
      exact ih
  | case4 position nesting lexeme rest stop depth payload after seen later ih =>
      simp only [traverseLexemes, seen, List.forM_cons, bind_assoc]
      exact congrArg _ (funext fun _ => ih)

/-- The error that ends the reading of a body, if there is one. -/
def endingError (body : Body) (kind : SourceKind) : Option Error :=
  match (trace kind body.start [] (lex body.text).lexemes).2 with
  | .error e => some e
  | .ok (position, nesting) => finalError (lex body.text).fault position nesting

theorem traverse_eq (body : Body) (kind : SourceKind) (visit : Event → EStateM ε σ Unit)
    (raise : Error → ε) :
    body.traverse kind visit raise = (do
      forM (trace kind body.start [] (lex body.text).lexemes).1 visit
      match body.endingError kind with
      | some e => throw (raise e)
      | none => pure ()) := by
  simp only [traverse, traverseLexemes_eq, bind_assoc, endingError]
  refine congrArg _ (funext fun _ => ?_)
  cases (trace kind body.start [] (lex body.text).lexemes).2 with
  | error e => rfl
  | ok final =>
      cases finalError (lex body.text).fault final.1 final.2 with
      | none => rfl
      | some e => rfl

theorem run_forM_collect (events : List Event) (kept : Array Event) :
    (forM events collect).run kept = .ok () (kept ++ events.toArray) := by
  induction events generalizing kept with
  | nil => simp only [List.forM_nil, Array.append_empty]; rfl
  | cons event events ih =>
      rw [List.forM_cons]
      change (forM events collect).run (kept.push event) = _
      rw [ih, Array.push_eq_append, Array.append_assoc, ← List.toArray_cons]

/-- Reading a body gives the events of its lexemes, and the error they end with. -/
theorem read_eq (body : Body) (kind : SourceKind) :
    body.read kind =
      ⟨(trace kind body.start [] (lex body.text).lexemes).1, body.endingError kind⟩ := by
  have collected := run_forM_collect (trace kind body.start [] (lex body.text).lexemes).1 #[]
  rw [Array.empty_append] at collected
  rw [read, traverse_eq, EStateM.run_bind, collected]
  cases body.endingError kind <;> rfl

end Stencil.Body
