import Stencil.Body.Traversal

/-!
Visitors with one handler for each kind of event.
-/

namespace Stencil.Body

/-- A handler for each kind of event, which takes the event's depth, texts and span. By default a
handler does nothing. -/
structure Visitor (ε σ : Type) where
  onText : Nat → Text → Span → EStateM ε σ Unit := fun _ _ _ => pure ()
  onCode : Nat → Text → Span → EStateM ε σ Unit := fun _ _ _ => pure ()
  onStatement : Nat → Text → Span → EStateM ε σ Unit := fun _ _ _ => pure ()
  onConditionStart : Nat → Text → Span → EStateM ε σ Unit := fun _ _ _ => pure ()
  onConditionElseIf : Nat → Text → Span → EStateM ε σ Unit := fun _ _ _ => pure ()
  onConditionElse : Nat → Span → EStateM ε σ Unit := fun _ _ => pure ()
  onConditionEnd : Nat → Span → EStateM ε σ Unit := fun _ _ => pure ()
  onLoopStart : Nat → Text → Span → EStateM ε σ Unit := fun _ _ _ => pure ()
  onLoopEnd : Nat → Span → EStateM ε σ Unit := fun _ _ => pure ()
  onTagCall : Nat → Text → Text → Span → EStateM ε σ Unit := fun _ _ _ _ => pure ()
  onLayoutCall : Nat → Text → Text → Span → EStateM ε σ Unit := fun _ _ _ _ => pure ()
  onSectionStart : Nat → Text → Span → EStateM ε σ Unit := fun _ _ _ => pure ()
  onSectionEnd : Nat → Span → EStateM ε σ Unit := fun _ _ => pure ()
  onLayoutEnd : Nat → Span → EStateM ε σ Unit := fun _ _ => pure ()

variable {ε σ : Type}

def Visitor.visit (v : Visitor ε σ) (e : Event) : EStateM ε σ Unit :=
  match e.payload with
  | .text t => v.onText e.depth t e.span
  | .code code => v.onCode e.depth code e.span
  | .statement code => v.onStatement e.depth code e.span
  | .conditionStart condition => v.onConditionStart e.depth condition e.span
  | .conditionElseIf condition => v.onConditionElseIf e.depth condition e.span
  | .conditionElse => v.onConditionElse e.depth e.span
  | .conditionEnd => v.onConditionEnd e.depth e.span
  | .loopStart header => v.onLoopStart e.depth header e.span
  | .loopEnd => v.onLoopEnd e.depth e.span
  | .tagCall name args => v.onTagCall e.depth name args e.span
  | .layoutCall name args => v.onLayoutCall e.depth name args e.span
  | .sectionStart name => v.onSectionStart e.depth name e.span
  | .sectionEnd => v.onSectionEnd e.depth e.span
  | .layoutEnd => v.onLayoutEnd e.depth e.span

def Visitor.silent : Visitor ε σ := {}

end Stencil.Body
