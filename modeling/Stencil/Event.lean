import Stencil.Span
import Stencil.Text.Basic

/-!
Events: what a reader of a template body reports, one per literal text or directive, in source
order.
-/

namespace Stencil

inductive SourceKind where
  | template
  | tag
  | layout
  deriving DecidableEq, Repr

namespace Event

/-- What an event says. Code, conditions, loop headers and arguments are kept as they are written,
without the blanks around them. -/
inductive Payload where
  | text (text : Text)
  | code (code : Text)
  | statement (code : Text)
  | conditionStart (condition : Text)
  | conditionElseIf (condition : Text)
  | conditionElse
  | conditionEnd
  | loopStart (header : Text)
  | loopEnd
  | tagCall (name args : Text)
  | layoutCall (name args : Text)
  | sectionStart (name : Text)
  | sectionEnd
  | layoutEnd
  deriving DecidableEq, Repr

end Event

/-- A payload with its nesting depth and its place. The opening event of a block and the events
that divide or close it share a depth, and what stands between them is one level deeper. -/
structure Event where
  depth : Nat
  span : Span
  payload : Event.Payload
  deriving DecidableEq, Repr

end Stencil
