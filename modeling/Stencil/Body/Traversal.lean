import Stencil.Body.Basic
import Stencil.Body.Nesting

/-!
Reading a body from start to end. A traversal hands each event to a visitor as soon as it is known
and stops at the visitor's first failure; reading a body into a list of events is the traversal
with a visitor that collects.
-/

namespace Stencil.Body

variable {ε σ : Type}

/-- Takes lexemes in turn from a position on, with the blocks open there, and hands their events to
the visitor. Returns the position and the open blocks at the end. -/
def traverseLexemes (kind : SourceKind) (visit : Event → EStateM ε σ Unit) (raise : Error → ε) :
    Nat → Nesting → List Lexeme → EStateM ε σ (Nat × Nesting)
  | position, nesting, [] => pure (position, nesting)
  | position, nesting, lexeme :: rest =>
      let stop := position + lexeme.spelling.byteSize
      match lexeme.effect kind position nesting with
      | .error e => throw (raise e)
      | .ok (none, after) => traverseLexemes kind visit raise stop after rest
      | .ok (some (depth, payload), after) => do
          visit ⟨depth, Span.ofRange position stop, payload⟩
          traverseLexemes kind visit raise stop after rest

/-- The error that ends a traversal which got through all lexemes: a directive that cannot be read,
or else the innermost block that is still open. -/
def finalError (fault : Option (Text × Cause)) (position : Nat) (nesting : Nesting) :
    Option Error :=
  match fault, nesting with
  | some (pending, cause), _ => some ⟨position + pending.byteSize, cause⟩
  | none, frame :: _ => some frame.unclosed
  | none, [] => none

/-- Hands the events of a body to a visitor in order. An error of the body itself is raised, as
converted by `raise`, after the events before it. -/
def traverse (body : Body) (kind : SourceKind) (visit : Event → EStateM ε σ Unit)
    (raise : Error → ε) : EStateM ε σ Unit := do
  let lexed := lex body.text
  let (position, nesting) ← traverseLexemes kind visit raise body.start [] lexed.lexemes
  match finalError lexed.fault position nesting with
  | some e => throw (raise e)
  | none => pure ()

/-- The events of a body, and the error that ended the reading, if any. -/
structure Reading where
  events : List Event
  error : Option Error
  deriving DecidableEq, Repr

def collect (event : Event) : EStateM Error (Array Event) Unit := modify (·.push event)

def read (body : Body) (kind : SourceKind) : Reading :=
  match (body.traverse kind collect id).run #[] with
  | .ok _ events => ⟨events.toList, none⟩
  | .error e events => ⟨events.toList, some e⟩

end Stencil.Body
