import Stencil.Body.Traversal
import Stencil.Header

/-!
Whole sources: a header and the events of the body after it.
-/

namespace Stencil.Source

inductive Error where
  | header (error : Header.Error)
  | body (error : Body.Error)
  deriving DecidableEq, Repr

def Error.message : Error → Text
  | .header e => e.message
  | .body e => e.message

/-- Reads a source of a given kind. An error of the header comes before one of the body. -/
def read (kind : SourceKind) (source : Text) : Except Error (Header × List Event) :=
  match Header.ofSource kind source with
  | .error e => .error (.header e)
  | .ok header =>
      match header.body.read kind with
      | ⟨_, some e⟩ => .error (.body e)
      | ⟨events, none⟩ => .ok (header, events)

end Stencil.Source
