import Stencil.Event

/-!
Sources by name.
-/

namespace Stencil

/-- Finitely many source texts, each under a name. -/
structure Sources where
  entries : List (Text × Text) := []
  deriving DecidableEq, Repr

namespace Sources

def find? (sources : Sources) (name : Text) : Option Text := sources.entries.lookup name

/-- Puts a text under a name, in place of one that is there. -/
def insert (sources : Sources) (name text : Text) : Sources :=
  ⟨(name, text) :: sources.entries.filter (·.1 != name)⟩

end Sources

end Stencil
