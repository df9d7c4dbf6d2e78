import Stencil.Text.Basic

/-!
The body of a source.
-/

namespace Stencil

/-- The part of a source after its header: the byte position where it starts, and its text. -/
structure Body where
  start : Nat
  text : Text
  deriving DecidableEq, Repr

namespace Body

/-- The body of a source from a byte position on. There is none from inside a character; from a
position past the end it is empty and starts at the end. -/
def ofSource? (source : Text) (start : Nat) : Option Body :=
  (source.dropBytes? start).map fun text => ⟨min start source.byteSize, text⟩

def after (header text : Text) : Body := ⟨header.byteSize, text⟩

theorem ofSource?_append (header text : Text) :
    ofSource? (header ++ text) header.byteSize = some (after header text) := by
  simp only [ofSource?, Text.dropBytes?_byteSize_append, Option.map_some, after,
    Text.byteSize_append, Option.some.injEq, Body.mk.injEq, and_true]
  omega

end Body

end Stencil
