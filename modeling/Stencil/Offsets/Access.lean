import Stencil.Text.Basic

/-!
Looks at a source by byte offsets. A look fails outside of the source, and a look at a slice also at
an offset inside a character.
-/

namespace Stencil.Offsets

/-- What is wrong with a step by offsets. A loop is stuck if a round does not move its offset. -/
inductive Fault where
  | outOfRange
  | insideCharacter
  | underflow
  | stuck
  deriving DecidableEq, Repr

abbrev Checked := Except Fault

def byteAt (bytes : List UInt8) (offset : Nat) : Checked UInt8 :=
  match bytes[offset]? with
  | some b => .ok b
  | none => .error .outOfRange

def bytesBetween (bytes : List UInt8) (start stop : Nat) : Checked (List UInt8) :=
  if start ≤ stop ∧ stop ≤ bytes.length then .ok ((bytes.drop start).take (stop - start))
  else .error .outOfRange

def textFrom (source : Text) (offset : Nat) : Checked Text :=
  if offset ≤ source.byteSize then
    match source.dropBytes? offset with
    | some rest => .ok rest
    | none => .error .insideCharacter
  else .error .outOfRange

def textBetween (source : Text) (start stop : Nat) : Checked Text :=
  if start ≤ stop then do
    let fromStart ← textFrom source start
    let fromStop ← textFrom source stop
    pure (fromStart.take (fromStart.length - fromStop.length))
  else .error .outOfRange

def difference (a b : Nat) : Checked Nat := if b ≤ a then .ok (a - b) else .error .underflow

end Stencil.Offsets
