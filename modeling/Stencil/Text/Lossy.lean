import Stencil.Text.Basic

/-!
Reading bytes as UTF-8 with a replacement for what is not. The bytes that start a character but do
not finish it are replaced together, any other byte that starts none is replaced alone.
-/

namespace Stencil.Text

/-- The character that stands for bytes that are not UTF-8. -/
def replacement : Char := '�'

/-- The bytes that may follow a given first byte, as closed ranges in order, if that byte starts a
character of more than one byte. -/
def tailRanges (first : UInt8) : List (UInt8 × UInt8) :=
  if 0xC2 ≤ first && first ≤ 0xDF then [(0x80, 0xBF)]
  else if first == 0xE0 then [(0xA0, 0xBF), (0x80, 0xBF)]
  else if first == 0xED then [(0x80, 0x9F), (0x80, 0xBF)]
  else if 0xE1 ≤ first && first ≤ 0xEF then [(0x80, 0xBF), (0x80, 0xBF)]
  else if first == 0xF0 then [(0x90, 0xBF), (0x80, 0xBF), (0x80, 0xBF)]
  else if 0xF1 ≤ first && first ≤ 0xF3 then [(0x80, 0xBF), (0x80, 0xBF), (0x80, 0xBF)]
  else if first == 0xF4 then [(0x80, 0x8F), (0x80, 0xBF), (0x80, 0xBF)]
  else []

/-- How many bytes fit the given ranges, one after another. -/
def fitting : List (UInt8 × UInt8) → List UInt8 → Nat
  | (low, high) :: ranges, b :: bytes =>
      if low ≤ b && b ≤ high then fitting ranges bytes + 1 else 0
  | _, _ => 0

def decodeUpTo : Nat → List UInt8 → Text
  | 0, _ => []
  | _, [] => []
  | n + 1, b :: bytes =>
      let ranges := tailRanges b
      let tail := bytes.take (fitting ranges bytes)
      let char := if tail.length < ranges.length then none else decode? (b :: tail)
      (char.getD [replacement]) ++ decodeUpTo n (bytes.drop tail.length)

/-- The text that bytes spell, with replacements where they are not UTF-8. -/
def decodeLossy (bytes : List UInt8) : Text := decodeUpTo bytes.length bytes

end Stencil.Text
