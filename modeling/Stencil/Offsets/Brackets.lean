import Stencil.Code.Enclosed
import Stencil.Offsets.Access
import Stencil.Text.Word

/-!
Closing brackets of embedded code by byte offsets. The search passes over strings, characters and
raw strings. Inside of these the offset may come to stand within a character.
-/

namespace Stencil.Offsets

open Stencil.Code

def isWordByte (b : UInt8) : Bool := Text.isWordChar (Char.ofUInt8 b)

/-- The offset behind the quote that closes a string literal, from an offset inside it on. -/
def skipString (bytes : List UInt8) (offset : Nat) : Checked (Option Nat) :=
  if offset < bytes.length then do
    let b ← byteAt bytes offset
    if b = '\\'.toUInt8 then skipString bytes (offset + 2)
    else if b = '"'.toUInt8 then pure (some (offset + 1))
    else skipString bytes (offset + 1)
  else pure none
termination_by bytes.length - offset

/-- The offset behind a character literal, or else behind the quote at the offset. -/
def skipQuote (source : Text) (offset : Nat) : Checked Nat :=
  let bytes := source.encode
  if bytes[offset + 1]? = some '\\'.toUInt8 then do
    let behind ← bytesBetween bytes (min (offset + 3) bytes.length) bytes.length
    match behind.findIdx? (· == '\''.toUInt8) with
    | some n => pure (offset + 3 + n + 1)
    | none => pure (offset + 1)
  else do
    let behind ← textFrom source (offset + 1)
    match behind.head? with
    | some c =>
        if bytes[offset + 1 + c.utf8Size]? = some '\''.toUInt8 then pure (offset + 2 + c.utf8Size)
        else pure (offset + 1)
    | none => pure (offset + 1)

/-- Whether the bytes in front of an offset let a raw string start there. -/
def mayOpenRaw (bytes : List UInt8) (offset : Nat) : Checked Bool :=
  if offset = 0 then pure true
  else do
    let before ← byteAt bytes (← difference offset 1)
    if before = 'b'.toUInt8 then
      if offset < 2 then pure true
      else do
        let first ← byteAt bytes (← difference offset 2)
        pure (!isWordByte first)
    else pure (!isWordByte before)

/-- The number of hashes of the raw string that starts at an offset, if one does. -/
def rawHashes? (bytes : List UInt8) (offset : Nat) : Checked (Option Nat) := do
  let b ← byteAt bytes offset
  if b = 'r'.toUInt8 then
    if ← mayOpenRaw bytes offset then
      let behind ← bytesBetween bytes (offset + 1) bytes.length
      let hashes := (behind.takeWhile (· == '#'.toUInt8)).length
      pure (if bytes[offset + 1 + hashes]? = some '"'.toUInt8 then some hashes else none)
    else pure none
  else pure none

/-- Whether a quote with enough hashes behind it stands at an offset. -/
def closesRaw (bytes : List UInt8) (hashes offset : Nat) : Checked Bool := do
  let b ← byteAt bytes offset
  if b = '"'.toUInt8 ∧ offset + 1 + hashes ≤ bytes.length then
    let behind ← bytesBetween bytes (offset + 1) (offset + 1 + hashes)
    pure (behind.all (· == '#'.toUInt8))
  else pure false

def skipRaw (bytes : List UInt8) (hashes offset : Nat) : Checked (Option Nat) :=
  if offset < bytes.length then do
    if ← closesRaw bytes hashes offset then pure (some (offset + 1 + hashes))
    else skipRaw bytes hashes (offset + 1)
  else pure none
termination_by bytes.length - offset

/-- What a round of the search comes to: the closing bracket, the end in an open literal, or the
depth and the offset for the next round. -/
inductive Round where
  | found (offset : Nat)
  | never
  | onward (depth offset : Nat)

def bracketRound (bracket : Bracket) (depth offset : Nat) (b : UInt8) : Checked Round :=
  if b = bracket.opening.toUInt8 then pure (.onward (depth + 1) (offset + 1))
  else if b = bracket.closing.toUInt8 then
    if depth = 0 then pure (.found offset)
    else do
      let depth ← difference depth 1
      pure (.onward depth (offset + 1))
  else pure (.onward depth (offset + 1))

def behindLiteral (depth : Nat) : Option Nat → Round
  | some next => .onward depth next
  | none => .never

def round (source : Text) (bracket : Bracket) (depth offset : Nat) : Checked Round := do
  let bytes := source.encode
  let b ← byteAt bytes offset
  if b = '"'.toUInt8 then do
    let next ← skipString bytes (offset + 1)
    pure (behindLiteral depth next)
  else if b = '\''.toUInt8 then do
    let next ← skipQuote source offset
    pure (.onward depth next)
  else do
    match ← rawHashes? bytes offset with
    | some hashes =>
        let next ← skipRaw bytes hashes (offset + hashes + 2)
        pure (behindLiteral depth next)
    | none => bracketRound bracket depth offset b

/-- The offset of the closing bracket that has `depth` others to close before it. -/
def closingFrom (source : Text) (bracket : Bracket) (depth offset : Nat) : Checked (Option Nat) :=
  if offset < source.encode.length then
    match round source bracket depth offset with
    | .error fault => .error fault
    | .ok (.found stop) => .ok (some stop)
    | .ok .never => .ok none
    | .ok (.onward depth next) =>
        if offset < next then closingFrom source bracket depth next else .error .stuck
  else .ok none
termination_by source.encode.length - offset

/-- The offset of the bracket that closes the one just before an offset. -/
def closing (source : Text) (bracket : Bracket) (offset : Nat) : Checked (Option Nat) :=
  closingFrom source bracket 0 offset

end Stencil.Offsets
