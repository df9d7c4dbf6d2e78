import Stencil.Body.Traversal
import Stencil.Offsets.Directives

/-!
Bodies by byte offsets. The reading keeps the offset where the text since the last directive starts
and the offset it has come to.
-/

namespace Stencil.Offsets

open Stencil.Body

variable {ε σ α : Type}

/-- Why a reading by offsets ends early: a wrong step, or a failure of what is read or of its
visitor. -/
inductive Stop (ε : Type) where
  | fault (fault : Fault)
  | failure (error : ε)

/-- An action with its failures told apart from wrong steps. -/
def guarded (act : EStateM ε σ α) : EStateM (Stop ε) σ α := fun s =>
  match act s with
  | .ok a s => .ok a s
  | .error e s => .error (.failure e) s

def check : Checked α → EStateM (Stop ε) σ α
  | .ok a => pure a
  | .error fault => throw (.fault fault)

/-- What an else or else-if branch does to the open blocks. Its event stands one block further
out. -/
def branchEffect (nesting : Nesting) (isElse : Bool) (keyword : Keyword) (payload : Event.Payload) :
    Checked (Except Cause Effect) :=
  match nesting.branch isElse with
  | .error why => pure (.error (.unexpected keyword why))
  | .ok after => do
      let depth ← difference nesting.length 1
      pure (.ok (some (depth, payload), after))

def directiveEffect (kind : SourceKind) (position : Nat) (nesting : Nesting) :
    Directive → Checked (Except Cause Effect)
  | .elseIf inner => branchEffect nesting false .elseIfWord (.conditionElseIf (Text.trim inner))
  | .elseBranch => branchEffect nesting true .elseWord .conditionElse
  | d => pure (d.effect kind position nesting)

def effect (kind : SourceKind) (position : Nat) (nesting : Nesting) :
    Lexeme → Checked (Except Error Effect)
  | .text t =>
      if !nesting.inLayoutCall then pure (.ok (some (nesting.length, .text t), nesting))
      else if (Text.trimStart t).isEmpty then pure (.ok (none, nesting))
      else do
        let blanks ← difference t.byteSize (Text.trimStart t).byteSize
        pure (.error ⟨position + blanks, .contentOutsideSection⟩)
  | .directive d =>
      if nesting.inLayoutCall && !d.allowedInLayoutCall then
        pure (.error ⟨position, .contentOutsideSection⟩)
      else do
        let result ← directiveEffect kind position nesting d
        pure (result.mapError (⟨position, ·⟩))

/-- Hands over the event of a lexeme between two offsets, if there is one. -/
def stepTo (kind : SourceKind) (visit : Event → EStateM ε σ Unit) (raise : Error → ε)
    (start stop : Nat) (nesting : Nesting) (lexeme : Lexeme) : EStateM (Stop ε) σ Nesting := do
  match ← check (effect kind start nesting lexeme) with
  | .error e => throw (.failure (raise e))
  | .ok (none, after) => pure after
  | .ok (some (depth, payload), after) => do
      guarded (visit ⟨depth, Span.ofRange start stop, payload⟩)
      pure after

def flushTo (source : Text) (kind : SourceKind) (visit : Event → EStateM ε σ Unit)
    (raise : Error → ε) (start stop : Nat) (nesting : Nesting) : EStateM (Stop ε) σ Nesting :=
  if start < stop then do
    let text ← check (textBetween source start stop)
    stepTo kind visit raise start stop nesting (.text text)
  else pure nesting

def isMarkerByte (b : UInt8) : Bool := isMarker (Char.ofUInt8 b)

/-- The offset of the next byte that may start a directive, or of the end. -/
def nextMarker (source : Text) (start : Nat) : Checked Nat := do
  let behind ← bytesBetween source.encode start source.encode.length
  pure (start + behind.findIdx isMarkerByte)

def passFrom (source : Text) (kind : SourceKind) (visit : Event → EStateM ε σ Unit)
    (raise : Error → ε) (textStart current : Nat) (nesting : Nesting) : EStateM (Stop ε) σ Unit :=
  if current < source.byteSize then do
    match ← check (nextDirective source current) with
    | .literal =>
        let next ← check (nextMarker source (current + 1))
        if current < next then passFrom source kind visit raise textStart next nesting
        else throw (.fault .stuck)
    | .fault cause => throw (.failure (raise ⟨current, cause⟩))
    | .directive d stop =>
        let nesting ← flushTo source kind visit raise textStart current nesting
        let nesting ← stepTo kind visit raise current stop nesting (.directive d)
        if current < stop then passFrom source kind visit raise stop stop nesting
        else throw (.fault .stuck)
  else do
    match ← flushTo source kind visit raise textStart source.byteSize nesting with
    | frame :: _ => throw (.failure (raise frame.unclosed))
    | [] => pure ()
termination_by source.byteSize - current

def pass (source : Text) (start : Nat) (kind : SourceKind) (visit : Event → EStateM ε σ Unit)
    (raise : Error → ε) : EStateM (Stop ε) σ Unit :=
  passFrom source kind visit raise (min start source.byteSize) (min start source.byteSize) []

/-- The events of a body by offsets, and the error that ended the reading, if any. -/
def readBody (source : Text) (start : Nat) (kind : SourceKind) : Checked Reading :=
  match (pass source start kind collect id).run #[] with
  | .ok _ events => .ok ⟨events.toList, none⟩
  | .error (.failure e) events => .ok ⟨events.toList, some e⟩
  | .error (.fault fault) _ => .error fault

end Stencil.Offsets
