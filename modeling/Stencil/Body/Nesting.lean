import Stencil.Body.Lexeme
import Stencil.Event

/-!
The blocks that are open at a place of a body, and what each lexeme does there: which event it
gives, which blocks are open after it, and when it cannot stand there.
-/

namespace Stencil.Body

/-- An open block with the position of its opening directive. -/
inductive Frame where
  | conditional (opener : Nat) (elseSeen : Bool)
  | loop (opener : Nat)
  | layoutCall (opener : Nat) (sections : List Text)
  | sectionBody (opener : Nat)
  deriving DecidableEq, Repr

namespace Frame

def opener : Frame → Nat
  | conditional opener _ => opener
  | loop opener => opener
  | layoutCall opener _ => opener
  | sectionBody opener => opener

def block : Frame → Block
  | conditional _ _ => .conditional
  | loop _ => .loop
  | layoutCall _ _ => .layoutCall
  | sectionBody _ => .sectionBody

/-- The error of a block that is still open at the end. -/
def unclosed (frame : Frame) : Error := ⟨frame.opener, .unclosed frame.block⟩

end Frame

/-- The open blocks, innermost first. -/
abbrev Nesting := List Frame

namespace Nesting

/-- Whether the innermost open block is a layout call, which holds sections only. -/
def inLayoutCall : Nesting → Bool
  | .layoutCall _ _ :: _ => true
  | _ => false

/-- What happens to the nesting at an else branch, or at an else-if branch. -/
def branch (isElse : Bool) : Nesting → Except Misplacement Nesting
  | .conditional opener false :: outer => .ok (.conditional opener isElse :: outer)
  | .conditional _ true :: _ => .error .elseSeen
  | frame :: _ => .error (.otherBlockOpen frame.block frame.opener)
  | [] => .error .noConditional

/-- Closes the innermost block, which has to be of the given kind. -/
def close (block : Block) : Nesting → Except Misplacement Nesting
  | frame :: outer =>
      if frame.block = block then .ok outer
      else .error (.otherBlockOpen frame.block frame.opener)
  | [] => .error .nothingOpen

/-- Opens a section. Directly inside a layout call it supplies a section of that name, once;
elsewhere it is a placeholder, which only a layout may have. -/
def openSection (kind : SourceKind) (position : Nat) (name : Text) :
    Nesting → Except Cause Nesting
  | .layoutCall opener sections :: outer =>
      if name ∈ sections then .error (.duplicateSection name)
      else .ok (.sectionBody position :: .layoutCall opener (sections ++ [name]) :: outer)
  | nesting =>
      if kind = .layout then .ok (.sectionBody position :: nesting)
      else .error .sectionOutsideLayout

end Nesting

/-- The code of a statement, without the semicolons at its end. -/
def statementCode (inner : Text) : Text :=
  Text.trimEnd (Text.dropEndWhile (· == ';') (Text.trim inner))

def Block.endPayload : Block → Event.Payload
  | .conditional => .conditionEnd
  | .loop => .loopEnd
  | .layoutCall => .layoutEnd
  | .sectionBody => .sectionEnd

def Directive.allowedInLayoutCall : Directive → Bool
  | .comment _ => true
  | .sectionOpen _ => true
  | .close .layoutCall => true
  | _ => false

/-- An event's depth and payload, if there is an event, and the blocks open afterwards. -/
abbrev Effect := Option (Nat × Event.Payload) × Nesting

def Directive.effect (kind : SourceKind) (position : Nat) (nesting : Nesting) :
    Directive → Except Cause Effect
  | .comment _ => .ok (none, nesting)
  | .expression inner => .ok (some (nesting.length, .code (Text.trim inner)), nesting)
  | .statement inner => .ok (some (nesting.length, .statement (statementCode inner)), nesting)
  | .ifOpen inner =>
      .ok (some (nesting.length, .conditionStart (Text.trim inner)),
        .conditional position false :: nesting)
  | .elseIf inner =>
      match nesting.branch false with
      | .error why => .error (.unexpected .elseIfWord why)
      | .ok after => .ok (some (nesting.length - 1, .conditionElseIf (Text.trim inner)), after)
  | .elseBranch =>
      match nesting.branch true with
      | .error why => .error (.unexpected .elseWord why)
      | .ok after => .ok (some (nesting.length - 1, .conditionElse), after)
  | .forOpen inner =>
      .ok (some (nesting.length, .loopStart (Text.trim inner)), .loop position :: nesting)
  | .tagCall name inner => .ok (some (nesting.length, .tagCall name (Text.trim inner)), nesting)
  | .layoutOpen name inner =>
      .ok (some (nesting.length, .layoutCall name (Text.trim inner)),
        .layoutCall position [] :: nesting)
  | .sectionOpen inner =>
      match nesting.openSection kind position (Text.trim inner) with
      | .error cause => .error cause
      | .ok after => .ok (some (nesting.length, .sectionStart (Text.trim inner)), after)
  | .close block =>
      match nesting.close block with
      | .error why => .error (.unexpected block.closer why)
      | .ok after => .ok (some (after.length, block.endPayload), after)

/-- What a lexeme at a position does to the open blocks. Directly inside a layout call there is
room for sections, comments and blanks only. -/
def Lexeme.effect (kind : SourceKind) (position : Nat) (nesting : Nesting) :
    Lexeme → Except Error Effect
  | .text t =>
      if !nesting.inLayoutCall then .ok (some (nesting.length, .text t), nesting)
      else if t.all Text.isBlank then .ok (none, nesting)
      else .error ⟨position + Text.byteSize (t.takeWhile Text.isBlank), .contentOutsideSection⟩
  | .directive d =>
      if nesting.inLayoutCall && !d.allowedInLayoutCall then
        .error ⟨position, .contentOutsideSection⟩
      else (d.effect kind position nesting).mapError (⟨position, ·⟩)

end Stencil.Body
