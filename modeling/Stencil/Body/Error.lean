import Stencil.Body.Keyword

/-!
What can be wrong with a template body: a cause and the position it is reported at.
-/

namespace Stencil.Body

/-- The parts of a body that extend to a closing mark. -/
inductive Construct where
  | expression
  | statement
  | comment
  | condition
  | loopHeader
  | sectionName
  | arguments
  deriving DecidableEq, Repr

def Construct.text : Construct → Text
  | .expression => "expression"
  | .statement => "statement"
  | .comment => "comment"
  | .condition => "condition"
  | .loopHeader => "'@for' header"
  | .sectionName => "'@section' name"
  | .arguments => "argument list"

/-- Why a directive that continues or closes a block cannot stand where it stands. -/
inductive Misplacement where
  | elseSeen
  | otherBlockOpen (block : Block) (opener : Nat)
  | noConditional
  | nothingOpen
  deriving DecidableEq, Repr

def Misplacement.text : Misplacement → Text
  | .elseSeen => "'@else' already seen for this '@if'"
  | .otherBlockOpen block opener =>
      List.flatten ["expected '", block.closer.mark, "' to close '", block.opener.mark,
        "' at position ", Text.decimal opener]
  | .noConditional => "no open '@if'"
  | .nothingOpen => "nothing is open"

inductive Cause where
  | unexpected (keyword : Keyword) (why : Misplacement)
  | unclosed (block : Block)
  | unterminated (construct : Construct)
  | missingCondition (keyword : Keyword)
  | missingIterator
  | emptyCode (construct : Construct)
  | malformedCall (name : Text)
  | malformedSection (name : Text)
  | duplicateSection (name : Text)
  | contentOutsideSection
  | sectionOutsideLayout
  deriving DecidableEq, Repr

/-- A cause with the position it is reported at. An unclosed block is reported at its opening
directive, every other cause where the reader met it. -/
structure Error where
  position : Nat
  cause : Cause
  deriving DecidableEq, Repr

def Error.message (e : Error) : Text :=
  let place : Text := " at position ".toList ++ Text.decimal e.position
  match e.cause with
  | .unexpected keyword why =>
      List.flatten ["Unexpected '", keyword.mark, "'", place, ": ", why.text]
  | .unclosed block =>
      List.flatten ["Unclosed '", block.opener.mark, "'", place, ": expected '", block.closer.mark,
        "'"]
  | .unterminated construct => List.flatten ["Unterminated ", construct.text, place]
  | .missingCondition keyword =>
      List.flatten ["Missing condition in '", keyword.mark, "'", place]
  | .missingIterator => List.flatten ["Missing iterator in '@for'", place]
  | .emptyCode construct => List.flatten ["Empty ", construct.text, place]
  | .malformedCall name =>
      List.flatten ["Malformed call", place, ": invalid name '", name, "'"]
  | .malformedSection name =>
      List.flatten ["Malformed '@section'", place, ": invalid section name '", name, "'"]
  | .duplicateSection name => List.flatten ["Duplicate section '", name, "'", place]
  | .contentOutsideSection =>
      List.flatten ["Unexpected content", place,
        ": only '@section' blocks may appear inside a '@layout' call"]
  | .sectionOutsideLayout =>
      List.flatten ["'@section'", place, " must be inside a '@layout' call or a layout"]

end Stencil.Body
