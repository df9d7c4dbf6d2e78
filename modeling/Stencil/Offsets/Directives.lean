import Stencil.Body.Directive
import Stencil.Offsets.Brackets

/-!
Directives by byte offsets.
-/

namespace Stencil.Offsets

open Stencil.Code
open Stencil.Body

/-- What stands at an offset: literal text, a directive that cannot be read, or a directive and the
offset behind it. -/
inductive Found where
  | literal
  | fault (cause : Cause)
  | directive (directive : Directive) (stop : Nat)

/-- Reads the inner text of a bracket, from the offset behind the opening one on. -/
def enclosed (source : Text) (bracket : Bracket) (construct : Construct)
    (make : Text → Except Cause Directive) (start : Nat) : Checked Found := do
  match ← closing source bracket start with
  | none => pure (.fault (.unterminated construct))
  | some stop =>
      let inner ← textBetween source start stop
      match make inner with
      | .error cause => pure (.fault cause)
      | .ok directive => pure (.directive directive (stop + 1))

def isCallByte (b : UInt8) : Bool := isWordByte b || b == '.'.toUInt8

def call (source : Text) (make : Text → Text → Directive) (start : Nat) : Checked Found := do
  let bytes := source.encode
  let behind ← bytesBetween bytes start bytes.length
  let stop := start + (behind.takeWhile isCallByte).length
  let name ← textBetween source start stop
  if bytes[stop]? = some '('.toUInt8 then
    if Text.isDottedName name then
      enclosed source .paren .arguments (fun inner => .ok (make name inner)) (stop + 1)
    else pure (.fault (.malformedCall name))
  else pure .literal

/-- The character that has to follow a keyword. Without one the keyword is a directive by itself,
where its word ends. -/
def follower? : Keyword → Option Char
  | .ifWord | .elseIfWord | .forWord | .sectionWord => some '('
  | .tagWord | .layoutWord => some '.'
  | .elseWord | .endWord _ => none

def standsAt (source : Text) (start : Nat) (k : Keyword) : Checked Bool := do
  let rest ← textFrom source (start + 1)
  match follower? k with
  | some c => pure ((k.text ++ [c]).isPrefixOf rest)
  | none => pure (k.text.isPrefixOf rest && !(rest.encode[k.text.byteSize]?.any isWordByte))

/-- The order in which keywords are tried. -/
def trials : List Keyword :=
  [.ifWord, .elseIfWord, .elseWord, .endWord .conditional, .forWord, .endWord .loop, .tagWord,
    .layoutWord, .sectionWord, .endWord .sectionBody, .endWord .layoutCall]

def firstKeyword (source : Text) (start : Nat) : List Keyword → Checked (Option Keyword)
  | [] => pure none
  | k :: rest => do
      if ← standsAt source start k then pure (some k) else firstKeyword source start rest

def keywordDirective (source : Text) (stop : Nat) : Keyword → Checked Found
  | .ifWord =>
      enclosed source .paren .condition
        (Directive.ofNonBlank .ifOpen (.missingCondition .ifWord)) (stop + 1)
  | .elseIfWord =>
      enclosed source .paren .condition
        (Directive.ofNonBlank .elseIf (.missingCondition .elseIfWord)) (stop + 1)
  | .elseWord => pure (.directive .elseBranch stop)
  | .forWord =>
      enclosed source .paren .loopHeader (Directive.ofNonBlank .forOpen .missingIterator) (stop + 1)
  | .tagWord => call source .tagCall (stop + 1)
  | .layoutWord => call source .layoutOpen (stop + 1)
  | .sectionWord => enclosed source .paren .sectionName Directive.ofSectionName (stop + 1)
  | .endWord block => pure (.directive (.close block) stop)

def comment (source : Text) (start : Nat) : Checked Found := do
  let behind ← textFrom source (start + 4)
  match Text.breakOn? ['-', '-', '%', '>'] behind with
  | none => pure (.fault (.unterminated .comment))
  | some (inner, _) => pure (.directive (.comment inner) (start + 4 + inner.byteSize + 4))

/-- Reads the directive of the keyword behind the at sign at an offset, if there is one. -/
def atDirective (source : Text) (start : Nat) : Checked Found := do
  match ← firstKeyword source start trials with
  | none => pure .literal
  | some k => keywordDirective source (start + k.mark.byteSize) k

def nextDirective (source : Text) (start : Nat) : Checked Found := do
  let rest ← textFrom source start
  let b ← byteAt source.encode start
  if b = '$'.toUInt8 ∧ ['$', '{'].isPrefixOf rest then
    enclosed source .brace .expression
      (Directive.ofNonBlank .expression (.emptyCode .expression)) (start + 2)
  else if b = '!'.toUInt8 ∧ ['!', '{'].isPrefixOf rest then
    enclosed source .brace .statement
      (Directive.ofNonBlank .statement (.emptyCode .statement)) (start + 2)
  else if b = '<'.toUInt8 ∧ ['<', '%', '-', '-'].isPrefixOf rest then
    comment source start
  else if b = '@'.toUInt8 then atDirective source start
  else pure .literal

end Stencil.Offsets
