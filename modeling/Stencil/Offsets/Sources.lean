import Stencil.Offsets.Bodies
import Stencil.Source

/-!
Whole sources by byte offsets: a header, line by line, and the body after it.
-/

namespace Stencil.Offsets

open Stencil.Body
open Stencil.Header

/-- A line with a declaration: where its directive starts and the line ends, and what stands
between. -/
structure Line where
  start : Nat
  directive : Header.Directive
  content : Text
  stop : Nat

def lineEnd (source : Text) (start : Nat) (line : Text) : Nat :=
  match Text.breakOn? ['\n'] line with
  | some r => start + r.1.byteSize
  | none => source.byteSize

/-- The declaration behind the blanks at an offset, if there is one. -/
def lineAt? (source : Text) (current : Nat) : Checked (Option Line) := do
  let rest ← textFrom source current
  let blanks ← difference rest.byteSize (Text.trimStart rest).byteSize
  let line ← textFrom source (current + blanks)
  match directive? line with
  | none => pure none
  | some r =>
      let stop := lineEnd source (current + blanks) line
      let content ← textBetween source (current + blanks + r.1.mark.byteSize) stop
      pure (some ⟨current + blanks, r.1, content, stop⟩)

/-- The declarations from an offset on, and the offset where the body starts. -/
def declarationsFrom (source : Text) (current : Nat) :
    Checked (Except Header.Error (List (Nat × Declaration) × Nat)) :=
  match lineAt? source current with
  | .error fault => .error fault
  | .ok none => .ok (.ok ([], current))
  | .ok (some line) =>
      match line.directive.declare line.start (Text.trim line.content) with
      | .error e => .ok (.error e)
      | .ok declared =>
          if current < min (line.stop + 1) source.byteSize then
            (declarationsFrom source (min (line.stop + 1) source.byteSize)).map fun later =>
              later.map fun r => ((line.start, declared) :: r.1, r.2)
          else .error .stuck
termination_by source.byteSize - current

def scanned (source : Text) : Checked (Except Header.Error (List (Nat × Declaration) × Body)) := do
  match ← declarationsFrom source 0 with
  | .error e => pure (.error e)
  | .ok (ds, start) =>
      let text ← textFrom source start
      pure (.ok (ds, ⟨start, text⟩))

def fragmentHeader (source : Text) : Checked (Except Header.Error Header) := do
  match ← scanned source with
  | .error e => pure (.error e)
  | .ok (ds, body) => pure (.ok ⟨importsOf ds, (paramsOf ds).map (·.2), none, body⟩)

def templateHeader (source : Text) : Checked (Except Header.Error Header) := do
  match ← scanned source with
  | .error e => pure (.error e)
  | .ok (ds, body) =>
      match paramsOf ds with
      | [] => pure (.error .missingParam)
      | [(_, model)] => pure (.ok ⟨importsOf ds, [], some model, body⟩)
      | _ :: (position, _) :: _ => pure (.error (.duplicateParam position))

def header (kind : SourceKind) (source : Text) : Checked (Except Header.Error Header) :=
  match kind with
  | .template => templateHeader source
  | .tag | .layout => fragmentHeader source

/-- Reads a source of a given kind: its header, then the events of its body. -/
def read (kind : SourceKind) (source : Text) :
    Checked (Except Source.Error (Header × List Event)) := do
  match ← header kind source with
  | .error e => pure (.error (.header e))
  | .ok header =>
      match (pass source header.body.start kind collect id).run #[] with
      | .ok _ events => pure (.ok (header, events.toList))
      | .error (.failure e) _ => pure (.error (.body e))
      | .error (.fault fault) _ => .error fault

end Stencil.Offsets
