import Stencil.Module.Literal
import Stencil.Naming

/-!
The statements of a generated module. Each event of a body gives some lines; their indentation
follows from the event's depth and from the layout calls that are open, each of which adds a level
for the closure that supplies its sections.
-/

namespace Stencil.Module

/-- A line of code. A level of indentation is four spaces wide. -/
def line (indent : Nat) (parts : List Text) : Text :=
  List.replicate (4 * indent) ' ' ++ parts.flatten ++ ['\n']

/-- The start of a call of a module's render function, up to its last argument. -/
def callHead (target : QualifiedName) (args : Text) : Text :=
  List.flatten [target.callPath, "::render(output", if args.isEmpty then [] else ", ".toList ++ args]

/-- The depths of the open layout calls, innermost first. -/
abbrev OpenCalls := List Nat

def indentAt (calls : OpenCalls) (depth : Nat) : Nat := 1 + depth + calls.length

/-- Whether a section at a depth belongs to the innermost open layout call, and so supplies it. -/
def suppliesCall (calls : OpenCalls) (depth : Nat) : Bool :=
  match calls with
  | call :: _ => call + 1 == depth
  | [] => false

def eventLines (naming : Naming) (calls : OpenCalls) (e : Event) : Text :=
  let indent := indentAt calls e.depth
  match e.payload with
  | .text t => if t.isEmpty then [] else line indent ["output.write_safe(", literal t, ");"]
  | .code code => line indent ["output.write(&(", code, "));"]
  | .statement code => line indent [code, ";"]
  | .conditionStart condition => line indent ["if ", condition, " \x7b"]
  | .conditionElseIf condition => line indent ["\x7d else if ", condition, " \x7b"]
  | .conditionElse => line indent ["\x7d else \x7b"]
  | .conditionEnd => line indent ["\x7d"]
  | .loopStart header => line indent ["for ", header, " \x7b"]
  | .loopEnd => line indent ["\x7d"]
  | .tagCall name args =>
      line indent [callHead (naming.qualify .tag (naming.sourcePath .tag name)) args, ");"]
  | .layoutCall name args =>
      line indent [callHead (naming.qualify .layout (naming.sourcePath .layout name)) args,
        ", &mut |rtpl_section: &str, output: &mut dyn rtpl_runtime::TemplateOutput| \x7b"] ++
      line (indent + 1) ["match rtpl_section \x7b"]
  | .sectionStart name =>
      if suppliesCall calls e.depth then line indent ["\"", name, "\" => \x7b"]
      else line indent ["if !rtpl_sections(\"", name, "\", &mut *output) \x7b"]
  | .sectionEnd => line indent ["\x7d"]
  | .layoutEnd =>
      line (indent + 1) ["_ => return false,"] ++ line indent ["\x7d"] ++ line indent ["true"] ++
        line (indent - 1) ["\x7d);"]

def callsAfter (calls : OpenCalls) (e : Event) : OpenCalls :=
  match e.payload with
  | .layoutCall _ _ => e.depth :: calls
  | .layoutEnd => calls.tail
  | _ => calls

/-- The lines for events in order, with some layout calls open before them. -/
def statementsFrom (naming : Naming) : OpenCalls → List Event → Text
  | _, [] => []
  | calls, e :: rest => eventLines naming calls e ++ statementsFrom naming (callsAfter calls e) rest

def statements (naming : Naming) (events : List Event) : Text := statementsFrom naming [] events

end Stencil.Module
