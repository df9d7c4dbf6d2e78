import Stencil.Compiler

/-!
Generating in one pass. A visitor writes the lines of each event as it comes, and a call in the
middle of a body generates the called source, with a body of its own, before the line of the call is
written.
-/

namespace Stencil

/-- A body while it is written, with what it shares with all other bodies: the lines so far and the
layout calls that are open. -/
structure Draft where
  shared : Progress
  body : Text := []
  calls : Module.OpenCalls := []

def Module.callLines (indent : Nat) (target : QualifiedName) : Event.Payload → Text
  | .tagCall _ args => Module.line indent [Module.callHead target args, ");"]
  | .layoutCall _ args =>
      Module.line indent [Module.callHead target args,
        ", &mut |rtpl_section: &str, output: &mut dyn rtpl_runtime::TemplateOutput| \x7b"] ++
      Module.line (indent + 1) ["match rtpl_section \x7b"]
  | _ => []

namespace Compiler

mutual

/-- Writes the lines of an event into a draft. A source that the event calls is taken care of first. -/
def writeEvent (naming : Naming) (fragments : List Fragment) (referrer : QualifiedName) (e : Event) :
    EStateM GenerateError Draft Unit := fun d =>
  match e.call? with
  | none => .ok () { d with
      body := d.body ++ Module.eventLines naming d.calls e
      calls := Module.callsAfter d.calls e }
  | some (kind, name) =>
      match enterCall naming fragments referrer kind name e.span.start d.shared with
      | .error error s => .error error { d with shared := s }
      | .ok target s => .ok ()
          { shared := s
            body := d.body ++ Module.callLines (Module.indentAt d.calls e.depth) target e.payload
            calls := Module.callsAfter d.calls e }
termination_by (fragments.length, 1)

/-- Sees to it that a called source is in the set, and returns its name. A source that is absent is
written in a draft of its own. -/
def enterCall (naming : Naming) (fragments : List Fragment) (referrer : QualifiedName)
    (kind : SourceKind) (name : Text) (position : Nat) :
    EStateM GenerateError Progress QualifiedName := fun s =>
  let path := naming.sourcePath kind name
  let target := naming.qualify kind path
  match s.units.source? target with
  | some existing =>
      if existing = path then .ok target s else .error (.collision ⟨target, existing, path⟩) s
  | none =>
      match h : Fragment.text? fragments kind path with
      | none => .error (.unresolved kind name referrer position) (s.ask path)
      | some text =>
          have : (Fragment.without fragments kind path).length < fragments.length :=
            Fragment.length_without_lt h
          let s := { s.ask path with units := (s.units.reserve target path).2 }
          match Header.ofFragment text with
          | .error e => .error (.malformedHeader path e) s
          | .ok header =>
              match header.body.traverse kind
                (fun e => writeEvent naming (Fragment.without fragments kind path) target e)
                (.badStructure path) { shared := s } with
              | .error error d => .error error d.shared
              | .ok _ d =>
                  let code := Module.top kind path header ++ d.body ++ "\x7d\n".toList
                  .ok target { d.shared with units := d.shared.units.finalize ⟨target, path, code⟩ }
termination_by (fragments.length, 0)

end

/-- Generates a template in one pass over its body. -/
def generateInOnePass (c : Compiler) (name : Text) : Generation :=
  match c.sources.find? name with
  | none => ⟨.error (.notFound name), [name]⟩
  | some [] => ⟨.ok .nothing, [name]⟩
  | some text =>
      match Header.ofTemplate text with
      | .error e => ⟨.error (.malformedHeader name e), [name]⟩
      | .ok header =>
          let target := c.naming.qualify .template name
          match header.body.traverse .template (writeEvent c.naming c.fragments target)
            (.badStructure name) { shared := { asked := [name] } } with
          | .error error d => ⟨.error error, d.shared.asked⟩
          | .ok _ d =>
              let code := Module.top .template name header ++ d.body ++ "\x7d\n".toList
              ⟨.ok (.units (d.shared.units.finalize ⟨target, name, code⟩)), d.shared.asked⟩

end Compiler

end Stencil
