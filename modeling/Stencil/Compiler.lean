import Stencil.Module.Code
import Stencil.Body.Traversal
import Stencil.Sources
import Stencil.UnitSet

/-!
Compiling a template together with the tags and layouts it calls, directly or through others. Each
of them is generated once, at the first call of it; a call of one that is already in the set, also
of one that is still being generated, adds nothing.
-/

namespace Stencil

/-- A tag or layout that a body may call. -/
structure Fragment where
  kind : SourceKind
  path : Text
  text : Text
  deriving DecidableEq, Repr

namespace Fragment

/-- Whether a fragment is the one of a given kind at a given path. -/
def isAt (kind : SourceKind) (path : Text) (f : Fragment) : Bool := f.kind == kind && f.path == path

def text? (fragments : List Fragment) (kind : SourceKind) (path : Text) : Option Text :=
  (fragments.find? (isAt kind path)).map (·.text)

def without (fragments : List Fragment) (kind : SourceKind) (path : Text) : List Fragment :=
  fragments.filter (!isAt kind path ·)

theorem length_without_lt {fragments : List Fragment} {kind : SourceKind} {path text : Text}
    (h : text? fragments kind path = some text) :
    (without fragments kind path).length < fragments.length := by
  obtain ⟨f, found, -⟩ := Option.map_eq_some_iff.mp h
  refine Nat.lt_of_le_of_ne (List.length_filter_le _ _) fun same => ?_
  have all := List.length_filter_eq_length_iff.mp same f (List.mem_of_find?_eq_some found)
  simp [List.find?_some found] at all

end Fragment

inductive GenerateError where
  | notFound (name : Text)
  | malformedHeader (name : Text) (error : Header.Error)
  | badStructure (name : Text) (error : Body.Error)
  | unresolved (kind : SourceKind) (name : Text) (referrer : QualifiedName) (position : Nat)
  | collision (collision : Collision)
  deriving DecidableEq, Repr

def GenerateError.message : GenerateError → Text
  | .notFound name => List.flatten ["Template '", name, "' not found"]
  | .malformedHeader name e => List.flatten ["Malformed header in '", name, "': ", e.message]
  | .badStructure name e => List.flatten ["Invalid structure in '", name, "': ", e.message]
  | .unresolved kind name referrer position =>
      List.flatten ["Unresolved ", kind.text, " '", name, "' referenced from '", referrer.modulePath,
        "' at position ", Text.decimal position]
  | .collision c =>
      List.flatten ["'", c.existing, "' and '", c.incoming, "' both generate unit '",
        c.name.modulePath, "'"]

/-- What has been generated so far, and the names of the sources asked for, in order. -/
structure Progress where
  units : UnitSet := .empty
  asked : List Text := []
  deriving DecidableEq, Repr

def Progress.ask (s : Progress) (name : Text) : Progress := { s with asked := s.asked ++ [name] }

def Event.call? (e : Event) : Option (SourceKind × Text) :=
  match e.payload with
  | .tagCall name _ => some (.tag, name)
  | .layoutCall name _ => some (.layout, name)
  | _ => none

/-- How a step of a generation ends, with what was generated up to then. -/
abbrev Outcome := EStateM.Result GenerateError Progress Unit

structure Compiler where
  naming : Naming
  sources : Sources
  deriving DecidableEq, Repr

namespace Compiler

/-- All sources, each as a tag and as a layout. -/
def fragments (c : Compiler) : List Fragment :=
  c.sources.entries.flatMap fun (path, text) => [⟨.tag, path, text⟩, ⟨.layout, path, text⟩]

mutual

/-- Takes care of the calls among events of a body, in order. The given fragments are those that are
not being generated around these calls. -/
def includeCalls (naming : Naming) (fragments : List Fragment) (referrer : QualifiedName)
    (events : List Event) (s : Progress) : Outcome :=
  match events with
  | [] => .ok () s
  | e :: rest =>
      match e.call? with
      | none => includeCalls naming fragments referrer rest s
      | some (kind, name) =>
          match includeCall naming fragments referrer kind name e.span.start s with
          | .error err s => .error err s
          | .ok _ s => includeCalls naming fragments referrer rest s
termination_by (fragments.length, events.length + 1)

/-- Sees to it that a called tag or layout is in the set. One that is there is left alone, as it is
finished or on the way; otherwise it is reserved, and generated with all that it calls. -/
def includeCall (naming : Naming) (fragments : List Fragment) (referrer : QualifiedName)
    (kind : SourceKind) (name : Text) (position : Nat) (s : Progress) : Outcome :=
  let path := naming.sourcePath kind name
  let target := naming.qualify kind path
  match s.units.source? target with
  | some existing =>
      if existing = path then .ok () s else .error (.collision ⟨target, existing, path⟩) s
  | none =>
      match h : Fragment.text? fragments kind path with
      | none => .error (.unresolved kind name referrer position) (s.ask path)
      | some text =>
          have : (Fragment.without fragments kind path).length < fragments.length :=
            Fragment.length_without_lt h
          let s := { s.ask path with units := (s.units.reserve target path).2 }
          match Header.ofFragment text with
          | .error e => .error (.malformedHeader path e) s
          | .ok header =>
              let reading := header.body.read kind
              match includeCalls naming (Fragment.without fragments kind path) target
                reading.events s with
              | .error err s => .error err s
              | .ok _ s =>
                  match reading.error with
                  | some e => .error (.badStructure path e) s
                  | none =>
                      let code := Module.code naming kind path header reading.events
                      .ok () { s with units := s.units.finalize ⟨target, path, code⟩ }
termination_by (fragments.length, 0)

end

/-- The result of generating a template: nothing for an empty source, or the units it needs with the
template's own unit last. -/
inductive Generated where
  | nothing
  | units (units : UnitSet)
  deriving DecidableEq, Repr

/-- A result, and the names of the sources asked for on the way to it. -/
structure Generation where
  result : Except GenerateError Generated
  asked : List Text

/-- Generates a template and every tag and layout it reaches. -/
def generate (c : Compiler) (name : Text) : Generation :=
  match c.sources.find? name with
  | none => ⟨.error (.notFound name), [name]⟩
  | some [] => ⟨.ok .nothing, [name]⟩
  | some text =>
      match Header.ofTemplate text with
      | .error e => ⟨.error (.malformedHeader name e), [name]⟩
      | .ok header =>
          let target := c.naming.qualify .template name
          let reading := header.body.read .template
          match includeCalls c.naming c.fragments target reading.events { asked := [name] } with
          | .error err s => ⟨.error err, s.asked⟩
          | .ok _ s =>
              match reading.error with
              | some e => ⟨.error (.badStructure name e), s.asked⟩
              | none =>
                  let code := Module.code c.naming .template name header reading.events
                  ⟨.ok (.units (s.units.finalize ⟨target, name, code⟩)), s.asked⟩

end Compiler

end Stencil
