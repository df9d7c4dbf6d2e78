import Stencil.Header
import Stencil.Json
import Stencil.Naming

/-!
Headers and events as JSON.
-/

namespace Stencil

def Event.Payload.label : Event.Payload → Text
  | .text _ => "text"
  | .code _ => "code"
  | .statement _ => "statement"
  | .conditionStart _ => "condition_start"
  | .conditionElseIf _ => "condition_else_if"
  | .conditionElse => "condition_else"
  | .conditionEnd => "condition_end"
  | .loopStart _ => "loop_start"
  | .loopEnd => "loop_end"
  | .tagCall _ _ => "tag_call"
  | .layoutCall _ _ => "layout_call"
  | .sectionStart _ => "section_start"
  | .sectionEnd => "section_end"
  | .layoutEnd => "layout_end"

def Event.Payload.fields : Event.Payload → List (String × Json)
  | .text t => [("text", .string t)]
  | .code c => [("code", .string c)]
  | .statement c => [("code", .string c)]
  | .conditionStart condition => [("condition", .string condition)]
  | .conditionElseIf condition => [("condition", .string condition)]
  | .loopStart header => [("header", .string header)]
  | .tagCall name args => [("name", .string name), ("args", .string args)]
  | .layoutCall name args => [("name", .string name), ("args", .string args)]
  | .sectionStart name => [("name", .string name)]
  | _ => []

def Span.toJson (s : Span) : Json :=
  .ofFields [("start", .number s.start), ("length", .number s.length)]

def Event.toJson (e : Event) : Json :=
  .ofFields ([("depth", .number e.depth), ("span", e.span.toJson),
    ("event", .string e.payload.label)] ++ e.payload.fields)

def Parameter.toJson (p : Parameter) : Json :=
  .ofFields [("name", .string p.name), ("ty", .string p.type)]

def Header.toJson (h : Header) : Json :=
  .ofFields
    [("imports", .array (h.imports.map .string)),
      ("params", .array (h.params.map Parameter.toJson)),
      ("model", (h.model.map Parameter.toJson).getD .null),
      ("body_start", .number h.body.start)]

def Source.report (name : Text) (kind : SourceKind) (header : Header) (events : List Event) :
    Json :=
  .ofFields
    [("name", .string name), ("kind", .string kind.text), ("header", header.toJson),
      ("events", .array (events.map Event.toJson))]

end Stencil
