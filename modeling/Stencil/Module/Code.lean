import Stencil.Header
import Stencil.Module.Statements

/-!
The code of a generated module: a preamble, the declarations that its kind needs, and the statements
of its body.
-/

namespace Stencil.Module

def plainLines (lines : List Text) : Text := lines.flatMap (· ++ ['\n'])

def preamble (source : Text) (imports : List Text) : Text :=
  plainLines <|
    [List.flatten ["// Generated by rtpl from `", source, "`. Do not edit."],
      "#![allow(unused_imports, unused_mut, unused_variables, clippy::all)]",
      [],
      "use rtpl_runtime::TemplateOutput;"] ++
    imports.map (fun path => List.flatten ["use ", path, ";"]) ++ [[]]

/-- The declarations of a template module up to the body of its render function. -/
def templateHead (model : Parameter) : Text :=
  plainLines
    ["pub struct Template;",
      [],
      "pub fn new() -> Box<dyn rtpl_runtime::Renderable> \x7b",
      "    Box::new(Template)",
      "\x7d",
      [],
      "impl rtpl_runtime::Renderable for Template \x7b",
      "    fn render(",
      "        &self,",
      "        model: &dyn std::any::Any,",
      "        output: &mut dyn TemplateOutput,",
      "    ) -> Result<(), rtpl_runtime::RenderError> \x7b",
      List.flatten ["        let model = rtpl_runtime::downcast_model::<", model.type, ">(model)?;"],
      "        render(model, output);",
      "        Ok(())",
      "    \x7d",
      "\x7d",
      [],
      List.flatten ["pub fn render(", model.name, ": &", model.type,
        ", output: &mut dyn TemplateOutput) \x7b"]]

/-- The head of the render function of a tag or layout module. -/
def fragmentHead (kind : SourceKind) (params : List Parameter) : Text :=
  plainLines
    [List.flatten
      ["pub fn render(output: &mut dyn TemplateOutput",
        params.flatMap fun p => List.flatten [", ", p.name, ": ", p.type],
        if kind = .layout then ", rtpl_sections: &mut rtpl_runtime::SectionLookup<'_>" else [],
        ") \x7b"]]

/-- The parameter of a template module whose header names no model. -/
def anyModel : Parameter := ⟨"_model", "()"⟩

/-- A module up to the statements of its body. -/
def top (kind : SourceKind) (source : Text) (header : Header) : Text :=
  preamble source header.imports ++
    match kind with
    | .template => templateHead (header.model.getD anyModel)
    | .tag | .layout => fragmentHead kind header.params

/-- The code of the module for a source with a given header and events. -/
def code (naming : Naming) (kind : SourceKind) (source : Text) (header : Header)
    (events : List Event) : Text :=
  top kind source header ++ statements naming events ++ plainLines ["\x7d"]

end Stencil.Module
