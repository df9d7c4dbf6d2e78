import Stencil.CommandLine.Arguments
import Stencil.Emission
import Stencil.Report
import Stencil.Source
import Stencil.SourceDirectory
import Stencil.Toml.Layer

/-!
What the command line does: it generates the module tree of templates, or shows how a source is
read. All of it happens on a file system as a value.
-/

namespace Stencil.CommandLine

/-- Where a command runs: the project's directory, and the user's settings file if there is one. -/
structure Place where
  root : Text
  userFile : Option Text := none
  deriving DecidableEq, Repr

/-- What a run shows: its exit code, its output, and the error that ended it. -/
structure Answer where
  code : Nat
  output : Text := []
  error : Option Text := none
  deriving DecidableEq, Repr

def Answer.success (output : Text) : Answer := { code := 0, output }

/-- The answer of a run that failed, with the causes of the failure from the outermost on. -/
def Answer.failure (causes : List Text) : Answer :=
  { code := 1, error := some (Text.joinWith ": " causes) }

def Answer.usage : Answer := { code := 2 }

structure Project where
  root : Text
  settings : Settings
  deriving DecidableEq, Repr

def Project.templateDir (p : Project) (templates : Option Text) : Text :=
  Path.push p.root (templates.getD p.settings.templateDir)

/-- The causes of a generation's failure. An error of a source is part of the message and a cause of
its own. -/
def generateCauses (e : GenerateError) : List Text :=
  match e with
  | .malformedHeader _ inner => [e.message, inner.message]
  | .badStructure _ inner => [e.message, inner.message]
  | _ => [e.message]

/-- Generates templates in order into one tree. Empty templates add nothing. -/
def generateTree (c : Compiler) : SourceTree → List Text → Except (List Text) SourceTree
  | tree, [] => .ok tree
  | tree, name :: names =>
      match (c.generate name).result with
      | .error e => .error (List.flatten ["Failed to compile ", name] :: generateCauses e)
      | .ok .nothing => generateTree c tree names
      | .ok (.units set) =>
          match tree.add set with
          | .error collision =>
              .error [List.flatten ["Failed to add ", name, " to the module tree"],
                (GenerateError.collision collision).message]
          | .ok tree => generateTree c tree names

/-- Generates the module tree of templates and writes it. Nothing is written if one of them fails. -/
def runGenerate (p : Project) (fs : FileTree) (names : List Text) (templates out : Option Text)
    (quiet : Bool) : FileTree × Answer :=
  let outDir := Path.push p.root (out.getD "src")
  let naming := p.settings.naming
  let compiler : Compiler := ⟨naming, fs.sources (p.templateDir templates) naming names⟩
  match generateTree compiler .empty names with
  | .error causes => (fs, .failure causes)
  | .ok tree =>
      match tree.writeTo fs outDir with
      | (fs, .error path) =>
          (fs, .failure [List.flatten ["Failed to write generated modules to ", outDir],
            "I/O error at ".toList ++ path])
      | (fs, .ok written) =>
          let summary := List.flatten
            ["Generated ", Text.decimal tree.units.size, " units for ", Text.decimal names.length,
              " templates into ", outDir, " (", Text.decimal written.length, " files written).\n"]
          (fs, .success (if quiet then [] else summary))

/-- The kind of a source by its name: by the extension of tags first, then by that of layouts. -/
def kindOfName (naming : Naming) (name : Text) : SourceKind :=
  if naming.tagExtension.isSuffixOf name then .tag
  else if naming.layoutExtension.isSuffixOf name then .layout
  else .template

def runEvents (p : Project) (fs : FileTree) (name : Text) (kind : Option SourceKind)
    (templates : Option Text) : Answer :=
  match fs.source? (p.templateDir templates) name with
  | none => .failure [List.flatten ["Template ", name, " not found"]]
  | some source =>
      let kind := kind.getD (kindOfName p.settings.naming name)
      match Source.read kind source with
      | .error e => .failure [List.flatten ["Failed to parse ", name], e.message]
      | .ok (header, events) =>
          .success ((Source.report name kind header events).pretty ++ ['\n'])

def versionLine : Text := "rtpl 0.1.0\n"

def usageLines : Text :=
  "Usage: rtpl [-q|--quiet] [-v|--verbose]... <COMMAND>\n\nCommands:\n  generate [--templates DIR] [--out DIR] NAME...\n  events [--templates DIR] [--kind template|tag|layout] NAME\n"

def runCommand (place : Place) (fs : FileTree) (command : Command) : FileTree × Answer :=
  match command with
  | .version => (fs, .success versionLine)
  | .help => (fs, .success usageLines)
  | .generate names templates out quiet =>
      match Settings.load Toml.library fs place.root place.userFile with
      | .error e => (fs, .failure ["Failed to load settings", e.message])
      | .ok settings => runGenerate ⟨place.root, settings⟩ fs names templates out quiet
  | .events name kind templates =>
      match Settings.load Toml.library fs place.root place.userFile with
      | .error e => (fs, .failure ["Failed to load settings", e.message])
      | .ok settings => (fs, runEvents ⟨place.root, settings⟩ fs name kind templates)

def run (place : Place) (fs : FileTree) (args : List Text) : FileTree × Answer :=
  match read args with
  | none => (fs, .usage)
  | some command => runCommand place fs command

end Stencil.CommandLine
