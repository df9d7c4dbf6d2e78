import Stencil.Body.Lexeme
import Stencil.Compiler
import Stencil.FileTree

/-!
The sources in a directory of a file system, by their paths from there.
-/

namespace Stencil

/-- The tags and layouts that a source calls, by their dotted names. -/
def Source.calls (source : Text) : List (SourceKind × Text) :=
  match Header.ofFragment source with
  | .error _ => []
  | .ok header =>
      (Body.lex header.body.text).lexemes.filterMap fun
        | .directive (.tagCall name _) => some (.tag, name)
        | .directive (.layoutOpen name _) => some (.layout, name)
        | _ => none

namespace FileTree

def source? (fs : FileTree) (directory name : Text) : Option Text :=
  fs.readText? (Path.push directory name)

def texts (fs : FileTree) : List Text :=
  fs.files.filterMap fun (_, bytes) => Text.decode? bytes

/-- The given names, and every name by which some file calls a source. -/
def sourceNames (fs : FileTree) (naming : Naming) (names : List Text) : List Text :=
  let called := fs.texts.flatMap fun t =>
    (Source.calls t).map fun (kind, name) => naming.sourcePath kind name
  (names ++ called).eraseDups

/-- The sources in a directory under given names and under those that they can lead to. -/
def sources (fs : FileTree) (directory : Text) (naming : Naming) (names : List Text) : Sources :=
  ⟨(fs.sourceNames naming names).filterMap fun name =>
    (fs.source? directory name).map fun text => (name, text)⟩

end FileTree

end Stencil
