import Stencil.FileTree
import Stencil.SourceTree

/-!
Writing a tree of generated modules into a file system. A file that is there with the right contents
is left alone, so that a second writing changes nothing.
-/

namespace Stencil.FileTree

/-- Makes the directory that a path stands in. Returns the directory if that fails. -/
def makeParent (fs : FileTree) (path : Text) : FileTree × Option Text :=
  match Path.parent? path with
  | none => (fs, none)
  | some parent =>
      match fs.makeDirectories parent with
      | (fs, true) => (fs, none)
      | (fs, false) => (fs, some parent)

/-- What installing a file does: nothing, if it is there with these contents; or it is written; or
that fails at a path. -/
inductive Installation where
  | unchanged
  | written (fs : FileTree)
  | failed (fs : FileTree) (path : Text)

def install (fs : FileTree) (path contents : Text) : Installation :=
  if fs.readText? path = some contents then .unchanged
  else
    match fs.makeParent path with
    | (fs, some parent) => .failed fs parent
    | (fs, none) =>
        match fs.write? path (Text.encode contents) with
        | none => .failed fs path
        | some after => .written after

/-- Installs files below a directory, in order and up to the first failure. Returns the file system
afterwards, and the paths that were written or the path that failed. -/
def installAll (directory : Text) :
    FileTree → List GeneratedFile → FileTree × Except Text (List Text)
  | fs, [] => (fs, .ok [])
  | fs, generated :: rest =>
      let path := Path.push directory generated.path
      match fs.install path generated.contents with
      | .unchanged => installAll directory fs rest
      | .failed fs path => (fs, .error path)
      | .written fs =>
          let (fs, result) := installAll directory fs rest
          (fs, result.map (path :: ·))

end Stencil.FileTree

namespace Stencil.SourceTree

/-- Writes the files of a tree below a directory of a file system. -/
def writeTo (tree : SourceTree) (fs : FileTree) (directory : Text) :
    FileTree × Except Text (List Text) :=
  fs.installAll directory tree.files

end Stencil.SourceTree
