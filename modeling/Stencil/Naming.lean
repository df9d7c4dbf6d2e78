import Stencil.Event
import Stencil.Path
import Stencil.Text.Word

/-!
Names of generated modules. A source path becomes a path of module names, each of which is a valid
module name of the generated language; different paths may get one name.
-/

namespace Stencil

namespace SourceKind

def directory : SourceKind → Text
  | template => "templates"
  | tag => "tags"
  | layout => "layouts"

def text : SourceKind → Text
  | template => "template"
  | tag => "tag"
  | layout => "layout"

def rank : SourceKind → Nat
  | template => 0
  | tag => 1
  | layout => 2

end SourceKind

/-- The name of a generated module: the kind of its source and its path of module names. -/
structure QualifiedName where
  kind : SourceKind
  segments : List Text
  deriving DecidableEq, Repr

namespace QualifiedName

def modulePath (n : QualifiedName) : Text := Text.joinWith "::" n.segments

def callPath (n : QualifiedName) : Text := "crate::".toList ++ n.modulePath

/-- The file of the module, relative to the directory of the generated tree. -/
def filePath (n : QualifiedName) : Text := Path.setExtension "rs" (Path.ofComponents n.segments)

/-- Names are ordered by kind, then by their segments from the first on. -/
def le (a b : QualifiedName) : Bool :=
  if a.kind = b.kind then !Text.listPrecedes b.segments a.segments else a.kind.rank < b.kind.rank

end QualifiedName

def reservedWords : List Text :=
  ["as", "async", "await", "box", "break", "const", "continue", "crate", "do", "dyn", "else",
    "enum", "extern", "false", "fn", "for", "gen", "if", "impl", "in", "let", "loop", "macro",
    "match", "mod", "move", "mut", "pub", "ref", "return", "self", "Self", "static", "struct",
    "super", "trait", "true", "try", "type", "unsafe", "use", "where", "while",
    "yield"].map String.toList

def isReserved (word : Text) : Bool := reservedWords.contains word

/-- A module name for a part of a path. Characters other than word characters become underscores;
an underscore in front keeps the name from being empty, a lone underscore or a number, and one at
the end from being reserved. -/
def moduleName (part : Text) : Text :=
  let word := part.map fun c => if Text.isWordChar c then c else '_'
  let name :=
    if word.isEmpty || word == ['_'] || word.head?.any Char.isDigit then '_' :: word else word
  if isReserved name then name ++ ['_'] else name

/-- How generated modules are named and where the sources of tags and layouts are. -/
structure Naming where
  rootModule : Text
  unitSuffix : Text
  tagExtension : Text
  layoutExtension : Text
  deriving DecidableEq, Repr

namespace Naming

def standard : Naming where
  rootModule := "rtpl"
  unitSuffix := "_rtpl"
  tagExtension := ".rtag"
  layoutExtension := ".rlayout"

def extension (naming : Naming) : SourceKind → Text
  | .template => []
  | .tag => naming.tagExtension
  | .layout => naming.layoutExtension

/-- The source path of what a body calls by a dotted name. -/
def sourcePath (naming : Naming) (kind : SourceKind) (dotted : Text) : Text :=
  (dotted.map fun c => if c = '.' then '/' else c) ++ naming.extension kind

/-- The name of the module itself: that of the final part without its extension, and the suffix. -/
def unitName (naming : Naming) (final : Text) : Text :=
  let base := Path.stem final
  let name := (if base.isEmpty then [] else moduleName base) ++ naming.unitSuffix
  if name.isEmpty || isReserved name then name ++ ['_'] else name

/-- The name of the module generated from a source path. Empty parts are skipped. -/
def qualify (naming : Naming) (kind : SourceKind) (path : Text) : QualifiedName :=
  let parts := List.splitOn '/' path
  ⟨kind, moduleName naming.rootModule :: kind.directory ::
    (parts.dropLast.filter (!·.isEmpty)).map moduleName ++
      [naming.unitName (parts.getLast?.getD [])]⟩

end Naming

end Stencil
