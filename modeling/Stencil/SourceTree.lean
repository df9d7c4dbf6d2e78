import Stencil.Compiler

/-!
The tree of generated modules as files. Each unit has a file of its own, and each directory a module
file that declares its children; the module file at a root also lists the root's templates.
-/

namespace Stencil

/-- The units that go into a tree. -/
structure SourceTree where
  units : UnitSet := .empty
  deriving DecidableEq, Repr

/-- A file of a tree: its path relative to the tree's directory, and its contents. -/
structure GeneratedFile where
  path : Text
  contents : Text
  deriving DecidableEq, Repr

namespace SourceTree

def empty : SourceTree := {}

/-- Adds a set of units. Units of the tree win over units of the same name and source. -/
def add (tree : SourceTree) (units : UnitSet) : Except Collision SourceTree :=
  match tree.units.merge units with
  | .error collision => .error collision
  | .ok merged => .ok ⟨merged⟩

/-- A list without the members that the same one follows. -/
def dropRepeats {α : Type} [BEq α] : List α → List α
  | a :: b :: rest => if a == b then dropRepeats (b :: rest) else a :: dropRepeats (b :: rest)
  | rest => rest

/-- The distinct members of a list in increasing order. -/
def sorted {α : Type} [BEq α] (precedes : α → α → Bool) (xs : List α) : List α :=
  dropRepeats (xs.mergeSort (fun a b => !precedes b a))

def directoriesOf (segments : List Text) : List (List Text) :=
  (List.range (segments.length - 1)).map fun k => segments.take (k + 1)

def directories (tree : SourceTree) : List (List Text) :=
  sorted Text.listPrecedes (tree.units.units.flatMap fun u => directoriesOf u.name.segments)

/-- The segment that follows a directory on the way to a unit. -/
def childIn? (directory segments : List Text) : Option Text :=
  if directory.isPrefixOf segments then segments[directory.length]? else none

def children (tree : SourceTree) (directory : List Text) : List Text :=
  sorted Text.precedes (tree.units.units.filterMap fun u => childIn? directory u.name.segments)

def templatesOf (tree : SourceTree) (root : Text) : List QualifiedName :=
  ((tree.units.templates.map (·.name)).filter (·.segments.head? == some root)).mergeSort
    QualifiedName.le

def tableEntry (name : QualifiedName) : Text :=
  List.flatten ["        (\"", name.modulePath, "\", self::",
    Text.joinWith "::" name.segments.tail, "::new as rtpl_runtime::Constructor),"]

def tableLines (tree : SourceTree) (root : Text) : List Text :=
  let entries := (tree.templatesOf root).map tableEntry
  ["pub fn templates() -> Vec<(&'static str, rtpl_runtime::Constructor)> \x7b".toList] ++
  (if entries.isEmpty then ["    Vec::new()".toList]
    else ["    vec![".toList] ++ entries ++ ["    ]".toList]) ++
  ["\x7d".toList]

def declaration (child : Text) : Text := List.flatten ["pub mod ", child, ";"]

def moduleFile (tree : SourceTree) (directory : List Text) : GeneratedFile where
  path := Path.push (Path.ofComponents directory) "mod.rs"
  contents := Module.plainLines <|
    ["// Generated by rtpl. Do not edit.".toList, []] ++
    (tree.children directory).map declaration ++
    match directory with
    | [root] => [] :: tree.tableLines root
    | _ => []

def unitFile (u : CodeUnit) : GeneratedFile := ⟨u.name.filePath, u.code⟩

/-- All files of the tree: the module files by directory, then the units' own files. -/
def files (tree : SourceTree) : List GeneratedFile :=
  tree.directories.map tree.moduleFile ++ tree.units.units.map unitFile

end SourceTree

end Stencil
