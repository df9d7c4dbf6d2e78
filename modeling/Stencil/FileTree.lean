import Stencil.Path

/-!
A file system as a value: a tree of directories with files at its leaves. Relative and absolute
paths both start at its root. A path is walked name by name, and each name needs a directory to
stand in.
-/

namespace Stencil

inductive FileTree where
  | file (bytes : List UInt8)
  | directory (entries : List (Text × FileTree))
  deriving Repr

namespace FileTree

def empty : FileTree := .directory []

/-- What is at a place, given by the names on the way to it. -/
def get? : FileTree → List Text → Option FileTree
  | tree, [] => some tree
  | .file _, _ :: _ => none
  | .directory entries, name :: place => (entries.lookup name).bind fun tree => tree.get? place

/-- The tree with something else at a place in one of its directories. -/
def set : FileTree → List Text → FileTree → FileTree
  | _, [], new => new
  | .file bytes, _ :: _, _ => .file bytes
  | .directory entries, name :: place, new =>
      .directory ((name, ((entries.lookup name).getD empty).set place new) ::
        entries.filter (·.1 != name))

/-- The longest name that an entry can have, in bytes. -/
def nameLimit : Nat := 255

def isName (name : Text) : Bool := name.byteSize ≤ nameLimit

/-- The byte count that a path stays below. -/
def pathLimit : Nat := 4096

/-- Whether a path can be walked at all: it is short enough and has no zero character. -/
def isPath (path : Text) : Bool := path.byteSize < pathLimit && !path.contains '\x00'

inductive Walk where
  /-- At a place, with what is there. The last name on the way may be that of no entry. -/
  | arrived (place : List Text) (found : Option FileTree)
  /-- Before a directory that is missing. -/
  | missing
  /-- Where no path leads on: at a file, or before a name that no entry can have. -/
  | blocked

/-- The names of a walk so far, the last one first, each with what is there. -/
abbrev Trail := List (Text × Option FileTree)

/-- What is at the end of a trail that starts at a root. -/
def Trail.found (root : FileTree) : Trail → Option FileTree
  | [] => some root
  | (_, found) :: _ => found

/-- Walks on from the end of a trail. The root is its own parent. -/
def walkFrom (root : FileTree) : Trail → List Text → Walk
  | trail, [] => .arrived (trail.map (·.1)).reverse (trail.found root)
  | trail, name :: rest =>
      match trail.found root with
      | none => .missing
      | some (.file _) => .blocked
      | some (.directory entries) =>
          if name.isEmpty || name == ['.'] then walkFrom root trail rest
          else if name == ['.', '.'] then walkFrom root trail.tail rest
          else if isName name then walkFrom root ((name, entries.lookup name) :: trail) rest
          else .blocked

def walk (tree : FileTree) (components : List Text) : Walk := tree.walkFrom [] components

def follow (tree : FileTree) (path : Text) : Walk :=
  if isPath path then tree.walk (List.splitOn '/' path) else .blocked

def find? (tree : FileTree) (path : Text) : Option FileTree :=
  match tree.follow path with
  | .arrived _ found => found
  | _ => none

def readBytes? (tree : FileTree) (path : Text) : Option (List UInt8) :=
  match tree.find? path with
  | some (.file bytes) => some bytes
  | _ => none

/-- The text of the file at a path, if it is UTF-8. -/
def readText? (tree : FileTree) (path : Text) : Option Text :=
  (tree.readBytes? path).bind Text.decode?

def pathExists (tree : FileTree) (path : Text) : Bool := (tree.find? path).isSome

inductive Making where
  | made (tree : FileTree)
  | present
  | missingParent
  | refused

def makeDirectory (tree : FileTree) (components : List Text) : Making :=
  match tree.walk components with
  | .arrived _ (some (.directory _)) => .present
  | .arrived _ (some (.file _)) => .refused
  | .arrived place none => .made (tree.set place empty)
  | .missing => .missingParent
  | .blocked => .refused

/-- Makes the directory with the given components, the last one first, and those it stands in where
they are missing. Returns the tree, and whether the directory is there now; the directories made
before a failure stay. -/
def makeUp (tree : FileTree) : List Text → FileTree × Bool
  | [] => (tree, true)
  | name :: above =>
      match tree.makeDirectory (name :: above).reverse with
      | .made tree => (tree, true)
      | .present => (tree, true)
      | .refused => (tree, false)
      | .missingParent =>
          match tree.makeUp above with
          | (tree, false) => (tree, false)
          | (tree, true) =>
              match tree.makeDirectory (name :: above).reverse with
              | .made tree => (tree, true)
              | .present => (tree, true)
              | _ => (tree, false)

def makeDirectories (tree : FileTree) (path : Text) : FileTree × Bool :=
  if isPath path then tree.makeUp (List.splitOn '/' path).reverse else (tree, false)

/-- Writes a file. Fails where a directory is in the way or the file's directory is missing. -/
def write? (tree : FileTree) (path : Text) (bytes : List UInt8) : Option FileTree :=
  match tree.follow path with
  | .arrived _ (some (.directory _)) => none
  | .arrived place _ => some (tree.set place (.file bytes))
  | _ => none

mutual

/-- All places of a tree and what is there, each directory before its entries. -/
def places : FileTree → List (List Text × FileTree)
  | .file bytes => [([], .file bytes)]
  | .directory entries => ([], .directory entries) :: placesOf entries

def placesOf : List (Text × FileTree) → List (List Text × FileTree)
  | [] => []
  | (name, tree) :: rest =>
      (tree.places.map fun (place, found) => (name :: place, found)) ++ placesOf rest

end

def files (tree : FileTree) : List (List Text × List UInt8) :=
  tree.places.filterMap fun
    | (place, .file bytes) => some (place, bytes)
    | (_, .directory _) => none

end FileTree

end Stencil
