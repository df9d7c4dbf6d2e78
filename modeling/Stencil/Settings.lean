import Stencil.FileTree
import Stencil.Naming

/-!
Settings of a project, layered from up to four files. For each key the value of the highest layer
that has it counts, and only that value is converted to the type of its setting. How documents are
parsed and layers are merged is left to a library.
-/

namespace Stencil

/-- How a project names its modules, where its templates are, and whether generated units are
shown. -/
structure Settings where
  naming : Naming
  templateDir : Text
  debug : Bool
  deriving DecidableEq, Repr

namespace Settings

def standard : Settings where
  naming := .standard
  templateDir := "templates"
  debug := false

inductive Error where
  | config
  | manifestUnreadable
  | manifestMalformed
  | manifestUnwritable
  deriving DecidableEq, Repr

def Error.message : Error → Text
  | .config => "Configuration build/deserialize error"
  | .manifestUnreadable => "Failed to read Cargo.toml"
  | .manifestMalformed => "Failed to parse Cargo.toml TOML"
  | .manifestUnwritable => "Failed to serialize extracted Cargo.toml metadata"

def isKeyChar (c : Char) : Bool := c.isAlphanum || c == '_' || c == '-'

/-- A library for documents and for layers of settings. -/
structure Library where
  /-- The values of documents. -/
  Node : Type
  /-- The values of layers. -/
  Value : Type
  Layer : Type
  parse? : Text → Option Node
  get? : Node → Text → Option Node
  isTable : Node → Bool
  /-- A table as a document of its own. -/
  write? : Node → Option Text
  ofText? : Text → Option Layer
  /-- The layer of a file that may be missing. -/
  ofFile? : FileTree → Text → Option (Option Layer)
  /-- What a layer has for a value of a document. -/
  ofNode : Node → Value
  /-- Layers as one, lowest first. -/
  merge : List Layer → Layer
  value? : Layer → Text → Option Value
  /-- Whether a value is a table or an array. -/
  isContainer : Value → Bool
  text? : Value → Option Text
  flag? : Value → Option Bool

/-- Whether a key is a plain name, with letters, digits, underscores and hyphens only. -/
def isPlain (key : Text) : Bool := key.all isKeyChar

def Library.IsPlain (lib : Library) (layer : lib.Layer) : Prop :=
  ∀ key, (lib.value? layer key).isSome → isPlain key = true

/-- What the settings rely on: layers are laid over each other key by key, and tables and arrays
cannot be converted. Tables under one key may be merged. -/
structure Library.Lawful (lib : Library) : Prop where
  merge_nil : ∀ key, lib.value? (lib.merge []) key = none
  merge_absent : ∀ layers top key, lib.IsPlain top → lib.value? top key = none →
    lib.value? (lib.merge (layers ++ [top])) key = lib.value? (lib.merge layers) key
  merge_scalar : ∀ layers top key v, lib.IsPlain top → lib.value? top key = some v →
    lib.isContainer v = false → lib.value? (lib.merge (layers ++ [top])) key = some v
  merge_container : ∀ layers top key v, lib.IsPlain top → lib.value? top key = some v →
    lib.isContainer v = true →
      ∃ w, lib.value? (lib.merge (layers ++ [top])) key = some w ∧ lib.isContainer w = true
  text?_container : ∀ v, lib.isContainer v = true → lib.text? v = none
  flag?_container : ∀ v, lib.isContainer v = true → lib.flag? v = none

def Library.conversions (lib : Library) (v : lib.Value) : Option Text × Option Bool :=
  (lib.text? v, lib.flag? v)

/-- A setting: converted from the value that is there, or the default if there is none. -/
def field {α β : Type} (convert : β → Option α) (default : α) : Option β → Except Error α
  | none => .ok default
  | some value =>
      match convert value with
      | none => .error .config
      | some a => .ok a

variable (lib : Library)

def ofLayer (layer : lib.Layer) : Except Error Settings := do
  let value? (key : Text) := lib.value? layer key
  let rootModule ← field lib.text? standard.naming.rootModule (value? "root_module")
  let unitSuffix ← field lib.text? standard.naming.unitSuffix (value? "unit_suffix")
  let tagExtension ← field lib.text? standard.naming.tagExtension (value? "tag_extension")
  let layoutExtension ← field lib.text? standard.naming.layoutExtension (value? "layout_extension")
  let templateDir ← field lib.text? standard.templateDir (value? "template_dir")
  let debug ← field lib.flag? standard.debug (value? "debug")
  return ⟨⟨rootModule, unitSuffix, tagExtension, layoutExtension⟩, templateDir, debug⟩

def fileLayer (fs : FileTree) (path : Text) : Except Error (Option lib.Layer) :=
  match lib.ofFile? fs path with
  | none => .error .config
  | some layer => .ok layer

/-- The keys that lead to the table for these settings in a manifest. -/
def manifestKeys : List Text := ["package".toList, "metadata".toList, "rtpl".toList]

/-- The table for these settings in a project's manifest. There is none without a manifest. -/
def manifestTable (fs : FileTree) (path : Text) : Except Error (Option lib.Node) :=
  if !fs.pathExists path then .ok none
  else
    match fs.readText? path with
    | none => .error .manifestUnreadable
    | some t =>
        match lib.parse? t with
        | none => .error .manifestMalformed
        | some manifest => .ok ((manifestKeys.foldlM lib.get? manifest).filter lib.isTable)

/-- The layer of a table in a manifest. The table is passed on as a document of its own. -/
def tableLayer (table : lib.Node) : Except Error lib.Layer :=
  match lib.write? table with
  | none => .error .manifestUnwritable
  | some t =>
      match lib.ofText? t with
      | none => .error .config
      | some layer => .ok layer

/-- Loads the settings of a project from the user's file, the project's manifest and its own two
files. What is wrong with the manifest is reported first. -/
def load (fs : FileTree) (root : Text) (userFile : Option Text) : Except Error Settings := do
  let table ← manifestTable lib fs (Path.push root "Cargo.toml")
  let manifest ← table.mapM (tableLayer lib)
  let user ← userFile.elim (.ok none) (fileLayer lib fs)
  let hidden ← fileLayer lib fs (Path.push root ".rtpl.toml")
  let plain ← fileLayer lib fs (Path.push root "rtpl.toml")
  ofLayer lib (lib.merge ([user, manifest, hidden, plain].filterMap id))

end Settings

end Stencil
