import Stencil.Settings
import Stencil.Text.Lossy
import Stencil.Toml.Marked
import Stencil.Toml.Writer

/-!
Layers of settings that TOML documents give. Dates and times are texts in a layer, and a table has
its keys in order.
-/

namespace Stencil.Toml

inductive LayerValue where
  | text (text : Text)
  | integer (value : Int)
  | float (value : Double)
  | flag (value : Bool)
  | list (items : List LayerValue)
  | table (entries : List (Text × LayerValue))
  deriving Repr

abbrev Layer := List (Text × LayerValue)

/-- Puts a value under a key, in place of one that is there or else before the first greater key. -/
def Layer.put (key : Text) (value : LayerValue) : Layer → Layer
  | [] => [(key, value)]
  | (other, found) :: rest =>
      if key = other then (key, value) :: rest
      else if Text.precedes key other then (key, value) :: (other, found) :: rest
      else (other, found) :: Layer.put key value rest

mutual

def LayerValue.ofValue : Value → LayerValue
  | .string t => .text t
  | .integer i => .integer i
  | .float x => .float x
  | .boolean b => .flag b
  | .datetime d => .text d.text
  | .array _ items => .list (ofItems items)
  | .table _ entries => .table (ofEntries entries)

def ofItems : List Value → List LayerValue
  | [] => []
  | v :: rest => .ofValue v :: ofItems rest

def ofEntries : List (Text × Value) → Layer
  | [] => []
  | (key, v) :: rest => Layer.put key (.ofValue v) (ofEntries rest)

end

namespace LayerValue

def isContainer : LayerValue → Bool
  | list _ => true
  | table _ => true
  | _ => false

/-- A value as text. Numbers and flags are written out. -/
def text? : LayerValue → Option Text
  | text t => some t
  | integer i => some (integerText i)
  | float x => some x.text
  | flag b => some (if b then "true" else "false").toList
  | list _ => none
  | table _ => none

/-- A value as a flag. A number means whether it is other than zero, and a text is one of a few words
in any case. -/
def flag? : LayerValue → Option Bool
  | flag b => some b
  | integer i => some (i != 0)
  | float x => some (!x.isZero)
  | text t =>
      let word := t.map Char.toLower
      if (["true", "on", "yes", "1"].map String.toList).contains word then some true
      else if (["false", "off", "no", "0"].map String.toList).contains word then some false
      else none
  | list _ => none
  | table _ => none

end LayerValue

mutual

/-- A value laid over what a lower layer has. Two tables are merged. -/
def LayerValue.over (below : Option LayerValue) : LayerValue → LayerValue
  | .table entries =>
      match below with
      | some (.table lower) => .table (layOver lower entries)
      | _ => .table (layOver [] entries)
  | v => v

def layOver (below : Layer) : List (Text × LayerValue) → Layer
  | [] => below
  | (key, v) :: rest =>
      let merged := layOver below rest
      merged.put key (v.over (merged.lookup key))

end

/-- Whether an index of an array has these digits after its sign: it has 64 bits. -/
def isIndex (negative : Bool) (digits : Text) : Bool :=
  !digits.isEmpty &&
    Datetime.digitsValue digits < if negative then 0x8000000000000001 else 0x8000000000000000

/-- What follows an index and its closing bracket. Spaces may stand around the index. -/
def afterIndex? (t : Text) : Option Text :=
  let t := skipSpace t
  let negative := t.head? = some '-'
  let t := if negative then t.drop 1 else t
  match skipSpace (t.dropWhile Char.isDigit) with
  | ']' :: rest => if isIndex negative (t.takeWhile Char.isDigit) then some rest else none
  | _ => none

/-- Whether a text continues a path of keys: any number of dots with names after them and of indices
in brackets. -/
def isPathTail : Nat → Text → Bool
  | 0, _ => false
  | _ + 1, [] => true
  | n + 1, '.' :: t =>
      !(t.takeWhile Settings.isKeyChar).isEmpty && isPathTail n (t.dropWhile Settings.isKeyChar)
  | n + 1, '[' :: t => (afterIndex? t).any (isPathTail n)
  | _ + 1, _ => false

/-- A key of a layer may be a path into a table or an array; it then gives its first name such a
value. -/
def resolveKey (key : Text) (value : LayerValue) : Text × LayerValue :=
  let root := key.takeWhile Settings.isKeyChar
  let tail := key.dropWhile Settings.isKeyChar
  if root.isEmpty || tail.isEmpty || !isPathTail (tail.length + 1) tail then (key, value)
  else if tail.head? = some '.' then (root, .table [(tail, value)])
  else (root, .list [value])

def addLayer (below : Layer) : Layer → Layer
  | [] => below
  | (key, value) :: rest =>
      let (key, value) := resolveKey key value
      let merged := addLayer below rest
      merged.put key (value.over (merged.lookup key))

def layer? (t : Text) : Option Layer :=
  (read? t).bind fun entries => if entriesBounded entries then some (ofEntries entries) else none

/-- The layer of a settings file, which may start with a byte order mark of its own. There is none if
the file is missing; a file with the extension written once more stands in for it. -/
def fileLayer? (fs : FileTree) (path : Text) : Option (Option Layer) :=
  match (fs.readBytes? path).or (fs.readBytes? (path ++ ".toml".toList)) with
  | none => some none
  | some bytes => (layer? (skipMark (Text.decodeLossy bytes))).map some

/-- Settings in TOML. Marked tables of a manifest are dates and times. -/
def library : Settings.Library where
  Node := Value
  Value := LayerValue
  Layer := Layer
  parse? t := (read? t).bind fun entries => (Value.table .header entries).unmark?
  get? := Value.get?
  isTable := Value.isTable
  write? v := v.entries?.map write
  ofText? := layer?
  ofFile? := fileLayer?
  ofNode := LayerValue.ofValue
  merge layers := layers.foldl addLayer []
  value? layer key := layer.lookup key
  isContainer := LayerValue.isContainer
  text? := LayerValue.text?
  flag? := LayerValue.flag?

end Stencil.Toml
