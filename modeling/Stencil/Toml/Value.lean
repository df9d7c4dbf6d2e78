import Stencil.Toml.Datetime
import Stencil.Toml.Double

/-!
Values of a TOML document, and tables as they are built up from key-value pairs and headers.
-/

namespace Stencil.Toml

/-- How a table came about, which decides what may still be added to it. -/
inductive Origin where
  /-- On the way to a header's table. -/
  | implicit
  /-- By a header of its own, or as an element of an array of tables. -/
  | header
  /-- By a dotted key. -/
  | dotted
  /-- Written in braces. -/
  | braces
  deriving DecidableEq, Repr

/-- A value. An array is either written in brackets or made of the tables of array headers. -/
inductive Value where
  | string (text : Text)
  | integer (value : Int)
  | float (value : Double)
  | boolean (value : Bool)
  | datetime (value : Datetime)
  | array (ofTables : Bool) (items : List Value)
  | table (origin : Origin) (entries : List (Text × Value))
  deriving Repr

abbrev Entries := List (Text × Value)

namespace Value

def get? (v : Value) (key : Text) : Option Value :=
  match v with
  | table _ entries => entries.lookup key
  | _ => none

def entries? : Value → Option Entries
  | table _ entries => some entries
  | _ => none

def isTable (v : Value) : Bool := v.entries?.isSome

end Value

namespace Entries

/-- Puts a value under a key, in place of one that is there. -/
def put (entries : Entries) (key : Text) (value : Value) : Entries :=
  if entries.any (·.1 == key) then
    entries.map fun (k, v) => if k == key then (k, value) else (k, v)
  else entries ++ [(key, value)]

def add? (entries : Entries) (key : Text) (value : Value) : Option Entries :=
  if entries.any (·.1 == key) then none else some (entries ++ [(key, value)])

/-- Changes the table at the end of a path of keys, starting from a table of some origin. Missing
tables are made. A path leads through the last table of an array of tables, and not into tables in
braces. A dotted key does not lead into a table with a header of its own, and a table that it leads
through counts as made by dotted keys from then on. -/
def descend? (dotted : Bool) (change : Origin → Entries → Option Entries) :
    List Text → Origin → Entries → Option Entries
  | [], origin, entries => change origin entries
  | key :: path, _, entries =>
      match entries.lookup key with
      | none =>
          let made := if dotted then .dotted else .implicit
          (descend? dotted change path made []).map fun inner =>
            entries.put key (.table made inner)
      | some (.table found inner) =>
          if found = .braces ∨ (dotted ∧ found = .header) then none
          else
            let found := if dotted then .dotted else found
            (descend? dotted change path found inner).map fun inner =>
              entries.put key (.table found inner)
      | some (.array true items) =>
          match items.getLast? with
          | some (.table found inner) =>
              (descend? dotted change path found inner).map fun inner =>
                entries.put key (.array true (items.dropLast ++ [.table found inner]))
          | _ => none
      | some _ => none

/-- Adds a value under a dotted key. The table that it goes into has no header of its own. -/
def addDotted? (entries : Entries) (path : List Text) (key : Text) (value : Value) :
    Option Entries :=
  descend? true (fun origin inner =>
    if path.isEmpty ∨ origin = .dotted then inner.add? key value else none) path .header entries

/-- Opens the table of a header: a new one, or one that other headers led through. -/
def openTable? (entries : Entries) (path : List Text) (key : Text) : Option Entries :=
  descend? false (fun _ inner =>
    match inner.lookup key with
    | none => some (inner.put key (.table .header []))
    | some (.table .implicit sub) => some (inner.put key (.table .header sub))
    | some _ => none) path .header entries

def appendTable? (entries : Entries) (path : List Text) (key : Text) : Option Entries :=
  descend? false (fun _ inner =>
    match inner.lookup key with
    | none => some (inner.put key (.array true [.table .header []]))
    | some (.array true items) => some (inner.put key (.array true (items ++ [.table .header []])))
    | some _ => none) path .header entries

/-- Adds a value to the table that a header's path leads to. -/
def addBelow? (entries : Entries) (header path : List Text) (key : Text) (value : Value) :
    Option Entries :=
  descend? false (fun _ inner => inner.addDotted? path key value) header .header entries

end Entries

end Stencil.Toml
