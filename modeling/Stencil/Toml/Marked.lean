import Stencil.Toml.Value

/-!
What the values of a document stand for. Integers have 64 bits. Where dates and times are passed on
inside tables, a table whose first key in order is a certain mark stands for the date or time that is
spelled under it.
-/

namespace Stencil.Toml

def isWord (i : Int) : Bool := -0x8000000000000000 ≤ i && i < 0x8000000000000000

mutual

def Value.isBounded : Value → Bool
  | .string _ => true
  | .integer i => isWord i
  | .float _ => true
  | .boolean _ => true
  | .datetime _ => true
  | .array _ items => itemsBounded items
  | .table _ entries => entriesBounded entries

def itemsBounded : List Value → Bool
  | [] => true
  | v :: rest => v.isBounded && itemsBounded rest

def entriesBounded : List (Text × Value) → Bool
  | [] => true
  | (_, v) :: rest => v.isBounded && entriesBounded rest

end

/-- The key that marks a table as a date or a time. -/
def datetimeMark : Text := "$__toml_private_datetime".toList

/-- Whether the mark is among the keys of a table and comes before all others. -/
def Entries.isMarked (entries : Entries) : Bool :=
  entries.any (·.1 == datetimeMark) && !entries.any (Text.precedes ·.1 datetimeMark)

/-- The date or time that a marked table stands for. The entries after the mark do not count. -/
def Entries.datetime? (entries : Entries) : Option Datetime :=
  match entries.lookup datetimeMark with
  | some (.string t) => Datetime.read? t
  | _ => none

mutual

/-- A value with dates and times in place of marked tables. There is none if an integer does not
have 64 bits, or if a marked table spells no date or time. -/
def Value.unmark? : Value → Option Value
  | .string t => some (.string t)
  | .integer i => if isWord i then some (.integer i) else none
  | .float x => some (.float x)
  | .boolean b => some (.boolean b)
  | .datetime d => some (.datetime d)
  | .array ofTables items => (unmarkItems? items).map (.array ofTables)
  | .table origin entries =>
      if Entries.isMarked entries then (Entries.datetime? entries).map .datetime
      else (unmarkEntries? entries).map (.table origin)

def unmarkItems? : List Value → Option (List Value)
  | [] => some []
  | v :: rest =>
      match v.unmark?, unmarkItems? rest with
      | some v, some rest => some (v :: rest)
      | _, _ => none

def unmarkEntries? : List (Text × Value) → Option (List (Text × Value))
  | [] => some []
  | (key, v) :: rest =>
      match v.unmark?, unmarkEntries? rest with
      | some v, some rest => some ((key, v) :: rest)
      | _, _ => none

end

end Stencil.Toml
