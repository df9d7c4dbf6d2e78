import Stencil.Naming

/-!
Sets of generated modules, in the order in which they were first named. A module is reserved before
its code is known, so that a second reference to it, also from its own body, finds it present.
-/

namespace Stencil

/-- A generated module: its name, the path of its source and its code. -/
structure CodeUnit where
  name : QualifiedName
  source : Text
  code : Text
  deriving DecidableEq, Repr

/-- Units stand for the same module when they have the same name. -/
def CodeUnit.sameModule (a b : CodeUnit) : Bool := a.name == b.name

/-- What stands under a name of a set: a unit, or the source that the name is reserved for as long as
its code is not known. -/
inductive Content where
  | reserved (source : Text)
  | finished (u : CodeUnit)
  deriving DecidableEq, Repr

namespace Content

def source : Content → Text
  | reserved source => source
  | finished u => u.source

def unit? : Content → Option CodeUnit
  | reserved _ => none
  | finished u => some u

end Content

/-- A name of a set with what stands under it. A unit has a name of its own besides. -/
structure Slot where
  name : QualifiedName
  content : Content
  deriving DecidableEq, Repr

namespace Slot

def reserved (name : QualifiedName) (source : Text) : Slot := ⟨name, .reserved source⟩

def ofUnit (u : CodeUnit) : Slot := ⟨u.name, .finished u⟩

def source (s : Slot) : Text := s.content.source

def unit? (s : Slot) : Option CodeUnit := s.content.unit?

/-- Puts something into a slot if the slot has a given name. -/
def fill (name : QualifiedName) (content : Content) (s : Slot) : Slot :=
  if s.name = name then { s with content } else s

theorem name_fill (name : QualifiedName) (content : Content) (s : Slot) :
    (s.fill name content).name = s.name := by
  rw [fill]
  split <;> rfl

theorem map_name_fill (name : QualifiedName) (content : Content) (slots : List Slot) :
    (slots.map (fill name content)).map (·.name) = slots.map (·.name) := by
  rw [List.map_map]
  exact List.map_congr_left fun s _ => name_fill name content s

theorem nodup_append_of_absent {slots : List Slot} {slot : Slot}
    (distinct : (slots.map (·.name)).Nodup) (absent : slot.name ∉ slots.map (·.name)) :
    ((slots ++ [slot]).map (·.name)).Nodup := by
  rw [List.map_append, List.map_singleton, List.nodup_append]
  refine ⟨distinct, List.pairwise_singleton _ _, fun name old other new same => absent ?_⟩
  rw [← List.mem_singleton.mp new, ← same]
  exact old

end Slot

/-- Slots with distinct names, oldest first. -/
@[ext] structure UnitSet where
  slots : List Slot := []
  distinct : (slots.map (·.name)).Nodup := by decide
  deriving DecidableEq, Repr

structure Collision where
  name : QualifiedName
  existing : Text
  incoming : Text
  deriving DecidableEq, Repr

namespace UnitSet

def empty : UnitSet := ⟨[], .nil⟩

def names (set : UnitSet) : List QualifiedName := set.slots.map (·.name)

def slot? (set : UnitSet) (name : QualifiedName) : Option Slot :=
  set.slots.find? (·.name == name)

def source? (set : UnitSet) (name : QualifiedName) : Option Text := (set.slot? name).map (·.source)

def append (set : UnitSet) (slot : Slot) (absent : slot.name ∉ set.names) : UnitSet where
  slots := set.slots ++ [slot]
  distinct := Slot.nodup_append_of_absent set.distinct absent

/-- Puts something into the slot of a name, or into a new slot at the end if the name is absent. -/
def put (set : UnitSet) (name : QualifiedName) (content : Content) : UnitSet :=
  if present : name ∈ set.names then
    { slots := set.slots.map (Slot.fill name content)
      distinct := Slot.map_name_fill name content set.slots ▸ set.distinct }
  else set.append ⟨name, content⟩ present

/-- Appends a slot unless its name is present. -/
def insertNew (set : UnitSet) (slot : Slot) : UnitSet :=
  if present : slot.name ∈ set.names then set else set.append slot present

/-- Reserves a name for a source, if the name is free. Nothing changes if it is present. -/
def reserve (set : UnitSet) (name : QualifiedName) (source : Text) : Bool × UnitSet :=
  (decide (name ∉ set.names), set.insertNew (.reserved name source))

def finalize (set : UnitSet) (u : CodeUnit) : UnitSet := set.put u.name (.finished u)

def get? (set : UnitSet) (name : QualifiedName) : Option CodeUnit :=
  (set.slot? name).bind Slot.unit?

def units (set : UnitSet) : List CodeUnit := set.slots.filterMap Slot.unit?

def templates (set : UnitSet) : List CodeUnit := set.units.filter (·.name.kind == .template)

def main? (set : UnitSet) : Option CodeUnit := set.slots.getLast?.bind Slot.unit?

def isComplete (set : UnitSet) : Bool := set.slots.all (·.unit?.isSome)

def size (set : UnitSet) : Nat := set.slots.length

def isEmpty (set : UnitSet) : Bool := set.slots.isEmpty

/-- The collision of a new slot with the set: its name is present for another source. -/
def collision? (set : UnitSet) (slot : Slot) : Option Collision :=
  match set.source? slot.name with
  | none => none
  | some existing =>
      if existing = slot.source then none else some ⟨slot.name, existing, slot.source⟩

/-- Appends the slots whose names are absent. Fails at the first slot that collides. -/
def merge (set other : UnitSet) : Except Collision UnitSet :=
  match other.slots.findSome? set.collision? with
  | some collision => .error collision
  | none => .ok (other.slots.foldl insertNew set)

end UnitSet

end Stencil
