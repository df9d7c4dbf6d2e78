import Mathlib.Data.Set.Function
import Stencil.Proofs.Compiler.Generation

/-!
Sets of units as sets of sources. What a template is generated into is given by the sources it
needs, and merging two such sets gives the units of all their sources, unless two of them have one
name.
-/

namespace Stencil.Compiler

variable {c : Compiler} {units other merged : UnitSet} {needed more : Set Reference} {name : Text}

theorem slotOf_injective : Function.Injective c.slotOf := by
  intro r q same
  have kinds : r.kind = q.kind := congrArg (fun slot => slot.name.kind) same
  have paths : r.path = q.path := by
    rw [← source_slotOf c r, same, source_slotOf]
  exact Reference.ext kinds paths

/-- The slots of a set are the finished ones of some sources. -/
structure Holds (c : Compiler) (units : UnitSet) (needed : Set Reference) : Prop where
  mem_slots : ∀ slot, slot ∈ units.slots ↔ ∃ r ∈ needed, c.slotOf r = slot

namespace Holds

theorem slot_mem (h : c.Holds units needed) {r : Reference} (member : r ∈ needed) :
    c.slotOf r ∈ units.slots :=
  (h.mem_slots _).mpr ⟨r, member, rfl⟩

theorem exists_unit (h : c.Holds units needed) {r : Reference} (member : r ∈ needed)
    (readable : c.Readable r) : ∃ u ∈ units.units, u.name = c.nameOf r ∧ u.source = r.path := by
  obtain ⟨⟨header, events⟩, reading⟩ := Option.isSome_iff_exists.mp readable
  have finished := List.mem_filterMap.mpr ⟨_, h.slot_mem member, unit?_slotOf reading⟩
  exact ⟨_, finished, rfl, rfl⟩

theorem empty : c.Holds .empty ∅ where
  mem_slots := by
    intro slot
    constructor
    · intro member
      cases member
    · rintro ⟨_, ⟨⟩, _⟩

theorem injOn (h : c.Holds units needed) : Set.InjOn c.nameOf needed := by
  intro r isR q isQ same
  apply c.slotOf_injective
  exact UnitSet.eq_of_slot_name (h.slot_mem isR) (h.slot_mem isQ) same

theorem perm (h : c.Holds units needed) (h' : c.Holds other needed) :
    units.slots.Perm other.slots := by
  rw [List.perm_ext_iff_of_nodup units.distinct.of_map other.distinct.of_map]
  intro slot
  rw [h.mem_slots, h'.mem_slots]

/-- A source whose slot collides with none is there already, or its name is not. -/
theorem slot_mem_of_free (h : c.Holds units needed) {r : Reference}
    (free : units.collision? (c.slotOf r) = none) (present : c.nameOf r ∈ units.names) :
    c.slotOf r ∈ units.slots := by
  obtain ⟨slot, member, named⟩ := List.mem_map.mp present
  have sources := UnitSet.collision?_eq_none_iff.mp free slot member named
  obtain ⟨q, -, rfl⟩ := (h.mem_slots slot).mp member
  rw [source_slotOf, source_slotOf] at sources
  have same : q = r := Reference.ext (congrArg QualifiedName.kind named) sources
  rw [← same]
  exact member

theorem merge (h : c.Holds units needed) (h' : c.Holds other more)
    (done : units.merge other = .ok merged) : c.Holds merged (needed ∪ more) := by
  have free := (UnitSet.merge_eq_ok_iff.mp done).1
  constructor
  intro slot
  rw [UnitSet.mem_slots_of_merge done]
  constructor
  · rintro (old | ⟨new, _⟩)
    · obtain ⟨r, member, same⟩ := (h.mem_slots slot).mp old
      exact ⟨r, .inl member, same⟩
    · obtain ⟨r, member, same⟩ := (h'.mem_slots slot).mp new
      exact ⟨r, .inr member, same⟩
  · rintro ⟨r, old | new, rfl⟩
    · exact .inl (h.slot_mem old)
    · by_cases present : c.nameOf r ∈ units.names
      · exact .inl (h.slot_mem_of_free (free _ (h'.slot_mem new)) present)
      · exact .inr ⟨h'.slot_mem new, present⟩

theorem exists_merge (h : c.Holds units needed) (h' : c.Holds other more)
    (injective : Set.InjOn c.nameOf (needed ∪ more)) :
    ∃ merged, units.merge other = .ok merged := by
  refine ⟨_, UnitSet.merge_eq_ok_iff.mpr ⟨?_, rfl⟩⟩
  intro slot member
  obtain ⟨r, isNew, rfl⟩ := (h'.mem_slots slot).mp member
  rw [UnitSet.collision?_eq_none_iff]
  intro old isOld named
  obtain ⟨q, inNeeded, rfl⟩ := (h.mem_slots old).mp isOld
  rw [source_slotOf, source_slotOf]
  exact congrArg Reference.path (injective (.inl inNeeded) (.inr isNew) named)

end Holds

/-- The sources that a template needs: none for an empty one, else its own and all it reaches. -/
def needs (c : Compiler) (name : Text) : Set Reference :=
  { r | c.sources.find? name ≠ some [] ∧
    (r = .template name ∨ c.Reaches (.template name) r) }

theorem holds_of_generate (done : (c.generate name).result = .ok (.units units)) :
    c.Holds units (c.needs name) := by
  obtain ⟨order, covers⟩ := covers_of_generate done
  have nonempty := (generate_eq_units_iff.mp done).1
  constructor
  intro slot
  rw [covers.slots, List.mem_map]
  refine exists_congr fun r => and_congr_left fun _ => ?_
  rw [List.mem_append, List.mem_singleton, covers.mem_iff, or_comm]
  exact (and_iff_right nonempty).symm

theorem needs_of_generate_nothing (done : (c.generate name).result = .ok .nothing) :
    c.needs name = ∅ := by
  have empty := generate_eq_nothing_iff.mp done
  exact Set.eq_empty_of_forall_notMem fun _ member => member.1 empty

end Stencil.Compiler
