import Mathlib.Data.List.Nodup
import Stencil.UnitSet

/-!
The slots of a unit set: which names are present, and what reserving, finishing and merging do to
them. A set is keyed if its finished units stand under their own names, and all three keep that.
-/

namespace Stencil

namespace Slot

variable {slot : Slot} {u : CodeUnit} {name : QualifiedName} {content : Content}

theorem unit?_eq_some_iff : slot.unit? = some u ↔ slot.content = .finished u := by
  rw [unit?]
  cases slot.content with
  | reserved source => simp only [Content.unit?, reduceCtorEq]
  | finished v => simp only [Content.unit?, Option.some.injEq, Content.finished.injEq]

theorem source_of_unit? (h : slot.unit? = some u) : slot.source = u.source := by
  rw [source, unit?_eq_some_iff.mp h]
  rfl

theorem fill_of_name (h : slot.name = name) : slot.fill name content = ⟨name, content⟩ := by
  rw [fill, if_pos h, h]

theorem fill_of_ne (h : slot.name ≠ name) : slot.fill name content = slot := if_neg h

end Slot

namespace UnitSet

variable {set other merged : UnitSet} {name : QualifiedName} {source : Text} {u : CodeUnit}
  {slot : Slot}

section Lookup

theorem slot?_eq_none_iff : set.slot? name = none ↔ name ∉ set.names := by
  simp only [slot?, List.find?_eq_none, beq_iff_eq, names, List.mem_map, not_exists, not_and]

theorem name_of_slot? (h : set.slot? name = some slot) : slot.name = name := by
  simpa only [beq_iff_eq] using List.find?_some h

theorem exists_slot?_of_mem (h : name ∈ set.names) : ∃ slot, set.slot? name = some slot := by
  apply Option.ne_none_iff_exists'.mp
  simpa only [ne_eq, slot?_eq_none_iff, not_not] using h

theorem eq_of_slot_name {first second : Slot} (isFirst : first ∈ set.slots)
    (isSecond : second ∈ set.slots) (same : first.name = second.name) : first = second :=
  List.inj_on_of_nodup_map set.distinct isFirst isSecond same

theorem slot?_eq_some_iff : set.slot? name = some slot ↔ slot ∈ set.slots ∧ slot.name = name := by
  constructor
  · intro found
    exact ⟨List.mem_of_find?_eq_some found, name_of_slot? found⟩
  · rintro ⟨member, rfl⟩
    obtain ⟨other, found⟩ := exists_slot?_of_mem (List.mem_map_of_mem member)
    rw [found, eq_of_slot_name (List.mem_of_find?_eq_some found) member (name_of_slot? found)]

theorem source?_eq_none_iff : set.source? name = none ↔ name ∉ set.names := by
  rw [source?, Option.map_eq_none_iff, slot?_eq_none_iff]

theorem source?_eq_some_iff : set.source? name = some source ↔
    ∃ slot ∈ set.slots, slot.name = name ∧ slot.source = source := by
  simp only [source?, Option.map_eq_some_iff, slot?_eq_some_iff, and_assoc]

theorem mem_units_iff : u ∈ set.units ↔ ∃ slot ∈ set.slots, slot.unit? = some u :=
  List.mem_filterMap

end Lookup

section Insertion

theorem insertNew_of_present (present : slot.name ∈ set.names) : set.insertNew slot = set :=
  dif_pos present

theorem slots_insertNew_of_absent (absent : slot.name ∉ set.names) :
    (set.insertNew slot).slots = set.slots ++ [slot] := by
  rw [insertNew, dif_neg absent]
  rfl

theorem reserve_of_present (present : name ∈ set.names) (source : Text) :
    set.reserve name source = (false, set) := by
  rw [reserve, insertNew_of_present present, decide_eq_false (not_not.mpr present)]

theorem slots_reserve_of_absent (absent : name ∉ set.names) (source : Text) :
    (set.reserve name source).2.slots = set.slots ++ [.reserved name source] :=
  slots_insertNew_of_absent absent

theorem slots_put_of_present {content : Content} (present : name ∈ set.names) :
    (set.put name content).slots = set.slots.map (Slot.fill name content) := by
  rw [put, dif_pos present]

theorem slots_put_of_absent {content : Content} (absent : name ∉ set.names) :
    (set.put name content).slots = set.slots ++ [⟨name, content⟩] := by
  rw [put, dif_neg absent]
  rfl

theorem slots_finalize_of_absent (absent : u.name ∉ set.names) :
    (set.finalize u).slots = set.slots ++ [.ofUnit u] :=
  slots_put_of_absent absent

/-- Finishing a unit fills the slot of its name and leaves all other slots alone. -/
theorem slots_finalize_of_split {before after : List Slot}
    (split : set.slots = before ++ slot :: after) (same : slot.name = u.name)
    (apartBefore : u.name ∉ before.map (·.name)) (apartAfter : u.name ∉ after.map (·.name)) :
    (set.finalize u).slots = before ++ .ofUnit u :: after := by
  have unchanged {slots : List Slot} (apart : u.name ∉ slots.map (·.name)) :
      slots.map (Slot.fill u.name (.finished u)) = slots := by
    refine (List.map_congr_left fun other member => Slot.fill_of_ne ?_).trans (List.map_id slots)
    intro equal
    exact apart (List.mem_map.mpr ⟨other, member, equal⟩)
  have present : u.name ∈ set.names := by
    rw [names, split, List.map_append, List.map_cons, same]
    exact List.mem_append_right _ List.mem_cons_self
  rw [finalize, slots_put_of_present present, split, List.map_append, List.map_cons,
    unchanged apartBefore, unchanged apartAfter, Slot.fill_of_name same]
  rfl

theorem names_finalize_of_present (present : u.name ∈ set.names) :
    (set.finalize u).names = set.names := by
  rw [names, finalize, slots_put_of_present present]
  exact Slot.map_name_fill _ _ _

/-- A slot after finishing a unit is the unit's own, or one from before. -/
theorem eq_or_mem_of_mem_finalize (h : slot ∈ (set.finalize u).slots) :
    slot = .ofUnit u ∨ slot ∈ set.slots := by
  by_cases present : u.name ∈ set.names
  · rw [finalize, slots_put_of_present present] at h
    obtain ⟨before, member, rfl⟩ := List.mem_map.mp h
    by_cases same : before.name = u.name
    · exact .inl (Slot.fill_of_name same)
    · rw [Slot.fill_of_ne same]
      exact .inr member
  · rw [slots_finalize_of_absent present, List.mem_append, List.mem_singleton] at h
    exact h.symm

end Insertion

section Collisions

theorem collision?_of_absent (absent : set.source? slot.name = none) :
    set.collision? slot = none := by
  rw [collision?, absent]

theorem collision?_of_present {existing : Text} (present : set.source? slot.name = some existing) :
    set.collision? slot =
      if existing = slot.source then none else some ⟨slot.name, existing, slot.source⟩ := by
  rw [collision?, present]

theorem collision?_eq_none : set.collision? slot = none ↔
    ∀ existing, set.source? slot.name = some existing → existing = slot.source := by
  cases present : set.source? slot.name with
  | none =>
      rw [collision?_of_absent present]
      simp only [reduceCtorEq, false_implies, implies_true]
  | some existing =>
      rw [collision?_of_present present]
      split
      · rename_i same
        refine iff_of_true rfl fun other found => ?_
        rw [← Option.some.inj found]
        exact same
      · rename_i apart
        exact iff_of_false (Option.some_ne_none _) fun agree => apart (agree existing rfl)

theorem collision?_eq_none_iff : set.collision? slot = none ↔
    ∀ other ∈ set.slots, other.name = slot.name → other.source = slot.source := by
  rw [collision?_eq_none]
  constructor
  · intro agree other member same
    exact agree other.source (source?_eq_some_iff.mpr ⟨other, member, same, rfl⟩)
  · intro agree existing present
    obtain ⟨other, member, same, rfl⟩ := source?_eq_some_iff.mp present
    exact agree other member same

theorem merge_eq_ok_iff : set.merge other = .ok merged ↔
    (∀ slot ∈ other.slots, set.collision? slot = none) ∧
      merged = other.slots.foldl insertNew set := by
  rw [merge, ← List.findSome?_eq_none_iff]
  cases other.slots.findSome? set.collision? with
  | none =>
      rw [Except.ok.injEq]
      exact ⟨fun same => ⟨rfl, same.symm⟩, fun result => result.2.symm⟩
  | some collision =>
      constructor
      · rintro ⟨⟩
      · rintro ⟨⟨⟩, _⟩

/-- The slots of new names, in their order, behind the slots that are there. -/
theorem slots_foldl_insertNew {slots : List Slot} (distinct : (slots.map (·.name)).Nodup) :
    (slots.foldl insertNew set).slots = set.slots ++ slots.filter (·.name ∉ set.names) := by
  induction slots generalizing set with
  | nil => exact (List.append_nil set.slots).symm
  | cons slot rest ih =>
      rw [List.map_cons, List.nodup_cons] at distinct
      rw [List.foldl_cons, ih distinct.2]
      by_cases present : slot.name ∈ set.names
      · rw [insertNew_of_present present, List.filter_cons_of_neg (by simpa using present)]
      · rw [slots_insertNew_of_absent present, List.filter_cons_of_pos (by simpa using present),
          List.append_assoc, List.singleton_append]
        congr 2
        refine List.filter_congr fun later member => ?_
        have apart : later.name ≠ slot.name := by
          intro same
          exact distinct.1 (List.mem_map.mpr ⟨later, member, same⟩)
        have same : later.name ∈ (set.insertNew slot).names ↔ later.name ∈ set.names := by
          simp only [names, slots_insertNew_of_absent present, List.map_append, List.map_singleton,
            List.mem_append, List.mem_singleton, apart, or_false]
        exact decide_eq_decide.mpr (not_congr same)

theorem slots_of_merge (done : set.merge other = .ok merged) :
    merged.slots = set.slots ++ other.slots.filter (·.name ∉ set.names) := by
  rw [(merge_eq_ok_iff.mp done).2]
  exact slots_foldl_insertNew other.distinct

/-- Merging keeps all slots and adds those with new names. -/
theorem mem_slots_of_merge (done : set.merge other = .ok merged) :
    slot ∈ merged.slots ↔ slot ∈ set.slots ∨ slot ∈ other.slots ∧ slot.name ∉ set.names := by
  rw [slots_of_merge done, List.mem_append, List.mem_filter, decide_eq_true_iff]

end Collisions

section Keys

/-- Whether each finished unit stands under its own name. -/
def IsKeyed (set : UnitSet) : Prop :=
  ∀ slot ∈ set.slots, ∀ u, slot.unit? = some u → slot.name = u.name

theorem IsKeyed.reserve (keyed : set.IsKeyed) (name : QualifiedName) (source : Text) :
    (set.reserve name source).2.IsKeyed := by
  by_cases present : name ∈ set.names
  · rw [reserve_of_present present]
    exact keyed
  · intro slot member u unit
    rw [slots_reserve_of_absent present, List.mem_append, List.mem_singleton] at member
    rcases member with old | rfl
    · exact keyed slot old u unit
    · cases unit

theorem IsKeyed.finalize (keyed : set.IsKeyed) (u : CodeUnit) : (set.finalize u).IsKeyed := by
  intro slot member v unit
  rcases eq_or_mem_of_mem_finalize member with rfl | old
  · cases unit
    rfl
  · exact keyed slot old v unit

theorem IsKeyed.merge (keyed : set.IsKeyed) (keyed' : other.IsKeyed)
    (done : set.merge other = .ok merged) : merged.IsKeyed := by
  intro slot member
  rcases (mem_slots_of_merge done).mp member with old | ⟨new, -⟩
  · exact keyed slot old
  · exact keyed' slot new

theorem IsKeyed.mem_units_iff (keyed : set.IsKeyed) :
    u ∈ set.units ↔ Slot.ofUnit u ∈ set.slots := by
  rw [UnitSet.mem_units_iff]
  constructor
  · rintro ⟨⟨name, content⟩, member, unit⟩
    obtain rfl : name = u.name := keyed _ member u unit
    obtain rfl : content = .finished u := Slot.unit?_eq_some_iff.mp unit
    exact member
  · intro member
    exact ⟨_, member, rfl⟩

theorem IsKeyed.mem_names_of_mem_units (keyed : set.IsKeyed) (h : u ∈ set.units) :
    u.name ∈ set.names :=
  List.mem_map.mpr ⟨.ofUnit u, keyed.mem_units_iff.mp h, rfl⟩

/-- A unit is found under its own name and under no other. -/
theorem IsKeyed.get?_eq_some_iff (keyed : set.IsKeyed) :
    set.get? name = some u ↔ u ∈ set.units ∧ u.name = name := by
  simp only [get?, Option.bind_eq_some_iff, slot?_eq_some_iff, UnitSet.mem_units_iff]
  constructor
  · rintro ⟨slot, ⟨member, rfl⟩, unit⟩
    exact ⟨⟨slot, member, unit⟩, (keyed slot member u unit).symm⟩
  · rintro ⟨⟨slot, member, unit⟩, rfl⟩
    exact ⟨slot, ⟨member, keyed slot member u unit⟩, unit⟩

theorem IsKeyed.nodup_map_name (keyed : set.IsKeyed) : (set.units.map (·.name)).Nodup := by
  have apart := List.pairwise_map.mp set.distinct
  rw [List.Nodup, List.pairwise_map, units, List.pairwise_filterMap]
  refine apart.imp_of_mem ?_
  intro slot other isSlot isOther apart u unit v unit' same
  rw [keyed slot isSlot u unit, keyed other isOther v unit'] at apart
  exact apart same

theorem IsKeyed.eq_of_name {v : CodeUnit} (keyed : set.IsKeyed) (isU : u ∈ set.units)
    (isV : v ∈ set.units) (same : u.name = v.name) : u = v :=
  List.inj_on_of_nodup_map keyed.nodup_map_name isU isV same

end Keys

end UnitSet

end Stencil
