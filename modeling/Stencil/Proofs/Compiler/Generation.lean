import Stencil.Proofs.Compiler.Inclusion

/-!
Generating a template. Main statement: it succeeds exactly if the template and all that it reaches
can be read and no two reachable sources of one kind have one name, and it gives the units of the
reachable sources in depth-first order of first calls, with the template's own unit last.
-/

namespace Stencil

def Reference.template (name : Text) : Reference := ⟨.template, name⟩

namespace Compiler

variable {c : Compiler} {name : Text} {units : UnitSet}

/-- Generating gives units if the source is not empty and can be read, and if its calls can be
included; its own unit is then put at the end. -/
theorem generate_eq_units_iff : (c.generate name).result = .ok (.units units) ↔
    c.sources.find? name ≠ some [] ∧ ∃ header events s,
      c.reading? (.template name) = some (header, events) ∧
      includeCalls c.naming c.fragments (c.nameOf (.template name)) events
        { asked := [name] } = .ok () s ∧
      units = s.units.finalize (c.unitOf (.template name) header events) := by
  rw [generate]
  constructor
  · intro done
    split at done
    · cases done
    · cases done
    · rename_i text nonempty found
      split at done
      · cases done
      · rename_i header opened
        simp only at done
        split at done
        · cases done
        · rename_i s inner
          split at done
          · cases done
          · rename_i whole
            cases done
            refine ⟨fun empty => nonempty (Option.some.inj (found.symm.trans empty)), header, _, s,
              reading?_eq_some_iff.mpr ⟨text, found, ?_⟩, inner, rfl⟩
            rw [Source.read_eq_ok_iff]
            refine ⟨opened, ?_⟩
            rw [← whole]
            rfl
  · rintro ⟨nonempty, header, events, s, reading, inner, rfl⟩
    obtain ⟨text, found, read⟩ := reading?_eq_some_iff.mp reading
    obtain ⟨opened, whole⟩ := Source.read_eq_ok_iff.mp read
    simp only [Reference.template, nameOf, Header.ofSource] at found opened whole inner
    simp only [found]
    split
    · rename_i empty
      cases empty
    · rename_i empty
      exact absurd (found.trans empty) nonempty
    · rename_i same
      cases same
      simp only [opened, whole, inner]
      rfl

/-- Nothing is generated exactly for a source that is there and empty. -/
theorem generate_eq_nothing_iff :
    (c.generate name).result = .ok .nothing ↔ c.sources.find? name = some [] := by
  constructor
  · intro done
    rw [generate] at done
    split at done
    · cases done
    · assumption
    · split at done
      · cases done
      · simp only at done
        split at done
        · cases done
        · split at done
          · cases done
          · cases done
  · intro empty
    rw [generate, empty]

theorem consistent_empty : c.Consistent .empty where
  named := fun _ member => absurd member List.not_mem_nil

theorem offers_fragments (set : UnitSet) : c.Offers c.fragments set :=
  fun _ fragment _ => text?_fragments fragment

theorem unit?_slotOf {r : Reference} {header : Header} {events : List Event}
    (reading : c.reading? r = some (header, events)) :
    (c.slotOf r).unit? = some (c.unitOf r header events) := by
  rw [slotOf, reading]
  rfl

theorem name_of_unit?_slotOf {r : Reference} {u : CodeUnit} (h : (c.slotOf r).unit? = some u) :
    u.name = c.nameOf r := by
  rw [slotOf, Slot.unit?] at h
  cases reading : c.reading? r with
  | none =>
      rw [reading] at h
      cases h
  | some source =>
      rw [reading] at h
      cases h
      rfl

/-- The units of a template that was generated are those of the sources it reaches and its own. -/
structure Covers (c : Compiler) (root : Reference) (order : List Reference) (units : UnitSet) :
    Prop where
  depthFirst : DepthFirst c.calls [] (c.calls root) order
  readable : ∀ r ∈ order ++ [root], c.Readable r
  slots : units.slots = (order ++ [root]).map c.slotOf

namespace Covers

variable {root r : Reference} {order : List Reference}

theorem mem_iff (h : c.Covers root order units) : r ∈ order ↔ c.Reaches root r :=
  h.depthFirst.mem_iff

theorem readable_root (h : c.Covers root order units) : c.Readable root :=
  h.readable root (List.mem_append_right _ (List.mem_singleton_self root))

theorem readable_of_reaches (h : c.Covers root order units) (reached : c.Reaches root r) :
    c.Readable r :=
  h.readable r (List.mem_append_left _ (h.mem_iff.mpr reached))

theorem names (h : c.Covers root order units) : units.names = (order ++ [root]).map c.nameOf := by
  rw [UnitSet.names, h.slots, List.map_map]
  rfl

/-- Every unit is the one of a source that can be read. -/
theorem exists_unitOf {u : CodeUnit} (h : c.Covers root order units) (member : u ∈ units.units) :
    ∃ r header events, c.reading? r = some (header, events) ∧ u = c.unitOf r header events := by
  obtain ⟨slot, inSlots, unit⟩ := List.mem_filterMap.mp member
  rw [h.slots] at inSlots
  obtain ⟨r, covered, rfl⟩ := List.mem_map.mp inSlots
  obtain ⟨⟨header, events⟩, reading⟩ := Option.isSome_iff_exists.mp (h.readable r covered)
  exact ⟨r, header, events, reading, Option.some.inj (unit.symm.trans (unit?_slotOf reading))⟩

theorem unitOf_mem (h : c.Covers root order units) {header : Header} {events : List Event}
    (reading : c.reading? r = some (header, events)) (covered : r ∈ order ++ [root]) :
    c.unitOf r header events ∈ units.units := by
  refine List.mem_filterMap.mpr ⟨c.slotOf r, ?_, unit?_slotOf reading⟩
  rw [h.slots]
  exact List.mem_map_of_mem covered

theorem eq_of_nameOf {q : Reference} (h : c.Covers root order units) (toR : c.Reaches root r)
    (toQ : c.Reaches root q) (same : c.nameOf r = c.nameOf q) : r = q := by
  have distinct : units.names.Nodup := units.distinct
  rw [h.names] at distinct
  exact List.inj_on_of_nodup_map distinct (List.mem_append_left _ (h.mem_iff.mpr toR))
    (List.mem_append_left _ (h.mem_iff.mpr toQ)) same

theorem isKeyed (h : c.Covers root order units) : units.IsKeyed := by
  intro slot member u unit
  rw [h.slots] at member
  obtain ⟨r, -, rfl⟩ := List.mem_map.mp member
  exact (name_of_unit?_slotOf unit).symm

theorem isComplete (h : c.Covers root order units) : units.isComplete = true := by
  rw [UnitSet.isComplete, List.all_eq_true, h.slots]
  intro slot member
  obtain ⟨r, covered, rfl⟩ := List.mem_map.mp member
  obtain ⟨⟨header, events⟩, reading⟩ := Option.isSome_iff_exists.mp (h.readable r covered)
  rw [unit?_slotOf reading]
  rfl

/-- No other unit is one of a template. -/
theorem templates_eq {main : CodeUnit} (h : c.Covers (.template name) order units)
    (unit : (c.slotOf (.template name)).unit? = some main) : units.templates = [main] := by
  have others : ((order.map c.slotOf).filterMap Slot.unit?).filter
      (fun u => u.name.kind == .template) = [] := by
    rw [List.filter_eq_nil_iff]
    intro u member
    obtain ⟨slot, inOrder, ofSlot⟩ := List.mem_filterMap.mp member
    obtain ⟨r, covered, rfl⟩ := List.mem_map.mp inOrder
    rw [name_of_unit?_slotOf ofSlot, beq_iff_eq]
    exact kind_of_reaches (h.mem_iff.mp covered)
  have own : (main.name.kind == .template) = true := by
    rw [name_of_unit?_slotOf unit]
    rfl
  rw [UnitSet.templates, UnitSet.units, h.slots, List.map_append, List.filterMap_append,
    List.filter_append, others, List.map_singleton, List.filterMap_cons_some unit,
    List.filterMap_nil, List.nil_append, List.filter_singleton, own]
  rfl

theorem main?_eq (h : c.Covers root order units) : units.main? = (c.slotOf root).unit? := by
  rw [UnitSet.main?, h.slots, List.map_append, List.map_singleton, List.getLast?_concat]
  rfl

end Covers

/-- A template is generated into a unit for each source it reaches, and its own. -/
theorem covers_of_generate (done : (c.generate name).result = .ok (.units units)) :
    ∃ order, c.Covers (.template name) order units := by
  obtain ⟨-, header, events, s, reading, included, rfl⟩ := generate_eq_units_iff.mp done
  obtain ⟨order, adds⟩ := includeCalls_adds (offers_fragments _) consistent_empty included
  rw [← calls_of_reading reading] at adds
  have depthFirst : DepthFirst c.calls [] (c.calls (.template name)) order := adds.order
  have before : s.units.slots = order.map c.slotOf := adds.slots
  have absent : c.nameOf (.template name) ∉ s.units.names := by
    rw [UnitSet.names, before, List.map_map]
    intro present
    obtain ⟨r, member, same⟩ := List.mem_map.mp present
    exact kind_of_reaches (depthFirst.mem_iff.mp member) (congrArg QualifiedName.kind same)
  have slots :=
    UnitSet.slots_finalize_of_absent (u := c.unitOf (.template name) header events) absent
  refine ⟨order, depthFirst, ?_, ?_⟩
  · rw [List.forall_mem_append, List.forall_mem_singleton, Readable, reading]
    exact ⟨adds.readable, rfl⟩
  · rw [slots, before, ofUnit_unitOf reading, List.map_append]
    rfl

/-- A template is generated if it and all it reaches can be read, with names of their own. -/
theorem exists_generate (nonempty : c.sources.find? name ≠ some [])
    (readable : c.Readable (.template name)) (sound : c.Sound (c.Reaches (.template name))) :
    ∃ units, (c.generate name).result = .ok (.units units) := by
  obtain ⟨⟨header, events⟩, reading⟩ := Option.isSome_iff_exists.mp readable
  have wanted : ∀ r ∈ c.naming.callsOf events, c.Reaches (.template name) r := by
    rw [← calls_of_reading reading]
    exact fun r member => .single member
  have old : ∀ r ∈ UnitSet.empty.references, c.Reaches (.template name) r :=
    fun r member => absurd member List.not_mem_nil
  obtain ⟨s, included⟩ := includeCalls_succeeds (c.nameOf (.template name)) events
    (s := { asked := [name] }) sound (offers_fragments _) consistent_empty old wanted
  exact ⟨_, generate_eq_units_iff.mpr ⟨nonempty, header, events, s, reading, included, rfl⟩⟩

theorem sound_reaches {root : Reference} (readable : ∀ r, c.Reaches root r → c.Readable r)
    (distinct : ∀ r q, c.Reaches root r → c.Reaches root q → r.kind = q.kind →
      c.nameOf r = c.nameOf q → r.path = q.path) : c.Sound (c.Reaches root) where
  closed := fun _ reached _ called => .tail reached called
  readable := readable
  distinct := by
    intro r q toR toQ same
    have kind : r.kind = q.kind := congrArg QualifiedName.kind same
    exact Reference.ext kind (distinct r q toR toQ kind same)

/-- A template is generated if a depth-first walk from it meets only sources that can be read, with
names of their own. -/
theorem exists_generate_of_order {order : List Reference}
    (nonempty : c.sources.find? name ≠ some []) (readable : c.Readable (.template name))
    (walk : DepthFirst c.calls [] (c.calls (.template name)) order)
    (called : ∀ r ∈ order, c.Readable r) (distinct : (order.map c.nameOf).Nodup) :
    ∃ units, (c.generate name).result = .ok (.units units) := by
  refine exists_generate nonempty readable (sound_reaches ?_ ?_)
  · intro r reached
    exact called r (walk.mem_iff.mpr reached)
  · intro r q toR toQ _ same
    have equal := List.inj_on_of_nodup_map distinct (walk.mem_iff.mpr toR) (walk.mem_iff.mpr toQ)
      same
    exact congrArg Reference.path equal

/-- A template with a source that is not empty is generated if and only if it and everything it
reaches can be read and no two reachable sources of one kind have one name. The units are then
complete: one for each reachable source, in depth-first order of first calls, and the template's own
at the end, which is the only one of a template. -/
theorem generate_iff_reachable (c : Compiler) (name text : Text)
    (found : c.sources.find? name = some text) (nonempty : text ≠ []) :
    ((∃ units, (c.generate name).result = .ok (.units units)) ↔
      c.Readable (.template name) ∧
      (∀ r, c.Reaches (.template name) r → c.Readable r) ∧
      (∀ r q, c.Reaches (.template name) r → c.Reaches (.template name) q → r.kind = q.kind →
        c.nameOf r = c.nameOf q → r.path = q.path)) ∧
    ∀ units, (c.generate name).result = .ok (.units units) →
      units.isComplete = true ∧
      (∃ order, DepthFirst c.calls [] (c.calls (.template name)) order ∧ order.Nodup ∧
        (∀ r, r ∈ order ↔ c.Reaches (.template name) r) ∧
        units.slots = order.map c.slotOf ++ [c.slotOf (.template name)]) ∧
      ∃ main, main.name = c.nameOf (.template name) ∧ main.source = name ∧
        units.main? = some main ∧ units.templates = [main] := by
  have nonempty' : c.sources.find? name ≠ some [] := by
    rw [found]
    exact mt Option.some.inj nonempty
  refine ⟨⟨?_, ?_⟩, ?_⟩
  · rintro ⟨units, done⟩
    obtain ⟨order, covers⟩ := covers_of_generate done
    refine ⟨covers.readable_root, fun r reached => covers.readable_of_reaches reached, ?_⟩
    intro r q toR toQ _ same
    exact congrArg Reference.path (covers.eq_of_nameOf toR toQ same)
  · rintro ⟨readable, reachable, distinct⟩
    exact exists_generate nonempty' readable (sound_reaches reachable distinct)
  · intro units done
    obtain ⟨order, covers⟩ := covers_of_generate done
    refine ⟨covers.isComplete, ⟨order, covers.depthFirst, covers.depthFirst.nodup List.nodup_nil,
      fun r => covers.mem_iff, ?_⟩, ?_⟩
    · rw [covers.slots, List.map_append]
      rfl
    · obtain ⟨⟨header, events⟩, reading⟩ := Option.isSome_iff_exists.mp covers.readable_root
      have unit := unit?_slotOf reading
      exact ⟨c.unitOf (.template name) header events, rfl, rfl, covers.main?_eq.trans unit,
        covers.templates_eq unit⟩

/-- A page that calls a tag twice, where the tag and a layout call each other. -/
def mutualCalls : Compiler where
  naming := .standard
  sources := ⟨[("page".toList, "@param m: u8\n@tag.a()@tag.a()".toList),
    ("a.rtag".toList, "@layout.b()@endlayout".toList),
    ("b.rlayout".toList, "@tag.a()".toList)]⟩

theorem generate_mutualCalls : ∃ units,
    (mutualCalls.generate "page".toList).result = .ok (.units units) ∧
    units.slots.map (·.source) = ["a.rtag".toList, "b.rlayout".toList, "page".toList] := by
  have page : mutualCalls.calls (.template "page".toList) =
      [⟨.tag, "a.rtag".toList⟩, ⟨.tag, "a.rtag".toList⟩] := by decide +kernel
  have tag : mutualCalls.calls ⟨.tag, "a.rtag".toList⟩ = [⟨.layout, "b.rlayout".toList⟩] := by
    decide +kernel
  have layout : mutualCalls.calls ⟨.layout, "b.rlayout".toList⟩ = [⟨.tag, "a.rtag".toList⟩] := by
    decide +kernel
  have order : DepthFirst mutualCalls.calls [] (mutualCalls.calls (.template "page".toList))
      [⟨.tag, "a.rtag".toList⟩, ⟨.layout, "b.rlayout".toList⟩] := by
    rw [page]
    refine .first (by decide) ?_ (.again (by decide) .done)
    rw [tag]
    refine .first (by decide) ?_ .done
    rw [layout]
    exact .again (by decide) .done
  have reached (r : Reference) (h : mutualCalls.Reaches (.template "page".toList) r) :
      r = ⟨.tag, "a.rtag".toList⟩ ∨ r = ⟨.layout, "b.rlayout".toList⟩ := by
    have member := order.mem_iff.mpr h
    rwa [List.mem_cons, List.mem_singleton] at member
  obtain ⟨success, result⟩ := generate_iff_reachable mutualCalls "page".toList
    "@param m: u8\n@tag.a()@tag.a()".toList rfl (by decide)
  have conditions : mutualCalls.Readable (.template "page".toList) ∧
      (∀ r, mutualCalls.Reaches (.template "page".toList) r → mutualCalls.Readable r) ∧
      (∀ r q, mutualCalls.Reaches (.template "page".toList) r →
        mutualCalls.Reaches (.template "page".toList) q → r.kind = q.kind →
        mutualCalls.nameOf r = mutualCalls.nameOf q → r.path = q.path) := by
    refine ⟨by decide +kernel, ?_, ?_⟩
    · intro r toR
      rcases reached r toR with rfl | rfl
      · decide +kernel
      · decide +kernel
    · intro r q toR toQ kind _
      rcases reached r toR with rfl | rfl
      · rcases reached q toQ with rfl | rfl
        · rfl
        · cases kind
      · rcases reached q toQ with rfl | rfl
        · cases kind
        · rfl
  obtain ⟨units, done⟩ := success.mpr conditions
  obtain ⟨-, ⟨found, isOrder, -, -, slots⟩, -⟩ := result units done
  refine ⟨units, done, ?_⟩
  rw [slots, isOrder.unique order]
  simp only [List.map_append, List.map_cons, List.map_nil, source_slotOf]
  rfl

end Compiler

end Stencil
