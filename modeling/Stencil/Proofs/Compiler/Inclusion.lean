import Stencil.Proofs.Compiler.Reachability
import Stencil.Proofs.UnitSet

/-!
What including a call does to the set of units: it appends the finished slots of the sources that a
depth-first walk of the calls meets for the first time, and it succeeds whenever all of them can be
read and have names of their own.
-/

namespace Stencil

namespace Fragment

variable {fragments : List Fragment}

theorem isAt_iff {kind : SourceKind} {path : Text} {f : Fragment} :
    isAt kind path f = true ↔ f.kind = kind ∧ f.path = path := by
  simp only [isAt, Bool.and_eq_true, beq_iff_eq]

theorem text?_without {r other : Reference} (apart : other ≠ r) :
    text? (without fragments r.kind r.path) other.kind other.path =
      text? fragments other.kind other.path := by
  have same (f : Fragment) : decide ((!isAt r.kind r.path f) = true ∧
      isAt other.kind other.path f = true) = isAt other.kind other.path f := by
    rw [Bool.decide_and, Bool.decide_eq_true, Bool.decide_eq_true, Bool.and_eq_right_iff_imp]
    intro here
    rw [Bool.not_eq_true', Bool.eq_false_iff]
    intro there
    rw [isAt_iff] at here there
    refine apart (Reference.ext ?_ ?_)
    · exact here.1.symm.trans there.1
    · exact here.2.symm.trans there.2
  rw [text?, without, List.find?_filter, funext same, text?]

end Fragment

def Slot.reference (slot : Slot) : Reference := ⟨slot.name.kind, slot.source⟩

def UnitSet.references (set : UnitSet) : List Reference := set.slots.map Slot.reference

namespace Compiler

variable {c : Compiler}

theorem text?_fragments {r : Reference} (fragment : r.kind ≠ .template) :
    Fragment.text? c.fragments r.kind r.path = c.sources.find? r.path := by
  obtain ⟨kind, path⟩ := r
  rw [fragments, Sources.find?]
  induction c.sources.entries with
  | nil => rfl
  | cons entry rest ih =>
      rw [List.lookup_cons]
      by_cases here : path = entry.1
      · cases kind with
        | template => exact absurd rfl fragment
        | tag => simp [Fragment.text?, Fragment.isAt, here]
        | layout => simp [Fragment.text?, Fragment.isAt, here]
      · have skipped : ∀ kind', Fragment.isAt kind path ⟨kind', entry.1, entry.2⟩ = false := by
          intro kind'
          exact Bool.eq_false_iff.mpr fun found => here (Fragment.isAt_iff.mp found).2.symm
        rw [beq_false_of_ne here, ← ih]
        simp only [Fragment.text?, List.flatMap_cons, List.cons_append, List.nil_append,
          List.find?_cons, skipped]

/-- Each slot of a set has the name of its source. -/
structure Consistent (c : Compiler) (set : UnitSet) : Prop where
  named : ∀ slot ∈ set.slots, slot.name = c.nameOf slot.reference

/-- Every source that a set has no slot for can still be found among fragments. -/
def Offers (c : Compiler) (fragments : List Fragment) (set : UnitSet) : Prop :=
  ∀ r : Reference, r.kind ≠ .template → r ∉ set.references →
    Fragment.text? fragments r.kind r.path = c.sources.find? r.path

variable {fragments : List Fragment} {set after : UnitSet} {r : Reference}

theorem Consistent.name_mem (consistent : c.Consistent set) (present : r ∈ set.references) :
    c.nameOf r ∈ set.names := by
  obtain ⟨slot, member, rfl⟩ := List.mem_map.mp present
  exact List.mem_map.mpr ⟨slot, member, consistent.named slot member⟩

/-- The source that a name is present for is one that the set has a slot for, and has that name. -/
theorem Consistent.exists_reference {path : Text} (consistent : c.Consistent set)
    (found : set.source? (c.nameOf r) = some path) :
    ⟨r.kind, path⟩ ∈ set.references ∧ c.nameOf ⟨r.kind, path⟩ = c.nameOf r := by
  obtain ⟨slot, member, named, rfl⟩ := UnitSet.source?_eq_some_iff.mp found
  have same : slot.reference = ⟨r.kind, slot.source⟩ := by
    rw [Slot.reference, named]
    rfl
  rw [← same, ← consistent.named slot member]
  exact ⟨List.mem_map_of_mem member, named⟩

theorem Offers.mono (offers : c.Offers fragments set)
    (grown : ∀ r ∈ set.references, r ∈ after.references) : c.Offers fragments after :=
  fun r fragment absent => offers r fragment (mt (grown r) absent)

theorem references_reserve (absent : c.nameOf r ∉ set.names) :
    (set.reserve (c.nameOf r) r.path).2.references = set.references ++ [r] := by
  rw [UnitSet.references, UnitSet.slots_reserve_of_absent absent, List.map_append]
  rfl

/-- Once a source is reserved, nothing asks for it any more. -/
theorem Offers.reserve (offers : c.Offers fragments set) (absent : c.nameOf r ∉ set.names) :
    c.Offers (Fragment.without fragments r.kind r.path) (set.reserve (c.nameOf r) r.path).2 := by
  intro other fragment outside
  rw [references_reserve absent, List.mem_append, not_or, List.mem_singleton] at outside
  rw [Fragment.text?_without outside.2]
  exact offers other fragment outside.1

theorem Consistent.reserve (consistent : c.Consistent set) (absent : c.nameOf r ∉ set.names) :
    c.Consistent (set.reserve (c.nameOf r) r.path).2 where
  named := by
    rw [UnitSet.slots_reserve_of_absent absent]
    intro slot member
    rcases List.mem_append.mp member with old | single
    · exact consistent.named slot old
    · cases List.mem_singleton.mp single
      rfl

theorem source_slotOf (c : Compiler) (r : Reference) : (c.slotOf r).source = r.path := by
  rw [slotOf, Slot.source]
  cases c.reading? r <;> rfl

theorem reference_slotOf (c : Compiler) (r : Reference) : (c.slotOf r).reference = r := by
  rw [Slot.reference, source_slotOf]
  rfl

theorem Consistent.of_slots (consistent : c.Consistent set) (new : List Reference)
    (slots : after.slots = set.slots ++ new.map c.slotOf) : c.Consistent after where
  named := by
    rw [slots]
    intro slot member
    rcases List.mem_append.mp member with old | added
    · exact consistent.named slot old
    · obtain ⟨r, -, rfl⟩ := List.mem_map.mp added
      rw [reference_slotOf]
      rfl

theorem ofUnit_unitOf {header : Header} {events : List Event}
    (reading : c.reading? r = some (header, events)) :
    Slot.ofUnit (c.unitOf r header events) = c.slotOf r := by
  rw [slotOf, reading]
  rfl

theorem references_slotOf (new : List Reference) :
    (new.map c.slotOf).map Slot.reference = new := by
  rw [List.map_map, funext (f := Slot.reference ∘ c.slotOf) (reference_slotOf c)]
  exact List.map_id' new

/-- One set comes from another by following some sources depth first: the finished slots of those
met for the first time are appended. -/
structure Adds (c : Compiler) (set : UnitSet) (todo new : List Reference) (after : UnitSet) :
    Prop where
  slots : after.slots = set.slots ++ new.map c.slotOf
  order : DepthFirst c.calls set.references todo (set.references ++ new)
  readable : ∀ r ∈ new, c.Readable r
  consistent : c.Consistent after

namespace Adds

variable {todo new : List Reference}

theorem references (h : c.Adds set todo new after) :
    after.references = set.references ++ new := by
  rw [UnitSet.references, h.slots, List.map_append, references_slotOf]
  rfl

theorem grown (h : c.Adds set todo new after) {r : Reference} (old : r ∈ set.references) :
    r ∈ after.references := by
  rw [h.references]
  exact List.mem_append_left _ old

theorem nil (consistent : c.Consistent set) : c.Adds set [] [] set where
  slots := (List.append_nil _).symm
  order := (List.append_nil set.references).symm ▸ .done
  readable := by
    intro _ member
    cases member
  consistent := consistent

theorem append {todo' new' : List Reference} {last : UnitSet} (h : c.Adds set todo new after)
    (later : c.Adds after todo' new' last) : c.Adds set (todo ++ todo') (new ++ new') last where
  slots := by rw [later.slots, h.slots, List.map_append, List.append_assoc]
  order := by
    have order := later.order
    rw [h.references, List.append_assoc] at order
    exact h.order.append order
  readable := by
    intro r member
    rcases List.mem_append.mp member with first | second
    · exact h.readable r first
    · exact later.readable r second
  consistent := later.consistent

theorem again (consistent : c.Consistent set) (present : r ∈ set.references) :
    c.Adds set [r] [] set where
  slots := (List.append_nil _).symm
  order := (List.append_nil set.references).symm ▸ .again present .done
  readable := by
    intro _ member
    cases member
  consistent := consistent

/-- A source that is reserved, followed and then finished is added in front of what it calls. -/
theorem first {between : UnitSet} {header : Header} {events : List Event}
    (consistent : c.Consistent set) (absent : c.nameOf r ∉ set.names)
    (reading : c.reading? r = some (header, events))
    (inner : c.Adds (set.reserve (c.nameOf r) r.path).2 (c.calls r) new between) :
    c.Adds set [r] (r :: new) (between.finalize (c.unitOf r header events)) := by
  have before := inner.slots
  rw [UnitSet.slots_reserve_of_absent absent, List.append_assoc] at before
  have names := between.distinct
  rw [before, List.map_append] at names
  have apartAfter : c.nameOf r ∉ (new.map c.slotOf).map (·.name) :=
    (List.nodup_cons.mp names.of_append_right).1
  have slots := UnitSet.slots_finalize_of_split (u := c.unitOf r header events) before rfl absent
    apartAfter
  rw [ofUnit_unitOf reading] at slots
  have order := inner.order
  rw [references_reserve absent, List.append_assoc] at order
  refine ⟨slots, .first (mt consistent.name_mem absent) order .done, ?_, ?_⟩
  · intro q member
    rcases List.mem_cons.mp member with rfl | deeper
    · rw [Readable, reading]
      rfl
    · exact inner.readable q deeper
  · exact consistent.of_slots (r :: new) slots

end Adds

variable {referrer : QualifiedName} {kind : SourceKind} {name : Text} {position : Nat}
  {s s' : Progress}

/-- Taking care of a call, by what is found under its name and under its path. -/
theorem includeCall_eq (naming : Naming) (fragments : List Fragment) (referrer : QualifiedName)
    (kind : SourceKind) (name : Text) (position : Nat) (s : Progress) :
    includeCall naming fragments referrer kind name position s =
      let path := naming.sourcePath kind name
      let target := naming.qualify kind path
      let reserved := { s.ask path with units := (s.units.reserve target path).2 }
      match s.units.source? target, Fragment.text? fragments kind path with
      | some existing, _ =>
          if existing = path then .ok () s else .error (.collision ⟨target, existing, path⟩) s
      | none, none => .error (.unresolved kind name referrer position) (s.ask path)
      | none, some text =>
          match Header.ofFragment text with
          | .error e => .error (.malformedHeader path e) reserved
          | .ok header =>
              match includeCalls naming (Fragment.without fragments kind path) target
                (header.body.read kind).events reserved with
              | .error error s => .error error s
              | .ok _ s =>
                  match (header.body.read kind).error with
                  | some e => .error (.badStructure path e) s
                  | none => .ok () { s with units := s.units.finalize ⟨target, path,
                      Module.code naming kind path header (header.body.read kind).events⟩ } := by
  rw [includeCall]
  simp only
  cases s.units.source? (naming.qualify kind (naming.sourcePath kind name)) with
  | some existing => rfl
  | none =>
      simp only
      split
      · rename_i missing
        rw [missing]
      · rename_i text found
        rewrite [found]
        rfl

/-- A source with a free name is included by reading, reserving, following and finishing it. -/
theorem includeCall_of_absent (called : c.naming.reference kind name = r)
    (fragment : kind ≠ .template) (absent : c.nameOf r ∉ s.units.names) :
    includeCall c.naming fragments referrer kind name position s = .ok () s' ↔
      ∃ text header events between,
        Fragment.text? fragments r.kind r.path = some text ∧
        Source.read r.kind text = .ok (header, events) ∧
        includeCalls c.naming (Fragment.without fragments r.kind r.path) (c.nameOf r) events
          { s.ask r.path with units := (s.units.reserve (c.nameOf r) r.path).2 } = .ok () between ∧
        s' = { between with units := between.units.finalize (c.unitOf r header events) } := by
  subst called
  have free := UnitSet.source?_eq_none_iff.mpr absent
  rw [nameOf, Naming.reference] at free
  rw [includeCall]
  simp only [free]
  constructor
  · intro done
    split at done
    · cases done
    · rename_i text found
      split at done
      · cases done
      · rename_i header opened
        split at done
        · cases done
        · rename_i between inner
          split at done
          · cases done
          · rename_i whole
            cases done
            refine ⟨text, header, _, between, found, ?_, inner, rfl⟩
            rw [Source.read_eq_ok_iff]
            refine ⟨(Header.ofSource_of_fragment fragment text).trans opened, ?_⟩
            rw [← whole]
            rfl
  · rintro ⟨text, header, events, between, found, read, inner, rfl⟩
    obtain ⟨opened, whole⟩ := Source.read_eq_ok_iff.mp read
    have opened := (Header.ofSource_of_fragment fragment text).symm.trans opened
    split
    · rename_i missing
      cases missing.symm.trans found
    · rename_i text' found'
      cases found'.symm.trans found
      simp only [Naming.reference, nameOf] at whole inner
      simp only [opened, whole, inner]
      rfl

theorem includeCall_of_found (called : c.naming.reference kind name = r)
    (found : s.units.source? (c.nameOf r) = some r.path) :
    includeCall c.naming fragments referrer kind name position s = .ok () s := by
  subst called
  rw [nameOf, Naming.reference] at found
  rw [includeCall]
  simp only [found, if_true]

/-- A called source is included in one of two ways: it has a slot, or its name is free. -/
theorem includeCall_cases (called : c.naming.reference kind name = r)
    (consistent : c.Consistent s.units)
    (done : includeCall c.naming fragments referrer kind name position s = .ok () s') :
    (r ∈ s.units.references ∧ s' = s) ∨ c.nameOf r ∉ s.units.names := by
  cases found : s.units.source? (c.nameOf r) with
  | none => exact .inr (UnitSet.source?_eq_none_iff.mp found)
  | some path =>
      have reference := (consistent.exists_reference found).1
      subst called
      rw [nameOf, Naming.reference] at found
      rw [includeCall] at done
      simp only [found] at done
      split at done
      · rename_i same
        cases same
        cases done
        exact .inl ⟨reference, rfl⟩
      · cases done

theorem includeCalls_nil :
    includeCalls c.naming fragments referrer [] s = .ok () s := by
  rw [includeCalls]

theorem includeCalls_cons_of_none {e : Event} {rest : List Event} (silent : e.call? = none) :
    includeCalls c.naming fragments referrer (e :: rest) s =
      includeCalls c.naming fragments referrer rest s := by
  rw [includeCalls]
  simp only [silent]

theorem includeCalls_cons_of_some {e : Event} {rest : List Event}
    (call : e.call? = some (kind, name)) :
    includeCalls c.naming fragments referrer (e :: rest) s = .ok () s' ↔
      ∃ between, includeCall c.naming fragments referrer kind name e.span.start s =
          .ok () between ∧
        includeCalls c.naming fragments referrer rest between = .ok () s' := by
  rw [includeCalls]
  simp only [call]
  cases includeCall c.naming fragments referrer kind name e.span.start s with
  | ok _ between =>
      constructor
      · exact fun done => ⟨between, rfl, done⟩
      · rintro ⟨_, ⟨⟩, done⟩
        exact done
  | error err between =>
      constructor
      · rintro ⟨⟩
      · rintro ⟨_, ⟨⟩, _⟩

mutual

/-- Including the calls of events adds what they lead to. -/
theorem includeCalls_adds {fragments : List Fragment} {referrer : QualifiedName}
    {events : List Event} {s s' : Progress} (offers : c.Offers fragments s.units)
    (consistent : c.Consistent s.units)
    (done : includeCalls c.naming fragments referrer events s = .ok () s') :
    ∃ new, c.Adds s.units (c.naming.callsOf events) new s'.units := by
  match events with
  | [] =>
      rw [includeCalls_nil] at done
      cases done
      exact ⟨[], .nil consistent⟩
  | e :: rest =>
      match call : e.call? with
      | none =>
          rw [includeCalls_cons_of_none call] at done
          rw [Naming.callsOf_cons_of_none call]
          exact includeCalls_adds offers consistent done
      | some (kind, name) =>
          obtain ⟨between, first, later⟩ := (includeCalls_cons_of_some call).mp done
          obtain ⟨new, adds⟩ := includeCall_adds offers consistent (Event.call?_kind call) first
          obtain ⟨more, adds'⟩ :=
            includeCalls_adds (offers.mono fun _ => adds.grown) adds.consistent later
          rw [Naming.callsOf_cons_of_some call]
          exact ⟨new ++ more, adds.append adds'⟩
termination_by (fragments.length, events.length + 1)

/-- Including a call adds the called source and what it leads to. -/
theorem includeCall_adds {fragments : List Fragment} {referrer : QualifiedName} {kind : SourceKind}
    {name : Text} {position : Nat} {s s' : Progress} (offers : c.Offers fragments s.units)
    (consistent : c.Consistent s.units) (fragment : kind ≠ .template)
    (done : includeCall c.naming fragments referrer kind name position s = .ok () s') :
    ∃ new, c.Adds s.units [c.naming.reference kind name] new s'.units := by
  generalize called : c.naming.reference kind name = r
  rcases includeCall_cases called consistent done with ⟨present, rfl⟩ | absent
  · exact ⟨[], .again consistent present⟩
  · obtain ⟨text, header, events, between, found, read, inner, rfl⟩ :=
      (includeCall_of_absent called fragment absent).mp done
    -- one fragment less is left for the calls inside, so the recursion ends also on a cycle
    have shorter := Fragment.length_without_lt found
    have reading : c.reading? r = some (header, events) := by
      rw [offers r (called ▸ fragment) (mt consistent.name_mem absent)] at found
      exact reading?_eq_some_iff.mpr ⟨text, found, read⟩
    obtain ⟨new, adds⟩ :=
      includeCalls_adds (offers.reserve absent) (consistent.reserve absent) inner
    refine ⟨r :: new, .first consistent absent reading ?_⟩
    rw [calls_of_reading reading]
    exact adds
termination_by (fragments.length, 0)

end

/-- Some sources make no trouble: they only call one another, all of them can be read, and no two
of them have one name. -/
structure Sound (c : Compiler) (within : Reference → Prop) : Prop where
  closed : ∀ r, within r → ∀ called ∈ c.calls r, within called
  readable : ∀ r, within r → c.Readable r
  distinct : ∀ r q, within r → within q → c.nameOf r = c.nameOf q → r = q

variable {within : Reference → Prop}

/-- What is added stays among sources that only call one another. -/
theorem Adds.stays {todo new : List Reference} (h : c.Adds set todo new after)
    (sound : c.Sound within) (old : ∀ r ∈ set.references, within r)
    (wanted : ∀ r ∈ todo, within r) : ∀ r ∈ after.references, within r := by
  intro r member
  rw [h.references] at member
  rcases h.order.reached_of_mem member with seen | ⟨start, isWanted, path⟩
  · exact old r seen
  · clear member
    induction path with
    | refl => exact wanted start isWanted
    | tail _ step ih => exact sound.closed _ ih _ step

mutual

/-- The calls of events can be included if they stay among sources that make no trouble. -/
theorem includeCalls_succeeds {fragments : List Fragment} (referrer : QualifiedName)
    (events : List Event) {s : Progress} (sound : c.Sound within)
    (offers : c.Offers fragments s.units) (consistent : c.Consistent s.units)
    (old : ∀ r ∈ s.units.references, within r)
    (wanted : ∀ r ∈ c.naming.callsOf events, within r) :
    ∃ s', includeCalls c.naming fragments referrer events s = .ok () s' := by
  match events with
  | [] => exact ⟨s, includeCalls_nil⟩
  | e :: rest =>
      match call : e.call? with
      | none =>
          rw [Naming.callsOf_cons_of_none call] at wanted
          rw [includeCalls_cons_of_none call]
          exact includeCalls_succeeds referrer rest sound offers consistent old wanted
      | some (kind, name) =>
          rw [Naming.callsOf_cons_of_some call, List.forall_mem_cons] at wanted
          have fragment := Event.call?_kind call
          obtain ⟨between, first⟩ := includeCall_succeeds referrer e.span.start sound offers
            consistent fragment old wanted.1
          obtain ⟨new, adds⟩ := includeCall_adds offers consistent fragment first
          have inside := adds.stays sound old (List.forall_mem_singleton.mpr wanted.1)
          obtain ⟨last, later⟩ := includeCalls_succeeds referrer rest sound
            (offers.mono fun _ => adds.grown) adds.consistent inside wanted.2
          exact ⟨last, (includeCalls_cons_of_some call).mpr ⟨between, first, later⟩⟩
termination_by (fragments.length, events.length + 1)

/-- A source that makes no trouble can be included. -/
theorem includeCall_succeeds {fragments : List Fragment} (referrer : QualifiedName)
    {kind : SourceKind} {name : Text} (position : Nat) {s : Progress} (sound : c.Sound within)
    (offers : c.Offers fragments s.units) (consistent : c.Consistent s.units)
    (fragment : kind ≠ .template) (old : ∀ r ∈ s.units.references, within r)
    (wanted : within (c.naming.reference kind name)) :
    ∃ s', includeCall c.naming fragments referrer kind name position s = .ok () s' := by
  generalize called : c.naming.reference kind name = r at wanted
  cases found : s.units.source? (c.nameOf r) with
  | some path =>
      obtain ⟨present, named⟩ := consistent.exists_reference found
      have same := sound.distinct _ _ (old _ present) wanted named
      cases congrArg Reference.path same
      exact ⟨s, includeCall_of_found called found⟩
  | none =>
      have absent := UnitSet.source?_eq_none_iff.mp found
      obtain ⟨⟨header, events⟩, reading⟩ := Option.isSome_iff_exists.mp (sound.readable r wanted)
      obtain ⟨text, there, read⟩ := reading?_eq_some_iff.mp reading
      have offered := (offers r (called ▸ fragment) (mt consistent.name_mem absent)).trans there
      have shorter := Fragment.length_without_lt offered
      have inside : ∀ q ∈ (s.units.reserve (c.nameOf r) r.path).2.references, within q := by
        rw [references_reserve absent, List.forall_mem_append, List.forall_mem_singleton]
        exact ⟨old, wanted⟩
      have callees : ∀ q ∈ c.naming.callsOf events, within q := by
        rw [← calls_of_reading reading]
        exact sound.closed r wanted
      obtain ⟨between, inner⟩ := includeCalls_succeeds (c.nameOf r) events
        (s := { s.ask r.path with units := (s.units.reserve (c.nameOf r) r.path).2 })
        sound (offers.reserve absent) (consistent.reserve absent) inside callees
      exact ⟨_, (includeCall_of_absent called fragment absent).mpr
        ⟨text, header, events, between, offered, read, inner, rfl⟩⟩
termination_by (fragments.length, 0)

end

end Compiler

end Stencil
