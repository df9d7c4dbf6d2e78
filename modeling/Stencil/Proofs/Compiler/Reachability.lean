import Stencil.Compiler
import Stencil.Source
import Stencil.Proofs.Compiler.DepthFirst

/-!
The call graph of a compiler's sources: which tags and layouts a source calls, what it reaches by
following calls, and what each reachable source would be generated into.
-/

namespace Stencil

theorem Source.read_eq_ok_iff {kind : SourceKind} {text : Text} {header : Header}
    {events : List Event} : Source.read kind text = .ok (header, events) ↔
      Header.ofSource kind text = .ok header ∧ header.body.read kind = ⟨events, none⟩ := by
  cases first : Header.ofSource kind text with
  | error e => simp only [Source.read, first, reduceCtorEq, false_and]
  | ok found =>
      rcases reading : found.body.read kind with ⟨seen, _ | e⟩
      · simp only [Source.read, first, reading, Except.ok.injEq, Prod.mk.injEq]
        constructor
        · rintro ⟨rfl, rfl⟩
          exact ⟨rfl, reading⟩
        · rintro ⟨rfl, same⟩
          cases reading.symm.trans same
          exact ⟨rfl, rfl⟩
      · simp only [Source.read, first, reading, Except.ok.injEq, reduceCtorEq, false_iff]
        rintro ⟨rfl, same⟩
        cases reading.symm.trans same

theorem Header.ofSource_of_fragment {kind : SourceKind} (fragment : kind ≠ .template)
    (text : Text) : Header.ofSource kind text = Header.ofFragment text := by
  cases kind with
  | template => exact absurd rfl fragment
  | tag => rfl
  | layout => rfl

/-- A source in the role in which it is used. -/
@[ext]
structure Reference where
  kind : SourceKind
  path : Text
  deriving DecidableEq, Repr

/-- What a body calls by a dotted name. -/
def Naming.reference (naming : Naming) (kind : SourceKind) (name : Text) : Reference :=
  ⟨kind, naming.sourcePath kind name⟩

def Naming.callsOf (naming : Naming) (events : List Event) : List Reference :=
  events.filterMap fun e => e.call?.map fun (kind, name) => naming.reference kind name

theorem Event.call?_kind {e : Event} {kind : SourceKind} {name : Text}
    (h : e.call? = some (kind, name)) : kind ≠ .template := by
  unfold Event.call? at h
  split at h
  all_goals
    cases h
    try exact SourceKind.noConfusion

theorem Naming.kind_of_mem_callsOf {naming : Naming} {events : List Event} {r : Reference}
    (h : r ∈ naming.callsOf events) : r.kind ≠ .template := by
  obtain ⟨e, -, called⟩ := List.mem_filterMap.mp h
  obtain ⟨⟨kind, name⟩, call, rfl⟩ := Option.map_eq_some_iff.mp called
  exact Event.call?_kind call

theorem Naming.callsOf_cons_of_none {naming : Naming} {e : Event} (h : e.call? = none)
    (rest : List Event) : naming.callsOf (e :: rest) = naming.callsOf rest := by
  rw [Naming.callsOf, List.filterMap_cons, h]
  rfl

theorem Naming.callsOf_cons_of_some {naming : Naming} {e : Event} {kind : SourceKind} {name : Text}
    (h : e.call? = some (kind, name)) (rest : List Event) :
    naming.callsOf (e :: rest) = naming.reference kind name :: naming.callsOf rest := by
  rw [Naming.callsOf, List.filterMap_cons, h]
  rfl

namespace Compiler

/-- The header and the events of a source in its role, if it is there and can be read. -/
def reading? (c : Compiler) (r : Reference) : Option (Header × List Event) :=
  (c.sources.find? r.path).bind fun text => (Source.read r.kind text).toOption

/-- Whether a source is there and has a header and a body that can be read in its role. -/
def Readable (c : Compiler) (r : Reference) : Prop := (c.reading? r).isSome = true

instance (c : Compiler) (r : Reference) : Decidable (c.Readable r) :=
  inferInstanceAs (Decidable ((c.reading? r).isSome = true))

def calls (c : Compiler) (r : Reference) : List Reference :=
  (c.reading? r).elim [] fun (_, events) => c.naming.callsOf events

/-- Whether calls lead from a source to a tag or layout, in one step or more. -/
def Reaches (c : Compiler) : Reference → Reference → Prop :=
  Relation.TransGen fun caller called => called ∈ c.calls caller

def nameOf (c : Compiler) (r : Reference) : QualifiedName := c.naming.qualify r.kind r.path

/-- The unit that a source with a given header and given events is generated into. -/
def unitOf (c : Compiler) (r : Reference) (header : Header) (events : List Event) : CodeUnit :=
  ⟨c.nameOf r, r.path, Module.code c.naming r.kind r.path header events⟩

/-- The slot of a source once it has been generated. -/
def slotOf (c : Compiler) (r : Reference) : Slot :=
  ⟨c.nameOf r, (c.reading? r).elim (.reserved r.path) fun (header, events) =>
    .finished (c.unitOf r header events)⟩

variable {c : Compiler}

theorem reading?_eq_some_iff {r : Reference} {header : Header} {events : List Event} :
    c.reading? r = some (header, events) ↔
      ∃ text, c.sources.find? r.path = some text ∧
        Source.read r.kind text = .ok (header, events) := by
  rw [reading?, Option.bind_eq_some_iff]
  refine exists_congr fun text => and_congr_right fun _ => ?_
  cases Source.read r.kind text with
  | error e => simp only [Except.toOption, reduceCtorEq]
  | ok source => simp only [Except.toOption, Option.some.injEq, Except.ok.injEq]

theorem calls_of_reading {r : Reference} {header : Header} {events : List Event}
    (reading : c.reading? r = some (header, events)) :
    c.calls r = c.naming.callsOf events := by
  rw [calls, reading]
  rfl

theorem kind_of_mem_calls {r called : Reference} (h : called ∈ c.calls r) :
    called.kind ≠ .template := by
  rw [calls] at h
  cases reading : c.reading? r with
  | none =>
      rw [reading] at h
      cases h
  | some source =>
      rw [reading] at h
      exact Naming.kind_of_mem_callsOf h

theorem kind_of_reaches {r called : Reference} (h : c.Reaches r called) :
    called.kind ≠ .template := by
  cases h with
  | single step => exact kind_of_mem_calls step
  | tail _ step => exact kind_of_mem_calls step

end Compiler

end Stencil
