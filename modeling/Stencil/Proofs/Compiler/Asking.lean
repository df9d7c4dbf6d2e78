import Stencil.Proofs.Compiler.Generation

/-!
Which sources are asked for. Following the calls of a body is described by rules that know nothing
of a bound on the recursion: a source is reserved before its own calls are followed, and that alone
makes every run end. Main statement: every generation is the one run of these rules, it asks for no
source twice in one role, and a successful one asks for the sources of its units in their order.
-/

namespace Stencil

/-- What a call leads to: nothing to do, a failure after some sources were asked for, or a source
with its header. -/
inductive Encounter where
  | present
  | refused (asked : List Reference) (error : GenerateError)
  | opened (header : Header)

def CodeUnit.reference (u : CodeUnit) : Reference := ⟨u.name.kind, u.source⟩

def Outcome.units : Outcome → Except GenerateError UnitSet
  | .ok _ s => .ok s.units
  | .error e _ => .error e

def Outcome.asked : Outcome → List Text
  | .ok _ s => s.asked
  | .error _ s => s.asked

namespace Compiler

def encounter (c : Compiler) (set : UnitSet) (referrer : QualifiedName) (kind : SourceKind)
    (name : Text) (position : Nat) : Encounter :=
  let r := c.naming.reference kind name
  match set.source? (c.nameOf r) with
  | some existing =>
      if existing = r.path then .present else .refused [] (.collision ⟨c.nameOf r, existing, r.path⟩)
  | none =>
      match c.sources.find? r.path with
      | none => .refused [r] (.unresolved kind name referrer position)
      | some text =>
          match Header.ofFragment text with
          | .error e => .refused [r] (.malformedHeader r.path e)
          | .ok header => .opened header

/-- How following the calls of events ends, and the sources that are asked for on the way. -/
inductive Follows (c : Compiler) : QualifiedName → List Event → UnitSet → List Reference →
    Except GenerateError UnitSet → Prop
  | done {referrer set} : Follows c referrer [] set [] (.ok set)
  | silent {referrer e rest set asked result} : e.call? = none →
      Follows c referrer rest set asked result → Follows c referrer (e :: rest) set asked result
  | present {referrer e rest set kind name asked result} : e.call? = some (kind, name) →
      c.encounter set referrer kind name e.span.start = .present →
      Follows c referrer rest set asked result → Follows c referrer (e :: rest) set asked result
  | refused {referrer e rest set kind name asked error} : e.call? = some (kind, name) →
      c.encounter set referrer kind name e.span.start = .refused asked error →
      Follows c referrer (e :: rest) set asked (.error error)
  | inside {referrer e rest set kind name r header asked error} : e.call? = some (kind, name) →
      c.naming.reference kind name = r →
      c.encounter set referrer kind name e.span.start = .opened header →
      Follows c (c.nameOf r) (header.body.read kind).events (set.reserve (c.nameOf r) r.path).2 asked
        (.error error) →
      Follows c referrer (e :: rest) set (r :: asked) (.error error)
  | broken {referrer e rest set kind name r header asked after error} :
      e.call? = some (kind, name) → c.naming.reference kind name = r →
      c.encounter set referrer kind name e.span.start = .opened header →
      Follows c (c.nameOf r) (header.body.read kind).events (set.reserve (c.nameOf r) r.path).2 asked
        (.ok after) →
      (header.body.read kind).error = some error →
      Follows c referrer (e :: rest) set (r :: asked) (.error (.badStructure r.path error))
  | first {referrer e rest set kind name r header asked after more result} :
      e.call? = some (kind, name) → c.naming.reference kind name = r →
      c.encounter set referrer kind name e.span.start = .opened header →
      Follows c (c.nameOf r) (header.body.read kind).events (set.reserve (c.nameOf r) r.path).2 asked
        (.ok after) →
      (header.body.read kind).error = none →
      Follows c referrer rest
        (after.finalize (c.unitOf r header (header.body.read kind).events)) more result →
      Follows c referrer (e :: rest) set (r :: asked ++ more) result

variable {c : Compiler} {referrer : QualifiedName} {events : List Event} {set after : UnitSet}
  {asked : List Reference} {result : Except GenerateError UnitSet} {r : Reference}

theorem Follows.of_refused {e : Event} {rest : List Event} {kind : SourceKind} {name : Text}
    {asked' : List Reference} {error : GenerateError} (call : e.call? = some (kind, name))
    (met : c.encounter set referrer kind name e.span.start = .refused asked' error)
    (h : c.Follows referrer (e :: rest) set asked result) :
    asked' = asked ∧ .error error = result := by
  cases h with
  | refused call' met' =>
      cases call.symm.trans call'
      cases met.symm.trans met'
      exact ⟨rfl, rfl⟩
  | _ => simp_all

/-- After a source is opened, its own calls are followed; how they end tells how to go on. -/
theorem Follows.of_opened {e : Event} {rest : List Event} {kind : SourceKind} {name : Text}
    {header : Header} (call : e.call? = some (kind, name))
    (called : c.naming.reference kind name = r)
    (met : c.encounter set referrer kind name e.span.start = .opened header)
    (h : c.Follows referrer (e :: rest) set asked result) :
    ∃ inner ending, c.Follows (c.nameOf r) (header.body.read kind).events
        (set.reserve (c.nameOf r) r.path).2 inner ending ∧
      ((∃ error, ending = .error error ∧ asked = r :: inner ∧ result = .error error) ∨
        (∃ after error, ending = .ok after ∧ (header.body.read kind).error = some error ∧
          asked = r :: inner ∧ result = .error (.badStructure r.path error)) ∨
        ∃ after more, ending = .ok after ∧ (header.body.read kind).error = none ∧
          asked = r :: inner ++ more ∧
          c.Follows referrer rest
            (after.finalize (c.unitOf r header (header.body.read kind).events)) more result) := by
  subst called
  cases h with
  | inside call' called' met' inner =>
      cases call.symm.trans call'
      cases met.symm.trans met'
      subst called'
      exact ⟨_, _, inner, .inl ⟨_, rfl, rfl, rfl⟩⟩
  | broken call' called' met' inner failed =>
      cases call.symm.trans call'
      cases met.symm.trans met'
      subst called'
      exact ⟨_, _, inner, .inr (.inl ⟨_, _, rfl, failed, rfl, rfl⟩)⟩
  | first call' called' met' inner whole later =>
      cases call.symm.trans call'
      cases met.symm.trans met'
      subst called'
      exact ⟨_, _, inner, .inr (.inr ⟨_, _, rfl, whole, rfl, later⟩)⟩
  | _ => simp_all

/-- The rules leave no choice. -/
theorem Follows.unique {asked' : List Reference} {result' : Except GenerateError UnitSet}
    (h : c.Follows referrer events set asked result)
    (h' : c.Follows referrer events set asked' result') : asked = asked' ∧ result = result' := by
  induction h generalizing asked' result' with
  | done =>
      cases h'
      exact ⟨rfl, rfl⟩
  | silent quiet _ ih =>
      cases h' with
      | silent _ later => exact ih later
      | _ => simp_all
  | present call met _ ih =>
      cases h' with
      | present _ _ later => exact ih later
      | _ => simp_all
  | refused call met => exact h'.of_refused call met
  | inside call called met _ ih =>
      obtain ⟨inner, ending, followed, ends⟩ := h'.of_opened call called met
      obtain ⟨rfl, rfl⟩ := ih followed
      rcases ends with ⟨error, same, rfl, rfl⟩ | ⟨after, error, same, -⟩ | ⟨after, more, same, -⟩
      · exact ⟨rfl, same⟩
      · cases same
      · cases same
  | broken call called met _ failed ih =>
      obtain ⟨inner, ending, followed, ends⟩ := h'.of_opened call called met
      obtain ⟨rfl, rfl⟩ := ih followed
      rcases ends with ⟨error, same, -⟩ | ⟨after, error, -, failed', rfl, rfl⟩ |
        ⟨after, more, -, whole, -⟩
      · cases same
      · cases failed.symm.trans failed'
        exact ⟨rfl, rfl⟩
      · cases failed.symm.trans whole
  | first call called met _ whole _ ih ihLater =>
      obtain ⟨inner, ending, followed, ends⟩ := h'.of_opened call called met
      obtain ⟨rfl, rfl⟩ := ih followed
      rcases ends with ⟨error, same, -⟩ | ⟨after, error, -, failed, -⟩ |
        ⟨after, more, same, -, rfl, later⟩
      · cases same
      · cases whole.symm.trans failed
      · cases same
        obtain ⟨rfl, rfl⟩ := ihLater later
        exact ⟨rfl, rfl⟩

section

variable {kind : SourceKind} {name : Text} {position : Nat} {header : Header}

theorem encounter_eq_opened (called : c.naming.reference kind name = r)
    (met : c.encounter set referrer kind name position = .opened header) :
    c.nameOf r ∉ set.names ∧
      ∃ text, c.sources.find? r.path = some text ∧ Header.ofFragment text = .ok header := by
  subst called
  simp only [encounter] at met
  split at met
  · split at met
    · cases met
    · cases met
  · rename_i free
    refine ⟨UnitSet.source?_eq_none_iff.mp free, ?_⟩
    split at met
    · cases met
    · rename_i text found
      split at met
      · cases met
      · rename_i opened
        cases met
        exact ⟨text, found, opened⟩

theorem encounter_eq_refused {error : GenerateError} (called : c.naming.reference kind name = r)
    (met : c.encounter set referrer kind name position = .refused asked error) :
    asked = [] ∨ asked = [r] ∧ c.nameOf r ∉ set.names := by
  subst called
  simp only [encounter] at met
  split at met
  · split at met
    · cases met
    · cases met
      exact .inl rfl
  · rename_i free
    have absent := UnitSet.source?_eq_none_iff.mp free
    split at met
    · cases met
      exact .inr ⟨rfl, absent⟩
    · split at met
      · cases met
        exact .inr ⟨rfl, absent⟩
      · cases met

end

theorem Consistent.finalize (consistent : c.Consistent set) (present : r ∈ set.references)
    (header : Header) (events : List Event) :
    c.Consistent (set.finalize (c.unitOf r header events)) ∧
      (set.finalize (c.unitOf r header events)).references = set.references := by
  obtain ⟨slot, member, rfl⟩ := List.mem_map.mp present
  have named := consistent.named slot member
  obtain ⟨before, later, split⟩ := List.append_of_mem member
  have distinct := set.distinct
  rw [split, List.map_append, List.map_cons, named] at distinct
  have apart := (List.nodup_cons.mp (List.nodup_middle.mp distinct)).1
  rw [List.mem_append, not_or] at apart
  have slots := UnitSet.slots_finalize_of_split
    (u := c.unitOf slot.reference header events) split named apart.1 apart.2
  refine ⟨⟨?_⟩, ?_⟩
  · rw [slots]
    intro other isSlot
    rcases List.mem_append.mp isSlot with old | new
    · exact consistent.named other (split ▸ List.mem_append_left _ old)
    · rcases List.mem_cons.mp new with rfl | old
      · rfl
      · exact consistent.named other
          (split ▸ List.mem_append_right _ (List.mem_cons_of_mem _ old))
  · rw [UnitSet.references, slots, List.map_append, List.map_cons, UnitSet.references, split,
      List.map_append, List.map_cons]
    rfl

/-- What can be said of the sources that a run asks for: none of them was there before or is asked
for twice, and a run that succeeds adds exactly them. -/
structure Asks (c : Compiler) (set : UnitSet) (asked : List Reference)
    (result : Except GenerateError UnitSet) : Prop where
  nodup : asked.Nodup
  absent : ∀ r ∈ asked, r ∉ set.references
  fragments : ∀ r ∈ asked, r.kind ≠ .template
  adds : ∀ after, result = .ok after →
    c.Consistent after ∧ after.references = set.references ++ asked

theorem Asks.nil (consistent : c.Consistent set) : c.Asks set [] (.ok set) where
  nodup := List.nodup_nil
  absent := List.forall_mem_nil _
  fragments := List.forall_mem_nil _
  adds := by
    rintro _ ⟨⟩
    exact ⟨consistent, (List.append_nil _).symm⟩

theorem Asks.append {more : List Reference} (first : c.Asks set asked (.ok after))
    (later : c.Asks after more result) : c.Asks set (asked ++ more) result := by
  have references := (first.adds after rfl).2
  have apart : ∀ r ∈ more, r ∉ set.references ∧ r ∉ asked := by
    intro r member
    have outside := later.absent r member
    rw [references, List.mem_append, not_or] at outside
    exact outside
  refine ⟨?_, ?_, ?_, ?_⟩
  · refine first.nodup.append later.nodup ?_
    intro r inFirst inMore
    exact (apart r inMore).2 inFirst
  · rw [List.forall_mem_append]
    exact ⟨first.absent, fun r member => (apart r member).1⟩
  · rw [List.forall_mem_append]
    exact ⟨first.fragments, later.fragments⟩
  · intro last success
    obtain ⟨consistent, grown⟩ := later.adds last success
    exact ⟨consistent, by rw [grown, references, List.append_assoc]⟩

/-- A source is asked for once and reserved, so that the calls inside of it do not ask for it. -/
theorem Asks.opened {ending : Except GenerateError UnitSet} (free : c.nameOf r ∉ set.names)
    (fragment : r.kind ≠ .template) (consistent : c.Consistent set)
    (inner : c.Asks (set.reserve (c.nameOf r) r.path).2 asked ending)
    (final : ∀ after, result = .ok after → ∃ between header events,
      ending = .ok between ∧ after = between.finalize (c.unitOf r header events)) :
    c.Asks set (r :: asked) result := by
  have references := references_reserve free
  have apart : ∀ q ∈ asked, q ∉ set.references ∧ q ≠ r := by
    intro q member
    have outside := inner.absent q member
    rw [references, List.mem_append, not_or, List.mem_singleton] at outside
    exact outside
  refine ⟨?_, ?_, ?_, ?_⟩
  · rw [List.nodup_cons]
    exact ⟨fun again => (apart r again).2 rfl, inner.nodup⟩
  · rw [List.forall_mem_cons]
    exact ⟨mt consistent.name_mem free, fun q member => (apart q member).1⟩
  · rw [List.forall_mem_cons]
    exact ⟨fragment, inner.fragments⟩
  · intro after success
    obtain ⟨between, header, events, rfl, rfl⟩ := final after success
    obtain ⟨sound, grown⟩ := inner.adds between rfl
    rw [references, List.append_assoc] at grown
    have present : r ∈ between.references := by
      rw [grown]
      exact List.mem_append_right _ List.mem_cons_self
    obtain ⟨finished, same⟩ := sound.finalize present header events
    exact ⟨finished, same.trans grown⟩

theorem Follows.asks (h : c.Follows referrer events set asked result)
    (consistent : c.Consistent set) : c.Asks set asked result := by
  induction h with
  | done => exact .nil consistent
  | silent _ _ ih => exact ih consistent
  | present _ _ _ ih => exact ih consistent
  | refused call met =>
      have fragment := Event.call?_kind call
      rcases encounter_eq_refused rfl met with rfl | ⟨rfl, free⟩
      · exact ⟨List.nodup_nil, List.forall_mem_nil _, List.forall_mem_nil _, nofun⟩
      · refine ⟨List.nodup_singleton _, ?_, ?_, nofun⟩
        · rw [List.forall_mem_singleton]
          exact mt consistent.name_mem free
        · rw [List.forall_mem_singleton]
          exact fragment
  | inside call called met _ ih =>
      obtain ⟨free, -⟩ := encounter_eq_opened called met
      subst called
      have fragment := Event.call?_kind call
      exact .opened free fragment consistent (ih (consistent.reserve free)) nofun
  | broken call called met _ _ ih =>
      obtain ⟨free, -⟩ := encounter_eq_opened called met
      subst called
      have fragment := Event.call?_kind call
      exact .opened free fragment consistent (ih (consistent.reserve free)) nofun
  | @first _ _ _ set kind name _ header asked between more _ call called met _ _ _ ih ihLater =>
      obtain ⟨free, -⟩ := encounter_eq_opened called met
      subst called
      have fragment := Event.call?_kind call
      have own : c.Asks set (c.naming.reference kind name :: asked)
          (.ok (between.finalize (c.unitOf _ header (header.body.read kind).events))) :=
        .opened free fragment consistent (ih (consistent.reserve free))
          fun after same => ⟨_, _, _, rfl, (Except.ok.inj same).symm⟩
      exact own.append (ihLater (own.adds _ rfl).1)

section

variable {fragments : List Fragment} {kind : SourceKind} {name : Text} {position : Nat}
  {s : Progress} {header : Header}

theorem includeCall_of_present
    (met : c.encounter s.units referrer kind name position = .present) :
    includeCall c.naming fragments referrer kind name position s = .ok () s := by
  simp only [encounter] at met
  split at met
  · rename_i existing found
    split at met
    · rename_i same
      subst same
      exact includeCall_of_found rfl found
    · cases met
  · split at met
    · cases met
    · split at met
      · cases met
      · cases met

theorem includeCall_of_refused {error : GenerateError} (offers : c.Offers fragments s.units)
    (consistent : c.Consistent s.units) (fragment : kind ≠ .template)
    (met : c.encounter s.units referrer kind name position = .refused asked error) :
    ∃ last, includeCall c.naming fragments referrer kind name position s = .error error last ∧
      last.asked = s.asked ++ asked.map Reference.path := by
  rw [includeCall_eq]
  simp only [encounter] at met
  split at met
  · rename_i existing found
    rw [nameOf, Naming.reference] at found
    simp only [found]
    split at met
    · cases met
    · rename_i apart
      cases met
      exact ⟨s, if_neg apart, (List.append_nil _).symm⟩
  · rename_i free
    have absent := mt consistent.name_mem (UnitSet.source?_eq_none_iff.mp free)
    have offered := offers (c.naming.reference kind name) fragment absent
    rw [nameOf, Naming.reference] at free
    rw [Naming.reference] at offered
    split at met
    · rename_i missing
      cases met
      simp only [free, offered.trans missing]
      exact ⟨_, rfl, rfl⟩
    · rename_i text there
      split at met
      · rename_i e malformed
        cases met
        simp only [free, offered.trans there, malformed]
        exact ⟨_, rfl, rfl⟩
      · cases met

theorem includeCall_of_opened (called : c.naming.reference kind name = r)
    (offers : c.Offers fragments s.units)
    (consistent : c.Consistent s.units) (fragment : kind ≠ .template)
    (met : c.encounter s.units referrer kind name position = .opened header) :
    includeCall c.naming fragments referrer kind name position s =
      match includeCalls c.naming (Fragment.without fragments r.kind r.path) (c.nameOf r)
        (header.body.read kind).events
        { s.ask r.path with units := (s.units.reserve (c.nameOf r) r.path).2 } with
      | .error error s => .error error s
      | .ok _ s =>
          match (header.body.read kind).error with
          | some error => .error (.badStructure r.path error) s
          | none => .ok () { s with
              units := s.units.finalize (c.unitOf r header (header.body.read kind).events) } := by
  obtain ⟨absent, text, there, opened⟩ := encounter_eq_opened called met
  subst called
  have offered := (offers _ fragment (mt consistent.name_mem absent)).trans there
  have free := UnitSet.source?_eq_none_iff.mpr absent
  rw [nameOf, Naming.reference] at free
  rw [Naming.reference] at offered
  rw [includeCall_eq]
  simp only [free, offered, opened]
  rfl

theorem includeCalls_cons_of_call {e : Event} {rest : List Event}
    (call : e.call? = some (kind, name)) :
    includeCalls c.naming fragments referrer (e :: rest) s =
      match includeCall c.naming fragments referrer kind name e.span.start s with
      | .error error s => .error error s
      | .ok _ s => includeCalls c.naming fragments referrer rest s := by
  rewrite [includeCalls, call]
  rfl

end

def Runs (c : Compiler) (referrer : QualifiedName) (events : List Event) (s : Progress)
    (outcome : Outcome) : Prop :=
  ∃ asked, c.Follows referrer events s.units asked outcome.units ∧
    outcome.asked = s.asked ++ asked.map Reference.path

/-- A call that opens a source runs as the rules say, if the calls inside of it do and the calls
after it do. -/
theorem runs_of_opened {fragments : List Fragment} {e : Event} {rest : List Event}
    {kind : SourceKind} {name : Text} {header : Header} {s : Progress}
    (call : e.call? = some (kind, name)) (called : c.naming.reference kind name = r)
    (offers : c.Offers fragments s.units) (consistent : c.Consistent s.units)
    (met : c.encounter s.units referrer kind name e.span.start = .opened header)
    (inner : c.Runs (c.nameOf r) (header.body.read kind).events
      { s.ask r.path with units := (s.units.reserve (c.nameOf r) r.path).2 }
      (includeCalls c.naming (Fragment.without fragments r.kind r.path) (c.nameOf r)
        (header.body.read kind).events
        { s.ask r.path with units := (s.units.reserve (c.nameOf r) r.path).2 }))
    (later : ∀ next, includeCall c.naming fragments referrer kind name e.span.start s =
      .ok () next → c.Runs referrer rest next (includeCalls c.naming fragments referrer rest next)) :
    c.Runs referrer (e :: rest) s (includeCalls c.naming fragments referrer (e :: rest) s) := by
  have step := includeCall_of_opened called offers consistent (Event.call?_kind call) met
  rw [includeCalls_cons_of_call call]
  obtain ⟨asked, follows, names⟩ := inner
  have reserved : (s.ask r.path).asked ++ asked.map Reference.path =
      s.asked ++ (r :: asked).map Reference.path := List.append_assoc _ _ _
  generalize includeCalls c.naming (Fragment.without fragments r.kind r.path) (c.nameOf r)
    (header.body.read kind).events
    { s.ask r.path with units := (s.units.reserve (c.nameOf r) r.path).2 } = ending
    at step follows names
  cases ending with
  | error error last =>
      rw [step]
      exact ⟨r :: asked, .inside call called met follows, names.trans reserved⟩
  | ok _ between =>
      cases whole : (header.body.read kind).error with
      | some error =>
          simp only [whole] at step
          rw [step]
          exact ⟨r :: asked, .broken call called met follows whole, names.trans reserved⟩
      | none =>
          simp only [whole] at step
          obtain ⟨more, followsLater, namesLater⟩ := later _ step
          rw [step]
          refine ⟨r :: asked ++ more, .first call called met follows whole followsLater, ?_⟩
          rw [List.map_append, ← List.append_assoc, ← reserved]
          exact namesLater.trans (congrArg (· ++ _) names)

/-- Taking care of the calls of events is to follow them. -/
theorem includeCalls_runs {fragments : List Fragment} {referrer : QualifiedName}
    {events : List Event} {s : Progress} (offers : c.Offers fragments s.units)
    (consistent : c.Consistent s.units) :
    c.Runs referrer events s (includeCalls c.naming fragments referrer events s) := by
  cases events with
  | nil =>
      rw [includeCalls_nil]
      exact ⟨[], .done, (List.append_nil _).symm⟩
  | cons e rest =>
      cases call : e.call? with
      | none =>
          rw [includeCalls_cons_of_none call]
          obtain ⟨asked, follows, names⟩ := includeCalls_runs offers consistent
          exact ⟨asked, .silent call follows, names⟩
      | some called =>
          obtain ⟨kind, name⟩ := called
          have fragment := Event.call?_kind call
          cases met : c.encounter s.units referrer kind name e.span.start with
          | present =>
              rw [includeCalls_cons_of_call call, includeCall_of_present met]
              obtain ⟨asked, follows, names⟩ := includeCalls_runs offers consistent
              exact ⟨asked, .present call met follows, names⟩
          | refused asked error =>
              obtain ⟨last, failed, names⟩ :=
                includeCall_of_refused offers consistent fragment met
              rw [includeCalls_cons_of_call call, failed]
              exact ⟨asked, .refused call met, names⟩
          | opened header =>
              obtain ⟨absent, text, there, -⟩ := encounter_eq_opened rfl met
              have offered := (offers _ fragment (mt consistent.name_mem absent)).trans there
              have shorter := Fragment.length_without_lt offered
              refine runs_of_opened call rfl offers consistent met ?_ ?_
              · exact includeCalls_runs (offers.reserve absent) (consistent.reserve absent)
              · intro next step
                obtain ⟨new, adds⟩ := includeCall_adds offers consistent fragment step
                exact includeCalls_runs (offers.mono fun _ => adds.grown) adds.consistent
termination_by (fragments.length, events.length)

/-- How generating a template ends, and the tags and layouts that are asked for on the way. -/
def Generates (c : Compiler) (name : Text) (asked : List Reference)
    (result : Except GenerateError Generated) : Prop :=
  match c.sources.find? name with
  | none => asked = [] ∧ result = .error (.notFound name)
  | some [] => asked = [] ∧ result = .ok .nothing
  | some text =>
      match Header.ofTemplate text with
      | .error e => asked = [] ∧ result = .error (.malformedHeader name e)
      | .ok header => ∃ ending,
          c.Follows (c.nameOf (.template name)) (header.body.read .template).events .empty asked ending ∧
          result =
            match ending, (header.body.read .template).error with
            | .error e, _ => .error e
            | .ok _, some e => .error (.badStructure name e)
            | .ok set, none => .ok (.units (set.finalize
                (c.unitOf (.template name) header (header.body.read .template).events)))

theorem Generates.unique {name : Text} {asked' : List Reference}
    {result result' : Except GenerateError Generated} (h : c.Generates name asked result)
    (h' : c.Generates name asked' result') : asked = asked' ∧ result = result' := by
  have same {a : List Reference} {b : Except GenerateError Generated}
      (h : asked = a ∧ result = b) (h' : asked' = a ∧ result' = b) :
      asked = asked' ∧ result = result' := ⟨h.1.trans h'.1.symm, h.2.trans h'.2.symm⟩
  revert h h'
  simp only [Generates]
  split
  · exact fun h h' => same h h'
  · exact fun h h' => same h h'
  · split
    · exact fun h h' => same h h'
    · rintro ⟨ending, follows, rfl⟩ ⟨ending', follows', rfl⟩
      obtain ⟨rfl, rfl⟩ := follows.unique follows'
      exact ⟨rfl, rfl⟩

theorem exists_generates (c : Compiler) (name : Text) :
    ∃ asked, c.Generates name asked (c.generate name).result ∧
      (c.generate name).asked = name :: asked.map Reference.path := by
  unfold generate Generates
  match c.sources.find? name with
  | none => exact ⟨[], ⟨rfl, rfl⟩, rfl⟩
  | some [] => exact ⟨[], ⟨rfl, rfl⟩, rfl⟩
  | some (first :: text) =>
      simp only
      cases Header.ofTemplate (first :: text) with
      | error e => exact ⟨[], ⟨rfl, rfl⟩, rfl⟩
      | ok header =>
          obtain ⟨asked, follows, names⟩ : c.Runs (c.nameOf (.template name))
              (header.body.read .template).events { asked := [name] } _ :=
            includeCalls_runs (offers_fragments _) consistent_empty
          simp only [nameOf, Reference.template] at follows names ⊢
          generalize includeCalls c.naming c.fragments (c.naming.qualify .template name)
            (header.body.read .template).events { asked := [name] } = ending at follows names
          cases ending with
          | error e last => exact ⟨asked, ⟨_, follows, rfl⟩, names⟩
          | ok _ last =>
              cases (header.body.read .template).error with
              | some e => exact ⟨asked, ⟨_, follows, rfl⟩, names⟩
              | none => exact ⟨asked, ⟨_, follows, rfl⟩, names⟩

section

variable {name : Text}

/-- Tags and layouts are asked for only by following the calls of the template. -/
theorem Generates.eq_nil_or_follows {result : Except GenerateError Generated}
    (h : c.Generates name asked result) :
    asked = [] ∨ ∃ (header : Header) (ending : Except GenerateError UnitSet),
      c.Follows (c.nameOf (.template name)) (header.body.read .template).events .empty asked ending := by
  unfold Generates at h
  split at h
  · exact .inl h.1
  · exact .inl h.1
  · split at h
    · exact .inl h.1
    · rename_i header opened
      obtain ⟨ending, follows, -⟩ := h
      exact .inr ⟨header, ending, follows⟩

theorem Generates.asks {result : Except GenerateError Generated}
    (h : c.Generates name asked result) : asked.Nodup ∧ ∀ r ∈ asked, r.kind ≠ .template := by
  rcases h.eq_nil_or_follows with rfl | ⟨header, ending, follows⟩
  · exact ⟨List.nodup_nil, List.forall_mem_nil _⟩
  · have asks := follows.asks consistent_empty
    exact ⟨asks.nodup, asks.fragments⟩

theorem template_absent (fragments : ∀ r ∈ set.references, r.kind ≠ .template) :
    c.nameOf (.template name) ∉ set.names := by
  intro present
  obtain ⟨slot, member, named⟩ := List.mem_map.mp present
  apply fragments slot.reference (List.mem_map_of_mem member)
  exact congrArg QualifiedName.kind named

/-- A successful run asks for the sources of all slots but the last one, in their order. -/
theorem Generates.references {units : UnitSet}
    (h : c.Generates name asked (.ok (.units units))) :
    units.references = asked ++ [.template name] := by
  unfold Generates at h
  split at h
  · cases h.2
  · cases h.2
  · split at h
    · cases h.2
    · rename_i header opened
      obtain ⟨ending, follows, final⟩ := h
      have asks := follows.asks consistent_empty
      split at final
      · cases final
      · cases final
      · rename_i set whole
        cases final
        have same : set.references = asked := (asks.adds set rfl).2
        have free : c.nameOf (.template name) ∉ set.names := template_absent (same ▸ asks.fragments)
        rw [UnitSet.references, UnitSet.slots_finalize_of_absent free, List.map_append, ← same]
        rfl

theorem map_reference_units (keyed : set.IsKeyed) (complete : set.isComplete = true) :
    set.units.map CodeUnit.reference = set.references := by
  have whole := List.all_eq_true.mp complete
  rw [UnitSet.IsKeyed] at keyed
  rw [UnitSet.units, UnitSet.references]
  generalize set.slots = slots at whole keyed
  induction slots with
  | nil => rfl
  | cons slot slots ih =>
      rw [List.forall_mem_cons] at whole keyed
      obtain ⟨u, unit⟩ := Option.isSome_iff_exists.mp whole.1
      have same : slot.reference = u.reference := by
        rw [Slot.reference, keyed.1 u unit, Slot.source_of_unit? unit]
        rfl
      rw [List.filterMap_cons_some unit, List.map_cons, ih whole.2 keyed.2, List.map_cons, same]

/-- Generating a template is the one run of the rules, and so it ends. It asks for the template and
then for tags and layouts, none of them twice, whether it succeeds or fails; if it gives units,
these are the sources of the units in their order, with that of the last unit in front. -/
theorem generate_asks_once (c : Compiler) (name : Text) : ∃ asked : List Reference,
    c.Generates name asked (c.generate name).result ∧
    (∀ other result, c.Generates name other result →
      other = asked ∧ result = (c.generate name).result) ∧
    (c.generate name).asked = name :: asked.map Reference.path ∧
    asked.Nodup ∧ (∀ r ∈ asked, r.kind ≠ .template) ∧
    ∀ units, (c.generate name).result = .ok (.units units) →
      ∃ others main, units.units = others ++ [main] ∧ asked = others.map CodeUnit.reference ∧
        (c.generate name).asked = main.source :: others.map CodeUnit.source := by
  obtain ⟨asked, generates, names⟩ := exists_generates c name
  obtain ⟨nodup, fragments⟩ := generates.asks
  refine ⟨asked, generates, ?_, names, nodup, fragments, ?_⟩
  · intro other result another
    exact another.unique generates
  · intro units done
    obtain ⟨order, covers⟩ := covers_of_generate done
    rw [done] at generates
    have sources := map_reference_units covers.isKeyed covers.isComplete
    rw [generates.references] at sources
    obtain ⟨others, last, split, rfl, isLast⟩ := List.map_eq_append_iff.mp sources
    obtain ⟨main, rfl, isMain⟩ := List.map_eq_singleton_iff.mp isLast
    refine ⟨others, main, split, rfl, ?_⟩
    rw [names, List.map_map, ← show main.source = name from congrArg Reference.path isMain]
    rfl

end

/-- A page with a layout and a tag that call each other, and of which the tag calls itself. -/
def crossCalls : Compiler where
  naming := .standard
  sources := ⟨[("page".toList, "@param m: u8\n@layout.b()@endlayout@tag.a()".toList),
    ("a.rtag".toList, "@tag.a()@layout.b()@endlayout".toList),
    ("b.rlayout".toList, "@tag.a()".toList)]⟩

theorem generate_asks_once_crossCalls :
    (∃ units, (crossCalls.generate "page".toList).result = .ok (.units units)) ∧
    (crossCalls.generate "page".toList).asked =
      ["page".toList, "b.rlayout".toList, "a.rtag".toList] := by
  have page : crossCalls.calls (.template "page".toList) =
      [⟨.layout, "b.rlayout".toList⟩, ⟨.tag, "a.rtag".toList⟩] := by decide +kernel
  have layout : crossCalls.calls ⟨.layout, "b.rlayout".toList⟩ = [⟨.tag, "a.rtag".toList⟩] := by
    decide +kernel
  have tag : crossCalls.calls ⟨.tag, "a.rtag".toList⟩ =
      [⟨.tag, "a.rtag".toList⟩, ⟨.layout, "b.rlayout".toList⟩] := by decide +kernel
  have walk : DepthFirst crossCalls.calls [] (crossCalls.calls (.template "page".toList))
      [⟨.layout, "b.rlayout".toList⟩, ⟨.tag, "a.rtag".toList⟩] := by
    rw [page]
    refine .first (by decide) ?_ (.again (by decide) .done)
    rw [layout]
    refine .first (by decide) ?_ .done
    rw [tag]
    exact .again (by decide) (.again (by decide) .done)
  obtain ⟨units, done⟩ := exists_generate_of_order (by decide) (by decide +kernel) walk
    (by decide +kernel) (by decide +kernel)
  obtain ⟨asked, -, -, names, -, -, success⟩ := generate_asks_once crossCalls "page".toList
  obtain ⟨others, main, split, rfl, -⟩ := success units done
  obtain ⟨order, covers⟩ := covers_of_generate done
  have sources := map_reference_units covers.isKeyed covers.isComplete
  rw [split, List.map_append, UnitSet.references, covers.slots, references_slotOf,
    covers.depthFirst.unique walk] at sources
  rw [(List.append_inj' sources rfl).1] at names
  exact ⟨⟨units, done⟩, names⟩

end Compiler

end Stencil
