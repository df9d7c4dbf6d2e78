import Stencil.Compiler.OnePass
import Stencil.Proofs.Body.Trace
import Stencil.Proofs.Compiler.Generation
import Stencil.Proofs.Module.Printer

/-!
The code of a unit depends on its own source only. Main statement: writing bodies in one pass gives
the same as generating the called sources and the statements apart, and so the code of every unit is
one function of its kind, its path and its text.
-/

namespace Stencil

namespace Module

/-- The code of the module for a source, if the source can be read. -/
def ofSource? (naming : Naming) (kind : SourceKind) (path text : Text) : Option Text :=
  match Source.read kind text with
  | .ok (header, events) => some (code naming kind path header events)
  | .error _ => none

end Module

namespace Compiler

theorem traverse_run {ε σ : Type} (body : Body) (kind : SourceKind)
    (visit : Event → EStateM ε σ Unit) (raise : Body.Error → ε) (s : σ) :
    body.traverse kind visit raise s =
      match (forM (body.read kind).events visit : EStateM ε σ PUnit) s with
      | .error e s => .error e s
      | .ok _ s =>
          match (body.read kind).error with
          | some e => .error (raise e) s
          | none => .ok () s := by
  rw [Body.traverse_eq, Body.read_eq]
  change EStateM.bind _ _ s = _
  unfold EStateM.bind
  generalize (forM (Body.trace kind body.start [] (Body.lex body.text).lexemes).1 visit :
    EStateM ε σ PUnit) s = ending
  cases ending with
  | error e s => rfl
  | ok _ s => cases body.endingError kind <;> rfl

variable {c : Compiler} {fragments : List Fragment}

/-- The line of a call is the same however the called source came into the set. -/
theorem callLines_eq {e : Event} {kind : SourceKind} {name : Text}
    (call : e.call? = some (kind, name)) (calls : Module.OpenCalls) :
    Module.callLines (Module.indentAt calls e.depth)
      (c.naming.qualify kind (c.naming.sourcePath kind name)) e.payload =
      Module.eventLines c.naming calls e := by
  obtain ⟨depth, span, payload⟩ := e
  cases payload with
  | tagCall called args =>
      cases call
      rfl
  | layoutCall called args =>
      cases call
      rfl
  | _ => cases call

/-- What becomes of a draft when events are written into it, if taking care of their calls ends in a
given way. -/
def Writes (c : Compiler) (d : Draft) (events : List Event)
    (result : EStateM.Result GenerateError Draft PUnit) : Outcome → Prop
  | .ok _ s => result = .ok ()
      { shared := s
        body := d.body ++ Module.statementsFrom c.naming d.calls events
        calls := events.foldl Module.callsAfter d.calls }
  | .error error s => ∃ last, result = .error error last ∧ last.shared = s

/-- A call is entered as it is taken care of, and its name is returned. -/
def Enters (c : Compiler) (fragments : List Fragment) : Prop :=
  ∀ referrer kind name position s, enterCall c.naming fragments referrer kind name position s =
    match includeCall c.naming fragments referrer kind name position s with
    | .error error s => .error error s
    | .ok _ s => .ok (c.naming.qualify kind (c.naming.sourcePath kind name)) s

theorem Writes.cons {d : Draft} {s : Progress} {e : Event} {events : List Event}
    {result : EStateM.Result GenerateError Draft PUnit} {outcome : Outcome}
    (h : c.Writes
      ⟨s, d.body ++ Module.eventLines c.naming d.calls e, Module.callsAfter d.calls e⟩
      events result outcome) : c.Writes d (e :: events) result outcome := by
  cases outcome with
  | error error last => exact h
  | ok _ last =>
      refine Eq.trans h ?_
      rw [Module.statementsFrom, List.append_assoc]
      rfl

/-- The calls inside of a body leave the lines before them and the open layout calls alone. -/
theorem Enters.writes (enters : c.Enters fragments) (referrer : QualifiedName)
    (events : List Event) (d : Draft) :
    c.Writes d events (forM events (writeEvent c.naming fragments referrer) d)
      (includeCalls c.naming fragments referrer events d.shared) := by
  induction events generalizing d with
  | nil =>
      rw [includeCalls_nil]
      change EStateM.Result.ok () d = _
      rw [Module.statementsFrom, List.append_nil]
      rfl
  | cons e events ih =>
      rw [List.forM_cons]
      change c.Writes d (e :: events) (EStateM.bind _ _ d) _
      unfold EStateM.bind
      cases call : e.call? with
      | none =>
          rw [includeCalls_cons_of_none call, writeEvent]
          simp only [call]
          exact .cons (ih _)
      | some called =>
          obtain ⟨kind, name⟩ := called
          have entered := enters referrer kind name e.span.start d.shared
          rw [includeCalls, writeEvent]
          simp only [call, entered]
          cases includeCall c.naming fragments referrer kind name e.span.start d.shared with
          | error error s => exact ⟨_, rfl, rfl⟩
          | ok _ s =>
              simp only [callLines_eq call]
              exact .cons (ih _)

/-- A body that is written in one pass gets the statements of its events, and what it shares with
other bodies changes as its calls are taken care of. -/
theorem Enters.traverse {α : Type} (enters : c.Enters fragments) (body : Body) (kind : SourceKind)
    (raise : Body.Error → GenerateError) (referrer : QualifiedName) (s : Progress)
    (fail : GenerateError → Progress → α) (finish : Text → Progress → α) :
    (match body.traverse kind (writeEvent c.naming fragments referrer) raise { shared := s } with
      | .error error d => fail error d.shared
      | .ok _ d => finish d.body d.shared) =
      match includeCalls c.naming fragments referrer (body.read kind).events s with
      | .error error s => fail error s
      | .ok _ s =>
          match (body.read kind).error with
          | some e => fail (raise e) s
          | none => finish (Module.statements c.naming (body.read kind).events) s := by
  have written := enters.writes referrer (body.read kind).events { shared := s }
  rw [traverse_run]
  cases ending : includeCalls c.naming fragments referrer (body.read kind).events s with
  | error error last =>
      rw [ending] at written
      obtain ⟨d, failed, rfl⟩ := written
      rw [failed]
  | ok _ last =>
      rw [ending] at written
      rw [written]
      cases (body.read kind).error with
      | some e => rfl
      | none => rfl

theorem enters (c : Compiler) (fragments : List Fragment) : c.Enters fragments := by
  intro referrer kind name position s
  rw [enterCall, includeCall_eq]
  simp only
  generalize c.naming.sourcePath kind name = path
  generalize c.naming.qualify kind path = target
  cases s.units.source? target with
  | some existing =>
      simp only
      split
      · rfl
      · rfl
  | none =>
      simp only
      split
      · rename_i missing
        rw [missing]
      · rename_i text found
        rw [found]
        have shorter := Fragment.length_without_lt found
        have inside := enters c (Fragment.without fragments kind path)
        simp only
        cases Header.ofFragment text with
        | error e => rfl
        | ok header =>
            refine (inside.traverse header.body kind _ target _ EStateM.Result.error
              fun body s => .ok target { s with units := s.units.finalize ⟨target, path,
                Module.top kind path header ++ body ++ "\x7d\n".toList⟩ }).trans ?_
            simp only [← Module.code_eq]
            cases includeCalls c.naming (Fragment.without fragments kind path) target
              (header.body.read kind).events
              { s.ask path with units := (s.units.reserve target path).2 } with
            | error error last => rfl
            | ok _ last =>
                cases (header.body.read kind).error with
                | some e => rfl
                | none => rfl
termination_by fragments.length

theorem generateInOnePass_eq (c : Compiler) (name : Text) :
    c.generateInOnePass name = c.generate name := by
  unfold generateInOnePass generate
  match c.sources.find? name with
  | none => rfl
  | some [] => rfl
  | some (first :: text) =>
      simp only
      cases Header.ofTemplate (first :: text) with
      | error e => rfl
      | ok header =>
          refine ((enters c c.fragments).traverse header.body .template _ _ _
            (fun error s => Generation.mk (.error error) s.asked) fun body s =>
              Generation.mk (.ok (.units (s.units.finalize ⟨c.naming.qualify .template name, name,
                Module.top .template name header ++ body ++ "\x7d\n".toList⟩))) s.asked).trans ?_
          rewrite [← Module.code_eq]
          rfl

/-- Whether a slot is finished with the code of the text that its source has. -/
def IsLocal (c : Compiler) (slot : Slot) : Prop :=
  ∃ text u, c.sources.find? slot.source = some text ∧ slot.unit? = some u ∧ u.name = slot.name ∧
    Module.ofSource? c.naming slot.name.kind slot.source text = some u.code

theorem isLocal_slotOf {r : Reference} (readable : c.Readable r) : c.IsLocal (c.slotOf r) := by
  obtain ⟨⟨header, events⟩, reading⟩ := Option.isSome_iff_exists.mp readable
  obtain ⟨text, found, read⟩ := reading?_eq_some_iff.mp reading
  rw [IsLocal, source_slotOf]
  refine ⟨text, c.unitOf r header events, found, unit?_slotOf reading, rfl, ?_⟩
  change Module.ofSource? c.naming r.kind r.path text = _
  rw [Module.ofSource?, read]
  rfl

theorem isLocal_of_generate {name : Text} {units : UnitSet}
    (done : (c.generate name).result = .ok (.units units)) : ∀ slot ∈ units.slots, c.IsLocal slot := by
  obtain ⟨order, covers⟩ := covers_of_generate done
  rw [covers.slots]
  intro slot member
  obtain ⟨r, covered, rfl⟩ := List.mem_map.mp member
  exact isLocal_slotOf (covers.readable r covered)

theorem IsLocal.of_unit {slot : Slot} {u : CodeUnit} (h : c.IsLocal slot)
    (unit : slot.unit? = some u) : ∃ text, c.sources.find? u.source = some text ∧
      Module.ofSource? c.naming u.name.kind u.source text = some u.code := by
  obtain ⟨text, v, found, finished, named, same⟩ := h
  cases finished.symm.trans unit
  rw [named, ← Slot.source_of_unit? unit]
  exact ⟨text, found, same⟩

/-- The code of a unit is one function of its kind, its path and the text of its source. It does not
matter from where the source was reached or what was in the set before, and writing bodies in one
pass, with the called sources generated in the middle of them, gives the same. -/
theorem code_depends_on_source (c : Compiler) :
    (∀ name, c.generateInOnePass name = c.generate name) ∧
    (∀ name units, (c.generate name).result = .ok (.units units) → ∀ u ∈ units.units,
      ∃ text, c.sources.find? u.source = some text ∧
        Module.ofSource? c.naming u.name.kind u.source text = some u.code) ∧
    (∀ name name' units units', (c.generate name).result = .ok (.units units) →
      (c.generate name').result = .ok (.units units') →
      ∀ u ∈ units.units, ∀ u' ∈ units'.units, u.name.kind = u'.name.kind → u.source = u'.source →
        u.code = u'.code) ∧
    ∀ fragments referrer kind name position s s', kind ≠ .template →
      c.Offers fragments s.units → c.Consistent s.units →
      includeCall c.naming fragments referrer kind name position s = .ok () s' →
      ∃ new, s'.units.slots = s.units.slots ++ new ∧ ∀ slot ∈ new, c.IsLocal slot := by
  have unit : ∀ name units, (c.generate name).result = .ok (.units units) → ∀ u ∈ units.units,
      ∃ text, c.sources.find? u.source = some text ∧
        Module.ofSource? c.naming u.name.kind u.source text = some u.code := by
    intro name units done u member
    obtain ⟨slot, inSlots, isUnit⟩ := List.mem_filterMap.mp member
    exact (isLocal_of_generate done slot inSlots).of_unit isUnit
  refine ⟨generateInOnePass_eq c, unit, ?_, ?_⟩
  · intro name name' units units' done done' u member u' member' kind source
    obtain ⟨text, found, code⟩ := unit name units done u member
    obtain ⟨text', found', code'⟩ := unit name' units' done' u' member'
    rw [source] at found
    cases found.symm.trans found'
    rw [kind, source] at code
    exact Option.some.inj (code.symm.trans code')
  · intro fragments referrer kind name position s s' fragment offers consistent included
    obtain ⟨new, adds⟩ := includeCall_adds offers consistent fragment included
    refine ⟨new.map c.slotOf, adds.slots, ?_⟩
    intro slot member
    obtain ⟨r, isNew, rfl⟩ := List.mem_map.mp member
    exact isLocal_slotOf (adds.readable r isNew)

def twoPages : Compiler where
  naming := .standard
  sources := ⟨[("p".toList, "@param m: u8\n@tag.a()".toList),
    ("q".toList, "@param m: u8\n@tag.b()@tag.a()".toList),
    ("a.rtag".toList, "@tag.b()".toList), ("b.rtag".toList, "@tag.a()x".toList)]⟩

theorem code_depends_on_source_twoPages : ∃ units units' u u',
    (twoPages.generate "p".toList).result = .ok (.units units) ∧
    (twoPages.generate "q".toList).result = .ok (.units units') ∧
    u ∈ units.units ∧ u' ∈ units'.units ∧ u.source = "a.rtag".toList ∧
    u'.source = "a.rtag".toList ∧ u.code = u'.code := by
  have p : twoPages.calls (.template "p".toList) = [⟨.tag, "a.rtag".toList⟩] := by decide +kernel
  have q : twoPages.calls (.template "q".toList) =
      [⟨.tag, "b.rtag".toList⟩, ⟨.tag, "a.rtag".toList⟩] := by decide +kernel
  have a : twoPages.calls ⟨.tag, "a.rtag".toList⟩ = [⟨.tag, "b.rtag".toList⟩] := by decide +kernel
  have b : twoPages.calls ⟨.tag, "b.rtag".toList⟩ = [⟨.tag, "a.rtag".toList⟩] := by decide +kernel
  have walkP : DepthFirst twoPages.calls [] (twoPages.calls (.template "p".toList))
      [⟨.tag, "a.rtag".toList⟩, ⟨.tag, "b.rtag".toList⟩] := by
    rw [p]
    refine .first (by decide) ?_ .done
    rw [a]
    refine .first (by decide) ?_ .done
    rw [b]
    exact .again (by decide) .done
  have walkQ : DepthFirst twoPages.calls [] (twoPages.calls (.template "q".toList))
      [⟨.tag, "b.rtag".toList⟩, ⟨.tag, "a.rtag".toList⟩] := by
    rw [q]
    refine .first (by decide) ?_ (.again (by decide) .done)
    rw [b]
    refine .first (by decide) ?_ .done
    rw [a]
    exact .again (by decide) .done
  obtain ⟨units, done⟩ := exists_generate_of_order (by decide) (by decide +kernel) walkP
    (by decide +kernel) (by decide +kernel)
  obtain ⟨units', done'⟩ := exists_generate_of_order (by decide) (by decide +kernel) walkQ
    (by decide +kernel) (by decide +kernel)
  obtain ⟨order, covers⟩ := covers_of_generate done
  obtain ⟨order', covers'⟩ := covers_of_generate done'
  cases covers.depthFirst.unique walkP
  cases covers'.depthFirst.unique walkQ
  have readable : twoPages.Readable ⟨.tag, "a.rtag".toList⟩ := by decide +kernel
  obtain ⟨⟨header, events⟩, reading⟩ := Option.isSome_iff_exists.mp readable
  have member := covers.unitOf_mem reading (by decide)
  have member' := covers'.unitOf_mem reading (by decide)
  obtain ⟨-, -, same, -⟩ := code_depends_on_source twoPages
  exact ⟨units, units', _, _, done, done', member, member', rfl, rfl,
    same _ _ _ _ done done' _ member _ member' rfl rfl⟩

end Compiler

end Stencil
