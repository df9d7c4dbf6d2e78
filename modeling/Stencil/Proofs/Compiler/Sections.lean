import Stencil.Proofs.Body.Openings
import Stencil.Proofs.Body.Places
import Stencil.Proofs.Compiler.Locality
import Stencil.Proofs.Compiler.Printing

/-!
Sections as the reader of a body and the writer of its module take them. The reader has all open
blocks, the writer only the depths of the open layout calls. Main statement: at every section both
give the same answer to whether it supplies a layout call, and so a section becomes an arm inside of
its call's closure, or a placeholder, which only layouts have.
-/

namespace Stencil

namespace Module

open Body

def callDepths : List (Block × Nat) → OpenCalls
  | [] => []
  | (block, _) :: outer =>
      if block = .layoutCall then outer.length :: callDepths outer else callDepths outer

section Depths

variable {openings between outer final : List (Block × Nat)} {block : Block} {opener : Nat}
  {e : Event} {events : List Event}

theorem callDepths_call :
    callDepths ((.layoutCall, opener) :: outer) = outer.length :: callDepths outer := if_pos rfl

theorem callDepths_other (other : block ≠ .layoutCall) :
    callDepths ((block, opener) :: outer) = callDepths outer := if_neg other

theorem lt_of_mem_callDepths {call : Nat} (h : call ∈ callDepths openings) :
    call < openings.length := by
  induction openings with
  | nil => cases h
  | cons opening outer ih =>
      obtain ⟨block, opener⟩ := opening
      rw [List.length_cons]
      by_cases isCall : block = .layoutCall
      · rw [isCall, callDepths_call] at h
        rcases List.mem_cons.mp h with rfl | further
        · exact Nat.lt_succ_self _
        · exact Nat.lt_succ_of_lt (ih further)
      · rw [callDepths_other isCall] at h
        exact Nat.lt_succ_of_lt (ih h)

theorem callsAfter_of_moves (h : Moves openings e between) :
    callsAfter (callDepths openings) e = callDepths between := by
  obtain ⟨depth, span, payload⟩ := e
  cases h with
  | flat _ flat =>
      cases payload with
      | text t => rfl
      | code code => rfl
      | statement code => rfl
      | tagCall name args => rfl
      | _ => cases flat
  | branch _ branch =>
      cases payload with
      | conditionElseIf condition => rfl
      | conditionElse => rfl
      | _ => cases branch
  | opens counted opens =>
      cases counted
      cases payload <;> cases opens <;> rfl
  | @closes block _ _ _ _ closes =>
      cases closes
      cases block <;> rfl

/-- The writer's open layout calls are those among the open blocks. -/
theorem callsAfter_of_leads (h : Leads openings events final) :
    events.foldl callsAfter (callDepths openings) = callDepths final := by
  induction h with
  | nil => rfl
  | cons moves _ ih => rw [List.foldl_cons, callsAfter_of_moves moves, ih]

/-- One more than the depth of the innermost layout call is the number of the open blocks just if
that call is the innermost block. -/
theorem suppliesCall_iff : suppliesCall (callDepths openings) openings.length = true ↔
    ∃ opener outer, openings = (.layoutCall, opener) :: outer := by
  constructor
  · intro supplies
    cases openings with
    | nil => cases supplies
    | cons opening outer =>
        obtain ⟨block, opener⟩ := opening
        by_cases isCall : block = .layoutCall
        · exact ⟨opener, outer, by rw [isCall]⟩
        · rw [callDepths_other isCall, List.length_cons] at supplies
          cases calls : callDepths outer with
          | nil =>
              rw [calls] at supplies
              cases supplies
          | cons call others =>
              rw [calls] at supplies
              have inside : call < outer.length := by
                apply lt_of_mem_callDepths
                rw [calls]
                exact List.mem_cons_self
              have same : call + 1 = outer.length + 1 := beq_iff_eq.mp supplies
              omega
  · rintro ⟨opener, outer, rfl⟩
    rw [callDepths_call]
    exact beq_self_eq_true _

end Depths

/-- The place of a section in a body: the lexemes before it give the events before its own and leave
some blocks open, in which it opens. -/
structure SectionAt (body : Body) (kind : SourceKind) (before later : List Event) (name : Text)
    (position : Nat) (around after : Nesting) : Prop where
  lexemes : ∃ first inner rest,
    (lex body.text).lexemes = first ++ .directive (.sectionOpen inner) :: rest ∧
    trace kind body.start [] first = (before, .ok (position, around)) ∧
    trace kind (position + (Directive.sectionOpen inner).spelling.byteSize) after rest =
      (later, (trace kind body.start [] (lex body.text).lexemes).2)
  opens : around.openSection kind position name = .ok after

/-- How a section that stands behind some events, with some blocks around it, is written. -/
structure WritesSection (naming : Naming) (kind : SourceKind) (before : List Event) (e : Event)
    (name : Text) (around : Nesting) : Prop where
  depth : e.depth = around.length
  agrees : suppliesCall (openCalls before) e.depth = true ↔
    ∃ opener names outer, around = .layoutCall opener names :: outer ∧
      (openCalls before).head? = some outer.length
  arm : suppliesCall (openCalls before) e.depth = true →
    eventLines naming (openCalls before) e =
      line (indentAt (openCalls before) e.depth) ["\"", name, "\" => \x7b"] ∧
    ∃ earlier call inside called args, before = earlier ++ call :: inside ∧
      call.payload = .layoutCall called args ∧ call.depth + 1 = e.depth ∧
      openCalls before = call.depth :: openCalls earlier ∧ ∀ x ∈ inside, call.depth < x.depth
  placeholder : suppliesCall (openCalls before) e.depth = false → kind = .layout ∧
    eventLines naming (openCalls before) e =
      line (indentAt (openCalls before) e.depth)
        ["if !rtpl_sections(\"", name, "\", &mut *output) \x7b"]

section Sections

variable {kind : SourceKind} {start position : Nat} {around after : Nesting}
  {first : List Lexeme} {before : List Event} {e : Event} {name : Text}

theorem openCalls_of_trace (h : trace kind start [] first = (before, .ok (position, around))) :
    openCalls before = callDepths around.openings :=
  callsAfter_of_leads (trace_leads h)

theorem openings_eq_call_iff {around : Nesting} :
    (∃ opener outer, around.openings = (.layoutCall, opener) :: outer) ↔
      ∃ opener names outer, around = .layoutCall opener names :: outer := by
  constructor
  · rintro ⟨opener, outer, isCall⟩
    cases around with
    | nil => cases isCall
    | cons frame frames =>
        cases frame with
        | layoutCall opener names => exact ⟨opener, names, frames, rfl⟩
        | _ => cases isCall
  · rintro ⟨opener, names, outer, rfl⟩
    exact ⟨_, _, rfl⟩

/-- The writer's test on depths is the reader's look at the innermost open block. -/
theorem suppliesCall_of_trace
    (h : trace kind start [] first = (before, .ok (position, around))) :
    suppliesCall (openCalls before) around.length = true ↔
      ∃ opener names outer, around = .layoutCall opener names :: outer := by
  rw [openCalls_of_trace h, ← Nesting.length_openings, suppliesCall_iff, openings_eq_call_iff]

/-- The call of a layout that is open innermost, and what the writer has open since it. -/
theorem exists_call_of_trace {opener : Nat} {names : List Text} {outer : Nesting}
    (h : trace kind start [] first = (before, .ok (position, .layoutCall opener names :: outer))) :
    ∃ earlier call inside called args, before = earlier ++ call :: inside ∧
      call.payload = .layoutCall called args ∧ call.depth = outer.length ∧
      openCalls before = call.depth :: openCalls earlier ∧ ∀ x ∈ inside, call.depth < x.depth := by
  have isOpen : Nesting.openings (.layoutCall opener names :: outer) =
      [] ++ (.layoutCall, min opener Span.limit) :: outer.openings := rfl
  rcases (trace_leads h).exists_call isOpen with ⟨nested, none, -⟩ | found
  · cases nested <;> cases none
  · obtain ⟨earlier, call, inside, rfl, leads, depth, ⟨called, args, payload⟩, deeper⟩ := found
    refine ⟨earlier, call, inside, called, args, rfl, payload, ?_, ?_, ?_⟩
    · rw [depth, Nesting.length_openings]
    · have outside : openCalls earlier = callDepths outer.openings := callsAfter_of_leads leads
      rw [openCalls_of_trace h, outside, depth]
      rfl
    · rw [depth]
      exact deeper

/-- Only a section directive has the event that starts a section. -/
theorem exists_openSection {lexeme : Lexeme} {depth : Nat}
    (h : lexeme.effect kind position around = .ok (some (depth, .sectionStart name), after)) :
    ∃ inner, lexeme = .directive (.sectionOpen inner) ∧ depth = around.length ∧
      around.openSection kind position name = .ok after := by
  cases lexeme with
  | text t => cases Lexeme.payload_of_effect_text h
  | directive d =>
      have done := (Lexeme.effect_directive_eq_ok h).1
      cases d with
      | sectionOpen inner =>
          obtain ⟨opened, opens, same⟩ := Directive.effect_sectionOpen_eq_ok done
          cases same
          exact ⟨inner, rfl, rfl, opens⟩
      | elseIf inner => obtain ⟨_, _, _, ⟨⟩⟩ := Directive.effect_elseIf_eq_ok done
      | elseBranch => obtain ⟨_, _, _, ⟨⟩⟩ := Directive.effect_elseBranch_eq_ok done
      | close block =>
          obtain ⟨_, _, _, _, same⟩ := Directive.effect_close_eq_ok done
          cases block <;> cases same
      | _ => cases done

variable {body : Body} {later : List Event}

/-- A section leaves the open layout calls as they are. -/
theorem statements_of_section (naming : Naming) (isSection : e.payload = .sectionStart name) :
    statements naming (before ++ e :: later) = statements naming before ++
      eventLines naming (openCalls before) e ++ statementsFrom naming (openCalls before) later := by
  have same : callsAfter (openCalls before) e = openCalls before := by rw [callsAfter, isSection]
  rw [statements, statementsFrom_append, statementsFrom, List.append_assoc]
  change _ ++ (_ ++ statementsFrom naming (callsAfter (openCalls before) e) later) = _
  rw [same]
  rfl

/-- Every event that starts a section is that of a section directive. -/
theorem exists_sectionAt (h : (body.read kind).events = before ++ e :: later)
    (isSection : e.payload = .sectionStart name) :
    ∃ position around after, SectionAt body kind before later name position around after ∧
      e.depth = around.length := by
  rw [read_eq] at h
  obtain ⟨first, lexeme, rest, position, around, after, split, traced, effect, -, tracedLater⟩ :=
    exists_place_of_trace h
  rw [isSection] at effect
  obtain ⟨inner, rfl, depth, opens⟩ := exists_openSection effect
  exact ⟨position, around, after, ⟨⟨first, inner, rest, split, traced, tracedLater⟩, opens⟩, depth⟩

theorem SectionAt.writes (h : SectionAt body kind before later name position around after)
    (naming : Naming) (isSection : e.payload = .sectionStart name)
    (depth : e.depth = around.length) : WritesSection naming kind before e name around := by
  obtain ⟨first, inner, rest, -, traced, -⟩ := h.lexemes
  have test : suppliesCall (openCalls before) e.depth = true ↔
      ∃ opener names outer, around = .layoutCall opener names :: outer := by
    rw [depth]
    exact suppliesCall_of_trace traced
  refine ⟨depth, ?_, ?_, ?_⟩
  · rw [test]
    constructor
    · rintro ⟨opener, names, outer, rfl⟩
      obtain ⟨earlier, call, inside, called, args, -, -, same, calls, -⟩ :=
        exists_call_of_trace traced
      refine ⟨opener, names, outer, rfl, ?_⟩
      rw [calls, same]
      rfl
    · rintro ⟨opener, names, outer, isCall, -⟩
      exact ⟨opener, names, outer, isCall⟩
  · intro supplies
    constructor
    · simp only [eventLines, isSection, if_pos supplies]
    · obtain ⟨opener, names, outer, rfl⟩ := test.mp supplies
      obtain ⟨earlier, call, inside, called, args, split, isCall, same, calls, deeper⟩ :=
        exists_call_of_trace traced
      refine ⟨earlier, call, inside, called, args, split, isCall, ?_, calls, deeper⟩
      rw [same, depth, List.length_cons]
  · intro other
    rcases Nesting.openSection_eq_ok h.opens with
      ⟨opener, names, outer, isCall, -⟩ | ⟨-, layout, -⟩
    · rw [test.mpr ⟨opener, names, outer, isCall⟩] at other
      cases other
    · refine ⟨layout, ?_⟩
      simp only [eventLines, isSection, other]
      rfl

/-- A section that supplies a layout call stands before the end of the call, if the body is read to
its end. -/
theorem SectionAt.exists_end {opener : Nat} {names : List Text} {outer : Nesting}
    (h : SectionAt body kind before later name position (.layoutCall opener names :: outer) after)
    (complete : (body.read kind).error = none) :
    ∃ inside ending behind, later = inside ++ ending :: behind ∧ ending.depth = outer.length ∧
      ending.payload = .layoutEnd ∧ ∀ x ∈ inside, outer.length < x.depth := by
  rw [read_eq] at complete
  obtain ⟨-, stop, final⟩ := endingError_eq_none complete
  obtain ⟨first, inner, rest, -, -, traced⟩ := h.lexemes
  rw [final] at traced
  rcases Nesting.openSection_eq_ok h.opens with ⟨_, _, _, same, -, rfl⟩ | ⟨other, -⟩
  · cases same
    have isOpen : Nesting.openings
        (.sectionBody position :: .layoutCall opener (names ++ [name]) :: outer) =
        [(.sectionBody, min position Span.limit)] ++
          (.layoutCall, min opener Span.limit) :: outer.openings := rfl
    rw [← Nesting.length_openings outer]
    exact (trace_leads traced).exists_end isOpen
  · cases other

end Sections

end Module

namespace Compiler

open Body Stencil.Module

variable {c : Compiler}

/-- The writer of a module has the open layout calls of the events it has been handed, whatever is
generated in between. -/
theorem calls_of_writeEvent {fragments : List Fragment} {referrer : QualifiedName} {s : Progress}
    {events : List Event} {d : Draft}
    (h : (forM events (writeEvent c.naming fragments referrer) : EStateM GenerateError Draft PUnit)
      { shared := s } = .ok () d) : d.calls = openCalls events := by
  have written := (enters c fragments).writes referrer events { shared := s }
  rw [h] at written
  cases ending : includeCalls c.naming fragments referrer events s with
  | error error last =>
      rw [ending] at written
      obtain ⟨_, ⟨⟩, -⟩ := written
  | ok _ last =>
      rw [ending] at written
      cases written
      rfl

theorem writeEvent_of_section {fragments : List Fragment} {referrer : QualifiedName} {e : Event}
    {name : Text} {d : Draft} (isSection : e.payload = .sectionStart name) :
    writeEvent c.naming fragments referrer e d =
      .ok () { d with body := d.body ++ eventLines c.naming d.calls e } := by
  obtain ⟨depth, span, payload⟩ := e
  cases isSection
  rw [writeEvent]
  rfl

/-- Reader and writer take every section alike. Where the reader opens a section directly inside of
a layout call, and only there, the writer's test on depths says so; then the section becomes an arm
between the lines that open and close the closure of that call. Elsewhere it becomes a placeholder,
and the source is a layout. -/
theorem sections_read_alike (c : Compiler) :
    (∀ (body : Body) (kind : SourceKind) (before : List Event) (e : Event) (later : List Event)
      (name : Text), (body.read kind).events = before ++ e :: later →
      e.payload = .sectionStart name →
      ∃ position around after, SectionAt body kind before later name position around after ∧
        WritesSection c.naming kind before e name around ∧
        (suppliesCall (openCalls before) e.depth = true → (body.read kind).error = none →
          ∃ inside ending behind, later = inside ++ ending :: behind ∧
            ending.payload = .layoutEnd ∧ ending.depth + 1 = e.depth ∧
            ∀ x ∈ inside, ending.depth < x.depth) ∧
        ∀ fragments referrer s d,
          (forM before (writeEvent c.naming fragments referrer) :
            EStateM GenerateError Draft PUnit) { shared := s } = .ok () d →
          writeEvent c.naming fragments referrer e d =
            .ok () { d with body := d.body ++ eventLines c.naming (openCalls before) e }) ∧
    ∀ name units, (c.generate name).result = .ok (.units units) → ∀ u ∈ units.units,
      ∃ text header events, c.sources.find? u.source = some text ∧
        Header.ofSource u.name.kind text = .ok header ∧
        header.body.read u.name.kind = ⟨events, none⟩ ∧
        ∀ before e later title, events = before ++ e :: later → e.payload = .sectionStart title →
          u.code = top u.name.kind u.source header ++ (statements c.naming before ++
            eventLines c.naming (openCalls before) e ++
            statementsFrom c.naming (openCalls before) later) ++ "\x7d\n".toList ∧
          (u.name.kind ≠ .layout → eventLines c.naming (openCalls before) e =
            line (indentAt (openCalls before) e.depth) ["\"", title, "\" => \x7b"]) := by
  constructor
  · intro body kind before e later name reading isSection
    obtain ⟨position, around, after, place, depth⟩ := exists_sectionAt reading isSection
    have writes := place.writes c.naming isSection depth
    refine ⟨position, around, after, place, writes, ?_, ?_⟩
    · intro supplies complete
      obtain ⟨opener, names, outer, rfl, -⟩ := writes.agrees.mp supplies
      obtain ⟨inside, ending, behind, rfl, same, ends, deeper⟩ := place.exists_end complete
      refine ⟨inside, ending, behind, rfl, ends, ?_, ?_⟩
      · rw [same, depth, List.length_cons]
      · rw [same]
        exact deeper
    · intro fragments referrer s d written
      rw [writeEvent_of_section isSection, calls_of_writeEvent written]
  · intro name units done u member
    obtain ⟨order, covers⟩ := covers_of_generate done
    obtain ⟨r, header, events, reading, rfl⟩ := covers.exists_unitOf member
    obtain ⟨text, found, read⟩ := reading?_eq_some_iff.mp reading
    obtain ⟨headed, complete⟩ := Source.read_eq_ok_iff.mp read
    refine ⟨text, header, events, found, headed, complete, ?_⟩
    rintro before e later title rfl isSection
    have reads : (header.body.read r.kind).events = before ++ e :: later := by rw [complete]
    obtain ⟨position, around, after, place, depth⟩ := exists_sectionAt reads isSection
    have writes := place.writes c.naming isSection depth
    constructor
    · rw [← statements_of_section c.naming isSection]
      exact code_eq _ _ _ _ _
    · intro noLayout
      cases supplies : suppliesCall (openCalls before) e.depth with
      | true => exact (writes.arm supplies).1
      | false => exact absurd (writes.placeholder supplies).1 noLayout

/-- A page with a layout call inside of a section for another. -/
def nestedCalls : Compiler where
  naming := .standard
  sources := ⟨[("page".toList,
      "@param m: u8\n@layout.b()@section(s)@layout.b()@section(s)x@endsection@endlayout".toList ++
      "@endsection@endlayout".toList),
    ("b.rlayout".toList, "@section(s)@endsection".toList)]⟩

theorem sections_read_alike_nestedCalls :
    (∃ units u front back, (nestedCalls.generate "page".toList).result = .ok (.units units) ∧
      u ∈ units.units ∧ u.name.kind = .template ∧
      u.code = front ++ line 6 ["\"", "s", "\" => \x7b"] ++ back) ∧
    ∃ position around after, SectionAt ⟨3, "@layout.b()@section(s)"⟩ .tag
      [⟨0, ⟨3, 11⟩, .layoutCall ['b'] []⟩] [] ['s'] position around after ∧
      ∃ opener names, around = [.layoutCall opener names] := by
  have page : nestedCalls.calls (.template "page".toList) =
      [⟨.layout, "b.rlayout".toList⟩, ⟨.layout, "b.rlayout".toList⟩] := by decide +kernel
  have layout : nestedCalls.calls ⟨.layout, "b.rlayout".toList⟩ = [] := by decide +kernel
  have walk : DepthFirst nestedCalls.calls [] (nestedCalls.calls (.template "page".toList))
      [⟨.layout, "b.rlayout".toList⟩] := by
    rw [page]
    refine .first (by decide) ?_ (.again (by decide) .done)
    rw [layout]
    exact .done
  obtain ⟨units, done⟩ := exists_generate_of_order (by decide) (by decide +kernel) walk
    (by decide +kernel) (by decide +kernel)
  obtain ⟨order, covers⟩ := covers_of_generate done
  obtain ⟨⟨header, events⟩, reading⟩ := Option.isSome_iff_exists.mp covers.readable_root
  have member := covers.unitOf_mem reading (List.mem_append_right _ (List.mem_singleton_self _))
  obtain ⟨alike, written⟩ := sections_read_alike nestedCalls
  constructor
  · obtain ⟨text, header', events', found, headed, complete, sections⟩ := written _ _ done _ member
    let before : List Event := [⟨0, ⟨13, 11⟩, .layoutCall ['b'] []⟩,
      ⟨1, ⟨24, 11⟩, .sectionStart ['s']⟩, ⟨2, ⟨35, 11⟩, .layoutCall ['b'] []⟩]
    let later : List Event := [⟨4, ⟨57, 1⟩, .text ['x']⟩, ⟨3, ⟨58, 11⟩, .sectionEnd⟩,
      ⟨2, ⟨69, 10⟩, .layoutEnd⟩, ⟨1, ⟨79, 11⟩, .sectionEnd⟩, ⟨0, ⟨90, 10⟩, .layoutEnd⟩]
    have known : ((nestedCalls.sources.find? "page".toList).bind fun text =>
        (Source.read .template text).toOption).map Prod.snd =
        some (before ++ ⟨3, ⟨46, 11⟩, .sectionStart ['s']⟩ :: later) := by decide +kernel
    have read : Source.read .template text = .ok (header', events') :=
      Source.read_eq_ok_iff.mpr ⟨headed, complete⟩
    rw [show nestedCalls.sources.find? "page".toList = some text from found, Option.bind_some,
      read] at known
    obtain ⟨code, arm⟩ := sections _ _ _ _ (Option.some.inj known) rfl
    rw [arm (show SourceKind.template ≠ .layout by decide)] at code
    refine ⟨units, _, top .template "page" header' ++ statements nestedCalls.naming before,
      statementsFrom nestedCalls.naming (openCalls before) later ++ "\x7d\n".toList,
      done, member, rfl, code.trans ?_⟩
    simp only [List.append_assoc]
    rfl
  · obtain ⟨position, around, after, place, writes, -⟩ := alike ⟨3, "@layout.b()@section(s)"⟩ .tag
      [⟨0, ⟨3, 11⟩, .layoutCall ['b'] []⟩] ⟨1, ⟨14, 11⟩, .sectionStart ['s']⟩ [] ['s']
      (by decide +kernel) rfl
    obtain ⟨opener, names, outer, rfl, depth⟩ := writes.agrees.mp (by decide)
    cases List.length_eq_zero_iff.mp (Option.some.inj depth).symm
    exact ⟨position, _, after, place, opener, names, rfl⟩

end Compiler

end Stencil
