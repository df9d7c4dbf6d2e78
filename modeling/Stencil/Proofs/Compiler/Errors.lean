import Mathlib.Algebra.Group.Nat.Defs
import Stencil.Proofs.Body.Nesting
import Stencil.Proofs.Body.Places
import Stencil.Proofs.Compiler.Asking
import Stencil.Proofs.Offsets.Sources

/-!
Why a generation fails. Main statement: what the error of a generation says is true of the sources.
It names a source that was asked for in the run, in the role in which this was asked for, or the
place of a call in one that was found.
-/

namespace Stencil

/-- Whether a text has a call of a tag or layout by a given name at a position. -/
def Text.CallsAt (source : Text) (position : Nat) (name : Text) : SourceKind → Prop
  | .template => False
  | .tag => ∃ rest, source.GoesOn position ("@tag.".toList ++ (name ++ '(' :: rest))
  | .layout => ∃ rest, source.GoesOn position ("@layout.".toList ++ (name ++ '(' :: rest))

theorem Source.read_of_header_error {kind : SourceKind} {text : Text} {e : Header.Error}
    (h : Header.ofSource kind text = .error e) : Source.read kind text = .error (.header e) := by
  rw [Source.read, h]

theorem Source.read_of_body_error {kind : SourceKind} {text : Text} {header : Header}
    {e : Body.Error} (opened : Header.ofSource kind text = .ok header)
    (failed : (header.body.read kind).error = some e) :
    Source.read kind text = .error (.body e) := by
  rcases reading : header.body.read kind with ⟨events, error⟩
  rw [reading] at failed
  cases failed
  simp only [Source.read, opened, reading]

namespace Body

variable {source rest : Text} {kind called : SourceKind} {position : Nat} {name : Text} {e : Event}

/-- An event that is a call is made by the directive of that call. -/
theorem Lexeme.Makes.callsAt {lexeme : Lexeme} (makes : lexeme.Makes kind position e)
    (call : e.call? = some (called, name))
    (place : source.GoesOn position (lexeme.spelling ++ rest)) :
    source.CallsAt position name called := by
  obtain ⟨depth, span, payload⟩ := e
  obtain ⟨-, nesting, after, step⟩ := makes
  cases lexeme with
  | text t =>
      cases Lexeme.payload_of_effect_text step
      cases call
  | directive d =>
      obtain ⟨done, -⟩ := Lexeme.effect_directive_eq_ok step
      cases d with
      | tagCall other inner =>
          cases done
          cases call
          refine ⟨inner ++ ')' :: rest, ?_⟩
          simp only [Lexeme.spelling, Directive.spelling, List.append_assoc, List.cons_append,
            List.nil_append] at place
          exact place
      | layoutOpen other inner =>
          cases done
          cases call
          refine ⟨inner ++ ')' :: rest, ?_⟩
          simp only [Lexeme.spelling, Directive.spelling, List.append_assoc, List.cons_append,
            List.nil_append] at place
          exact place
      | elseIf inner =>
          obtain ⟨_, _, _, ⟨⟩⟩ := Directive.effect_elseIf_eq_ok done
          cases call
      | elseBranch =>
          obtain ⟨_, _, _, ⟨⟩⟩ := Directive.effect_elseBranch_eq_ok done
          cases call
      | sectionOpen inner =>
          obtain ⟨_, _, ⟨⟩⟩ := Directive.effect_sectionOpen_eq_ok done
          cases call
      | close block =>
          obtain ⟨_, _, _, _, ⟨⟩⟩ := Directive.effect_close_eq_ok done
          cases block <;> cases call
      | comment inner => cases done
      | expression inner => cases done; cases call
      | statement inner => cases done; cases call
      | ifOpen inner => cases done; cases call
      | forOpen inner => cases done; cases call

/-- The calls among the events of a source stand in it at the events' places. -/
theorem callsAt_of_mem_read {header : Header} (small : source.byteSize < 2 ^ 32)
    (opened : Header.ofSource kind source = .ok header)
    (member : e ∈ (header.body.read kind).events) (call : e.call? = some (called, name)) :
    source.CallsAt e.span.start name called := by
  have place := (Offsets.goesOn_of_ofSource? (Offsets.ofSource?_body opened)).1
  obtain ⟨position, lexeme, rest, here, makes⟩ := exists_makes_of_mem_read place member
  have start : e.span.start = position := by
    have inside : position ≤ Span.limit := by
      rw [here.byteSize] at small
      exact Nat.le_of_lt_succ (Nat.lt_of_le_of_lt (Nat.le_add_right _ _) small)
    rw [makes.span]
    exact Nat.min_eq_left inside
  rw [start]
  exact makes.callsAt call here

end Body

namespace Compiler

/-- What an error says of the sources, of which those given were asked for. -/
def Justifies (c : Compiler) (name : Text) (asked : List Reference) : GenerateError → Prop
  | .notFound missing => missing = name ∧ c.sources.find? name = none
  | .malformedHeader path e => ∃ r ∈ asked, r.path = path ∧ ∃ text,
      c.sources.find? path = some text ∧ Source.read r.kind text = .error (.header e)
  | .badStructure path e => ∃ r ∈ asked, r.path = path ∧ ∃ text,
      c.sources.find? path = some text ∧ Source.read r.kind text = .error (.body e)
  | .unresolved kind called referrer position =>
      c.naming.reference kind called ∈ asked ∧
      c.sources.find? (c.naming.sourcePath kind called) = none ∧
      ∃ r ∈ asked, referrer = c.nameOf r ∧ ∃ text,
        c.sources.find? r.path = some text ∧ text.CallsAt position called kind
  | .collision collision =>
      collision.existing ≠ collision.incoming ∧
      c.naming.qualify collision.name.kind collision.existing = collision.name ∧
      c.naming.qualify collision.name.kind collision.incoming = collision.name ∧
      ⟨collision.name.kind, collision.existing⟩ ∈ asked ∧
      ∃ r ∈ asked, ∃ text position called, c.sources.find? r.path = some text ∧
        text.CallsAt position called collision.name.kind ∧
        collision.incoming = c.naming.sourcePath collision.name.kind called

variable {c : Compiler} {name : Text} {asked more : List Reference} {error : GenerateError}

theorem Justifies.mono (h : c.Justifies name asked error) (subset : asked ⊆ more) :
    c.Justifies name more error := by
  cases error with
  | notFound missing => exact h
  | malformedHeader path e =>
      obtain ⟨r, member, said⟩ := h
      exact ⟨r, subset member, said⟩
  | badStructure path e =>
      obtain ⟨r, member, said⟩ := h
      exact ⟨r, subset member, said⟩
  | unresolved kind called referrer position =>
      obtain ⟨wanted, missing, r, member, said⟩ := h
      exact ⟨subset wanted, missing, r, subset member, said⟩
  | collision collision =>
      obtain ⟨apart, first, second, existing, r, member, said⟩ := h
      exact ⟨apart, first, second, subset existing, r, subset member, said⟩

/-- Whether a source was found and has the calls among some events at their places. -/
def Cites (c : Compiler) (caller : Reference) (events : List Event) : Prop :=
  ∃ text, c.sources.find? caller.path = some text ∧ ∀ e ∈ events, ∀ kind called,
    e.call? = some (kind, called) → text.CallsAt e.span.start called kind

/-- Whether every source is short enough for its positions to be told. -/
def IsShort (c : Compiler) : Prop :=
  ∀ path text, c.sources.find? path = some text → text.byteSize < 2 ^ 32

variable {caller r : Reference} {events rest : List Event} {e : Event} {kind : SourceKind}
  {called text : Text} {position : Nat} {header : Header} {set : UnitSet}

theorem Cites.tail (h : c.Cites caller (e :: rest)) : c.Cites caller rest := by
  obtain ⟨text, found, here⟩ := h
  exact ⟨text, found, fun other member => here other (List.mem_cons_of_mem e member)⟩

theorem IsShort.cites (short : c.IsShort) (found : c.sources.find? r.path = some text)
    (opened : Header.ofSource r.kind text = .ok header) :
    c.Cites r (header.body.read r.kind).events := by
  refine ⟨text, found, ?_⟩
  intro e member kind called call
  exact Body.callsAt_of_mem_read (short r.path text found) opened member call

/-- What is found out at a call that is refused. -/
theorem encounter_refused_cases {referrer : QualifiedName}
    (isReference : c.naming.reference kind called = r)
    (met : c.encounter set referrer kind called position = .refused asked error) :
    (∃ existing, set.source? (c.nameOf r) = some existing ∧ existing ≠ r.path ∧
      error = .collision ⟨c.nameOf r, existing, r.path⟩) ∨
    (asked = [r] ∧ c.sources.find? r.path = none ∧
      error = .unresolved kind called referrer position) ∨
    ∃ text e, asked = [r] ∧ c.sources.find? r.path = some text ∧
      Header.ofFragment text = .error e ∧ error = .malformedHeader r.path e := by
  subst isReference
  simp only [encounter] at met
  split at met
  · rename_i existing present
    split at met
    · cases met
    · rename_i apart
      cases met
      exact .inl ⟨existing, present, apart, rfl⟩
  · split at met
    · rename_i missing
      cases met
      exact .inr (.inl ⟨rfl, missing, rfl⟩)
    · rename_i text found
      split at met
      · rename_i e malformed
        cases met
        exact .inr (.inr ⟨text, e, rfl, found, malformed, rfl⟩)
      · cases met

theorem justifies_of_refused (consistent : c.Consistent set) (cites : c.Cites caller (e :: rest))
    (call : e.call? = some (kind, called))
    (met : c.encounter set (c.nameOf caller) kind called e.span.start = .refused asked error) :
    c.Justifies name (caller :: set.references ++ asked) error := by
  obtain ⟨text, found, here⟩ := cites
  have place := here e List.mem_cons_self kind called call
  have isCaller : caller ∈ caller :: set.references ++ asked := List.mem_cons_self
  rcases encounter_refused_cases rfl met with ⟨existing, present, apart, rfl⟩ |
    ⟨rfl, missing, rfl⟩ | ⟨text, e, rfl, there, malformed, rfl⟩
  · obtain ⟨known, same⟩ := consistent.exists_reference present
    exact ⟨apart, same, rfl, List.mem_append_left _ (List.mem_cons_of_mem caller known), caller,
      isCaller, text, e.span.start, called, found, place, rfl⟩
  · exact ⟨List.mem_append_right _ (List.mem_singleton_self _), missing, caller, isCaller, rfl,
      text, found, place⟩
  · have fragment := Event.call?_kind call
    refine ⟨c.naming.reference kind called, List.mem_append_right _ (List.mem_singleton_self _),
      rfl, text, there, Source.read_of_header_error ?_⟩
    exact (Header.ofSource_of_fragment fragment text).trans malformed

/-- A source that a call opens was found, and has its own calls at their places. -/
theorem IsShort.cites_of_opened (short : c.IsShort) {referrer : QualifiedName}
    (call : e.call? = some (kind, called)) (isReference : c.naming.reference kind called = r)
    (met : c.encounter set referrer kind called position = .opened header) :
    c.nameOf r ∉ set.names ∧ r.kind = kind ∧ kind ≠ .template ∧
      (∃ text, c.sources.find? r.path = some text ∧ Header.ofSource kind text = .ok header) ∧
      c.Cites r (header.body.read kind).events := by
  obtain ⟨free, text, found, opened⟩ := encounter_eq_opened isReference met
  have fragment := Event.call?_kind call
  rw [← Header.ofSource_of_fragment fragment] at opened
  subst isReference
  exact ⟨free, rfl, fragment, ⟨text, found, opened⟩, short.cites found opened⟩

/-- A failure while calls are followed is justified by the sources that were asked for before and
those that are asked for on the way. -/
theorem Follows.justifies (short : c.IsShort) {referrer : QualifiedName}
    {result : Except GenerateError UnitSet} (h : c.Follows referrer events set asked result)
    (named : referrer = c.nameOf caller) (consistent : c.Consistent set)
    (cites : c.Cites caller events) (failed : result = .error error) :
    c.Justifies name (caller :: set.references ++ asked) error := by
  induction h generalizing caller with
  | done => cases failed
  | silent _ _ ih => exact ih named consistent cites.tail failed
  | present _ _ _ ih => exact ih named consistent cites.tail failed
  | refused call met =>
      cases failed
      subst named
      exact justifies_of_refused consistent cites call met
  | @inside _ e rest set kind called r header asked _ call isReference met _ ih =>
      obtain ⟨free, -, -, -, inner⟩ := short.cites_of_opened call isReference met
      refine (ih rfl (consistent.reserve free) inner failed).mono ?_
      rw [references_reserve free]
      intro q member
      simp only [List.cons_append, List.append_assoc, List.mem_cons, List.mem_append,
        List.nil_append] at member ⊢
      tauto
  | @broken _ e rest set kind called r header asked _ _ call isReference met _ wrong _ =>
      obtain ⟨free, role, -, ⟨text, found, opened⟩, -⟩ :=
        short.cites_of_opened call isReference met
      cases failed
      refine ⟨r, ?_, rfl, text, found, ?_⟩
      · exact List.mem_append_right _ List.mem_cons_self
      · rw [role]
        exact Source.read_of_body_error opened wrong
  | @first _ e rest set kind called r header asked between more _ call isReference met followed _
      _ _ ihLater =>
      obtain ⟨free, role, fragment, -, -⟩ := short.cites_of_opened call isReference met
      have own : c.Asks set (r :: asked)
          (.ok (between.finalize (c.unitOf r header (header.body.read kind).events))) := by
        have inner := followed.asks (consistent.reserve free)
        refine .opened free (role ▸ fragment) consistent inner ?_
        exact fun after same => ⟨_, _, _, rfl, (Except.ok.inj same).symm⟩
      obtain ⟨sound, grown⟩ := own.adds _ rfl
      have later := ihLater named sound cites.tail failed
      rw [grown, ← List.cons_append, List.append_assoc] at later
      exact later

theorem Generates.justifies (short : c.IsShort) (h : c.Generates name asked (.error error)) :
    c.Justifies name (.template name :: asked) error := by
  unfold Generates at h
  split at h
  · rename_i missing
    cases h.2
    exact ⟨rfl, missing⟩
  · cases h.2
  · rename_i text _ found
    have isRoot : Reference.template name ∈ Reference.template name :: asked := List.mem_cons_self
    split at h
    · rename_i e malformed
      cases h.2
      exact ⟨_, isRoot, rfl, text, found, Source.read_of_header_error malformed⟩
    · rename_i header opened
      obtain ⟨ending, follows, final⟩ := h
      split at final
      · cases final
        have cites : c.Cites (.template name) (header.body.read .template).events :=
          short.cites found opened
        exact follows.justifies short rfl consistent_empty cites rfl
      · rename_i wrong
        cases final
        exact ⟨_, isRoot, rfl, text, found, Source.read_of_body_error opened wrong⟩
      · cases final

/-- A generation fails for the reason that its error gives. The run that the error is about is the
only one there is, and it has asked for the template and then for tags and layouts. -/
theorem generate_justifies (c : Compiler) (name : Text) (short : c.IsShort) (error : GenerateError)
    (failed : (c.generate name).result = .error error) :
    ∃ asked, c.Generates name asked (.error error) ∧
      (c.generate name).asked = name :: asked.map Reference.path ∧
      c.Justifies name (.template name :: asked) error := by
  obtain ⟨asked, generates, names⟩ := exists_generates c name
  rw [failed] at generates
  exact ⟨asked, generates, names, generates.justifies short⟩

theorem encounter_of_opened {referrer : QualifiedName}
    (isReference : c.naming.reference kind called = r) (free : set.source? (c.nameOf r) = none)
    (found : c.sources.find? r.path = some text) (opened : Header.ofFragment text = .ok header) :
    c.encounter set referrer kind called position = .opened header := by
  subst isReference
  simp only [encounter, free, found, opened]

/-- A failure among the calls of a template ends its generation. -/
theorem generates_of_follows_error (found : c.sources.find? name = some text) (content : text ≠ [])
    (opened : Header.ofTemplate text = .ok header)
    (follows : c.Follows (c.nameOf (.template name)) (header.body.read .template).events .empty asked
      (.error error)) : c.Generates name asked (.error error) := by
  unfold Generates
  rw [found]
  cases text with
  | nil => exact absurd rfl content
  | cons first text =>
      simp only [opened]
      exact ⟨_, follows, rfl⟩

theorem Generates.generate_eq {result : Except GenerateError Generated}
    (h : c.Generates name asked result) :
    (c.generate name).result = result ∧
      (c.generate name).asked = name :: asked.map Reference.path := by
  obtain ⟨other, run, names⟩ := exists_generates c name
  obtain ⟨rfl, same⟩ := run.unique h
  exact ⟨same, names⟩

theorem generate_of_follows_error (found : c.sources.find? name = some text) (content : text ≠ [])
    (opened : Header.ofTemplate text = .ok header)
    (follows : c.Follows (c.nameOf (.template name)) (header.body.read .template).events .empty asked
      (.error error)) : (c.generate name).result = .error error :=
  (generates_of_follows_error found content opened follows).generate_eq.1

theorem IsShort.of_entries
    (small : ∀ entry ∈ c.sources.entries, Text.byteSize entry.2 < 2 ^ 32) : c.IsShort := by
  intro path text found
  obtain ⟨before, after, split, -⟩ := List.lookup_eq_some_iff.mp found
  apply small (path, text)
  rw [split]
  exact List.mem_append_right before List.mem_cons_self

/-- A page whose tag calls one that is missing, behind a character of two bytes. -/
def missingTag : Compiler where
  naming := .standard
  sources := ⟨[("page".toList, "@param m: u8\n@tag.a()".toList),
    ("a.rtag".toList, "é@tag.b()".toList)]⟩

theorem generate_justifies_missingTag :
    let error : GenerateError :=
      .unresolved .tag ['b'] ⟨.tag, ["rtpl".toList, "tags".toList, "a_rtpl".toList]⟩ 2
    (missingTag.generate "page".toList).result = .error error ∧
    ∃ asked, missingTag.Generates "page".toList asked (.error error) ∧
      (missingTag.generate "page".toList).asked = "page".toList :: asked.map Reference.path ∧
      missingTag.Justifies "page".toList (.template "page".toList :: asked) error := by
  intro error
  have small : ∀ entry ∈ missingTag.sources.entries, Text.byteSize entry.2 < 2 ^ 32 := by
    decide +kernel
  have page : Header.ofTemplate "@param m: u8\n@tag.a()".toList =
      .ok ⟨[], [], some ⟨['m'], "u8"⟩, ⟨13, "@tag.a()"⟩⟩ := by decide +kernel
  have pageEvents : ((⟨13, "@tag.a()"⟩ : Body).read .template).events =
      [⟨0, ⟨13, 8⟩, .tagCall ['a'] []⟩] := by decide +kernel
  have tag : Header.ofFragment "é@tag.b()".toList = .ok ⟨[], [], none, ⟨0, "é@tag.b()"⟩⟩ := by
    decide +kernel
  have tagEvents : ((⟨0, "é@tag.b()"⟩ : Body).read .tag).events =
      [⟨0, ⟨0, 2⟩, .text ['é']⟩, ⟨0, ⟨2, 8⟩, .tagCall ['b'] []⟩] := by decide +kernel
  have opens : missingTag.encounter .empty (missingTag.nameOf (.template "page".toList)) .tag ['a'] 13 =
      .opened ⟨[], [], none, ⟨0, "é@tag.b()"⟩⟩ :=
    encounter_of_opened rfl rfl rfl tag
  have inside : missingTag.Follows (missingTag.nameOf ⟨.tag, "a.rtag".toList⟩)
      ((⟨0, "é@tag.b()"⟩ : Body).read .tag).events
      (UnitSet.reserve .empty (missingTag.nameOf ⟨.tag, "a.rtag".toList⟩) "a.rtag".toList).2
      [⟨.tag, "b.rtag".toList⟩] (.error error) := by
    rw [tagEvents]
    exact .silent rfl (.refused rfl rfl)
  have follows : missingTag.Follows (missingTag.nameOf (.template "page".toList))
      ((⟨13, "@tag.a()"⟩ : Body).read .template).events .empty
      [⟨.tag, "a.rtag".toList⟩, ⟨.tag, "b.rtag".toList⟩] (.error error) := by
    rw [pageEvents]
    exact .inside rfl rfl opens inside
  have failed := generate_of_follows_error rfl (by decide) page follows
  exact ⟨failed, generate_justifies missingTag _ (.of_entries small) error failed⟩

end Compiler

end Stencil
