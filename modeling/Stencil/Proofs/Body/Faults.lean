import Mathlib.Algebra.Group.Nat.Defs
import Stencil.Proofs.Body.Openings
import Stencil.Proofs.Body.Places
import Stencil.Proofs.Offsets.Balance

/-!
Where errors are reported. Main statement: the position of an error is a place of the body at which
the source begins with what the error is about, the events before the error end there at the latest,
and a block that is reported as unclosed is the innermost one that these events leave open.
-/

namespace Stencil

def Text.StartsAt (source : Text) (position : Nat) (t : Text) : Prop :=
  ∃ rest, source.GoesOn position (t ++ rest)

theorem Text.ne_append_of_breakOn? {sep t : Text} (h : breakOn? sep t = none) (before after : Text) :
    t ≠ before ++ sep ++ after := by
  induction t generalizing before with
  | nil =>
      intro whole
      obtain ⟨rfl, -⟩ := List.append_eq_nil_iff.mp (List.append_eq_nil_iff.mp whole.symm).1 |>.symm
      cases h
  | cons c t ih =>
      simp only [breakOn?] at h
      split at h
      · cases h
      · rename_i notHere
        cases before with
        | nil =>
            intro whole
            exact notHere (List.isPrefixOf_iff_prefix.mpr ⟨after, whole.symm⟩)
        | cons c' before =>
            intro whole
            exact ih (Option.map_eq_none_iff.mp h) before (List.cons.inj whole).2

/-- What does not consist of blanks goes on behind its blanks. -/
theorem Text.exists_content {t : Text} (content : ¬ t.all isBlank = true) :
    ∃ c more, t.dropWhile isBlank = c :: more ∧ isBlank c = false := by
  have first := List.head?_dropWhile_not isBlank t
  cases behind : t.dropWhile isBlank with
  | nil =>
      have blank := List.dropWhile_eq_nil_iff.mp behind
      exact absurd (List.all_eq_true.mpr blank) content
  | cons c more =>
      rw [behind] at first
      exact ⟨c, more, rfl, first⟩

theorem Text.StartsAt.exists_char {source t : Text} {position : Nat} (h : source.StartsAt position t)
    (content : t ≠ []) : ∃ c rest, source.GoesOn position (c :: rest) := by
  obtain ⟨rest, place⟩ := h
  cases t with
  | nil => exact absurd rfl content
  | cons c t => exact ⟨c, t ++ rest, place⟩

namespace Body

/-- The text that opens a construct, up to the bracket at its end, and the kind of that bracket. -/
inductive Construct.Opens : Construct → Text → Code.Bracket → Prop
  | expression : Opens .expression ['$'] .brace
  | statement : Opens .statement ['!'] .brace
  | ifOpen : Opens .condition Keyword.ifWord.mark .paren
  | elseIf : Opens .condition Keyword.elseIfWord.mark .paren
  | loopHeader : Opens .loopHeader Keyword.forWord.mark .paren
  | sectionName : Opens .sectionName Keyword.sectionWord.mark .paren
  | tagCall {name} : Text.isDottedName name = true →
      Opens .arguments (Keyword.tagWord.mark ++ '.' :: name) .paren
  | layoutCall {name} : Text.isDottedName name = true →
      Opens .arguments (Keyword.layoutWord.mark ++ '.' :: name) .paren

/-- What stands in a source where a cause is reported. -/
inductive Cause.Stands (source : Text) (position : Nat) : Cause → Prop
  | unexpected {keyword why} : source.StartsAt position keyword.mark →
      Stands source position (.unexpected keyword why)
  | unclosed {block} : source.StartsAt position block.opener.mark →
      Stands source position (.unclosed block)
  | missingCondition {keyword} : keyword = .ifWord ∨ keyword = .elseIfWord →
      source.StartsAt position (keyword.mark ++ ['(']) →
      Stands source position (.missingCondition keyword)
  | missingIterator : source.StartsAt position "@for(" → Stands source position .missingIterator
  | malformedTag {name} : source.StartsAt position ("@tag.".toList ++ name ++ ['(']) →
      Text.isDottedName name = false → Stands source position (.malformedCall name)
  | malformedLayout {name} : source.StartsAt position ("@layout.".toList ++ name ++ ['(']) →
      Text.isDottedName name = false → Stands source position (.malformedCall name)
  | malformedSection {name} : source.StartsAt position "@section(" →
      Stands source position (.malformedSection name)
  | duplicateSection {name} : source.StartsAt position "@section(" →
      Stands source position (.duplicateSection name)
  | sectionOutsideLayout : source.StartsAt position "@section(" →
      Stands source position .sectionOutsideLayout
  | emptyExpression : source.StartsAt position "$\x7b" →
      Stands source position (.emptyCode .expression)
  | emptyStatement : source.StartsAt position "!\x7b" →
      Stands source position (.emptyCode .statement)
  | unterminated {construct front bracket} : construct.Opens front bracket →
      source.StartsAt position (front ++ [bracket.opening]) →
      (∀ stop, ¬ Offsets.Closes source bracket (position + front.byteSize + 1) stop) →
      Stands source position (.unterminated construct)
  | comment {rest} : source.GoesOn position ("<%--".toList ++ rest) →
      (∀ inner behind, rest ≠ inner ++ "--%>".toList ++ behind) →
      Stands source position (.unterminated .comment)
  | content {c rest} : source.GoesOn position (c :: rest) → Text.isBlank c = false →
      Stands source position .contentOutsideSection

/-- Whether an error behind events points at what it is about. -/
structure PointsAtFault (source : Text) (start : Nat) (events : List Event) (e : Error) : Prop where
  boundary : source.IsBoundary e.position
  low : start ≤ e.position
  high : e.position < source.byteSize
  stands : e.cause.Stands source e.position
  innermost : ∀ block, e.cause = .unclosed block →
    (events.foldl openingsAfter []).head? = some (block, e.position)
  inCall : e.cause = .contentOutsideSection →
    ∃ opener, (events.foldl openingsAfter []).head? = some (.layoutCall, opener)
  behind : (∀ block, e.cause ≠ .unclosed block) →
    ∀ event ∈ events, event.span.start + event.span.length ≤ e.position

def Cause.isOfBlocks : Cause → Bool
  | .unclosed _ => true
  | .contentOutsideSection => true
  | _ => false

/-- What a cause says of the source alone. -/
structure Cause.StandsAlone (source : Text) (position : Nat) (cause : Cause) : Prop where
  stands : cause.Stands source position
  alone : cause.isOfBlocks = false

variable {source t rest : Text} {kind : SourceKind} {position : Nat} {nesting : Nesting}
  {cause : Cause} {e : Error}

theorem Cause.Stands.exists_char (h : cause.Stands source position) :
    ∃ c rest, source.GoesOn position (c :: rest) := by
  cases h with
  | unexpected starts => exact starts.exists_char (List.cons_ne_nil _ _)
  | unclosed starts => exact starts.exists_char (List.cons_ne_nil _ _)
  | missingCondition _ starts => exact starts.exists_char (List.cons_ne_nil _ _)
  | missingIterator starts => exact starts.exists_char (List.cons_ne_nil _ _)
  | malformedTag starts _ => exact starts.exists_char (List.cons_ne_nil _ _)
  | malformedLayout starts _ => exact starts.exists_char (List.cons_ne_nil _ _)
  | malformedSection starts => exact starts.exists_char (List.cons_ne_nil _ _)
  | duplicateSection starts => exact starts.exists_char (List.cons_ne_nil _ _)
  | sectionOutsideLayout starts => exact starts.exists_char (List.cons_ne_nil _ _)
  | emptyExpression starts => exact starts.exists_char (List.cons_ne_nil _ _)
  | emptyStatement starts => exact starts.exists_char (List.cons_ne_nil _ _)
  | unterminated _ starts _ =>
      exact starts.exists_char (List.append_ne_nil_of_right_ne_nil _ (List.cons_ne_nil _ _))
  | comment place _ => exact ⟨_, _, place⟩
  | content place _ => exact ⟨_, _, place⟩

section Recognition

variable {construct : Construct} {front : Text} {bracket : Code.Bracket}

theorem standsAlone_unterminated (opens : construct.Opens front bracket)
    (place : source.GoesOn position (front ++ bracket.opening :: t))
    (unclosed : Code.enclosed? bracket t = none) :
    (Cause.unterminated construct).StandsAlone source position := by
  refine ⟨.unterminated opens ⟨t, ?_⟩ (Offsets.not_closes_of_enclosed? place.skip unclosed), rfl⟩
  rw [List.append_assoc]
  exact place

theorem standsAlone_of_nonBlank {make : Text → Directive} {missing : Cause}
    (opens : construct.Opens front bracket)
    (place : source.GoesOn position (front ++ bracket.opening :: t))
    (fits : missing.StandsAlone source position)
    (h : Recognition.enclosed bracket construct (Directive.ofNonBlank make missing) t =
      .fault cause) : cause.StandsAlone source position := by
  rcases Recognition.enclosed_eq_fault h with ⟨rfl, unclosed⟩ | ⟨inner, refused⟩
  · exact standsAlone_unterminated opens place unclosed
  · rw [Directive.ofNonBlank_eq_error refused]
    exact fits

theorem standsAlone_of_call {k : Keyword} {make : Text → Text → Directive}
    (opens : ∀ {name}, Text.isDottedName name = true →
      Construct.arguments.Opens (k.mark ++ '.' :: name) .paren)
    (place : source.GoesOn position (k.mark ++ '.' :: t))
    (fits : ∀ {name}, source.StartsAt position (k.mark ++ '.' :: name ++ ['(']) →
      Text.isDottedName name = false → (Cause.malformedCall name).Stands source position)
    (h : recognizeCall make t = .fault cause) : cause.StandsAlone source position := by
  have split := List.takeWhile_append_dropWhile (p := isCallChar) (l := t)
  simp only [recognizeCall] at h
  generalize t.takeWhile isCallChar = name, t.dropWhile isCallChar = after at h split
  split at h
  · rename_i args
    have whole : source.GoesOn position (k.mark ++ '.' :: name ++ '(' :: args) := by
      rw [← split] at place
      rw [List.append_assoc]
      exact place
    split at h
    · rename_i dotted
      rcases Recognition.enclosed_eq_fault h with ⟨rfl, unclosed⟩ | ⟨inner, refused⟩
      · exact standsAlone_unterminated (opens dotted) whole unclosed
      · cases refused
    · rename_i undotted
      cases h
      refine ⟨fits ⟨args, ?_⟩ (Bool.eq_false_iff.mpr undotted), rfl⟩
      rw [List.append_assoc]
      exact whole
  · cases h

theorem standsAlone_of_keyword {k : Keyword} (place : source.GoesOn position (k.mark ++ t))
    (h : k.recognize t = .fault cause) : cause.StandsAlone source position := by
  fun_cases Keyword.recognize k t with
  | case1 t =>
      have fits : (Cause.missingCondition .ifWord).StandsAlone source position :=
        ⟨.missingCondition (.inl rfl) ⟨t, place⟩, rfl⟩
      exact standsAlone_of_nonBlank .ifOpen place fits h
  | case2 t =>
      have fits : (Cause.missingCondition .elseIfWord).StandsAlone source position :=
        ⟨.missingCondition (.inr rfl) ⟨t, place⟩, rfl⟩
      exact standsAlone_of_nonBlank .elseIf place fits h
  | case3 t => cases h
  | case4 t => exact standsAlone_of_nonBlank .loopHeader place ⟨.missingIterator ⟨t, place⟩, rfl⟩ h
  | case5 t => exact standsAlone_of_call .tagCall place .malformedTag h
  | case6 t => exact standsAlone_of_call .layoutCall place .malformedLayout h
  | case7 t =>
      rcases Recognition.enclosed_eq_fault h with ⟨rfl, unclosed⟩ | ⟨inner, refused⟩
      · exact standsAlone_unterminated .sectionName place unclosed
      · rw [Directive.ofSectionName_eq_error refused]
        exact ⟨.malformedSection ⟨t, place⟩, rfl⟩
  | case8 block t => cases h
  | case9 k t => simp_all [Keyword.recognize]

/-- A directive that cannot be read is reported at its start. -/
theorem standsAlone_of_recognize (place : source.GoesOn position t)
    (h : recognize t = .fault cause) : cause.StandsAlone source position := by
  fun_cases recognize t with
  | case1 t => exact standsAlone_of_nonBlank .expression place ⟨.emptyExpression ⟨t, place⟩, rfl⟩ h
  | case2 t => exact standsAlone_of_nonBlank .statement place ⟨.emptyStatement ⟨t, place⟩, rfl⟩ h
  | case3 t unclosed =>
      simp only [recognize, unclosed] at h
      cases h
      exact ⟨.comment place (Text.ne_append_of_breakOn? unclosed), rfl⟩
  | case4 t inner rest closed => simp only [recognize, closed, reduceCtorEq] at h
  | case5 t noKeyword => simp only [recognize, noKeyword, reduceCtorEq] at h
  | case6 t k isKeyword =>
      simp only [recognize, isKeyword] at h
      refine standsAlone_of_keyword ?_ h
      rw [Keyword.mark, Keyword.text_of_ofText? isKeyword, List.cons_append,
        List.takeWhile_append_dropWhile]
      exact place
  | case7 => simp_all [recognize]

end Recognition

section Effects

/-- A directive that finds the wrong blocks open is reported at its start. -/
theorem Directive.standsAlone_of_effect {d : Directive}
    (place : source.GoesOn position (d.spelling ++ rest))
    (h : d.effect kind position nesting = .error cause) : cause.StandsAlone source position := by
  cases d with
  | elseIf inner =>
      simp only [Directive.effect] at h
      split at h
      · cases h
        rw [Directive.spelling, List.append_assoc, List.append_assoc] at place
        exact ⟨.unexpected ⟨_, place⟩, rfl⟩
      · cases h
  | elseBranch =>
      simp only [Directive.effect] at h
      split at h
      · cases h
        exact ⟨.unexpected ⟨rest, place⟩, rfl⟩
      · cases h
  | close block =>
      simp only [Directive.effect] at h
      split at h
      · cases h
        exact ⟨.unexpected ⟨rest, place⟩, rfl⟩
      · cases h
  | sectionOpen inner =>
      have stands : source.StartsAt position "@section(" :=
        ⟨inner ++ [')'] ++ rest, place⟩
      simp only [Directive.effect] at h
      split at h
      · rename_i refused
        cases h
        rcases Nesting.openSection_eq_error refused with rfl | rfl
        · exact ⟨.duplicateSection stands, rfl⟩
        · exact ⟨.sectionOutsideLayout stands, rfl⟩
      · cases h
  | _ => cases h

theorem Directive.exists_mark (d : Directive) :
    ∃ c t, d.spelling = c :: t ∧ Text.isBlank c = false := by
  cases d <;> exact ⟨_, _, rfl, by decide⟩

/-- A lexeme that cannot stand at its place is reported at its start. Literal text directly inside of
a layout call is reported behind its blanks. -/
theorem Lexeme.stands_of_effect {lexeme : Lexeme}
    (place : source.GoesOn position (lexeme.spelling ++ rest))
    (h : lexeme.effect kind position nesting = .error e) : position ≤ e.position ∧
      (e.cause.StandsAlone source e.position ∨ (e.cause = .contentOutsideSection ∧
        nesting.inLayoutCall = true ∧ e.cause.Stands source e.position)) := by
  cases lexeme with
  | text t =>
      simp only [Lexeme.effect] at h
      split at h
      · cases h
      · rename_i inside
        split at h
        · cases h
        · rename_i content
          cases h
          refine ⟨Nat.le_add_right _ _, .inr ⟨rfl, by simpa using inside, ?_⟩⟩
          obtain ⟨c, more, behind, mark⟩ := Text.exists_content content
          rw [Lexeme.spelling, ← List.takeWhile_append_dropWhile (p := Text.isBlank) (l := t), behind,
            List.append_assoc] at place
          exact .content place.skip mark
  | directive d =>
      simp only [Lexeme.effect] at h
      split at h
      · rename_i inside
        cases h
        obtain ⟨c, t, spelling, mark⟩ := d.exists_mark
        rw [Lexeme.spelling, spelling] at place
        refine ⟨Nat.le_refl _, .inr ⟨rfl, ?_, .content place mark⟩⟩
        exact (Bool.and_eq_true _ _ ▸ inside).1
      · cases result : d.effect kind position nesting with
        | ok effect =>
            rw [result] at h
            cases h
        | error cause =>
            rw [result] at h
            cases h
            exact ⟨Nat.le_refl _, .inl (Directive.standsAlone_of_effect place result)⟩

end Effects

section Openers

variable {lexemes : List Lexeme} {events : List Event} {start : Nat}

/-- An open block was open before the events, or one of them opened it. -/
theorem Leads.exists_opening {openings final : List (Block × Nat)} {opening : Block × Nat}
    (h : Leads openings events final) (isOpen : opening ∈ final) : opening ∈ openings ∨
      ∃ e ∈ events, opened? e.payload = some opening.1 ∧ e.span.start = opening.2 := by
  induction h with
  | nil => exact .inl isOpen
  | @cons openings e between events final moves _ ih =>
      rcases ih isOpen with earlier | ⟨opener, inside, opens⟩
      · have own := List.mem_cons_self (a := e) (l := events)
        cases moves with
        | flat _ _ => exact .inl earlier
        | branch _ _ => exact .inl earlier
        | closes _ _ => exact .inl (List.mem_cons_of_mem _ earlier)
        | opens _ opens =>
            rcases List.mem_cons.mp earlier with rfl | before
            · exact .inr ⟨e, own, opens, rfl⟩
            · exact .inl before
      · exact .inr ⟨opener, List.mem_cons_of_mem _ inside, opens⟩

/-- A lexeme whose event opens a block starts with the block's opening keyword. -/
theorem Lexeme.exists_mark_of_opened? {lexeme : Lexeme} {depth : Nat} {payload : Event.Payload}
    {after : Nesting} {block : Block}
    (h : lexeme.effect kind position nesting = .ok (some (depth, payload), after))
    (opens : opened? payload = some block) :
    ∃ more, lexeme.spelling = block.opener.mark ++ more := by
  cases lexeme with
  | text t =>
      cases Lexeme.payload_of_effect_text h
      cases opens
  | directive d =>
      have done := (Lexeme.effect_directive_eq_ok h).1
      cases d with
      | comment inner => cases done
      | expression inner =>
          cases done
          cases opens
      | statement inner =>
          cases done
          cases opens
      | tagCall name inner =>
          cases done
          cases opens
      | ifOpen inner =>
          cases done
          cases opens
          exact ⟨_, List.append_assoc _ _ _⟩
      | forOpen inner =>
          cases done
          cases opens
          exact ⟨_, List.append_assoc _ _ _⟩
      | layoutOpen name inner =>
          cases done
          cases opens
          exact ⟨'.' :: name ++ '(' :: inner ++ [')'], rfl⟩
      | elseIf inner =>
          obtain ⟨_, _, _, same⟩ := Directive.effect_elseIf_eq_ok done
          cases same
          cases opens
      | elseBranch =>
          obtain ⟨_, _, _, same⟩ := Directive.effect_elseBranch_eq_ok done
          cases same
          cases opens
      | close closed =>
          obtain ⟨_, _, _, _, same⟩ := Directive.effect_close_eq_ok done
          cases same
          cases closed <;> cases opens
      | sectionOpen inner =>
          obtain ⟨_, _, same⟩ := Directive.effect_sectionOpen_eq_ok done
          cases same
          cases opens
          exact ⟨_, List.append_assoc _ _ _⟩

/-- At the opener of an open block stands the keyword that opens it. -/
theorem startsAt_opener {frame : Frame} (small : source.byteSize ≤ Span.limit)
    (place : source.GoesOn start (lexemes.flatMap Lexeme.spelling ++ rest))
    (traced : trace kind start [] lexemes = (events, .ok (position, nesting)))
    (isOpen : frame ∈ nesting) : start ≤ frame.opener ∧
      source.StartsAt frame.opener frame.block.opener.mark := by
  have opening : frame.opening ∈ nesting.openings := List.mem_map_of_mem isOpen
  obtain ⟨e, isEvent, opens, sameStart⟩ :=
    ((trace_leads traced).exists_opening opening).resolve_left (List.not_mem_nil)
  have inTrace : e ∈ (trace kind start [] lexemes).1 := by rwa [traced]
  obtain ⟨before, lexeme, later, rfl, makes⟩ := exists_makes_of_mem_trace inTrace
  obtain ⟨around, after, effect⟩ := makes.effect
  obtain ⟨more, spelling⟩ := Lexeme.exists_mark_of_opened? effect opens
  rw [List.flatMap_append, List.flatMap_cons, List.append_assoc, List.append_assoc] at place
  have here := place.skip
  rw [spelling, List.append_assoc] at here
  have inside : start + Text.byteSize (before.flatMap Lexeme.spelling) < source.byteSize :=
    here.lt_byteSize
  have sameOpener : frame.opener = start + Text.byteSize (before.flatMap Lexeme.spelling) := by
    rw [makes.span] at sameStart
    simp only [Span.ofRange, Frame.opening] at sameStart
    omega
  rw [sameOpener]
  exact ⟨Nat.le_add_right _ _, _, here⟩

theorem span_le_of_trace {after : Nesting}
    (traced : trace kind start nesting lexemes = (events, .ok (position, after))) :
    ∀ event ∈ events, event.span.start + event.span.length ≤ position := by
  intro event isEvent
  have inTrace : event ∈ (trace kind start nesting lexemes).1 := by rwa [traced]
  obtain ⟨before, lexeme, later, rfl, makes⟩ := exists_makes_of_mem_trace inTrace
  rw [stop_of_trace traced, makes.span, List.flatMap_append, List.flatMap_cons, Text.byteSize_append,
    Text.byteSize_append]
  simp only [Span.ofRange]
  omega

end Openers

section Errors

variable {lexemes : List Lexeme} {events : List Event} {start : Nat}

theorem pointsAtFault_of_alone
    (traced : trace kind start [] lexemes = (events, .ok (position, nesting)))
    (alone : e.cause.StandsAlone source e.position) (later : position ≤ e.position) :
    PointsAtFault source start events e := by
  obtain ⟨c, rest, place⟩ := alone.stands.exists_char
  have stop := stop_of_trace traced
  refine ⟨⟨_, place⟩, by omega, place.lt_byteSize, alone.stands, ?_, ?_, ?_⟩
  · intro block isUnclosed
    have apart := alone.alone
    rw [isUnclosed] at apart
    cases apart
  · intro isContent
    have apart := alone.alone
    rw [isContent] at apart
    cases apart
  · intro _ event isEvent
    exact Nat.le_trans (span_le_of_trace traced event isEvent) later

theorem pointsAtFault_of_content
    (traced : trace kind start [] lexemes = (events, .ok (position, nesting)))
    (isContent : e.cause = .contentOutsideSection) (inside : nesting.inLayoutCall = true)
    (stands : e.cause.Stands source e.position) (later : position ≤ e.position) :
    PointsAtFault source start events e := by
  obtain ⟨c, rest, place⟩ := stands.exists_char
  have stop := stop_of_trace traced
  refine ⟨⟨_, place⟩, by omega, place.lt_byteSize, stands, ?_, ?_, ?_⟩
  · intro block isUnclosed
    cases isContent.symm.trans isUnclosed
  · intro _
    obtain ⟨opener, names, outer, rfl⟩ := Nesting.exists_layoutCall inside
    rw [openings_of_trace traced]
    exact ⟨min opener Span.limit, rfl⟩
  · intro _ event isEvent
    exact Nat.le_trans (span_le_of_trace traced event isEvent) later

theorem pointsAtFault_of_unclosed {frame : Frame} {outer : Nesting}
    (small : source.byteSize ≤ Span.limit)
    (place : source.GoesOn start (lexemes.flatMap Lexeme.spelling ++ rest))
    (traced : trace kind start [] lexemes = (events, .ok (position, frame :: outer))) :
    PointsAtFault source start events frame.unclosed := by
  obtain ⟨low, starts⟩ := startsAt_opener small place traced List.mem_cons_self
  have stands : (Cause.unclosed frame.block).Stands source frame.opener := .unclosed starts
  obtain ⟨c, more, here⟩ := stands.exists_char
  have high := here.lt_byteSize
  refine ⟨⟨_, here⟩, low, high, stands, ?_, ?_, ?_⟩
  · rintro block ⟨⟩
    have fits : min frame.opener Span.limit = frame.opener := by omega
    rw [openings_of_trace traced, Nesting.openings, List.map_cons, List.head?_cons, Frame.opening, fits]
    rfl
  · rintro ⟨⟩
  · intro other
    exact absurd rfl (other frame.block)

/-- An error points at what it is about, and the events before it tell the block that is reported as
unclosed, or the layout call that content stands in. -/
theorem read_pointsAtFault {start : Nat} (small : source.byteSize < 2 ^ 32)
    (boundary : source.IsBoundary start)
    (failed : (ofSource? source start).map (·.read kind) = some ⟨events, some e⟩) :
    PointsAtFault source start events e := by
  have small : source.byteSize ≤ Span.limit := Nat.le_of_lt_succ small
  obtain ⟨text, place⟩ := boundary
  rw [ofSource?_of_goesOn place, Option.map_some, read_eq] at failed
  obtain ⟨traced, ending⟩ := Reading.mk.inj (Option.some.inj failed)
  simp only [endingError] at traced ending
  split at ending
  · rename_i fault stopped
    cases ending
    obtain ⟨first, lexeme, behind, position, around, split, before, effect⟩ :=
      exists_place_of_trace_error (Prod.ext traced stopped)
    obtain ⟨unread, whole⟩ := exists_append_of_lex text
    rw [whole, split, List.flatMap_append, List.flatMap_cons, List.append_assoc,
      List.append_assoc] at place
    have here := place.skip
    rw [← stop_of_trace before] at here
    obtain ⟨later, alone | ⟨isContent, inside, stands⟩⟩ := Lexeme.stands_of_effect here effect
    · exact pointsAtFault_of_alone before alone later
    · exact pointsAtFault_of_content before isContent inside stands later
  · rename_i position nesting stopped
    have before : trace kind start [] (lex text).lexemes = (events, .ok (position, nesting)) :=
      Prod.ext traced stopped
    cases fault : (lex text).fault with
    | some found =>
        obtain ⟨pending, cause⟩ := found
        rw [fault] at ending
        cases ending
        obtain ⟨faulty, whole, refused⟩ := exists_of_lex_fault fault
        rw [whole] at place
        have here := place.skip.skip
        rw [← stop_of_trace before] at here
        exact pointsAtFault_of_alone before (standsAlone_of_recognize here refused)
          (Nat.le_add_right _ _)
    | none =>
        rw [fault] at ending
        cases nesting with
        | nil => cases ending
        | cons frame outer =>
            cases ending
            rw [← flatMap_spelling_lex fault, ← List.append_nil (List.flatMap _ _)] at place
            exact pointsAtFault_of_unclosed small place before

/-- A conditional inside of a loop, both open, and content behind blanks and a comment in a layout
call. -/
theorem read_pointsAtFault_openBlocks :
    let unclosed : Text := "é@for(i)@if(x)a"
    let events : List Event :=
      [⟨0, ⟨2, 7⟩, .loopStart ['i']⟩, ⟨1, ⟨9, 6⟩, .conditionStart ['x']⟩, ⟨2, ⟨15, 1⟩, .text ['a']⟩]
    let content : Text := "@layout.p() <%--c--%>\n é"
    (ofSource? unclosed 2).map (·.read .template) = some ⟨events, some ⟨9, .unclosed .conditional⟩⟩ ∧
      PointsAtFault unclosed 2 events ⟨9, .unclosed .conditional⟩ ∧
      PointsAtFault content 0 [⟨0, ⟨0, 11⟩, .layoutCall ['p'] []⟩] ⟨23, .contentOutsideSection⟩ := by
  intro unclosed events content
  have failed : (ofSource? unclosed 2).map (·.read .template) =
      some ⟨events, some ⟨9, .unclosed .conditional⟩⟩ := by decide +kernel
  have boundary : unclosed.IsBoundary 2 :=
    ⟨"@for(i)@if(x)a".toList, ['é'], by decide +kernel, by decide +kernel⟩
  refine ⟨failed, read_pointsAtFault (by decide +kernel) boundary failed, ?_⟩
  have refused : (ofSource? content 0).map (·.read .template) =
      some ⟨[⟨0, ⟨0, 11⟩, .layoutCall ['p'] []⟩], some ⟨23, .contentOutsideSection⟩⟩ := by
    decide +kernel
  exact read_pointsAtFault (by decide +kernel) ⟨content, .zero content⟩ refused

end Errors

end Body

end Stencil
