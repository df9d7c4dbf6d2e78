import Mathlib.Data.List.Forall2
import Stencil.Proofs.Body.Lookahead
import Stencil.Proofs.Offsets.Shift

/-!
Comments have no effect. Main statement: a comment put between two segments of a body that can be
read leaves the events as they are, with their depths and payloads, and moves those behind it by its
length.
-/

namespace Stencil

/-- The same piece of a source after `n` bytes have been put in at a position. The counts of a span
still stop at the limit. -/
def Span.insert (position n : Nat) (span : Span) : Span :=
  if position ≤ span.start then ⟨min (span.start + n) limit, span.length⟩ else span

def Event.insert (position n : Nat) (e : Event) : Event := { e with span := e.span.insert position n }

theorem Span.ofRange_insert {position start : Nat} (small : position ≤ limit)
    (behind : position ≤ start) (n stop : Nat) :
    ofRange (start + n) (stop + n) = (ofRange start stop).insert position n := by
  have low : position ≤ (ofRange start stop).start := by
    simp only [ofRange]
    omega
  rw [insert, if_pos low]
  simp only [ofRange, Span.mk.injEq]
  omega

theorem Event.insert_of_lt {position : Nat} {e : Event} (before : e.span.start < position)
    (n : Nat) : e.insert position n = e := by
  rw [insert, Span.insert, if_neg (Nat.not_le.mpr before)]

theorem Event.insert_eq_shift {position n : Nat} {e : Event} (behind : position ≤ e.span.start)
    (small : e.span.start + n ≤ Span.limit) : e.insert position n = e.shift n := by
  rw [insert, Span.insert, if_pos behind, Nat.min_eq_left small]
  rfl

namespace Body

/-- Open blocks that differ in nothing but the positions of their opening directives. -/
inductive Frame.Alike : Frame → Frame → Prop
  | conditional (opener opener' : Nat) (elseSeen : Bool) :
      Alike (.conditional opener elseSeen) (.conditional opener' elseSeen)
  | loop (opener opener' : Nat) : Alike (.loop opener) (.loop opener')
  | layoutCall (opener opener' : Nat) (sections : List Text) :
      Alike (.layoutCall opener sections) (.layoutCall opener' sections)
  | sectionBody (opener opener' : Nat) : Alike (.sectionBody opener) (.sectionBody opener')

def Nesting.Alike (nesting nesting' : Nesting) : Prop := List.Forall₂ Frame.Alike nesting nesting'

section Alike

variable {kind : SourceKind} {position : Nat} {nesting nesting' after : Nesting}
  {event : Option (Nat × Event.Payload)}

theorem Frame.Alike.refl (frame : Frame) : frame.Alike frame := by
  cases frame with
  | conditional opener elseSeen => exact .conditional opener opener elseSeen
  | loop opener => exact .loop opener opener
  | layoutCall opener sections => exact .layoutCall opener opener sections
  | sectionBody opener => exact .sectionBody opener opener

theorem Nesting.Alike.refl (nesting : Nesting) : nesting.Alike nesting :=
  List.forall₂_same.mpr fun frame _ => Frame.Alike.refl frame

theorem Frame.Alike.block_eq {frame frame' : Frame} (h : frame.Alike frame') :
    frame.block = frame'.block := by
  cases h <;> rfl

theorem Nesting.Alike.inLayoutCall_eq (h : nesting.Alike nesting') :
    nesting.inLayoutCall = nesting'.inLayoutCall := by
  cases h with
  | nil => rfl
  | cons first _ => cases first <;> rfl

theorem Nesting.openSection_of_alike {name : Text} (alike : nesting.Alike nesting')
    (h : nesting.openSection kind position name = .ok after) (position' : Nat) :
    ∃ after', nesting'.openSection kind position' name = .ok after' ∧ after.Alike after' := by
  rcases Nesting.openSection_eq_ok h with
    ⟨opener, names, outer, rfl, fresh, rfl⟩ | ⟨free, layout, rfl⟩
  · cases alike with
    | cons first others =>
        cases first with
        | layoutCall _ opener' _ =>
            refine ⟨_, ?_, .cons (.sectionBody position position')
              (.cons (.layoutCall opener opener' _) others)⟩
            rw [Nesting.openSection, if_neg fresh]
  · refine ⟨_, ?_, .cons (.sectionBody position position') alike⟩
    rw [Nesting.openSection_of_free (alike.inLayoutCall_eq ▸ free), if_pos layout]

/-- What a directive does, and whether it can stand at a place, does not depend on positions. -/
theorem Directive.effect_of_alike {d : Directive} (alike : nesting.Alike nesting')
    (step : d.effect kind position nesting = .ok (event, after)) (position' : Nat) :
    ∃ after', d.effect kind position' nesting' = .ok (event, after') ∧ after.Alike after' := by
  have depth : nesting.length = nesting'.length := alike.length_eq
  cases d with
  | comment inner =>
      cases step
      exact ⟨nesting', rfl, alike⟩
  | expression inner =>
      cases step
      exact ⟨nesting', by rw [Directive.effect, depth], alike⟩
  | statement inner =>
      cases step
      exact ⟨nesting', by rw [Directive.effect, depth], alike⟩
  | tagCall name inner =>
      cases step
      exact ⟨nesting', by rw [Directive.effect, depth], alike⟩
  | ifOpen inner =>
      cases step
      exact ⟨_, by rw [Directive.effect, depth], .cons (.conditional position position' false) alike⟩
  | forOpen inner =>
      cases step
      exact ⟨_, by rw [Directive.effect, depth], .cons (.loop position position') alike⟩
  | layoutOpen name inner =>
      cases step
      exact ⟨_, by rw [Directive.effect, depth], .cons (.layoutCall position position' []) alike⟩
  | elseIf inner =>
      obtain ⟨opener, outer, rfl, same⟩ := Directive.effect_elseIf_eq_ok step
      cases same
      cases alike with
      | cons first others =>
          cases first with
          | conditional _ opener' _ =>
              refine ⟨_, ?_, .cons (.conditional opener opener' false) others⟩
              rw [others.length_eq]
              rfl
  | elseBranch =>
      obtain ⟨opener, outer, rfl, same⟩ := Directive.effect_elseBranch_eq_ok step
      cases same
      cases alike with
      | cons first others =>
          cases first with
          | conditional _ opener' _ =>
              refine ⟨_, ?_, .cons (.conditional opener opener' true) others⟩
              rw [others.length_eq]
              rfl
  | sectionOpen inner =>
      obtain ⟨_, opened, same⟩ := Directive.effect_sectionOpen_eq_ok step
      cases same
      obtain ⟨after', opened', alike'⟩ := Nesting.openSection_of_alike alike opened position'
      refine ⟨after', ?_, alike'⟩
      simp only [Directive.effect, opened', depth]
  | close block =>
      obtain ⟨frame, outer, rfl, rfl, same⟩ := Directive.effect_close_eq_ok step
      cases same
      cases alike with
      | @cons _ frame' _ outer' first others =>
          refine ⟨outer', ?_, others⟩
          simp only [Directive.effect, Nesting.close, first.block_eq, if_true]
          rw [others.length_eq]

theorem Lexeme.effect_of_alike {lexeme : Lexeme} (alike : nesting.Alike nesting')
    (step : lexeme.effect kind position nesting = .ok (event, after)) (position' : Nat) :
    ∃ after', lexeme.effect kind position' nesting' = .ok (event, after') ∧ after.Alike after' := by
  have place := alike.inLayoutCall_eq
  have depth : nesting.length = nesting'.length := alike.length_eq
  cases lexeme with
  | text t =>
      simp only [Lexeme.effect, place, depth] at step ⊢
      split at step
      · rename_i free
        cases step
        exact ⟨nesting', if_pos free, alike⟩
      · rename_i inside
        split at step
        · rename_i blank
          cases step
          exact ⟨nesting', by rw [if_neg inside, if_pos blank], alike⟩
        · cases step
  | directive d =>
      obtain ⟨here, allowed⟩ := Lexeme.effect_directive_eq_ok step
      obtain ⟨after', there, alike'⟩ := Directive.effect_of_alike alike here position'
      refine ⟨after', ?_, alike'⟩
      cases inside : nesting'.inLayoutCall with
      | false =>
          rw [Lexeme.effect_of_free inside, there]
          rfl
      | true =>
          rw [Lexeme.effect_of_allowed (allowed (place.trans inside)), there]
          rfl

/-- Lexemes that get through do so from later positions on, with the same events there. -/
theorem trace_of_alike {place stop : Nat} {lexemes : List Lexeme} {events : List Event}
    (small : place ≤ Span.limit) (behind : place ≤ position) (alike : nesting.Alike nesting')
    (h : trace kind position nesting lexemes = (events, .ok (stop, after))) (n : Nat) :
    ∃ after', after.Alike after' ∧ trace kind (position + n) nesting' lexemes =
      (events.map (Event.insert place n), .ok (stop + n, after')) := by
  induction lexemes generalizing position nesting nesting' events with
  | nil =>
      cases h
      exact ⟨nesting', alike, rfl⟩
  | cons lexeme rest ih =>
      obtain ⟨event, between, later, step, traced, rfl⟩ := trace_cons_eq_ok h
      obtain ⟨between', step', stillAlike⟩ := Lexeme.effect_of_alike alike step (position + n)
      obtain ⟨after', finallyAlike, traced'⟩ :=
        ih (Nat.le_add_right_of_le behind) stillAlike traced
      refine ⟨after', finallyAlike, ?_⟩
      rw [trace_cons_of_ok step', Nat.add_right_comm, traced', List.map_append,
        Span.ofRange_insert small behind]
      cases event with
      | none => rfl
      | some entry => rfl

end Alike

section Division

variable {t text rest rest' c : Text} {lexemes first later : List Lexeme}

theorem Directive.startsMarked_spelling (d : Directive) (rest : Text) :
    StartsMarked (d.spelling ++ rest) := by
  intro c isFirst
  cases d <;> cases isFirst <;> rfl

theorem Divided.startsMarked (h : Divided t lexemes)
    (apart : ∀ next ∈ lexemes.head?, next.isText = false) : StartsMarked t := by
  cases h with
  | nil =>
      intro c isFirst
      cases isFirst
  | @cons lexeme rest lexemes stands =>
      cases lexeme with
      | text text => cases apart _ rfl
      | directive d => exact d.startsMarked_spelling rest

theorem Inert.replace (h : Inert text rest) (marked : StartsMarked rest)
    (marked' : StartsMarked rest') : Inert text rest' := by
  intro back isBack nonempty
  exact recognize_of_literal nonempty (h back isBack nonempty) marked marked'

/-- An end mark does not overlap itself, so a comment without one ends at the one behind it. -/
theorem Directive.legible_comment (noEnd : ¬ ("--%>" : Text) <:+: c) :
    (Directive.comment c).Legible := by
  intro rest
  rw [List.append_assoc]
  refine Text.breakOn?_eq_some_iff.mpr ?_
  intro back isBack nonempty starts
  rcases back with _ | ⟨c₁, _ | ⟨c₂, _ | ⟨c₃, _ | ⟨c₄, back⟩⟩⟩⟩
  · exact nonempty rfl
  · simp [List.cons_prefix_cons] at starts
  · simp [List.cons_prefix_cons] at starts
  · simp [List.cons_prefix_cons] at starts
  · simp only [List.cons_append, List.cons_prefix_cons] at starts
    obtain ⟨rfl, rfl, rfl, rfl, -⟩ := starts
    exact noEnd ((List.prefix_append ['-', '-', '%', '>'] back).isInfix.trans isBack.isInfix)

/-- A comment without quotes disturbs nothing in front of it. -/
theorem replaces_comment (noQuote : '\'' ∉ c) (front back : Text) :
    Replaces (front ++ back) (front ++ ((Directive.comment c).spelling ++ back)) where
  first := by
    cases front with
    | nil => exact fun _ same => absurd (Option.some.inj same) (by decide)
    | cons d front => exact id
  later := by
    intro none
    rw [List.mem_append, not_or] at none
    rw [List.mem_append, List.mem_append, not_or, not_or]
    refine ⟨none.1, ?_, none.2⟩
    simp [Directive.spelling, noQuote]
  word := by
    cases front with
    | nil => exact fun _ => rfl
    | cons d front => exact id

/-- A comment can be put between any two lexemes. -/
theorem Divided.insert_comment (noEnd : ¬ ("--%>" : Text) <:+: c) (noQuote : '\'' ∉ c)
    (h : Divided t (first ++ later)) :
    Divided (first.flatMap Lexeme.spelling ++
        ((Directive.comment c).spelling ++ later.flatMap Lexeme.spelling))
      (first ++ .directive (.comment c) :: later) := by
  induction first generalizing t with
  | nil =>
      have stands : (Lexeme.directive (.comment c)).StandsBefore (later.flatMap Lexeme.spelling) :=
        recognize_spelling (Directive.legible_comment noEnd) fun ends => by cases ends
      refine .cons stands (fun _ _ both => Bool.false_ne_true both.1) ?_
      have behind := h.eq_flatMap
      rwa [behind] at h
  | cons lexeme first ih =>
      rw [List.cons_append] at h
      cases h with
      | @cons _ behind _ stands apart divided =>
          have divided' := ih divided
          have whole := divided.eq_flatMap
          rw [List.flatMap_append] at whole
          have apart' : ∀ next ∈ (first ++ .directive (.comment c) :: later).head?,
              ¬ (lexeme.isText = true ∧ next.isText = true) := by
            cases first with
            | nil =>
                intro next isNext both
                cases Option.some.inj isNext
                cases both.2
            | cons next first => exact apart
          rw [List.flatMap_cons, List.append_assoc]
          refine .cons ?_ apart' divided'
          cases lexeme with
          | directive d =>
              rw [whole] at stands
              exact recognize_of_found stands (replaces_comment noQuote _ _)
          | text text =>
              have notText {next : Lexeme}
                  (other : ¬ ((Lexeme.text text).isText = true ∧ next.isText = true)) :
                  next.isText = false := Bool.eq_false_iff.mpr fun isText => other ⟨rfl, isText⟩
              exact ⟨stands.1, stands.2.replace
                (divided.startsMarked fun next isNext => notText (apart next isNext))
                (divided'.startsMarked fun next isNext => notText (apart' next isNext))⟩

end Division

/-- The places between the segments of a body, as its events show them: its start, the end of its
source, and where the span of an event starts or ends. -/
def IsBorder (source : Text) (start : Nat) (events : List Event) (position : Nat) : Prop :=
  position = start ∨ position = source.byteSize ∨
    ∃ e ∈ events, position = e.span.start ∨ position = e.span.start + e.span.length

section Insertion

variable {kind : SourceKind} {source text c : Text} {start position : Nat} {nesting : Nesting}
  {lexemes : List Lexeme} {events : List Event}

theorem IsBorder.exists_lexemes (border : IsBorder source start events position)
    (small : source.byteSize ≤ Span.limit)
    (place : source.GoesOn start (lexemes.flatMap Lexeme.spelling))
    (traced : (trace kind start [] lexemes).1 = events) :
    ∃ first later, lexemes = first ++ later ∧
      position = start + Text.byteSize (first.flatMap Lexeme.spelling) := by
  have size := place.byteSize
  rcases border with rfl | rfl | ⟨e, isEvent, bound⟩
  · exact ⟨[], lexemes, rfl, rfl⟩
  · exact ⟨lexemes, [], (List.append_nil lexemes).symm, size⟩
  · rw [← traced] at isEvent
    obtain ⟨before, lexeme, later, rfl, makes⟩ := exists_makes_of_mem_trace isEvent
    simp only [List.flatMap_append, List.flatMap_cons, Text.byteSize_append] at size
    obtain ⟨first, last⟩ := Span.ofRange_of_le
      (Nat.le_add_right (start + Text.byteSize (before.flatMap Lexeme.spelling))
        lexeme.spelling.byteSize) (by omega)
    rw [makes.span] at bound
    rcases bound with rfl | rfl
    · exact ⟨before, lexeme :: later, rfl, first⟩
    · refine ⟨before ++ [lexeme], later, (List.append_assoc before [lexeme] later).symm, ?_⟩
      rw [last, List.flatMap_append, List.flatMap_singleton, Text.byteSize_append, Nat.add_assoc]

theorem start_lt_of_trace {after : Nesting}
    (content : ∀ lexeme ∈ lexemes, lexeme.spelling ≠ [])
    (traced : trace kind start nesting lexemes = (events, .ok (position, after))) :
    ∀ e ∈ events, e.span.start < position := by
  intro e isEvent
  have inTrace : e ∈ (trace kind start nesting lexemes).1 := by rwa [traced]
  obtain ⟨before, lexeme, later, rfl, makes⟩ := exists_makes_of_mem_trace inTrace
  have nonempty := Text.byteSize_pos (content lexeme (List.mem_append_right _ List.mem_cons_self))
  rw [stop_of_trace traced, makes.span, List.flatMap_append, List.flatMap_cons,
    Text.byteSize_append, Text.byteSize_append]
  simp only [Span.ofRange]
  omega

/-- Putting in a comment leaves the events before it as they are and moves those behind it. -/
theorem trace_insert_comment {first later : List Lexeme} {stop : Nat} {after : Nesting}
    (small : position ≤ Span.limit) (content : ∀ lexeme ∈ first, lexeme.spelling ≠ [])
    (place : position = start + Text.byteSize (first.flatMap Lexeme.spelling))
    (h : trace kind start nesting (first ++ later) = (events, .ok (stop, after))) :
    let n := (Directive.comment c).spelling.byteSize
    ∃ after', after.Alike after' ∧
      trace kind start nesting (first ++ .directive (.comment c) :: later) =
        (events.map (Event.insert position n), .ok (stop + n, after')) := by
  intro n
  obtain ⟨earlier, border, around, behind, traced, tracedBehind, rfl⟩ := trace_append_eq_ok h
  obtain rfl : border = position := (stop_of_trace traced).trans place.symm
  obtain ⟨after', alike, moved⟩ := trace_of_alike small (Nat.le_refl border) (.refl around)
    tracedBehind n
  have step : (Lexeme.directive (.comment c)).effect kind border around = .ok (none, around) := by
    rw [Lexeme.effect_of_allowed rfl]
    rfl
  have unmoved : earlier.map (Event.insert border n) = earlier := by
    rw [List.map_congr_left fun e isEvent =>
      Event.insert_of_lt (start_lt_of_trace content traced e isEvent) n]
    exact List.map_id earlier
  refine ⟨after', alike, ?_⟩
  rw [trace_append traced, trace_cons_of_ok step, List.map_append, unmoved]
  simp only [Lexeme.spelling]
  rw [moved]
  rfl

/-- A body is read without an error if it is divided into lexemes that get through and leave no
block open. -/
theorem read_eq_ok_iff :
    (⟨start, text⟩ : Body).read kind = ⟨events, none⟩ ↔ ∃ lexemes stop, Divided text lexemes ∧
      trace kind start [] lexemes = (events, .ok (stop, [])) := by
  constructor
  · intro success
    rw [read_eq] at success
    obtain ⟨traced, complete⟩ := Reading.mk.inj success
    obtain ⟨clean, stop, final⟩ := endingError_eq_none complete
    exact ⟨(lex text).lexemes, stop, lex_divided clean, Prod.ext traced final⟩
  · rintro ⟨lexemes, stop, divided, traced⟩
    simp only [read_eq, endingError, divided.lex_eq, traced]
    rfl

/-- A comment without quotes can be put in at every border of a body that can be read. Quotes are
left out, since one in the comment might end a character literal that starts in front of it. -/
theorem exists_read_insert (small : source.byteSize < 2 ^ 32) (boundary : source.IsBoundary start)
    (success : (ofSource? source start).map (·.read kind) = some ⟨events, none⟩)
    (border : IsBorder source start events position) (noEnd : ¬ ("--%>" : Text) <:+: c)
    (noQuote : '\'' ∉ c) :
    let comment : Text := "<%--" ++ c ++ "--%>"
    (∃ before after : Text, source = before ++ after ∧ before.byteSize = position ∧
      (ofSource? (before ++ comment ++ after) start).map (·.read kind) =
        some ⟨events.map (Event.insert position comment.byteSize), none⟩) ∧
    ∀ e ∈ events, e.span.start < source.byteSize := by
  intro comment
  have limit : source.byteSize ≤ Span.limit := Nat.le_of_lt_succ small
  obtain ⟨text, place⟩ := boundary
  have size := place.byteSize
  rw [ofSource?_of_goesOn place, Option.map_some, Option.some.injEq, read_eq_ok_iff] at success
  obtain ⟨lexemes, stop, divided, traced⟩ := success
  have whole := divided.eq_flatMap
  have ends : stop = source.byteSize := by
    rw [size, whole]
    exact stop_of_trace traced
  obtain ⟨first, later, rfl, cut⟩ :=
    border.exists_lexemes limit (whole ▸ place) (congrArg Prod.fst traced)
  rw [List.flatMap_append] at whole
  have content := divided.spelling_ne_nil
  have inside : position ≤ Span.limit := by
    rw [size, whole, Text.byteSize_append] at limit
    omega
  obtain ⟨_, ⟨⟩, moved⟩ := trace_insert_comment (c := c) inside
    (fun lexeme member => content lexeme (List.mem_append_left later member)) cut traced
  obtain ⟨header, rfl, rfl⟩ := place
  constructor
  · refine ⟨header ++ first.flatMap Lexeme.spelling, later.flatMap Lexeme.spelling, ?_, ?_, ?_⟩
    · rw [List.append_assoc, ← whole]
    · rw [Text.byteSize_append, cut]
    · rw [List.append_assoc, List.append_assoc, ofSource?_append, Option.map_some,
        Option.some.injEq, read_eq_ok_iff]
      exact ⟨_, _, divided.insert_comment noEnd noQuote, moved⟩
  · exact ends ▸ start_lt_of_trace content traced

/-- A comment without quotes leaves the events of a body as they are, and their spans too up to the
border where it is put in. The spans from the border on start later by the length of the comment, as
far as a span counts. -/
theorem read_insert_comment (small : source.byteSize < 2 ^ 32) (boundary : source.IsBoundary start)
    (success : (ofSource? source start).map (·.read kind) = some ⟨events, none⟩)
    (border : IsBorder source start events position) (noEnd : ¬ ("--%>" : Text) <:+: c)
    (noQuote : '\'' ∉ c) :
    let comment : Text := "<%--" ++ c ++ "--%>"
    ∃ before after : Text, source = before ++ after ∧ before.byteSize = position ∧
      (ofSource? (before ++ comment ++ after) start).map (·.read kind) =
        some ⟨events.map (Event.insert position comment.byteSize), none⟩ ∧
      (source.byteSize + comment.byteSize < 2 ^ 32 → ∀ e ∈ events,
        e.insert position comment.byteSize =
          if position ≤ e.span.start then e.shift comment.byteSize else e) := by
  intro comment
  obtain ⟨⟨before, after, whole, cut, read⟩, early⟩ :=
    exists_read_insert small boundary success border noEnd noQuote
  refine ⟨before, after, whole, cut, read, fun fits e isEvent => ?_⟩
  have start := early e isEvent
  split
  · rename_i behind
    refine Event.insert_eq_shift behind ?_
    rw [Span.limit]
    omega
  · rename_i front
    exact Event.insert_of_lt (Nat.lt_of_not_le front) _

/-- A comment directly inside a layout call, behind a quote that opens no character literal. -/
theorem read_insert_comment_layoutCall :
    let source : Text := "é@layout.l()@section(s)$\x7b'\\\x7d@endsection@endlayout"
    let events : List Event :=
      [⟨0, ⟨2, 11⟩, .layoutCall ['l'] []⟩, ⟨1, ⟨13, 11⟩, .sectionStart ['s']⟩,
        ⟨2, ⟨24, 5⟩, .code ['\'', '\\']⟩, ⟨1, ⟨29, 11⟩, .sectionEnd⟩, ⟨0, ⟨40, 10⟩, .layoutEnd⟩]
    (ofSource? source 2).map (·.read .template) = some ⟨events, none⟩ ∧
      ∃ before after : Text, source = before ++ after ∧ before.byteSize = 40 ∧
        (ofSource? (before ++ "<%-- - --%>" ++ after) 2).map (·.read .template) =
          some ⟨events.dropLast ++ [⟨0, ⟨51, 10⟩, .layoutEnd⟩], none⟩ := by
  intro source events
  have success : (ofSource? source 2).map (·.read .template) = some ⟨events, none⟩ := by
    decide +kernel
  have boundary : source.IsBoundary 2 := ⟨_, ['é'], rfl, rfl⟩
  have border : IsBorder source 2 events 40 :=
    .inr (.inr ⟨⟨0, ⟨40, 10⟩, .layoutEnd⟩, by decide, .inl rfl⟩)
  have size : Text.byteSize ("<%--" ++ " - " ++ "--%>" : Text) = 11 := by decide
  obtain ⟨before, after, whole, cut, read, -⟩ :=
    read_insert_comment (c := " - ") (by decide) boundary success border (by decide) (by decide)
  rw [size] at read
  exact ⟨success, before, after, whole, cut, read⟩

/-- Behind a comment that is longer than a span counts, the span of a text starts at the limit. -/
theorem read_behind_long_comment (long : Span.limit ≤ c.byteSize)
    (noEnd : ¬ ("--%>" : Text) <:+: c) (noQuote : '\'' ∉ c) :
    (ofSource? ("<%--" ++ c ++ "--%>" ++ ['a']) 0).map (·.read .template) =
      some ⟨[⟨0, ⟨Span.limit, 1⟩, .text ['a']⟩], none⟩ := by
  have success : (ofSource? ['a'] 0).map (·.read .template) =
      some ⟨[⟨0, ⟨0, 1⟩, .text ['a']⟩], none⟩ := by decide +kernel
  have boundary : Text.IsBoundary ['a'] 0 := ⟨['a'], [], rfl, rfl⟩
  obtain ⟨⟨before, after, whole, cut, read⟩, -⟩ :=
    exists_read_insert (by decide) boundary success (.inl rfl) noEnd noQuote
  obtain rfl : before = [] := by
    by_contra content
    exact (Text.byteSize_pos content).ne' cut
  rw [List.nil_append] at whole read
  subst whole
  rw [read, List.map_singleton, Event.insert, Span.insert, if_pos (Nat.le_refl 0), Nat.zero_add,
    Text.byteSize_append, Text.byteSize_append, Nat.min_eq_right (by omega)]

/-- A comment of `2 ^ 32` letters does not shift the span behind it by its length. -/
theorem read_insert_comment_saturates :
    let event : Event := ⟨0, ⟨0, 1⟩, .text ['a']⟩
    let comment : Text := "<%--" ++ List.replicate (2 ^ 32) 'x' ++ "--%>"
    (ofSource? ['a'] 0).map (·.read .template) = some ⟨[event], none⟩ ∧
      comment.byteSize = 2 ^ 32 + 8 ∧
      (ofSource? (comment ++ ['a']) 0).map (·.read .template) =
        some ⟨[⟨0, ⟨2 ^ 32 - 1, 1⟩, .text ['a']⟩], none⟩ ∧
      (ofSource? (comment ++ ['a']) 0).map (·.read .template) ≠
        some ⟨[event.shift comment.byteSize], none⟩ := by
  intro event comment
  have letters (mark : Char) (isLetter : mark ∈ List.replicate (2 ^ 32) 'x') : mark = 'x' :=
    List.eq_of_mem_replicate isLetter
  have size : comment.byteSize = 2 ^ 32 + 8 := by
    rw [Text.byteSize_append, Text.byteSize_append, Text.byteSize_replicate (by decide),
      Nat.add_right_comm, Nat.add_comm]
    rfl
  have read : (ofSource? (comment ++ ['a']) 0).map (·.read .template) =
      some ⟨[⟨0, ⟨2 ^ 32 - 1, 1⟩, .text ['a']⟩], none⟩ := by
    refine read_behind_long_comment ?_ ?_ ?_
    · rw [Text.byteSize_replicate (by decide)]
      decide
    · intro ending
      exact absurd (letters '-' (ending.subset List.mem_cons_self)) (by decide)
    · intro quote
      exact absurd (letters '\'' quote) (by decide)
  refine ⟨by decide +kernel, size, read, ?_⟩
  rw [read, size]
  decide

end Insertion

end Body

end Stencil
