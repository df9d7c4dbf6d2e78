import Mathlib.Algebra.Group.Nat.Defs
import Mathlib.Data.List.Chain
import Stencil.Proofs.Body.Division
import Stencil.Proofs.Body.Openings
import Stencil.Proofs.Body.Structure
import Stencil.Proofs.Text.Bytes

/-!
Nothing of a body is lost and nothing is read twice. A body that is read without an error consists
of segments that lie one behind the other: the spans of its events in order, comments, and blanks
directly inside layout calls. What stands at the span of an event spells the event.
-/

namespace Stencil

/-- Whether spans lead from one position to another without gaps or overlaps, and none is empty. -/
def Tiles : Nat → List Span → Nat → Prop
  | first, [], last => first = last
  | first, span :: rest, last =>
      span.start = first ∧ 0 < span.length ∧ Tiles (first + span.length) rest last

namespace Text

/-- Whether a source has a slice at a span, and the rest of the source behind it. -/
def HasAt (source : Text) (span : Span) (slice rest : Text) : Prop :=
  ∃ before, source = before ++ (slice ++ rest) ∧
    before.byteSize = span.start ∧ slice.byteSize = span.length

theorem length_le_of_breakOn? {sep t before after other behind : Text}
    (h : breakOn? sep t = some (before, after)) (occurs : t = other ++ sep ++ behind) :
    before.length ≤ other.length := by
  induction t generalizing before other with
  | nil =>
      simp only [breakOn?] at h
      split at h
      · obtain ⟨rfl, -⟩ := Prod.mk.inj (Option.some.inj h)
        exact Nat.zero_le _
      · cases h
  | cons c t ih =>
      simp only [breakOn?] at h
      split at h
      · obtain ⟨rfl, -⟩ := Prod.mk.inj (Option.some.inj h)
        exact Nat.zero_le _
      · rename_i notHere
        obtain ⟨⟨front, back⟩, later, same⟩ := Option.map_eq_some_iff.mp h
        obtain ⟨rfl, rfl⟩ := Prod.mk.inj same
        cases other with
        | nil =>
            refine absurd (List.isPrefixOf_iff_prefix.mpr ?_) notHere
            exact ⟨behind, occurs.symm⟩
        | cons c' other =>
            have shorter := ih later (List.cons.inj occurs).2
            exact Nat.succ_le_succ shorter

end Text

namespace Body

/-- Whether a slice is an opening, an inner text and the bracket that closes it. -/
def Encloses (b : Code.Bracket) (opening slice rest inner : Text) : Prop :=
  slice = opening ++ inner ++ [b.closing] ∧
    Code.enclosed? b (inner ++ b.closing :: rest) = some (inner, rest)

/-- Whether a slice is a word that does not go on behind it. -/
def IsWord (word slice rest : Text) : Prop := slice = word ∧ startsWord rest = false

/-- Whether a slice of a source, with the rest of the source behind it, spells a payload. -/
def Spells (slice rest : Text) : Event.Payload → Prop
  | .text text => slice = text ∧ Inert slice rest
  | .code code => ∃ inner, Encloses .brace "$\x7b" slice rest inner ∧ code = Text.trim inner
  | .statement code => ∃ inner, Encloses .brace "!\x7b" slice rest inner ∧
      code = Text.trimEnd (Text.dropEndWhile (· == ';') (Text.trim inner))
  | .conditionStart condition =>
      ∃ inner, Encloses .paren "@if(" slice rest inner ∧ condition = Text.trim inner
  | .conditionElseIf condition =>
      ∃ inner, Encloses .paren "@elseif(" slice rest inner ∧ condition = Text.trim inner
  | .conditionElse => IsWord "@else" slice rest
  | .conditionEnd => IsWord "@endif" slice rest
  | .loopStart header =>
      ∃ inner, Encloses .paren "@for(" slice rest inner ∧ header = Text.trim inner
  | .loopEnd => IsWord "@endfor" slice rest
  | .tagCall name args => Text.isDottedName name = true ∧
      ∃ inner, Encloses .paren ("@tag." ++ name ++ "(") slice rest inner ∧ args = Text.trim inner
  | .layoutCall name args => Text.isDottedName name = true ∧
      ∃ inner, Encloses .paren ("@layout." ++ name ++ "(") slice rest inner ∧
        args = Text.trim inner
  | .sectionStart name =>
      ∃ inner, Encloses .paren "@section(" slice rest inner ∧ name = Text.trim inner
  | .sectionEnd => IsWord "@endsection" slice rest
  | .layoutEnd => IsWord "@endlayout" slice rest

/-- Whether a slice is a comment that extends to the first end mark. -/
def IsComment (slice rest : Text) : Prop :=
  ∃ inner, slice = "<%--" ++ inner ++ "--%>" ∧
    ∀ before after : Text, inner ++ "--%>" ++ rest = before ++ "--%>" ++ after →
      inner.length ≤ before.length

def blocksAfter (blocks : List Block) : Event.Payload → List Block
  | .conditionStart _ => .conditional :: blocks
  | .loopStart _ => .loop :: blocks
  | .layoutCall _ _ => .layoutCall :: blocks
  | .sectionStart _ => .sectionBody :: blocks
  | .conditionEnd | .loopEnd | .layoutEnd | .sectionEnd => blocks.tail
  | _ => blocks

def openBlocks (blocks : List Block) (events : List Event) : List Block :=
  (events.map Event.payload).foldl blocksAfter blocks

/-- A segment of a body: an event's span, a comment, or blanks that are left out. -/
inductive Segment where
  | event (event : Event)
  | comment (span : Span)
  | blanks (span : Span)

namespace Segment

def span : Segment → Span
  | event e => e.span
  | comment span => span
  | blanks span => span

def event? : Segment → Option Event
  | event e => some e
  | _ => none

def isLiteral : Segment → Bool
  | event ⟨_, _, .text _⟩ => true
  | blanks _ => true
  | _ => false

/-- Whether a slice at a place where some blocks are open is what its segment says. -/
def Reads (blocks : List Block) (slice rest : Text) : Segment → Prop
  | event e => Spells slice rest e.payload
  | comment _ => IsComment slice rest
  | blanks _ => slice.all Text.isBlank = true ∧ blocks.head? = some .layoutCall

end Segment

/-- The segments of a source from a position on, where some blocks are open, with the events that
come from there. -/
structure Segments (source : Text) (position : Nat) (blocks : List Block) (events : List Event)
    (segments : List Segment) : Prop where
  tiles : Tiles position (segments.map Segment.span) source.byteSize
  events : segments.filterMap Segment.event? = events
  reads : ∀ before segment after, segments = before ++ segment :: after →
    ∃ slice rest, source.HasAt segment.span slice rest ∧
      segment.Reads (openBlocks blocks (before.filterMap Segment.event?)) slice rest
  apart : segments.IsChain fun first second => ¬ (first.isLiteral = true ∧ second.isLiteral = true)

section

variable {source slice rest : Text} {position : Nat} {blocks : List Block} {events : List Event}
  {segment : Segment} {segments : List Segment}

theorem Segments.nil (whole : source.byteSize = position) :
    Segments source position blocks [] [] where
  tiles := whole.symm
  events := rfl
  reads := by
    intro before segment after empty
    exact absurd empty.symm (List.append_ne_nil_of_right_ne_nil _ (List.cons_ne_nil _ _))
  apart := .nil

theorem Segments.cons (place : segment.span = ⟨position, slice.byteSize⟩) (content : slice ≠ [])
    (here : source.HasAt segment.span slice rest) (reads : segment.Reads blocks slice rest)
    (apart : ∀ next ∈ segments.head?,
      ¬ (segment.isLiteral = true ∧ next.isLiteral = true))
    (later : Segments source (position + slice.byteSize)
      (openBlocks blocks segment.event?.toList) events segments) :
    Segments source position blocks (segment.event?.toList ++ events) (segment :: segments) where
  tiles := by
    rw [List.map_cons, place]
    exact ⟨rfl, Text.byteSize_pos content, later.tiles⟩
  events := by
    rw [← later.events]
    cases segment <;> rfl
  reads := by
    intro before other after same
    cases before with
    | nil =>
        obtain ⟨rfl, -⟩ := List.cons.inj same
        exact ⟨slice, rest, here, reads⟩
    | cons first before =>
        obtain ⟨rfl, others⟩ := List.cons.inj same
        obtain ⟨found, behind, place, told⟩ := later.reads before other after others
        refine ⟨found, behind, place, ?_⟩
        cases segment <;> exact told
  apart := later.apart.cons apart

end

section

variable {rest : Text} {d : Directive}

theorem Recognition.exists_enclosed? {b : Code.Bracket} {construct : Construct}
    {make : Text → Except Cause Directive} {t : Text}
    (h : Recognition.enclosed b construct make t = .found d rest) :
    ∃ inner, make inner = .ok d ∧ Code.enclosed? b t = some (inner, rest) := by
  simp only [Recognition.enclosed] at h
  split at h
  · cases h
  · rename_i inner _ closed
    split at h
    · cases h
    · rename_i made
      cases h
      exact ⟨inner, made, closed⟩

/-- The bracket of a recognised directive closes where the directive ends. -/
theorem Recognition.closes {b : Code.Bracket} {construct : Construct}
    {make : Text → Except Cause Directive} {inner : Text}
    (h : Recognition.enclosed b construct make (inner ++ b.closing :: rest) = .found d rest)
    (unique : ∀ other, make other = .ok d → other = inner) :
    Code.enclosed? b (inner ++ b.closing :: rest) = some (inner, rest) := by
  obtain ⟨other, made, closed⟩ := Recognition.exists_enclosed? h
  rwa [unique other made] at closed

theorem Keyword.eq_rest_of_found {k : Keyword} {t : Text} (h : k.recognize t = .found d rest)
    (ends : d.endsInWord = true) : t = rest := by
  have enclosed {b : Code.Bracket} {construct : Construct} {make : Text → Except Cause Directive}
      {u : Text} (found : Recognition.enclosed b construct make u = .found d rest)
      (other : ∀ inner, make inner = .ok d → d.endsInWord = false) : t = rest := by
    obtain ⟨inner, made, -⟩ := Recognition.exists_enclosed? found
    rw [other inner made] at ends
    cases ends
  have call {make : Text → Text → Directive} {u : Text}
      (found : recognizeCall make u = .found d rest)
      (other : ∀ name inner, (make name inner).endsInWord = false) : t = rest := by
    obtain ⟨name, inner, rfl, -⟩ := recognizeCall_eq_found found
    rw [other name inner] at ends
    cases ends
  fun_cases Keyword.recognize k t with
  | case1 t => exact enclosed h fun _ made => Directive.ofNonBlank_eq_ok made ▸ rfl
  | case2 t => exact enclosed h fun _ made => Directive.ofNonBlank_eq_ok made ▸ rfl
  | case3 t => exact (Recognition.found.inj h).2
  | case4 t => exact enclosed h fun _ made => Directive.ofNonBlank_eq_ok made ▸ rfl
  | case5 t => exact call h fun _ _ => rfl
  | case6 t => exact call h fun _ _ => rfl
  | case7 t => exact enclosed h fun _ made => Directive.ofSectionName_eq_ok made ▸ rfl
  | case8 block t => exact (Recognition.found.inj h).2
  | case9 k t => simp_all [Keyword.recognize]

theorem startsWord_of_dropWhile {t : Text} (h : t.dropWhile Text.isWordChar = t) :
    startsWord t = false := by
  cases t with
  | nil => rfl
  | cons c t =>
      rw [← Bool.not_eq_true]
      intro starts
      have word : Text.isWordChar c = true := starts
      have shorter := List.length_dropWhile_le Text.isWordChar t
      rw [List.dropWhile_cons_of_pos word] at h
      rw [h] at shorter
      exact Nat.not_succ_le_self _ shorter

theorem isWord_of_recognize {k : Keyword} (found : recognize (k.mark ++ rest) = .found d rest)
    (ends : d.endsInWord = true) : IsWord k.mark k.mark rest := by
  refine ⟨rfl, startsWord_of_dropWhile ?_⟩
  have skipped : (k.text ++ rest).dropWhile Text.isWordChar = rest.dropWhile Text.isWordChar :=
    List.dropWhile_append_of_pos (List.all_eq_true.mp k.all_isWordChar_text)
  simp only [Keyword.mark, List.cons_append, recognize] at found
  split at found
  · cases found
  · rw [← skipped]
    exact Keyword.eq_rest_of_found found ends

theorem recognizeCall_closes {make : Text → Text → Directive} {t : Text}
    (h : recognizeCall make t = .found d rest) :
    ∃ name inner, d = make name inner ∧ Text.isDottedName name = true ∧
      Code.enclosed? .paren (inner ++ ')' :: rest) = some (inner, rest) := by
  simp only [recognizeCall] at h
  split at h
  · split at h
    · rename_i args _ dotted
      obtain ⟨inner, made, closed⟩ := Recognition.exists_enclosed? h
      have whole := Code.eq_append_of_enclosed? closed
      rw [whole] at closed
      exact ⟨_, inner, (Except.ok.inj made).symm, dotted, closed⟩
    · cases h
  · cases h

theorem spells_of_recognize {kind : SourceKind} {position depth : Nat} {nesting after : Nesting}
    {payload : Event.Payload} (found : recognize (d.spelling ++ rest) = .found d rest)
    (step : d.effect kind position nesting = .ok (some (depth, payload), after)) :
    Spells d.spelling rest payload := by
  cases d with
  | expression inner =>
      cases step
      simp only [Directive.spelling, List.cons_append, List.append_assoc, List.nil_append,
        recognize] at found
      refine ⟨inner, ⟨rfl, Recognition.closes found fun other made => ?_⟩, rfl⟩
      exact (Directive.expression.inj (Directive.ofNonBlank_eq_ok made)).symm
  | statement inner =>
      cases step
      simp only [Directive.spelling, List.cons_append, List.append_assoc, List.nil_append,
        recognize] at found
      refine ⟨inner, ⟨rfl, Recognition.closes found fun other made => ?_⟩, rfl⟩
      exact (Directive.statement.inj (Directive.ofNonBlank_eq_ok made)).symm
  | comment inner => cases step
  | ifOpen inner =>
      cases step
      rw [Directive.spelling, List.append_assoc, List.append_assoc, recognize_mark _ rfl] at found
      refine ⟨inner, ⟨rfl, Recognition.closes found fun other made => ?_⟩, rfl⟩
      exact (Directive.ifOpen.inj (Directive.ofNonBlank_eq_ok made)).symm
  | elseIf inner =>
      obtain ⟨opener, outer, -, same⟩ := Directive.effect_elseIf_eq_ok step
      cases same
      rw [Directive.spelling, List.append_assoc, List.append_assoc, recognize_mark _ rfl] at found
      refine ⟨inner, ⟨rfl, Recognition.closes found fun other made => ?_⟩, rfl⟩
      exact (Directive.elseIf.inj (Directive.ofNonBlank_eq_ok made)).symm
  | elseBranch =>
      obtain ⟨opener, outer, -, same⟩ := Directive.effect_elseBranch_eq_ok step
      cases same
      exact isWord_of_recognize found rfl
  | forOpen inner =>
      cases step
      rw [Directive.spelling, List.append_assoc, List.append_assoc, recognize_mark _ rfl] at found
      refine ⟨inner, ⟨rfl, Recognition.closes found fun other made => ?_⟩, rfl⟩
      exact (Directive.forOpen.inj (Directive.ofNonBlank_eq_ok made)).symm
  | tagCall name inner =>
      cases step
      simp only [Directive.spelling, List.append_assoc, List.cons_append, List.nil_append] at found ⊢
      rw [recognize_mark _ rfl] at found
      obtain ⟨other, args, same, dotted, closed⟩ := recognizeCall_closes found
      obtain ⟨rfl, rfl⟩ := Directive.tagCall.inj same
      refine ⟨dotted, inner, ⟨?_, closed⟩, rfl⟩
      simp only [List.append_assoc]
      rfl
  | layoutOpen name inner =>
      cases step
      simp only [Directive.spelling, List.append_assoc, List.cons_append, List.nil_append] at found ⊢
      rw [recognize_mark _ rfl] at found
      obtain ⟨other, args, same, dotted, closed⟩ := recognizeCall_closes found
      obtain ⟨rfl, rfl⟩ := Directive.layoutOpen.inj same
      refine ⟨dotted, inner, ⟨?_, closed⟩, rfl⟩
      simp only [List.append_assoc]
      rfl
  | sectionOpen inner =>
      obtain ⟨opened, -, same⟩ := Directive.effect_sectionOpen_eq_ok step
      cases same
      rw [Directive.spelling, List.append_assoc, List.append_assoc, recognize_mark _ rfl] at found
      refine ⟨inner, ⟨rfl, Recognition.closes found fun other made => ?_⟩, rfl⟩
      exact (Directive.sectionOpen.inj (Directive.ofSectionName_eq_ok made)).symm
  | close block =>
      obtain ⟨frame, outer, -, -, same⟩ := Directive.effect_close_eq_ok step
      cases same
      have word := isWord_of_recognize found rfl
      cases block <;> exact word

theorem isComment_of_recognize {inner : Text}
    (found : recognize ((Directive.comment inner).spelling ++ rest) = .found (.comment inner) rest) :
    IsComment (Directive.comment inner).spelling rest := by
  refine ⟨inner, rfl, fun before after occurs => ?_⟩
  simp only [Directive.spelling, List.cons_append, recognize] at found
  split at found
  · cases found
  · rename_i front back broken
    cases found
    exact Text.length_le_of_breakOn? broken occurs

end

section

variable {kind : SourceKind} {position : Nat} {nesting after : Nesting} {rest : Text}
  {event : Option (Nat × Event.Payload)}

theorem map_fst_openingsAfter (openings : List (Block × Nat)) (e : Event) :
    (openingsAfter openings e).map Prod.fst = blocksAfter (openings.map Prod.fst) e.payload := by
  unfold openingsAfter blocksAfter
  cases e.payload with
  | conditionEnd => exact List.map_tail
  | loopEnd => exact List.map_tail
  | sectionEnd => exact List.map_tail
  | layoutEnd => exact List.map_tail
  | _ => rfl

/-- The blocks that are open after a directive can be told from its event. -/
theorem blocks_of_effect {d : Directive}
    (step : d.effect kind position nesting = .ok (event, after)) :
    after.map Frame.block =
      (event.toList.map Prod.snd).foldl blocksAfter (nesting.map Frame.block) := by
  cases event with
  | none =>
      obtain ⟨inner, rfl⟩ := Directive.eq_comment_of_effect step
      cases step
      rfl
  | some entry =>
      have moves : Moves nesting.openings ⟨entry.1, Span.ofRange position position, entry.2⟩
          after.openings := Directive.moves step
      rw [← Nesting.map_fst_openings, moves.eq, map_fst_openingsAfter, Nesting.map_fst_openings]
      rfl

theorem head?_blocks (h : nesting.inLayoutCall = true) :
    (nesting.map Frame.block).head? = some .layoutCall := by
  obtain ⟨opener, names, outer, rfl⟩ := Nesting.exists_layoutCall h
  rfl

/-- What a lexeme does at its place, said of a segment. -/
structure Lexeme.Gives (lexeme : Lexeme) (position : Nat) (blocks : List Block) (rest : Text)
    (event : Option (Nat × Event.Payload)) (segment : Segment) : Prop where
  span : segment.span = ⟨position, lexeme.spelling.byteSize⟩
  event : segment.event? =
    event.map fun entry => ⟨entry.1, ⟨position, lexeme.spelling.byteSize⟩, entry.2⟩
  reads : segment.Reads blocks lexeme.spelling rest
  literal : segment.isLiteral = lexeme.isText

theorem Lexeme.exists_segment {lexeme : Lexeme} (stands : lexeme.StandsBefore rest)
    (step : lexeme.effect kind position nesting = .ok (event, after)) :
    (∃ segment, lexeme.Gives position (nesting.map Frame.block) rest event segment) ∧
      after.map Frame.block =
        (event.toList.map Prod.snd).foldl blocksAfter (nesting.map Frame.block) := by
  cases lexeme with
  | text t =>
      simp only [Lexeme.effect] at step
      split at step
      · cases step
        exact ⟨⟨.event ⟨_, ⟨position, t.byteSize⟩, .text t⟩, rfl, rfl, ⟨rfl, stands.2⟩, rfl⟩, rfl⟩
      · rename_i inside
        rw [Bool.not_eq_true', Bool.not_eq_false] at inside
        split at step
        · rename_i blank
          cases step
          exact ⟨⟨.blanks ⟨position, t.byteSize⟩, rfl, rfl, ⟨blank, head?_blocks inside⟩, rfl⟩, rfl⟩
        · cases step
  | directive d =>
      obtain ⟨done, -⟩ := Lexeme.effect_directive_eq_ok step
      refine ⟨?_, blocks_of_effect done⟩
      cases event with
      | none =>
          obtain ⟨inner, rfl⟩ := Directive.eq_comment_of_effect done
          exact ⟨.comment ⟨position, _⟩, rfl, rfl, isComment_of_recognize stands, rfl⟩
      | some entry =>
          obtain ⟨depth, payload⟩ := entry
          have spells := spells_of_recognize stands done
          refine ⟨.event ⟨depth, ⟨position, _⟩, payload⟩, rfl, rfl, spells, ?_⟩
          cases payload with
          | text t =>
              have literal := spells.2 _ List.suffix_rfl d.spelling_ne_nil
              cases literal.symm.trans stands
          | _ => rfl

theorem exists_segments {source text : Text} {lexemes : List Lexeme} {events : List Event}
    {stop : Nat} (divided : Divided text lexemes)
    (traced : trace kind position nesting lexemes = (events, .ok (stop, after)))
    (small : source.byteSize ≤ Span.limit) {before : Text} (whole : source = before ++ text)
    (place : before.byteSize = position) :
    ∃ segments, Segments source position (nesting.map Frame.block) events segments ∧
      segments.head?.map Segment.isLiteral = lexemes.head?.map Lexeme.isText := by
  induction divided generalizing position nesting events before with
  | nil =>
      cases traced
      refine ⟨[], .nil ?_, rfl⟩
      rw [whole, List.append_nil, place]
  | @cons lexeme rest lexemes stands apart divided ih =>
      obtain ⟨event, between, later, step, tracedLater, rfl⟩ := trace_cons_eq_ok traced
      obtain ⟨⟨segment, gives⟩, blocks⟩ := Lexeme.exists_segment stands step
      have here : source.HasAt segment.span lexeme.spelling rest := by
        rw [gives.span]
        exact ⟨before, whole, place, rfl⟩
      have next : (before ++ lexeme.spelling).byteSize = position + lexeme.spelling.byteSize := by
        rw [Text.byteSize_append, place]
      rw [← List.append_assoc] at whole
      obtain ⟨segments, tiled, heads⟩ := ih tracedLater whole next
      have inside : position + lexeme.spelling.byteSize ≤ Span.limit := by
        rw [whole, Text.byteSize_append, next] at small
        omega
      have span : Span.ofRange position (position + lexeme.spelling.byteSize) =
          ⟨position, lexeme.spelling.byteSize⟩ := by
        rw [Span.ofRange, Nat.add_sub_cancel_left, Nat.min_eq_left (by omega),
          Nat.min_eq_left (by omega)]
      have opened : openBlocks (nesting.map Frame.block) segment.event?.toList =
          between.map Frame.block := by
        rw [gives.event, blocks]
        cases event <;> rfl
      refine ⟨segment :: segments, ?_, congrArg some gives.literal⟩
      rw [span, ← gives.event]
      rw [← opened] at tiled
      refine .cons gives.span stands.spelling_ne_nil here gives.reads ?_ tiled
      intro other isNext both
      rw [show segments.head? = some other from isNext, Option.map_some] at heads
      obtain ⟨follower, isFollower, same⟩ := Option.map_eq_some_iff.mp heads.symm
      rw [gives.literal, ← same] at both
      exact apart follower isFollower both

theorem exists_spells_of_trace {text : Text} {lexemes : List Lexeme} {events : List Event}
    {stop : Nat} (divided : Divided text lexemes)
    (traced : trace kind position nesting lexemes = (events, .ok (stop, after))) :
    ∀ e ∈ events, ∃ slice rest, Spells slice rest e.payload := by
  induction divided generalizing position nesting events with
  | nil =>
      cases traced
      exact List.forall_mem_nil _
  | @cons lexeme rest lexemes stands apart divided ih =>
      obtain ⟨event, between, later, step, tracedLater, rfl⟩ := trace_cons_eq_ok traced
      rw [List.forall_mem_append]
      refine ⟨?_, ih tracedLater⟩
      obtain ⟨⟨segment, gives⟩, -⟩ := Lexeme.exists_segment stands step
      cases event with
      | none => exact List.forall_mem_nil _
      | some entry =>
          have isEvent := gives.event
          have reads := gives.reads
          rw [Option.map_some, Option.toList_some, List.forall_mem_singleton]
          cases segment with
          | event e =>
              cases isEvent
              exact ⟨_, _, reads⟩
          | comment span => cases isEvent
          | blanks span => cases isEvent

/-- A body that is read without an error consists of the spans of its events, of comments and of
blanks directly inside layout calls, and each event is spelled at its span. -/
theorem exists_segments_of_read {source : Text} {start : Nat} {events : List Event}
    (small : source.byteSize < 2 ^ 32) (inside : start ≤ source.byteSize)
    (success : (ofSource? source start).map (·.read kind) = some ⟨events, none⟩) :
    ∃ segments, Segments source start [] events segments := by
  obtain ⟨body, found, reading⟩ := Option.map_eq_some_iff.mp success
  obtain ⟨text, dropped, rfl⟩ := Option.map_eq_some_iff.mp found
  obtain ⟨before, whole, place⟩ := Text.exists_of_dropBytes? dropped inside
  rw [read_eq] at reading
  obtain ⟨rfl, complete⟩ := Reading.mk.inj reading
  obtain ⟨clean, stop, final⟩ := endingError_eq_none complete
  rw [Nat.min_eq_left inside] at final ⊢
  obtain ⟨segments, tiled, -⟩ := exists_segments (lex_divided clean) (Prod.ext rfl final)
    (Nat.le_of_lt_succ small) whole place
  exact ⟨segments, tiled⟩

/-- A layout call behind a comment, with blanks around its section. -/
theorem exists_segments_of_read_layoutCall :
    let source : Text := "é<%--c--%>a@layout.p( 1 )\n@section(s)!\x7b n; \x7d@endsection @endlayout"
    let events : List Event :=
      [⟨0, ⟨11, 1⟩, .text ['a']⟩, ⟨0, ⟨12, 14⟩, .layoutCall ['p'] ['1']⟩,
        ⟨1, ⟨27, 11⟩, .sectionStart ['s']⟩, ⟨2, ⟨38, 7⟩, .statement ['n']⟩,
        ⟨1, ⟨45, 11⟩, .sectionEnd⟩, ⟨0, ⟨57, 10⟩, .layoutEnd⟩]
    (ofSource? source 2).map (·.read .template) = some ⟨events, none⟩ ∧
      ∃ segments, Segments source 2 [] events segments := by
  intro source events
  have success : (ofSource? source 2).map (·.read .template) = some ⟨events, none⟩ := by
    decide +kernel
  exact ⟨success, exists_segments_of_read (by decide +kernel) (by decide +kernel) success⟩

end

end Body

end Stencil
