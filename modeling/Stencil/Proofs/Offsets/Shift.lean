import Mathlib.Algebra.Group.Nat.Defs
import Stencil.Proofs.Body.Places
import Stencil.Proofs.Offsets.Bodies

/-!
What stands in front of a body moves the body and does nothing else. Main statement: reading a
source from a position on gives the events and the error that the text behind that position gives
alone, with every position moved by the length of what stands in front, also the positions that an
error quotes. This holds for the reading by offsets too, which looks at bytes before the one it has
come to.
-/

namespace Stencil

/-- The same range in a text with `n` more bytes in front. -/
def Span.shift (n : Nat) (span : Span) : Span := { span with start := span.start + n }

def Event.shift (n : Nat) (e : Event) : Event := { e with span := e.span.shift n }

theorem Span.ofRange_shift {start stop n : Nat} (ordered : start ≤ stop)
    (small : stop + n ≤ limit) : ofRange (start + n) (stop + n) = (ofRange start stop).shift n := by
  simp only [ofRange, shift, Span.mk.injEq]
  omega

namespace Body

def Misplacement.shift (n : Nat) : Misplacement → Misplacement
  | .otherBlockOpen block opener => .otherBlockOpen block (opener + n)
  | why => why

def Cause.shift (n : Nat) : Cause → Cause
  | .unexpected keyword why => .unexpected keyword (why.shift n)
  | cause => cause

def Error.shift (n : Nat) (e : Error) : Error := ⟨e.position + n, e.cause.shift n⟩

def Reading.shift (n : Nat) (reading : Reading) : Reading :=
  ⟨reading.events.map (Event.shift n), reading.error.map (Error.shift n)⟩

def Frame.shift (n : Nat) : Frame → Frame
  | .conditional opener elseSeen => .conditional (opener + n) elseSeen
  | .loop opener => .loop (opener + n)
  | .layoutCall opener sections => .layoutCall (opener + n) sections
  | .sectionBody opener => .sectionBody (opener + n)

def Nesting.shift (n : Nat) (nesting : Nesting) : Nesting := nesting.map (Frame.shift n)

def Effect.shift (n : Nat) (effect : Effect) : Effect := (effect.1, effect.2.shift n)

variable (n : Nat) {kind : SourceKind} {position : Nat}

theorem Frame.block_shift (frame : Frame) : (frame.shift n).block = frame.block := by
  cases frame <;> rfl

theorem Frame.opener_shift (frame : Frame) : (frame.shift n).opener = frame.opener + n := by
  cases frame <;> rfl

namespace Nesting

variable (nesting : Nesting)

theorem length_shift : (nesting.shift n).length = nesting.length := List.length_map _

theorem inLayoutCall_shift : (nesting.shift n).inLayoutCall = nesting.inLayoutCall := by
  cases nesting with
  | nil => rfl
  | cons frame outer => cases frame <;> rfl

theorem branch_shift (isElse : Bool) : (nesting.shift n).branch isElse =
    ((nesting.branch isElse).mapError (Misplacement.shift n)).map (Nesting.shift n) := by
  cases nesting with
  | nil => rfl
  | cons frame outer =>
      cases frame with
      | conditional opener elseSeen => cases elseSeen <;> rfl
      | _ => rfl

theorem close_shift (block : Block) : (nesting.shift n).close block =
    ((nesting.close block).mapError (Misplacement.shift n)).map (Nesting.shift n) := by
  cases nesting with
  | nil => rfl
  | cons frame outer =>
      change (if (frame.shift n).block = block then _ else _) = _
      rw [Frame.block_shift, Frame.opener_shift, close]
      split <;> rfl

theorem openSection_shift (name : Text) : (nesting.shift n).openSection kind (position + n) name =
    ((nesting.openSection kind position name).mapError (Cause.shift n)).map (Nesting.shift n) := by
  have placeholder (nesting : Nesting) :
      (if kind = .layout then .ok (.sectionBody (position + n) :: nesting.shift n)
        else .error .sectionOutsideLayout : Except Cause Nesting) =
      ((if kind = .layout then .ok (.sectionBody position :: nesting)
        else .error .sectionOutsideLayout : Except Cause Nesting).mapError (Cause.shift n)).map
          (Nesting.shift n) := by
    split <;> rfl
  cases nesting with
  | nil => exact placeholder []
  | cons frame outer =>
      cases frame with
      | layoutCall opener sections =>
          change (if name ∈ sections then _ else _) = _
          rw [openSection]
          split <;> rfl
      | conditional opener elseSeen => exact placeholder (.conditional opener elseSeen :: outer)
      | loop opener => exact placeholder (.loop opener :: outer)
      | sectionBody opener => exact placeholder (.sectionBody opener :: outer)

end Nesting

/-- A directive does the same further back, to blocks that were opened further back. -/
theorem Directive.effect_shift (nesting : Nesting) (d : Directive) :
    d.effect kind (position + n) (nesting.shift n) =
      ((d.effect kind position nesting).mapError (Cause.shift n)).map (Effect.shift n) := by
  cases d with
  | elseIf inner =>
      rw [effect, effect, Nesting.branch_shift, Nesting.length_shift]
      cases nesting.branch false <;> rfl
  | elseBranch =>
      rw [effect, effect, Nesting.branch_shift, Nesting.length_shift]
      cases nesting.branch true <;> rfl
  | sectionOpen inner =>
      rw [effect, effect, Nesting.openSection_shift, Nesting.length_shift]
      cases nesting.openSection kind position (Text.trim inner) <;> rfl
  | close block =>
      rw [effect, effect, Nesting.close_shift]
      cases nesting.close block with
      | error why => rfl
      | ok after =>
          change Except.ok (some ((after.shift n).length, _), _) = _
          rw [Nesting.length_shift]
          rfl
  | _ =>
      simp only [effect, Nesting.length_shift]
      rfl

theorem Lexeme.effect_shift (nesting : Nesting) (lexeme : Lexeme) :
    lexeme.effect kind (position + n) (nesting.shift n) =
      ((lexeme.effect kind position nesting).mapError (Error.shift n)).map (Effect.shift n) := by
  cases lexeme with
  | text t =>
      rw [effect, effect, Nesting.inLayoutCall_shift, Nesting.length_shift, Nat.add_right_comm]
      split
      · rfl
      · split <;> rfl
  | directive d =>
      rw [effect, effect, Nesting.inLayoutCall_shift, Directive.effect_shift]
      split
      · rfl
      · cases d.effect kind position nesting <;> rfl

/-- How lexemes end, with all positions moved. -/
def shiftEnd (n : Nat) (ending : Except Error (Nat × Nesting)) : Except Error (Nat × Nesting) :=
  (ending.mapError (Error.shift n)).map fun final => (final.1 + n, final.2.shift n)

theorem trace_shift {lexemes : List Lexeme} (nesting : Nesting)
    (small : position + Text.byteSize (lexemes.flatMap Lexeme.spelling) + n ≤ Span.limit) :
    trace kind (position + n) (nesting.shift n) lexemes =
      ((trace kind position nesting lexemes).1.map (Event.shift n),
        shiftEnd n (trace kind position nesting lexemes).2) := by
  induction lexemes generalizing position nesting with
  | nil => rfl
  | cons lexeme rest ih =>
      rw [List.flatMap_cons, Text.byteSize_append] at small
      have span := Span.ofRange_shift (n := n)
        (Nat.le_add_right position lexeme.spelling.byteSize) (by omega)
      simp only [trace, Lexeme.effect_shift, Nat.add_right_comm position n, span]
      cases lexeme.effect kind position nesting with
      | error e => rfl
      | ok effect =>
          obtain ⟨event, after⟩ := effect
          have smaller : position + lexeme.spelling.byteSize +
              Text.byteSize (rest.flatMap Lexeme.spelling) + n ≤ Span.limit := by omega
          have later := ih after smaller
          cases event with
          | none => exact later
          | some entry =>
              change (_ :: (trace kind _ (after.shift n) rest).1,
                (trace kind _ (after.shift n) rest).2) = _
              rw [later]
              rfl

section Fault

variable {t : Text} {cause : Cause}

theorem shift_of_nonBlank {bracket : Code.Bracket} {construct : Construct}
    {make : Text → Directive} {missing : Cause} (fixed : missing.shift n = missing)
    (h : Recognition.enclosed bracket construct (Directive.ofNonBlank make missing) t =
      .fault cause) : cause.shift n = cause := by
  rcases Recognition.enclosed_eq_fault h with ⟨rfl, -⟩ | ⟨inner, refused⟩
  · rfl
  · rw [Directive.ofNonBlank_eq_error refused]
    exact fixed

theorem shift_of_call {make : Text → Text → Directive} (h : recognizeCall make t = .fault cause) :
    cause.shift n = cause := by
  simp only [recognizeCall] at h
  split at h
  · split at h
    · rcases Recognition.enclosed_eq_fault h with ⟨rfl, -⟩ | ⟨inner, refused⟩
      · rfl
      · cases refused
    · cases h
      rfl
  · cases h

theorem shift_of_keyword {k : Keyword} (h : k.recognize t = .fault cause) :
    cause.shift n = cause := by
  fun_cases Keyword.recognize k t with
  | case1 t => exact shift_of_nonBlank n rfl h
  | case2 t => exact shift_of_nonBlank n rfl h
  | case3 t => cases h
  | case4 t => exact shift_of_nonBlank n rfl h
  | case5 t => exact shift_of_call n h
  | case6 t => exact shift_of_call n h
  | case7 t =>
      rcases Recognition.enclosed_eq_fault h with ⟨rfl, -⟩ | ⟨inner, refused⟩
      · rfl
      · rw [Directive.ofSectionName_eq_error refused]
        rfl
  | case8 block t => cases h
  | case9 k t => simp_all [Keyword.recognize]

/-- What is wrong with a directive by itself quotes no position. -/
theorem shift_of_recognize (h : recognize t = .fault cause) : cause.shift n = cause := by
  fun_cases recognize t with
  | case1 t => exact shift_of_nonBlank n rfl h
  | case2 t => exact shift_of_nonBlank n rfl h
  | case3 t none =>
      simp only [recognize, none] at h
      cases h
      rfl
  | case4 t inner rest some => simp only [recognize, some, reduceCtorEq] at h
  | case5 t none => simp only [recognize, none, reduceCtorEq] at h
  | case6 t keyword some =>
      simp only [recognize, some] at h
      exact shift_of_keyword n h
  | case7 => simp_all [recognize]

end Fault

theorem finalError_shift {fault : Option (Text × Cause)} (nesting : Nesting)
    (fixed : ∀ pending cause, fault = some (pending, cause) → cause.shift n = cause) :
    finalError fault (position + n) (nesting.shift n) =
      (finalError fault position nesting).map (Error.shift n) := by
  cases fault with
  | some found =>
      obtain ⟨pending, cause⟩ := found
      have same := fixed pending cause rfl
      simp only [finalError, Option.map_some, Error.shift, same, Nat.add_right_comm position n]
  | none =>
      cases nesting with
      | nil => rfl
      | cons frame outer =>
          change some (frame.shift n).unclosed = _
          simp only [Frame.unclosed, Frame.opener_shift, Frame.block_shift]
          rfl

/-- A body further back is read in the same way, with every position moved. -/
theorem read_shift {text : Text} (small : position + text.byteSize + n ≤ Span.limit) :
    (⟨position + n, text⟩ : Body).read kind = ((⟨position, text⟩ : Body).read kind).shift n := by
  obtain ⟨behind, whole⟩ := exists_append_of_lex text
  have inside : Text.byteSize ((lex text).lexemes.flatMap Lexeme.spelling) ≤ text.byteSize := by
    rw [congrArg Text.byteSize whole, Text.byteSize_append]
    exact Nat.le_add_right _ _
  have traced : trace kind (position + n) [] (lex text).lexemes =
      ((trace kind position [] (lex text).lexemes).1.map (Event.shift n),
        shiftEnd n (trace kind position [] (lex text).lexemes).2) := trace_shift n [] (by omega)
  have fixed : ∀ pending cause, (lex text).fault = some (pending, cause) →
      cause.shift n = cause := by
    intro pending cause fault
    obtain ⟨faulty, -, found⟩ := exists_of_lex_fault fault
    exact shift_of_recognize n found
  have ending : endingError ⟨position + n, text⟩ kind =
      (endingError ⟨position, text⟩ kind).map (Error.shift n) := by
    simp only [endingError, traced]
    cases (trace kind position [] (lex text).lexemes).2 with
    | error e => rfl
    | ok final => exact finalError_shift n final.2 fixed
  simp only [read_eq, ending, traced]
  rfl

end Body

namespace Offsets

open Stencil.Body

variable {source rest : Text} {start : Nat}

theorem readBody_of_some {body : Body} (found : ofSource? source start = some body)
    (kind : SourceKind) : readBody source start kind = .ok (body.read kind) := by
  rw [readBody, pass_of_some kind collect id found, Body.read]
  cases ended : (body.traverse kind collect id).run #[] with
  | ok _ events => simp only [guarded_run_ok ended]
  | error e events => simp only [guarded_run_error ended]

/-- Reading from a character boundary on, as a text or by offsets, gives what the text behind it
gives alone, moved by the length of what stands in front. Nothing else of that has any influence. -/
theorem readBody_behind (small : source.byteSize < 2 ^ 32) (place : source.GoesOn start rest)
    (kind : SourceKind) :
    ∃ reading, (ofSource? rest 0).map (·.read kind) = some reading ∧
      (ofSource? source start).map (·.read kind) = some (reading.shift start) ∧
      readBody rest 0 kind = .ok reading ∧
      readBody source start kind = .ok (reading.shift start) ∧
      ∀ other : Text, other.GoesOn start rest →
        readBody other start kind = readBody source start kind := by
  have alone : ofSource? rest 0 = some ⟨0, rest⟩ := ofSource?_of_goesOn (.zero rest)
  have behind := ofSource?_of_goesOn place
  have moved : (⟨start, rest⟩ : Body).read kind = ((⟨0, rest⟩ : Body).read kind).shift start := by
    have inside : 0 + rest.byteSize + start ≤ Span.limit := by
      rw [Nat.zero_add, Nat.add_comm, ← place.byteSize]
      exact Nat.le_of_lt_succ small
    have shifted : (⟨0 + start, rest⟩ : Body).read kind =
        ((⟨0, rest⟩ : Body).read kind).shift start := read_shift start inside
    rwa [Nat.zero_add] at shifted
  refine ⟨(⟨0, rest⟩ : Body).read kind, ?_, ?_, readBody_of_some alone kind, ?_, ?_⟩
  · rw [alone, Option.map_some]
  · rw [behind, Option.map_some, moved]
  · rw [readBody_of_some behind, moved]
  · intro other otherPlace
    rw [readBody_of_some (ofSource?_of_goesOn otherPlace), readBody_of_some behind]

/-- A raw string in a conditional that is closed as a loop, behind a word. -/
theorem readBody_behind_word :
    let source : Text := "éb@if(r)$\x7br\"\x7d\"\x7d@endfor"
    readBody (source.drop 2) 0 .template =
      .ok ⟨[⟨0, ⟨0, 6⟩, .conditionStart "r"⟩, ⟨1, ⟨6, 7⟩, .code "r\"\x7d\""⟩],
        some ⟨13, .unexpected (.endWord .loop) (.otherBlockOpen .conditional 0)⟩⟩ ∧
    readBody source 3 .template =
      .ok ⟨[⟨0, ⟨3, 6⟩, .conditionStart "r"⟩, ⟨1, ⟨9, 7⟩, .code "r\"\x7d\""⟩],
        some ⟨16, .unexpected (.endWord .loop) (.otherBlockOpen .conditional 3)⟩⟩ := by
  intro source
  have place : source.GoesOn 3 (source.drop 2) := ⟨['é', 'b'], rfl, by decide⟩
  have alone : (ofSource? (source.drop 2) 0).map (·.read .template) =
      some ⟨[⟨0, ⟨0, 6⟩, .conditionStart "r"⟩, ⟨1, ⟨6, 7⟩, .code "r\"\x7d\""⟩],
        some ⟨13, .unexpected (.endWord .loop) (.otherBlockOpen .conditional 0)⟩⟩ := by
    decide +kernel
  obtain ⟨reading, read, -, byOffsets, moved, -⟩ :=
    readBody_behind (by decide +kernel) place .template
  cases read.symm.trans alone
  exact ⟨byOffsets, moved⟩

end Offsets

end Stencil
