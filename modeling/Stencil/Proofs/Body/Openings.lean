import Stencil.Proofs.Body.Nesting
import Stencil.Proofs.Body.Trace

/-!
The open blocks as the events of a body tell them. Main statements: every place of a body has the
open blocks that the events before it lead to, with the depths of the events counting them, and a
layout call that is open at a place has its own event before that place and, if it is closed, its
end behind it, with nothing between them that is not deeper.
-/

namespace Stencil.Body

/-- An open block, with the start of the span of its opening event. -/
def Frame.opening (frame : Frame) : Block × Nat := (frame.block, min frame.opener Span.limit)

def Nesting.openings (nesting : Nesting) : List (Block × Nat) := nesting.map Frame.opening

def opened? : Event.Payload → Option Block
  | .conditionStart _ => some .conditional
  | .loopStart _ => some .loop
  | .layoutCall _ _ => some .layoutCall
  | .sectionStart _ => some .sectionBody
  | _ => none

def isBranch : Event.Payload → Bool
  | .conditionElseIf _ => true
  | .conditionElse => true
  | _ => false

/-- Whether an event stands for itself, without a block. -/
def isFlat : Event.Payload → Bool
  | .text _ => true
  | .code _ => true
  | .statement _ => true
  | .tagCall _ _ => true
  | _ => false

def openingsAfter (openings : List (Block × Nat)) (e : Event) : List (Block × Nat) :=
  match e.payload with
  | .conditionStart _ => (.conditional, e.span.start) :: openings
  | .loopStart _ => (.loop, e.span.start) :: openings
  | .layoutCall _ _ => (.layoutCall, e.span.start) :: openings
  | .sectionStart _ => (.sectionBody, e.span.start) :: openings
  | .conditionEnd | .loopEnd | .sectionEnd | .layoutEnd => openings.tail
  | _ => openings

/-- What an event can do to the open blocks. Its depth counts the blocks around it. -/
inductive Moves : List (Block × Nat) → Event → List (Block × Nat) → Prop
  | flat {openings e} : e.depth = openings.length → isFlat e.payload = true →
      Moves openings e openings
  | branch {opener outer e} : e.depth = outer.length → isBranch e.payload = true →
      Moves ((.conditional, opener) :: outer) e ((.conditional, opener) :: outer)
  | opens {openings e block} : e.depth = openings.length → opened? e.payload = some block →
      Moves openings e ((block, e.span.start) :: openings)
  | closes {block opener outer e} : e.depth = outer.length → e.payload = block.endPayload →
      Moves ((block, opener) :: outer) e outer

/-- Whether events in order move some open blocks to others. -/
inductive Leads : List (Block × Nat) → List Event → List (Block × Nat) → Prop
  | nil {openings} : Leads openings [] openings
  | cons {openings e between events after} : Moves openings e between →
      Leads between events after → Leads openings (e :: events) after

variable {kind : SourceKind} {position stop depth : Nat} {nesting after : Nesting}
  {payload : Event.Payload}

@[simp] theorem Nesting.length_openings (nesting : Nesting) :
    nesting.openings.length = nesting.length := List.length_map _

theorem Nesting.map_fst_openings (nesting : Nesting) :
    nesting.openings.map Prod.fst = nesting.map Frame.block := List.map_map

section Steps

theorem Directive.moves {d : Directive}
    (h : d.effect kind position nesting = .ok (some (depth, payload), after)) :
    Moves nesting.openings ⟨depth, Span.ofRange position stop, payload⟩ after.openings := by
  have counted : nesting.length = nesting.openings.length := (Nesting.length_openings _).symm
  cases d with
  | comment inner => cases h
  | expression inner =>
      cases h
      exact .flat counted rfl
  | statement inner =>
      cases h
      exact .flat counted rfl
  | tagCall name inner =>
      cases h
      exact .flat counted rfl
  | ifOpen inner =>
      cases h
      exact .opens counted rfl
  | forOpen inner =>
      cases h
      exact .opens counted rfl
  | layoutOpen name inner =>
      cases h
      exact .opens counted rfl
  | elseIf inner =>
      obtain ⟨opener, outer, rfl, same⟩ := Directive.effect_elseIf_eq_ok h
      cases same
      exact .branch (Nesting.length_openings _).symm rfl
  | elseBranch =>
      obtain ⟨opener, outer, rfl, same⟩ := Directive.effect_elseBranch_eq_ok h
      cases same
      exact .branch (Nesting.length_openings _).symm rfl
  | sectionOpen inner =>
      obtain ⟨opened, done, same⟩ := Directive.effect_sectionOpen_eq_ok h
      cases same
      obtain ⟨opener, names, outer, rfl, -, rfl⟩ | ⟨-, -, rfl⟩ := Nesting.openSection_eq_ok done
      · exact .opens counted rfl
      · exact .opens counted rfl
  | close block =>
      obtain ⟨frame, outer, rfl, rfl, same⟩ := Directive.effect_close_eq_ok h
      cases same
      exact .closes (Nesting.length_openings _).symm rfl

theorem Lexeme.moves {lexeme : Lexeme}
    (h : lexeme.effect kind position nesting = .ok (some (depth, payload), after)) :
    Moves nesting.openings ⟨depth, Span.ofRange position stop, payload⟩ after.openings := by
  cases lexeme with
  | directive d => exact Directive.moves (Lexeme.effect_directive_eq_ok h).1
  | text t =>
      simp only [Lexeme.effect] at h
      split at h
      · cases h
        exact .flat (Nesting.length_openings _).symm rfl
      · split at h
        · cases h
        · cases h

/-- A lexeme without an event leaves the open blocks alone. -/
theorem Lexeme.eq_of_effect_none {lexeme : Lexeme}
    (h : lexeme.effect kind position nesting = .ok (none, after)) : after = nesting := by
  cases lexeme with
  | directive d =>
      have done := (Lexeme.effect_directive_eq_ok h).1
      obtain ⟨inner, rfl⟩ := Directive.eq_comment_of_effect done
      cases done
      rfl
  | text t =>
      simp only [Lexeme.effect] at h
      split at h
      · cases h
      · split at h
        · cases h
          rfl
        · cases h

end Steps

section Runs

variable {lexemes : List Lexeme} {events : List Event}

/-- The events of lexemes lead from the blocks open before them to those open behind them. -/
theorem trace_leads (h : trace kind position nesting lexemes = (events, .ok (stop, after))) :
    Leads nesting.openings events after.openings := by
  induction lexemes generalizing position nesting events with
  | nil =>
      cases h
      exact .nil
  | cons lexeme rest ih =>
      obtain ⟨event, between, later, step, traced, rfl⟩ := trace_cons_eq_ok h
      cases event with
      | none =>
          rw [← Lexeme.eq_of_effect_none step]
          exact ih traced
      | some entry => exact .cons (Lexeme.moves step) (ih traced)

end Runs

section Calls

variable {openings inner outer : List (Block × Nat)} {e : Event} {events : List Event}
  {opener : Nat}

theorem Moves.eq {between : List (Block × Nat)} (h : Moves openings e between) :
    between = openingsAfter openings e := by
  obtain ⟨depth, span, payload⟩ := e
  cases h with
  | flat _ flat =>
      cases payload with
      | text t => rfl
      | code code => rfl
      | statement code => rfl
      | tagCall name args => rfl
      | _ => cases flat
  | branch _ branch =>
      cases payload with
      | conditionElseIf condition => rfl
      | conditionElse => rfl
      | _ => cases branch
  | opens _ opens => cases payload <;> cases opens <;> rfl
  | @closes block _ _ _ _ closes =>
      cases closes
      cases block <;> rfl

/-- The events determine which blocks are open. -/
theorem Leads.eq {final : List (Block × Nat)} (h : Leads openings events final) :
    final = events.foldl openingsAfter openings := by
  induction h with
  | nil => rfl
  | cons moves _ ih => rw [ih, moves.eq, List.foldl_cons]

theorem exists_of_opened?_layoutCall (h : opened? payload = some .layoutCall) :
    ∃ name args, payload = .layoutCall name args := by
  cases payload with
  | layoutCall name args => exact ⟨name, args, rfl⟩
  | _ => cases h

theorem lt_length_append (nested : List (Block × Nat)) (opening : Block × Nat) :
    outer.length < (nested ++ opening :: outer).length := by
  rw [List.length_append, List.length_cons]
  omega

/-- A layout call that is open after an event was open before it, or the event is its own. -/
theorem Moves.before_call {nested : List (Block × Nat)}
    (h : Moves openings e (nested ++ (.layoutCall, opener) :: outer)) :
    (∃ inner, openings = inner ++ (.layoutCall, opener) :: outer ∧ outer.length < e.depth) ∨
    (openings = outer ∧ e.depth = outer.length ∧ ∃ name args, e.payload = .layoutCall name args) := by
  generalize final : nested ++ (Block.layoutCall, opener) :: outer = between at h
  have deeper : outer.length < between.length := by
    rw [← final]
    exact lt_length_append nested _
  cases h with
  | flat depth _ => exact .inl ⟨nested, final.symm, depth ▸ deeper⟩
  | closes depth _ => exact .inl ⟨_ :: nested, congrArg _ final.symm, depth ▸ deeper⟩
  | branch depth _ =>
      cases nested with
      | nil => cases final
      | cons first nested =>
          obtain ⟨rfl, rfl⟩ := List.cons.inj final
          exact .inl ⟨_ :: nested, rfl, depth ▸ lt_length_append nested _⟩
  | opens depth opens =>
      cases nested with
      | nil =>
          cases final
          exact .inr ⟨rfl, depth, exists_of_opened?_layoutCall opens⟩
      | cons first nested =>
          obtain ⟨rfl, rfl⟩ := List.cons.inj final
          exact .inl ⟨nested, rfl, depth ▸ lt_length_append nested _⟩

/-- A layout call that is open before an event is open after it, or the event is its end. -/
theorem Moves.after_call {between : List (Block × Nat)}
    (h : Moves (inner ++ (.layoutCall, opener) :: outer) e between) :
    (∃ nested, between = nested ++ (.layoutCall, opener) :: outer ∧ outer.length < e.depth) ∨
    (between = outer ∧ e.depth = outer.length ∧ e.payload = .layoutEnd) := by
  generalize first : inner ++ (Block.layoutCall, opener) :: outer = openings at h
  have deeper : outer.length < openings.length := by
    rw [← first]
    exact lt_length_append inner _
  cases h with
  | flat depth _ => exact .inl ⟨inner, first.symm, depth ▸ deeper⟩
  | opens depth _ => exact .inl ⟨_ :: inner, congrArg _ first.symm, depth ▸ deeper⟩
  | branch depth _ =>
      cases inner with
      | nil => cases first
      | cons frame inner =>
          obtain ⟨rfl, rfl⟩ := List.cons.inj first
          exact .inl ⟨_ :: inner, rfl, depth ▸ lt_length_append inner _⟩
  | closes depth closes =>
      cases inner with
      | nil =>
          cases first
          exact .inr ⟨rfl, depth, closes⟩
      | cons frame inner =>
          obtain ⟨rfl, rfl⟩ := List.cons.inj first
          exact .inl ⟨inner, rfl, depth ▸ lt_length_append inner _⟩

/-- The open blocks at a place are those that the events before it leave open. -/
theorem openings_of_trace {lexemes : List Lexeme}
    (h : trace kind position [] lexemes = (events, .ok (stop, after))) :
    events.foldl openingsAfter [] = after.openings := (trace_leads h).eq.symm

/-- A layout call that is open was open before all events, or one of them is its own; the events
inside of it are deeper than it. -/
theorem Leads.exists_call {final : List (Block × Nat)} (h : Leads openings events final)
    (isOpen : final = inner ++ (.layoutCall, opener) :: outer) :
    (∃ nested, openings = nested ++ (.layoutCall, opener) :: outer ∧
      ∀ e ∈ events, outer.length < e.depth) ∨
    ∃ before call after, events = before ++ call :: after ∧ Leads openings before outer ∧
      call.depth = outer.length ∧ (∃ name args, call.payload = .layoutCall name args) ∧
      ∀ e ∈ after, outer.length < e.depth := by
  induction h with
  | nil => exact .inl ⟨inner, isOpen, List.forall_mem_nil _⟩
  | @cons openings e between events final moves _ ih =>
      rcases ih isOpen with ⟨nested, rfl, deeper⟩ | ⟨before, call, after, rfl, leads, own⟩
      · rcases moves.before_call with ⟨nested, rfl, deep⟩ | ⟨rfl, depth, own⟩
        · exact .inl ⟨nested, rfl, List.forall_mem_cons.mpr ⟨deep, deeper⟩⟩
        · exact .inr ⟨[], e, events, rfl, .nil, depth, own, deeper⟩
      · exact .inr ⟨e :: before, call, after, rfl, .cons moves leads, own⟩

/-- Events that close a layout call hold its end, and the events before that are deeper. -/
theorem Leads.exists_end (h : Leads openings events [])
    (isOpen : openings = inner ++ (.layoutCall, opener) :: outer) :
    ∃ before ending after, events = before ++ ending :: after ∧ ending.depth = outer.length ∧
      ending.payload = .layoutEnd ∧ ∀ e ∈ before, outer.length < e.depth := by
  generalize empty : ([] : List (Block × Nat)) = final at h
  induction h generalizing inner with
  | nil =>
      subst empty
      cases inner <;> cases isOpen
  | @cons openings e between events final moves _ ih =>
      subst isOpen
      rcases moves.after_call with ⟨nested, rfl, deep⟩ | ⟨rfl, depth, ends⟩
      · obtain ⟨before, ending, after, rfl, depth, ends, deeper⟩ := ih rfl empty
        exact ⟨e :: before, ending, after, rfl, depth, ends, List.forall_mem_cons.mpr ⟨deep, deeper⟩⟩
      · exact ⟨[], e, events, rfl, depth, ends, List.forall_mem_nil _⟩

end Calls

end Stencil.Body
