import Stencil.Offsets.Bodies
import Stencil.Proofs.Body.Delivery
import Stencil.Proofs.Offsets.Directives

/-!
Bodies by byte offsets. Main statement: from the start of a character no look fails, no count goes
below zero and every round moves on, and with any visitor the reading does what a pass over the text
does.
-/

namespace Stencil.Offsets

open Stencil.Body

variable {ε σ α β : Type}

theorem guarded_bind (act : EStateM ε σ α) (f : α → EStateM ε σ β) :
    guarded (act >>= f) = guarded act >>= fun a => guarded (f a) := by
  funext s
  change guarded (EStateM.bind act f) s = EStateM.bind (guarded act) _ s
  cases result : act s with
  | ok a after => simp only [guarded, EStateM.bind, result]
  | error e after => simp only [guarded, EStateM.bind, result]

theorem guarded_run_ok {act : EStateM ε σ α} {s after : σ} {a : α} (h : act.run s = .ok a after) :
    (guarded act).run s = .ok a after := by
  change guarded act s = _
  rw [guarded, show act s = .ok a after from h]

theorem guarded_run_error {act : EStateM ε σ α} {s after : σ} {e : ε}
    (h : act.run s = .error e after) : (guarded act).run s = .error (.failure e) after := by
  change guarded act s = _
  rw [guarded, show act s = .error e after from h]

theorem check_ok (a : α) : (check (.ok a) : EStateM (Stop ε) σ α) = pure a := rfl

variable {kind : SourceKind} {position : Nat} {nesting : Nesting}

theorem branchEffect_eq (isElse : Bool) (keyword : Keyword) (payload : Event.Payload) :
    branchEffect nesting isElse keyword payload =
      .ok (match nesting.branch isElse with
        | .error why => .error (.unexpected keyword why)
        | .ok after => .ok (some (nesting.length - 1, payload), after)) := by
  cases nesting with
  | nil => rfl
  | cons frame outer =>
      rw [branchEffect]
      cases Nesting.branch isElse (frame :: outer) <;> rfl

theorem directiveEffect_eq (d : Directive) :
    directiveEffect kind position nesting d = .ok (d.effect kind position nesting) := by
  cases d with
  | elseIf inner => exact branchEffect_eq false _ _
  | elseBranch => exact branchEffect_eq true _ _
  | _ => rfl

theorem isEmpty_trimStart (t : Text) : (Text.trimStart t).isEmpty = t.all Text.isBlank := by
  rw [Bool.eq_iff_iff, List.isEmpty_iff, Text.trimStart, List.dropWhile_eq_nil_iff, List.all_eq_true]

theorem difference_trimStart (t : Text) :
    difference t.byteSize (Text.trimStart t).byteSize =
      .ok (Text.byteSize (t.takeWhile Text.isBlank)) := by
  have whole := congrArg Text.byteSize (List.takeWhile_append_dropWhile (p := Text.isBlank) (l := t))
  rw [Text.byteSize_append] at whole
  rw [← whole, Text.trimStart, difference_of_le (Nat.le_add_left _ _), Nat.add_sub_cancel]

theorem effect_eq (lexeme : Lexeme) :
    effect kind position nesting lexeme = .ok (lexeme.effect kind position nesting) := by
  cases lexeme with
  | text t =>
      rw [effect, Lexeme.effect, isEmpty_trimStart, difference_trimStart]
      split
      · rfl
      · split <;> rfl
  | directive d =>
      rw [effect, Lexeme.effect, directiveEffect_eq]
      split <;> rfl

variable {source rest : Text}

theorem isMarker_of_le {c : Char} (large : 128 ≤ c.toNat) : isMarker c = false := by
  have small : ['$', '!', '<', '@'].all (·.toNat < 128) = true := by decide
  rw [isMarker, List.contains_eq_mem, decide_eq_false_iff_not]
  intro member
  exact absurd (of_decide_eq_true (List.all_eq_true.mp small c member)) (Nat.not_lt_of_le large)

theorem agrees_isMarkerByte : Text.Agrees isMarkerByte isMarker :=
  Text.agrees_ofUInt8 fun _ => isMarker_of_le

theorem nextMarker_eq {c : Char} {t : Text} (h : source.GoesOn position (c :: t)) :
    nextMarker source (position + 1) =
      .ok (position + Text.byteSize (c :: t.takeWhile (!isMarker ·))) := by
  obtain ⟨first, tail, -, high, size, goOn⟩ := h.exists_byte
  have slice : bytesBetween source.encode (position + 1) source.encode.length =
      .ok (tail ++ t.encode) := by
    rw [goOn.next.length, goOn.next.bytesBetween (Nat.le_refl _), List.take_length]
  have none : tail.findIdx isMarkerByte = tail.length := by
    rw [List.findIdx_eq_length]
    exact fun b member => isMarker_of_le (UInt8.le_iff_toNat_le.mp (high b member))
  rw [nextMarker, slice, ok_bind, List.findIdx_append, none, if_neg (Nat.lt_irrefl _),
    agrees_isMarkerByte.findIdx_encode, Text.byteSize_cons]
  refine congrArg Except.ok ?_
  omega

section Pass

variable (kind : SourceKind) (visit : Event → EStateM ε σ Unit) (raise : Error → ε)

theorem stepTo_eq (lexeme : Lexeme) :
    stepTo kind visit raise position (position + lexeme.spelling.byteSize) nesting lexeme =
      guarded (step kind visit raise position nesting lexeme) := by
  rw [stepTo, effect_eq, check_ok, pure_bind, step]
  cases lexeme.effect kind position nesting with
  | error e => rfl
  | ok result =>
      obtain ⟨event, after⟩ := result
      cases event with
      | none => rfl
      | some event =>
          obtain ⟨depth, payload⟩ := event
          simp only [guarded_bind]
          rfl

theorem flushTo_eq {pending : Text} (h : source.GoesOn position (pending ++ rest)) :
    flushTo source kind visit raise position (position + pending.byteSize) nesting =
      guarded (flush kind visit raise position nesting pending) := by
  cases pending with
  | nil =>
      have empty : ¬ position < position + Text.byteSize [] := Nat.lt_irrefl position
      rw [flushTo, if_neg empty]
      rfl
  | cons c pending =>
      have pos := Text.byteSize_pos (List.cons_ne_nil c pending)
      rw [flushTo, if_pos (by omega), h.textBetween, check_ok, pure_bind, flush]
      exact stepTo_eq kind visit raise (.text (c :: pending))

theorem sweep_literal {c : Char} {t : Text} (pending : Text)
    (literal : recognize (c :: t) = .literal) :
    sweep kind visit raise position nesting pending (c :: t) =
      sweep kind visit raise position nesting (pending ++ [c]) t := by
  rw [sweep]
  split
  · rfl
  · rename_i fault
    cases literal.symm.trans fault
  · rename_i found
    cases literal.symm.trans found

theorem sweep_fault {c : Char} {t : Text} {cause : Cause} (pending : Text)
    (fault : recognize (c :: t) = .fault cause) :
    sweep kind visit raise position nesting pending (c :: t) =
      throw (raise ⟨position + pending.byteSize, cause⟩) := by
  rw [sweep]
  split
  · rename_i literal
    cases literal.symm.trans fault
  · rename_i same
    cases same.symm.trans fault
    rfl
  · rename_i found
    cases found.symm.trans fault

theorem sweep_found {c : Char} {t rest : Text} {d : Directive} (pending : Text)
    (found : recognize (c :: t) = .found d rest) :
    sweep kind visit raise position nesting pending (c :: t) = (do
      let nesting ← flush kind visit raise position nesting pending
      let nesting ← step kind visit raise (position + pending.byteSize) nesting (.directive d)
      sweep kind visit raise (position + pending.byteSize + d.spelling.byteSize) nesting [] rest) := by
  rw [sweep]
  split
  · rename_i literal
    cases literal.symm.trans found
  · rename_i fault
    cases fault.symm.trans found
  · rename_i same
    cases same.symm.trans found
    rfl

theorem sweep_append (pending : Text) {skipped : Text} (plain : ∀ c ∈ skipped, isMarker c = false)
    (t : Text) :
    sweep kind visit raise position nesting pending (skipped ++ t) =
      sweep kind visit raise position nesting (pending ++ skipped) t := by
  induction skipped generalizing pending with
  | nil => rw [List.nil_append, List.append_nil]
  | cons c skipped ih =>
      have literal : recognize (c :: (skipped ++ t)) = .literal :=
        recognize_of_not_marker (plain c List.mem_cons_self) _
      rw [List.cons_append, sweep_literal kind visit raise pending literal,
        ih _ fun d member => plain d (List.mem_cons_of_mem c member), List.append_assoc]
      rfl

/-- Literal text is passed at once up to the next character that may start a directive. -/
theorem sweep_toMarker {c : Char} {t : Text} (pending : Text)
    (literal : recognize (c :: t) = .literal) :
    sweep kind visit raise position nesting pending (c :: t) =
      sweep kind visit raise position nesting (pending ++ c :: t.takeWhile (!isMarker ·))
        (t.dropWhile (!isMarker ·)) := by
  have plain : ∀ d ∈ t.takeWhile (!isMarker ·), isMarker d = false := by
    intro d member
    have passes : (!isMarker d) = true := List.mem_takeWhile_imp (p := (!isMarker ·)) member
    rw [Bool.not_eq_true'] at passes
    exact passes
  have whole : t = t.takeWhile (!isMarker ·) ++ t.dropWhile (!isMarker ·) :=
    List.takeWhile_append_dropWhile.symm
  rw [sweep_literal kind visit raise pending literal]
  conv_lhs => rw [whole]
  rw [sweep_append kind visit raise _ plain, List.append_assoc, List.singleton_append]

section Rounds

variable {c : Char} {t : Text} {current : Nat}

theorem passFrom_literal (h : source.GoesOn current (c :: t))
    (literal : recognize (c :: t) = .literal) :
    passFrom source kind visit raise position current nesting =
      passFrom source kind visit raise position
        (current + Text.byteSize (c :: t.takeWhile (!isMarker ·))) nesting := by
  have pos := Text.byteSize_pos (List.cons_ne_nil c (t.takeWhile (!isMarker ·)))
  rw [passFrom, if_pos h.lt_byteSize, nextDirective_eq h, literal, check_ok, pure_bind]
  change check (nextMarker source (current + 1)) >>= _ = _
  rw [nextMarker_eq h, check_ok, pure_bind, if_pos (by omega)]

theorem passFrom_fault {cause : Cause} (h : source.GoesOn current (c :: t))
    (fault : recognize (c :: t) = .fault cause) :
    passFrom source kind visit raise position current nesting =
      throw (.failure (raise ⟨current, cause⟩)) := by
  rw [passFrom, if_pos h.lt_byteSize, nextDirective_eq h, fault, check_ok, pure_bind]
  rfl

theorem passFrom_found {d : Directive} (h : source.GoesOn current (c :: t))
    (found : recognize (c :: t) = .found d rest) :
    passFrom source kind visit raise position current nesting = (do
      let nesting ← flushTo source kind visit raise position current nesting
      let nesting ← stepTo kind visit raise current (current + d.spelling.byteSize) nesting
        (.directive d)
      passFrom source kind visit raise (current + d.spelling.byteSize)
        (current + d.spelling.byteSize) nesting) := by
  have pos := Text.byteSize_pos d.spelling_ne_nil
  have behind : source.GoesOn (current + d.spelling.byteSize) rest := by
    rw [eq_append_of_recognize found] at h
    exact h.skip
  rw [passFrom, if_pos h.lt_byteSize, nextDirective_eq h, found, check_ok, pure_bind,
    ofRecognition_found d behind]
  simp only [if_pos (show current < current + d.spelling.byteSize by omega)]

theorem passFrom_end (h : source.GoesOn current []) :
    passFrom source kind visit raise position current nesting = (do
      match ← flushTo source kind visit raise position current nesting with
      | frame :: _ => throw (.failure (raise frame.unclosed))
      | [] => pure ()) := by
  have stop : current = source.byteSize := h.byteSize.symm
  rw [passFrom, stop]
  exact if_neg (Nat.lt_irrefl _)

end Rounds

/-- Wherever the reading has come to a character, it and the rest of the pass over the text do the
same. -/
theorem passFrom_eq {pending t : Text} (h : source.GoesOn position (pending ++ t)) :
    passFrom source kind visit raise position (position + pending.byteSize) nesting =
      guarded (sweep kind visit raise position nesting pending t) := by
  induction size : t.length using Nat.strong_induction_on generalizing position nesting pending t with
  | _ n ih =>
    cases t with
    | nil =>
        rw [passFrom_end kind visit raise h.skip, flushTo_eq kind visit raise h, sweep, guarded_bind]
        refine congrArg _ (funext fun after => ?_)
        cases after <;> rfl
    | cons c t =>
        have here := h.skip
        cases found : recognize (c :: t) with
        | literal =>
            have split := congrArg List.length
              (List.takeWhile_append_dropWhile (p := (!isMarker ·)) (l := t))
            rw [List.length_append] at split
            rw [List.length_cons] at size
            rw [passFrom_literal kind visit raise here found,
              sweep_toMarker kind visit raise pending found, Nat.add_assoc, ← Text.byteSize_append]
            refine ih _ (by omega) ?_ rfl
            rw [List.append_assoc, List.cons_append, List.takeWhile_append_dropWhile]
            exact h
        | fault cause =>
            rw [passFrom_fault kind visit raise here found, sweep_fault kind visit raise pending found]
            rfl
        | found d rest =>
            have behind : source.GoesOn (position + pending.byteSize + d.spelling.byteSize) ([] ++ rest) := by
              rw [eq_append_of_recognize found] at here
              exact here.skip
            have shorter : rest.length < n := size ▸ length_lt_of_recognize found
            rw [passFrom_found kind visit raise here found, sweep_found kind visit raise pending found,
              guarded_bind, flushTo_eq kind visit raise h]
            refine congrArg _ (funext fun between => ?_)
            rw [guarded_bind, ← stepTo_eq kind visit raise (.directive d)]
            refine congrArg _ (funext fun after => ?_)
            exact ih _ shorter behind rfl

end Pass

theorem goesOn_of_ofSource? {start : Nat} {body : Body}
    (h : ofSource? source start = some body) :
    source.GoesOn body.start body.text ∧ body.start = min start source.byteSize := by
  obtain ⟨text, dropped, rfl⟩ := Option.map_eq_some_iff.mp h
  refine ⟨?_, rfl⟩
  by_cases inside : start ≤ source.byteSize
  · change source.GoesOn (min start source.byteSize) text
    rw [Nat.min_eq_left inside]
    exact Text.exists_of_dropBytes? dropped inside
  · have past : source.byteSize ≤ start := Nat.le_of_not_le inside
    change source.GoesOn (min start source.byteSize) text
    rw [Text.dropBytes?_of_le past] at dropped
    rw [Nat.min_eq_right past, ← Option.some.inj dropped]
    exact ⟨source, (List.append_nil source).symm, rfl⟩

/-- There is no body exactly at the positions inside a character. -/
theorem ofSource?_eq_none_iff {start : Nat} :
    ofSource? source start = none ↔ start < source.byteSize ∧ ¬ source.IsBoundary start := by
  rw [ofSource?, Option.map_eq_none_iff]
  constructor
  · intro none
    refine ⟨Nat.lt_of_not_le fun past => ?_, ?_⟩
    · cases none.symm.trans (Text.dropBytes?_of_le past)
    · rintro ⟨rest, goesOn⟩
      cases none.symm.trans goesOn.dropBytes?
  · rintro ⟨inside, notBoundary⟩
    rw [Option.eq_none_iff_forall_ne_some]
    intro rest dropped
    exact notBoundary ⟨rest, Text.exists_of_dropBytes? dropped (Nat.le_of_lt inside)⟩

theorem pass_of_some {start : Nat} {body : Body} (kind : SourceKind)
    (visit : Event → EStateM ε σ Unit) (raise : Error → ε)
    (h : ofSource? source start = some body) :
    pass source start kind visit raise = guarded (body.traverse kind visit raise) := by
  obtain ⟨goesOn, place⟩ := goesOn_of_ofSource? h
  have start : source.GoesOn body.start ([] ++ body.text) := goesOn
  rw [pass, ← place, ← sweep_eq_traverse]
  exact passFrom_eq kind visit raise start

theorem pass_of_none {start : Nat} (kind : SourceKind) (visit : Event → EStateM ε σ Unit)
    (raise : Error → ε) (h : ofSource? source start = none) :
    pass source start kind visit raise = throw (.fault .insideCharacter) := by
  have inside := (ofSource?_eq_none_iff.mp h).1
  have look : nextDirective source start = .error .insideCharacter := by
    rw [nextDirective, textFrom, if_pos (Nat.le_of_lt inside), Option.map_eq_none_iff.mp h]
    rfl
  rw [pass, Nat.min_eq_left (Nat.le_of_lt inside), passFrom, if_pos inside, look]
  rfl

end Stencil.Offsets
