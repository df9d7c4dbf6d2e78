import Stencil.Body.Nesting

/-!
What can happen to the open blocks: which blocks are open when a branch, an end or a section is
accepted, and what a lexeme does where it has room.
-/

namespace Stencil.Body

variable {kind : SourceKind} {position : Nat} {nesting after : Nesting}

theorem Nesting.branch_eq_ok {isElse : Bool} (h : nesting.branch isElse = .ok after) :
    ∃ opener outer, nesting = .conditional opener false :: outer ∧
      after = .conditional opener isElse :: outer := by
  fun_cases Nesting.branch isElse nesting with
  | case1 opener outer => exact ⟨opener, outer, rfl, (Except.ok.inj h).symm⟩
  | case2 => cases h
  | case3 frame outer notFalse notTrue =>
      rcases frame with ⟨opener, _ | _⟩ | _ | _ | _
      · exact absurd rfl (notFalse opener)
      · exact absurd rfl (notTrue opener)
      · cases h
      · cases h
      · cases h
  | case4 => cases h

theorem Nesting.close_eq_ok {block : Block} (h : nesting.close block = .ok after) :
    ∃ frame, nesting = frame :: after ∧ frame.block = block := by
  cases nesting with
  | nil => cases h
  | cons frame outer =>
      simp only [Nesting.close] at h
      split at h
      · rename_i same
        exact ⟨frame, congrArg _ (Except.ok.inj h), same⟩
      · cases h

theorem Nesting.exists_layoutCall (h : nesting.inLayoutCall = true) :
    ∃ opener names outer, nesting = .layoutCall opener names :: outer := by
  fun_cases Nesting.inLayoutCall nesting with
  | case1 opener names outer => exact ⟨opener, names, outer, rfl⟩
  | case2 => simp_all [Nesting.inLayoutCall]

theorem Nesting.openSection_of_free {name : Text}
    (free : nesting.inLayoutCall = false) :
    nesting.openSection kind position name =
      if kind = .layout then .ok (.sectionBody position :: nesting)
      else .error .sectionOutsideLayout := by
  fun_cases Nesting.inLayoutCall nesting with
  | case1 => cases free
  | case2 nesting notCall =>
      rw [Nesting.openSection]
      exact notCall

/-- A section opens in a layout call that has none of its name yet, or in a layout. -/
theorem Nesting.openSection_eq_ok {name : Text}
    (h : nesting.openSection kind position name = .ok after) :
    (∃ opener names outer, nesting = .layoutCall opener names :: outer ∧ name ∉ names ∧
      after = .sectionBody position :: .layoutCall opener (names ++ [name]) :: outer) ∨
    (nesting.inLayoutCall = false ∧ kind = .layout ∧ after = .sectionBody position :: nesting) := by
  cases place : nesting.inLayoutCall with
  | true =>
      obtain ⟨opener, names, outer, rfl⟩ := Nesting.exists_layoutCall place
      rw [Nesting.openSection] at h
      split at h
      · cases h
      · rename_i fresh
        exact .inl ⟨opener, names, outer, rfl, fresh, (Except.ok.inj h).symm⟩
  | false =>
      rw [Nesting.openSection_of_free place] at h
      split at h
      · rename_i layout
        exact .inr ⟨rfl, layout, (Except.ok.inj h).symm⟩
      · cases h

theorem Nesting.openSection_eq_error {name : Text} {cause : Cause}
    (h : nesting.openSection kind position name = .error cause) :
    cause = .duplicateSection name ∨ cause = .sectionOutsideLayout := by
  cases place : nesting.inLayoutCall with
  | true =>
      obtain ⟨opener, names, outer, rfl⟩ := Nesting.exists_layoutCall place
      rw [Nesting.openSection] at h
      split at h
      · exact .inl (Except.error.inj h).symm
      · cases h
  | false =>
      rw [Nesting.openSection_of_free place] at h
      split at h
      · cases h
      · exact .inr (Except.error.inj h).symm

theorem Lexeme.effect_of_free {d : Directive} (free : nesting.inLayoutCall = false) :
    (Lexeme.directive d).effect kind position nesting =
      (d.effect kind position nesting).mapError (⟨position, ·⟩) := by
  rw [Lexeme.effect, free, Bool.false_and, if_neg Bool.false_ne_true]

theorem Lexeme.effect_of_allowed {d : Directive} (allowed : d.allowedInLayoutCall = true) :
    (Lexeme.directive d).effect kind position nesting =
      (d.effect kind position nesting).mapError (⟨position, ·⟩) := by
  rw [Lexeme.effect, allowed, Bool.not_true, Bool.and_false, if_neg Bool.false_ne_true]

/-- Every open block can be closed. -/
theorem Lexeme.effect_close (frame : Frame) (outer : Nesting) :
    (Lexeme.directive (.close frame.block)).effect kind position (frame :: outer) =
      .ok (some (outer.length, frame.block.endPayload), outer) := by
  cases frame <;> rfl

theorem Directive.effect_elseIf_eq_ok {inner : Text} {effect : Effect}
    (h : (Directive.elseIf inner).effect kind position nesting = .ok effect) :
    ∃ opener outer, nesting = .conditional opener false :: outer ∧
      effect = (some (outer.length, .conditionElseIf (Text.trim inner)), nesting) := by
  simp only [Directive.effect] at h
  split at h
  · cases h
  · rename_i moved
    obtain ⟨opener, outer, rfl, rfl⟩ := Nesting.branch_eq_ok moved
    exact ⟨opener, outer, rfl, (Except.ok.inj h).symm⟩

theorem Directive.effect_elseBranch_eq_ok {effect : Effect}
    (h : Directive.elseBranch.effect kind position nesting = .ok effect) :
    ∃ opener outer, nesting = .conditional opener false :: outer ∧
      effect = (some (outer.length, .conditionElse), .conditional opener true :: outer) := by
  simp only [Directive.effect] at h
  split at h
  · cases h
  · rename_i moved
    obtain ⟨opener, outer, rfl, rfl⟩ := Nesting.branch_eq_ok moved
    exact ⟨opener, outer, rfl, (Except.ok.inj h).symm⟩

theorem Directive.effect_sectionOpen_eq_ok {inner : Text} {effect : Effect}
    (h : (Directive.sectionOpen inner).effect kind position nesting = .ok effect) :
    ∃ after, nesting.openSection kind position (Text.trim inner) = .ok after ∧
      effect = (some (nesting.length, .sectionStart (Text.trim inner)), after) := by
  simp only [Directive.effect] at h
  split at h
  · cases h
  · rename_i opened
    exact ⟨_, opened, (Except.ok.inj h).symm⟩

theorem Directive.effect_close_eq_ok {block : Block} {effect : Effect}
    (h : (Directive.close block).effect kind position nesting = .ok effect) :
    ∃ frame outer, nesting = frame :: outer ∧ frame.block = block ∧
      effect = (some (outer.length, block.endPayload), outer) := by
  simp only [Directive.effect] at h
  split at h
  · cases h
  · rename_i closed
    obtain ⟨frame, rfl, same⟩ := Nesting.close_eq_ok closed
    exact ⟨frame, _, rfl, same, (Except.ok.inj h).symm⟩

/-- Only a comment has no event. -/
theorem Directive.eq_comment_of_effect {d : Directive}
    (h : d.effect kind position nesting = .ok (none, after)) : ∃ inner, d = .comment inner := by
  cases d with
  | comment inner => exact ⟨inner, rfl⟩
  | elseIf inner =>
      obtain ⟨_, _, _, ⟨⟩⟩ := Directive.effect_elseIf_eq_ok h
  | elseBranch =>
      obtain ⟨_, _, _, ⟨⟩⟩ := Directive.effect_elseBranch_eq_ok h
  | sectionOpen inner =>
      obtain ⟨_, _, ⟨⟩⟩ := Directive.effect_sectionOpen_eq_ok h
  | close block =>
      obtain ⟨_, _, _, _, ⟨⟩⟩ := Directive.effect_close_eq_ok h
  | expression inner => cases h
  | statement inner => cases h
  | ifOpen inner => cases h
  | forOpen inner => cases h
  | tagCall name inner => cases h
  | layoutOpen name inner => cases h

/-- The only event that literal text can have is its own. -/
theorem Lexeme.payload_of_effect_text {t : Text} {depth : Nat} {payload : Event.Payload}
    {after : Nesting}
    (h : (Lexeme.text t).effect kind position nesting = .ok (some (depth, payload), after)) :
    payload = .text t := by
  simp only [Lexeme.effect] at h
  split at h
  · cases h
    rfl
  · split at h <;> cases h

theorem Lexeme.effect_directive_eq_ok {d : Directive} {effect : Effect}
    (h : (Lexeme.directive d).effect kind position nesting = .ok effect) :
    d.effect kind position nesting = .ok effect ∧
      (nesting.inLayoutCall = true → d.allowedInLayoutCall = true) := by
  simp only [Lexeme.effect] at h
  split at h
  · cases h
  · rename_i fits
    cases result : d.effect kind position nesting with
    | error cause =>
        rw [result] at h
        cases h
    | ok found =>
        rw [result] at h
        cases h
        exact ⟨rfl, fun inside => by simpa [inside] using fits⟩

end Stencil.Body
