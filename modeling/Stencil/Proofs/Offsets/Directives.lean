import Stencil.Offsets.Directives
import Stencil.Proofs.Body.Spelling
import Stencil.Proofs.Offsets.Brackets

/-!
Directives by byte offsets. Main statement: at the start of a character no look of the recognition
fails, and it finds there what is recognised in the text that goes on there.
-/

namespace Stencil.Offsets

open Stencil.Code
open Stencil.Body

variable {source t : Text} {offset : Nat}

/-- What is recognised, with the offset behind a directive in place of the text that is left of a
source of the given size. -/
def Found.ofRecognition (size : Nat) : Recognition → Found
  | .literal => .literal
  | .fault cause => .fault cause
  | .found d rest => .directive d (size - rest.byteSize)

theorem ofRecognition_found {rest : Text} (d : Directive) (h : source.GoesOn offset rest) :
    Found.ofRecognition source.byteSize (.found d rest) = .directive d offset := by
  rw [Found.ofRecognition, h.byteSize, Nat.add_sub_cancel]

theorem enclosed_eq {bracket : Bracket} (construct : Construct)
    (make : Text → Except Cause Directive) (h : source.GoesOn offset (bracket.opening :: t)) :
    enclosed source bracket construct make (offset + 1) =
      .ok (.ofRecognition source.byteSize (.enclosed bracket construct make t)) := by
  have behind : source.GoesOn (offset + 1) t := by
    have next := h.next
    cases bracket <;> exact next
  rw [enclosed, closing_eq h, ok_bind, Recognition.enclosed]
  cases found : enclosed? bracket t with
  | none => rfl
  | some r =>
      obtain ⟨inner, rest⟩ := r
      rw [eq_append_of_enclosed? found] at behind
      have stop : source.GoesOn (offset + 1 + inner.byteSize + 1) rest := by
        have next := behind.skip.next
        cases bracket <;> exact next
      change textBetween source (offset + 1) (offset + 1 + inner.byteSize) >>= _ = _
      rw [behind.textBetween, ok_bind]
      cases made : make inner with
      | error cause =>
          simp only [made]
          rfl
      | ok d =>
          simp only [made, ofRecognition_found d stop]
          rfl

theorem agrees_isCallByte : Text.Agrees isCallByte isCallChar := by
  intro c b member
  rw [isCallByte, isCallChar, agrees_isWordByte c b member]
  exact congrArg _ (Text.agrees_beq (d := '.') (by decide) c b member)

theorem call_eq (make : Text → Text → Directive) (h : source.GoesOn offset t) :
    call source make offset = .ok (.ofRecognition source.byteSize (recognizeCall make t)) := by
  have slice : bytesBetween source.encode offset source.encode.length = .ok t.encode := by
    rw [h.goOn.length, h.goOn.bytesBetween (Nat.le_refl _), List.take_length]
  have size : (t.encode.takeWhile isCallByte).length = Text.byteSize (t.takeWhile isCallChar) := by
    rw [agrees_isCallByte.takeWhile_encode, Text.length_encode]
  have name : textBetween source offset (offset + Text.byteSize (t.takeWhile isCallChar)) =
      .ok (t.takeWhile isCallChar) := (h.span isCallChar).textBetween
  have after := (h.span isCallChar).skip
  have test := after.getElem?_eq_iff (d := '(') (by decide)
  simp only [call, slice, ok_bind, size, name, recognizeCall]
  by_cases opens : (t.dropWhile isCallChar).head? = some '('
  · obtain ⟨rest, opens⟩ := List.head?_eq_some_iff.mp opens
    rw [opens] at after
    rw [if_pos (test.mpr (opens ▸ rfl))]
    simp only [opens]
    split
    · exact enclosed_eq .arguments _ after
    · rfl
  · rw [if_neg (mt test.mp opens)]
    split
    · rename_i same
      exact absurd (congrArg List.head? same) opens
    · rfl

section Keywords

def follows (k : Keyword) (rest : Text) : Bool := (follower? k).all fun c => rest.head? == some c

theorem not_isWordChar_of_follower {k : Keyword} {c : Char} (h : follower? k = some c) :
    Text.isWordChar c = false := by
  cases k <;> cases h <;> decide

theorem startsWord_dropWhile (t : Text) : startsWord (t.dropWhile Text.isWordChar) = false := by
  have stops := List.head?_dropWhile_not Text.isWordChar t
  rw [startsWord]
  cases first : (t.dropWhile Text.isWordChar).head? with
  | none => rfl
  | some c =>
      rw [first] at stops
      exact stops

theorem standsAt_eq (k : Keyword) (h : source.GoesOn offset ('@' :: t)) :
    standsAt source offset k =
      .ok (t.takeWhile Text.isWordChar == k.text && follows k (t.dropWhile Text.isWordChar)) := by
  have behind : source.GoesOn (offset + 1) t := h.next
  have word := List.all_eq_true.mp k.all_isWordChar_text
  have whole := List.takeWhile_append_dropWhile (p := Text.isWordChar) (l := t)
  rw [standsAt, behind.textFrom, ok_bind]
  cases mark : follower? k with
  | some c =>
      refine congrArg Except.ok (Bool.eq_iff_iff.mpr ?_)
      rw [List.isPrefixOf_iff_prefix, Bool.and_eq_true, beq_iff_eq, follows, mark, Option.all_some,
        beq_iff_eq]
      constructor
      · rintro ⟨rest, rfl⟩
        rw [List.append_assoc, List.singleton_append]
        obtain ⟨taken, left⟩ := span_of_not_head (t := c :: rest) word (not_isWordChar_of_follower mark)
        rw [taken, left]
        exact ⟨rfl, rfl⟩
      · rintro ⟨taken, next⟩
        obtain ⟨rest, left⟩ := List.head?_eq_some_iff.mp next
        rw [taken, left] at whole
        exact ⟨rest, by rw [List.append_assoc, List.singleton_append, whole]⟩
  | none =>
      refine congrArg Except.ok (Bool.eq_iff_iff.mpr ?_)
      rw [Bool.and_eq_true, List.isPrefixOf_iff_prefix, Bool.not_eq_true', Bool.and_eq_true, beq_iff_eq,
        follows, mark, Option.all_none, and_iff_left rfl]
      have next (rest : Text) : (Text.encode (k.text ++ rest))[k.text.byteSize]?.any isWordByte =
          rest.head?.any Text.isWordChar := by
        have here : Text.GoesOn (k.text ++ rest) k.text.byteSize rest := ⟨k.text, rfl, rfl⟩
        rw [here.goOn.getElem?, agrees_isWordByte.head?_encode]
      constructor
      · rintro ⟨⟨rest, rfl⟩, apart⟩
        rw [next] at apart
        exact (span_of_not_head word apart).1
      · intro taken
        rw [taken] at whole
        have apart := next (t.dropWhile Text.isWordChar)
        rw [whole] at apart
        rw [apart]
        exact ⟨⟨_, whole⟩, startsWord_dropWhile t⟩

theorem firstKeyword_eq (ks : List Keyword) (h : source.GoesOn offset ('@' :: t)) :
    firstKeyword source offset ks = .ok (ks.find? fun k =>
      t.takeWhile Text.isWordChar == k.text && follows k (t.dropWhile Text.isWordChar)) := by
  induction ks with
  | nil => rfl
  | cons k ks ih =>
      rw [firstKeyword, standsAt_eq k h, ok_bind, ih, List.find?_cons]
      cases t.takeWhile Text.isWordChar == k.text && follows k (t.dropWhile Text.isWordChar) <;> rfl

theorem text_injective {k l : Keyword} (same : k.text = l.text) : k = l := by
  have found := Keyword.ofText?_text k
  rw [same, Keyword.ofText?_text] at found
  exact (Option.some.inj found).symm

theorem mem_trials (k : Keyword) : k ∈ trials := by
  rcases k with _ | _ | _ | _ | _ | _ | _ | (_ | _ | _ | _) <;> decide

/-- Words tell keywords apart, so the order of the trials does not matter. -/
theorem find?_trials (word rest : Text) :
    (trials.find? fun k => word == k.text && follows k rest) =
      (Keyword.ofText? word).filter (follows · rest) := by
  cases found : Keyword.ofText? word with
  | none =>
      refine List.find?_eq_none.mpr fun k _ => ?_
      rw [Bool.and_eq_true, beq_iff_eq]
      rintro ⟨rfl, -⟩
      cases found.symm.trans (Keyword.ofText?_text k)
  | some k =>
      obtain rfl := Keyword.text_of_ofText? found
      rw [Option.filter_some]
      by_cases after : follows k rest = true
      · have some : (trials.find? fun l => k.text == l.text && follows l rest).isSome = true := by
          rw [List.find?_isSome]
          exact ⟨k, mem_trials k, by rw [beq_self_eq_true, after]; rfl⟩
        obtain ⟨l, first⟩ := Option.isSome_iff_exists.mp some
        have passes := List.find?_some first
        rw [Bool.and_eq_true, beq_iff_eq] at passes
        rw [first, text_injective passes.1, if_pos passes.2]
      · rw [if_neg after]
        refine List.find?_eq_none.mpr fun l _ => ?_
        rw [Bool.and_eq_true, beq_iff_eq]
        rintro ⟨same, passes⟩
        exact after (text_injective same ▸ passes)

theorem exists_of_follows {rest : Text} {k : Keyword} {c : Char} (mark : follower? k = some c)
    (after : follows k rest = true) : ∃ t, rest = c :: t := by
  rw [follows, mark] at after
  exact List.head?_eq_some_iff.mp (beq_iff_eq.mp after)

theorem keywordDirective_eq {rest : Text} {k : Keyword} (h : source.GoesOn offset rest)
    (after : follows k rest = true) :
    keywordDirective source offset k = .ok (.ofRecognition source.byteSize (k.recognize rest)) := by
  cases k with
  | ifWord =>
      obtain ⟨t, rfl⟩ := exists_of_follows rfl after
      exact enclosed_eq .condition _ h
  | elseIfWord =>
      obtain ⟨t, rfl⟩ := exists_of_follows rfl after
      exact enclosed_eq .condition _ h
  | elseWord => exact congrArg Except.ok (ofRecognition_found .elseBranch h).symm
  | forWord =>
      obtain ⟨t, rfl⟩ := exists_of_follows rfl after
      exact enclosed_eq .loopHeader _ h
  | tagWord =>
      obtain ⟨t, rfl⟩ := exists_of_follows rfl after
      exact call_eq .tagCall h.next
  | layoutWord =>
      obtain ⟨t, rfl⟩ := exists_of_follows rfl after
      exact call_eq .layoutOpen h.next
  | sectionWord =>
      obtain ⟨t, rfl⟩ := exists_of_follows rfl after
      exact enclosed_eq .sectionName _ h
  | endWord block => exact congrArg Except.ok (ofRecognition_found (.close block) h).symm

theorem recognize_of_not_follows {rest : Text} {k : Keyword} (other : follows k rest = false) :
    k.recognize rest = .literal := by
  fun_cases Keyword.recognize k rest with
  | case9 => rfl
  | _ => cases other

theorem atDirective_eq (h : source.GoesOn offset ('@' :: t)) :
    atDirective source offset =
      .ok (.ofRecognition source.byteSize (recognize ('@' :: t))) := by
  rw [atDirective, firstKeyword_eq trials h, find?_trials, ok_bind, recognize]
  cases found : Keyword.ofText? (t.takeWhile Text.isWordChar) with
  | none => rfl
  | some k =>
      rw [Option.filter_some]
      cases after : follows k (t.dropWhile Text.isWordChar) with
      | false =>
          simp only [recognize_of_not_follows after]
          rfl
      | true =>
          have whole : '@' :: t = k.mark ++ t.dropWhile Text.isWordChar := by
            rw [Keyword.mark, Keyword.text_of_ofText? found, List.cons_append,
              List.takeWhile_append_dropWhile]
          rw [whole] at h
          exact keywordDirective_eq h.skip after

end Keywords

theorem comment_eq (h : source.GoesOn offset ('<' :: '%' :: '-' :: '-' :: t)) :
    comment source offset =
      .ok (.ofRecognition source.byteSize (recognize ('<' :: '%' :: '-' :: '-' :: t))) := by
  have behind : source.GoesOn (offset + 4) t := h.next.next.next.next
  rw [comment, behind.textFrom, ok_bind, recognize]
  cases found : Text.breakOn? ['-', '-', '%', '>'] t with
  | none => rfl
  | some r =>
      obtain ⟨inner, rest⟩ := r
      rw [Text.eq_append_of_breakOn? found, List.append_assoc] at behind
      exact congrArg Except.ok (ofRecognition_found (.comment inner) behind.skip.skip).symm

/-- The look at the first byte says no more than the look at the text that goes on there. -/
theorem nextDirective_of_goesOn {c : Char} (h : source.GoesOn offset (c :: t)) :
    nextDirective source offset =
      if ['$', '{'].isPrefixOf (c :: t) then
        enclosed source .brace .expression
          (Directive.ofNonBlank .expression (.emptyCode .expression)) (offset + 2)
      else if ['!', '{'].isPrefixOf (c :: t) then
        enclosed source .brace .statement
          (Directive.ofNonBlank .statement (.emptyCode .statement)) (offset + 2)
      else if ['<', '%', '-', '-'].isPrefixOf (c :: t) then comment source offset
      else if c = '@' then atDirective source offset
      else .ok .literal := by
  obtain ⟨first, tail, whole, -, -, goOn⟩ := h.exists_byte
  have same {d : Char} (small : d.toNat < 128) : first = d.toUInt8 ↔ c = d :=
    Text.eq_toUInt8_iff small (whole ▸ List.mem_cons_self)
  have starts {d : Char} {w : Text} (small : d.toNat < 128) :
      (first = d.toUInt8 ∧ (d :: w).isPrefixOf (c :: t) = true) ↔
        (d :: w).isPrefixOf (c :: t) = true := by
    rw [same small, and_iff_right_iff_imp, List.isPrefixOf_iff_prefix, List.cons_prefix_cons]
    exact fun h => h.1.symm
  rw [nextDirective, h.textFrom, ok_bind, goOn.byteAt, ok_bind]
  simp only [starts (d := '$') (by decide), starts (d := '!') (by decide),
    starts (d := '<') (by decide), same (d := '@') (by decide)]
  rfl

/-- What stands at the start of a character is what is recognised in the text that goes on there. -/
theorem nextDirective_eq {c : Char} (h : source.GoesOn offset (c :: t)) :
    nextDirective source offset =
      .ok (.ofRecognition source.byteSize (recognize (c :: t))) := by
  rw [nextDirective_of_goesOn h]
  by_cases expression : ['$', '{'].isPrefixOf (c :: t) = true
  · obtain ⟨rest, whole⟩ := List.isPrefixOf_iff_prefix.mp expression
    rw [if_pos expression]
    rw [← whole] at h ⊢
    exact enclosed_eq .expression _ h.next
  by_cases statement : ['!', '{'].isPrefixOf (c :: t) = true
  · obtain ⟨rest, whole⟩ := List.isPrefixOf_iff_prefix.mp statement
    rw [if_neg expression, if_pos statement]
    rw [← whole] at h ⊢
    exact enclosed_eq .statement _ h.next
  by_cases note : ['<', '%', '-', '-'].isPrefixOf (c :: t) = true
  · obtain ⟨rest, whole⟩ := List.isPrefixOf_iff_prefix.mp note
    rw [if_neg expression, if_neg statement, if_pos note]
    rw [← whole] at h ⊢
    exact comment_eq h
  rw [if_neg expression, if_neg statement, if_neg note]
  by_cases keyword : c = '@'
  · subst keyword
    rw [if_pos rfl]
    exact atDirective_eq h
  · have noKeyword : (c :: t).head? ≠ some '@' := fun same => keyword (Option.some.inj same)
    rw [if_neg keyword, recognize_eq_literal expression statement note noKeyword]
    rfl

end Stencil.Offsets
