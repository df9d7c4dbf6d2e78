import Stencil.Offsets.Brackets
import Stencil.Proofs.Code.Closed
import Stencil.Proofs.Offsets.Access
import Stencil.Proofs.Text.Classes

/-!
Literals of embedded code by byte offsets: strings, characters and raw strings. The offset may stop
inside a character after a backslash. Main statements: from the place after the opening quote no look
fails, and the literal ends where its token ends.
-/

namespace Stencil.Offsets

open Stencil.Code

variable {source : Text} {bytes rest : List UInt8} {offset : Nat} {b : UInt8}

theorem agrees_isWordByte : Text.Agrees isWordByte Text.isWordChar :=
  Text.agrees_ofUInt8 fun _ => Text.isWordChar_of_le

/-- What moves on by one at bytes of no character of one byte passes all of them. -/
theorem pass_high {α : Type} {f : Nat → α} {skipped : List UInt8}
    (moves : ∀ {offset b rest}, GoOn bytes offset (b :: rest) → 128 ≤ b → f offset = f (offset + 1))
    (h : GoOn bytes offset (skipped ++ rest)) (high : ∀ b ∈ skipped, 128 ≤ b) :
    f offset = f (offset + skipped.length) := by
  induction skipped generalizing offset with
  | nil => rfl
  | cons b skipped ih =>
      rw [moves h (high b List.mem_cons_self),
        ih h.next fun b member => high b (List.mem_cons_of_mem _ member), List.length_cons]
      congr 1
      omega

section Strings

theorem skipString_of_goOn (h : GoOn bytes offset (b :: rest)) :
    skipString bytes offset =
      if b = '\\'.toUInt8 then skipString bytes (offset + 2)
      else if b = '"'.toUInt8 then .ok (some (offset + 1))
      else skipString bytes (offset + 1) := by
  rw [skipString, if_pos h.lt, h.byteAt]
  rfl

theorem skipString_of_le (h : bytes.length ≤ offset) : skipString bytes offset = .ok none := by
  rw [skipString, if_neg (Nat.not_lt_of_le h)]
  rfl

theorem skipString_high {skipped : List UInt8} (h : GoOn bytes offset (skipped ++ rest))
    (high : ∀ b ∈ skipped, 128 ≤ b) :
    skipString bytes offset = skipString bytes (offset + skipped.length) := by
  refine pass_high (fun {offset b rest} goOn large => ?_) h high
  rw [skipString_of_goOn goOn, if_neg (Text.ne_toUInt8_of_le large (by decide)),
    if_neg (Text.ne_toUInt8_of_le large (by decide))]

theorem skipString_of_goesOn {c : Char} {t : Text} (h : source.GoesOn offset (c :: t)) :
    skipString source.encode offset =
      if c = '\\' then skipString source.encode (offset + 2)
      else if c = '"' then .ok (some (offset + 1))
      else skipString source.encode (offset + c.utf8Size) := by
  obtain ⟨first, tail, whole, high, size, goOn⟩ := h.exists_byte
  have member : first ∈ String.utf8EncodeChar c := whole ▸ List.mem_cons_self
  rw [skipString_of_goOn goOn]
  simp only [Text.eq_toUInt8_iff (d := '\\') (by decide) member,
    Text.eq_toUInt8_iff (d := '"') (by decide) member]
  rw [skipString_high goOn.next high, Nat.add_assoc, Nat.add_comm 1, size]

theorem skipString_eq {t : Text} (h : source.GoesOn offset t) :
    skipString source.encode offset = .ok ((stringTail? t).map fun r => offset + r.1.byteSize) := by
  fun_induction stringTail? t generalizing offset with
  | case1 => exact skipString_of_le (Nat.le_of_not_lt h.not_lt_length)
  | case2 t =>
      rw [skipString_of_goesOn h]
      rfl
  | case3 c t ih =>
      have behind : source.GoesOn (offset + 1) (c :: t) := h.next
      obtain ⟨first, tail, whole, high, size, goOn⟩ := behind.exists_byte
      have after : source.GoesOn (offset + Text.byteSize ['\\', c]) t := h.skip
      have stop : offset + 2 + tail.length = offset + Text.byteSize ['\\', c] := by
        change offset + 2 + tail.length = offset + (1 + (c.utf8Size + 0))
        omega
      rw [skipString_of_goesOn h, if_pos rfl, skipString_high goOn.next high, stop,
        ih after]
      exact congrArg Except.ok (Text.map_add_byteSize _ ['\\', c] offset).symm
  | case4 c t noQuote noEscape ih =>
      rw [skipString_of_goesOn h, if_neg noQuote]
      by_cases escape : c = '\\'
      · subst escape
        cases t with
        | nil =>
            refine skipString_of_le ?_
            rw [h.goOn.length]
            exact Nat.le_succ _
        | cons c t => exact absurd rfl (noEscape c t rfl)
      · rw [if_neg escape, ih h.next]
        exact congrArg Except.ok (Text.map_add_byteSize _ [c] offset).symm

end Strings

section Quotes

/-- The search for the quote that ends an escape in a character literal. It starts two bytes behind
the opening quote and the backslash, maybe inside a character. -/
theorem escapedQuote_eq {c : Char} {t : Text} (h : source.GoesOn offset ('\'' :: '\\' :: c :: t)) :
    skipQuote source offset = .ok ((Text.breakOn? ['\''] t).elim (offset + 1) fun r =>
      offset + Text.byteSize ('\'' :: '\\' :: c :: r.1 ++ ['\''])) := by
  have backslash : source.GoesOn (offset + 1) ('\\' :: c :: t) := h.next
  have behind : source.GoesOn (offset + 2) (c :: t) := backslash.next
  obtain ⟨first, tail, whole, high, size, goOn⟩ := behind.exists_byte
  have start : min (offset + 3) source.encode.length = offset + 3 := Nat.min_eq_left goOn.lt
  have stop : source.encode.length = offset + 3 + (tail ++ Text.encode t).length := goOn.next.length
  have none : tail.findIdx? (· == '\''.toUInt8) = none := by
    rw [List.findIdx?_eq_none_iff]
    intro b member
    exact beq_eq_false_iff_ne.mpr (Text.ne_toUInt8_of_le (high b member) (by decide))
  have slice : bytesBetween source.encode (offset + 3) source.encode.length =
      .ok (tail ++ Text.encode t) := by
    rw [stop, goOn.next.bytesBetween (Nat.le_refl _), List.take_length]
  rw [skipQuote, if_pos ((backslash.getElem?_eq_iff (by decide)).mpr rfl), start, slice, ok_bind,
    List.findIdx?_append, none, Text.findIdx?_encode (by decide)]
  cases Text.breakOn? ['\''] t with
  | none => rfl
  | some r =>
      refine congrArg Except.ok ?_
      rw [Option.elim_some, Text.byteSize_append]
      change offset + 3 + (r.1.byteSize + tail.length) + 1 = _
      change _ = offset + (1 + (1 + (c.utf8Size + r.1.byteSize)) + 1)
      omega

theorem plainQuote_eq {c : Char} {t : Text} (h : source.GoesOn offset ('\'' :: c :: t))
    (plain : c ≠ '\\') :
    skipQuote source offset =
      .ok (if t.head? = some '\'' then offset + 2 + c.utf8Size else offset + 1) := by
  have behind : source.GoesOn (offset + 1) (c :: t) := h.next
  have escape : source.encode[offset + 1]? ≠ some '\\'.toUInt8 := by
    rw [ne_eq, behind.getElem?_eq_iff (by decide)]
    exact fun same => plain (Option.some.inj same)
  have test : source.encode[offset + 1 + c.utf8Size]? = some '\''.toUInt8 ↔ t.head? = some '\'' :=
    behind.next.getElem?_eq_iff (by decide)
  rw [skipQuote, if_neg escape, behind.textFrom, ok_bind]
  simp only [List.head?_cons, test]
  split <;> rfl

theorem skipQuote_eq {t : Text} (h : source.GoesOn offset ('\'' :: t)) :
    skipQuote source offset = .ok (offset + (quoteToken t).1.byteSize) := by
  fun_cases quoteToken t with
  | case1 c t s r closed =>
      rw [escapedQuote_eq h, closed]
      rfl
  | case2 c t unclosed =>
      rw [escapedQuote_eq h, unclosed]
      rfl
  | case3 t alone =>
      cases t with
      | nil =>
          have backslash : source.GoesOn (offset + 1) ['\\'] := h.next
          have stop : source.encode.length = offset + 2 := backslash.next.goOn.length
          have slice : bytesBetween source.encode (offset + 2) (offset + 2) = .ok [] :=
            backslash.next.goOn.bytesBetween (Nat.le_refl _)
          rw [skipQuote, if_pos ((backslash.getElem?_eq_iff (by decide)).mpr rfl), stop,
            Nat.min_eq_right (Nat.le_succ _), slice]
          rfl
      | cons c t => exact absurd rfl (alone c t)
  | case4 c t noEscape =>
      rw [plainQuote_eq h noEscape, List.head?_cons, if_pos rfl]
      refine congrArg Except.ok ?_
      change offset + 2 + c.utf8Size = offset + (1 + (c.utf8Size + 1))
      omega
  | case5 t noEscapes noEscape noLiteral =>
      cases t with
      | nil =>
          have behind : source.GoesOn (offset + 1) [] := h.next
          have absent : source.encode[offset + 1]? ≠ some '\\'.toUInt8 := by
            rw [ne_eq, behind.getElem?_eq_iff (by decide)]
            intro escape
            cases escape
          rw [skipQuote, if_neg absent, behind.textFrom]
          rfl
      | cons c t =>
          have plain : c ≠ '\\' := fun escape => noEscape t (escape ▸ rfl)
          have unclosed : t.head? ≠ some '\'' := by
            intro quote
            cases t with
            | nil => cases quote
            | cons d t =>
                exact noLiteral c t (Option.some.inj quote ▸ rfl)
          rw [plainQuote_eq h plain, if_neg unclosed]
          rfl

end Quotes

section Raw

def leadAfter (before : Text) : Lead := before.foldl (fun lead c => lead.next [c]) .fresh

theorem leadAfter_concat (before : Text) (c : Char) :
    leadAfter (before ++ [c]) = (leadAfter before).next [c] := by
  rw [leadAfter, List.foldl_append]
  rfl

theorem leadAfter_of_not_word (before : Text) {c : Char} (other : Text.isWordChar c = false) :
    leadAfter (before ++ [c]) = .fresh := by
  rw [leadAfter_concat, Lead.next, other]
  rfl

theorem leadAfter_of_word (before : Text) {c : Char} (word : Text.isWordChar c = true)
    (other : c ≠ 'b') : leadAfter (before ++ [c]) = .word := by
  rw [leadAfter_concat, Lead.next, word, Bool.not_true, if_neg Bool.false_ne_true,
    if_neg fun h => other h.1]

theorem leadAfter_b (before : Text) :
    leadAfter (before ++ ['b']) = if leadAfter before = .fresh then .byteMark else .word := by
  rw [leadAfter_concat]
  cases leadAfter before <;> rfl

theorem leadAfter_eq_fresh_iff (before : Text) (c : Char) :
    leadAfter (before ++ [c]) = .fresh ↔ Text.isWordChar c = false := by
  cases word : Text.isWordChar c with
  | false => exact iff_of_true (leadAfter_of_not_word before word) rfl
  | true =>
      refine iff_of_false ?_ nofun
      by_cases mark : c = 'b'
      · rw [mark, leadAfter_b]
        split <;> exact nofun
      · rw [leadAfter_of_word before word mark]
        exact nofun

theorem exists_lastByte (before t : Text) (c : Char) :
    ∃ last ∈ String.utf8EncodeChar c,
      byteAt (Text.encode (before ++ c :: t)) (before.byteSize + c.utf8Size - 1) = .ok last := by
  obtain ⟨first, tail, whole, -⟩ := Text.exists_utf8EncodeChar c
  rcases List.eq_nil_or_concat' (String.utf8EncodeChar c) with empty | ⟨init, last, split⟩
  · cases empty.symm.trans whole
  · refine ⟨last, split ▸ List.mem_concat_self, ?_⟩
    have size := String.length_utf8EncodeChar c
    rw [split, List.length_append, List.length_singleton] at size
    have goOn : GoOn (Text.encode (before ++ c :: t)) (before.byteSize + c.utf8Size - 1)
        (last :: Text.encode t) := by
      refine ⟨before.encode ++ init, ?_, ?_⟩
      · rw [Text.encode_append, Text.encode_cons, split]
        simp only [List.append_assoc, List.singleton_append]
      · rw [List.length_append, Text.length_encode]
        omega
    exact goOn.byteAt

theorem difference_of_le {m n : Nat} (h : n ≤ m) : difference m n = .ok (m - n) := if_pos h

theorem mayOpenRaw_eq (before t : Text) :
    mayOpenRaw (Text.encode (before ++ t)) before.byteSize = .ok (leadAfter before != .word) := by
  rcases List.eq_nil_or_concat' before with rfl | ⟨init, c, rfl⟩
  · rfl
  · have size : Text.byteSize (init ++ [c]) = Text.byteSize init + c.utf8Size :=
      Text.byteSize_append init [c]
    have pos := c.utf8Size_pos
    obtain ⟨last, member, found⟩ := exists_lastByte init t c
    rw [List.append_cons] at found
    rw [mayOpenRaw, size, if_neg (by omega), difference_of_le (by omega), ok_bind, found, ok_bind]
    by_cases mark : c = 'b'
    · subst mark
      rw [if_pos ((Text.eq_toUInt8_iff (by decide) member).mpr rfl), leadAfter_b]
      rcases List.eq_nil_or_concat' init with rfl | ⟨outer, d, rfl⟩
      · rfl
      · have inner : Text.byteSize (outer ++ [d]) = Text.byteSize outer + d.utf8Size :=
          Text.byteSize_append outer [d]
        have outerPos := d.utf8Size_pos
        obtain ⟨second, outside, earlier⟩ := exists_lastByte outer ('b' :: t) d
        have place : Text.byteSize (outer ++ [d]) + 'b'.utf8Size - 2 =
            Text.byteSize outer + d.utf8Size - 1 := by
          change Text.byteSize (outer ++ [d]) + 1 - 2 = _
          omega
        have bound : ¬ Text.byteSize (outer ++ [d]) + 'b'.utf8Size < 2 := by
          change ¬ Text.byteSize (outer ++ [d]) + 1 < 2
          omega
        rw [List.append_cons, List.append_cons] at earlier
        rw [if_neg bound, difference_of_le (Nat.le_of_not_lt bound), place, ok_bind, earlier, ok_bind,
          agrees_isWordByte d second outside]
        simp only [leadAfter_eq_fresh_iff]
        cases Text.isWordChar d <;> rfl
    · rw [if_neg (mt (Text.eq_toUInt8_iff (by decide) member).mp mark), agrees_isWordByte c last member]
      cases word : Text.isWordChar c with
      | false =>
          rw [leadAfter_of_not_word init word]
          rfl
      | true =>
          rw [leadAfter_of_word init word mark]
          rfl

theorem takeWhile_hash (t : Text) :
    t.takeWhile (· = '#') = List.replicate (t.takeWhile (· = '#')).length '#' := by
  rw [List.eq_replicate_length]
  intro c member
  have hash : decide (c = '#') = true := List.mem_takeWhile_imp (p := fun c => decide (c = '#')) member
  exact of_decide_eq_true hash

theorem byteSize_takeWhile_hash (t : Text) :
    Text.byteSize (t.takeWhile (· = '#')) = (t.takeWhile (· = '#')).length := by
  rw [takeWhile_hash, Text.byteSize_replicate rfl, List.length_replicate]

theorem rawHashes?_of_ne {c : Char} {t : Text} (h : source.GoesOn offset (c :: t)) (other : c ≠ 'r') :
    rawHashes? source.encode offset = .ok none := by
  obtain ⟨first, tail, whole, -, -, goOn⟩ := h.exists_byte
  have member : first ∈ String.utf8EncodeChar c := whole ▸ List.mem_cons_self
  rw [rawHashes?, goOn.byteAt, ok_bind, if_neg (mt (Text.eq_toUInt8_iff (by decide) member).mp other)]
  rfl

theorem rawHashes?_eq (before t : Text) :
    rawHashes? (Text.encode (before ++ 'r' :: t)) before.byteSize =
      .ok (if leadAfter before ≠ .word ∧ (t.dropWhile (· = '#')).head? = some '"' then
        some (t.takeWhile (· = '#')).length else none) := by
  have here : Text.GoesOn (before ++ 'r' :: t) before.byteSize ('r' :: t) := ⟨before, rfl, rfl⟩
  have behind : Text.GoesOn (before ++ 'r' :: t) (before.byteSize + 1) t := here.next
  rw [rawHashes?, here.byteAt (by decide), ok_bind, if_pos rfl, mayOpenRaw_eq, ok_bind]
  by_cases word : leadAfter before = .word
  · simp only [word, bne_self_eq_false, Bool.false_eq_true, if_false, ne_eq, not_true_eq_false,
      false_and]
    rfl
  · have slice : bytesBetween (Text.encode (before ++ 'r' :: t)) (before.byteSize + 1)
        (Text.encode (before ++ 'r' :: t)).length = .ok (Text.encode t) := by
      rw [behind.goOn.length, behind.goOn.bytesBetween (Nat.le_refl _), List.take_length]
    have hashes : ((Text.encode t).takeWhile (· == '#'.toUInt8)).length =
        (t.takeWhile (· = '#')).length := by
      rw [(Text.agrees_beq (by decide)).takeWhile_encode, Text.length_encode]
      exact byteSize_takeWhile_hash t
    have test : (Text.encode (before ++ 'r' :: t))[before.byteSize + 1 + (t.takeWhile (· = '#')).length]? =
        some '"'.toUInt8 ↔ (t.dropWhile (· = '#')).head? = some '"' := by
      have place := (behind.span (· = '#')).skip
      rw [byteSize_takeWhile_hash] at place
      exact place.getElem?_eq_iff (by decide)
    rw [if_pos (bne_iff_ne.mpr word), slice, ok_bind, hashes]
    refine congrArg Except.ok ?_
    simp only [test, word, ne_eq, not_false_eq_true, true_and]

theorem isPrefixOf_replicate (n : Nat) (t : Text) :
    (List.replicate n '#').isPrefixOf t = true ↔
      n ≤ (Text.encode t).length ∧ ((Text.encode t).take n).all (· == '#'.toUInt8) = true := by
  induction n generalizing t with
  | zero => exact iff_of_true rfl ⟨Nat.zero_le _, rfl⟩
  | succ n ih =>
      cases t with
      | nil => exact iff_of_false nofun fun h => absurd h.1 (Nat.not_succ_le_zero n)
      | cons c t =>
          rw [List.replicate_succ, List.isPrefixOf_cons_cons, Bool.and_eq_true, beq_iff_eq]
          by_cases hash : c = '#'
          · subst hash
            rw [ih t, and_iff_right rfl]
            change _ ↔ n + 1 ≤ (Text.encode t).length + 1 ∧
              ('#'.toUInt8 == '#'.toUInt8 && ((Text.encode t).take n).all (· == '#'.toUInt8)) = true
            rw [beq_self_eq_true, Bool.true_and, Nat.add_le_add_iff_right]
          · obtain ⟨first, tail, whole, -⟩ := Text.exists_utf8EncodeChar c
            have differs : first ≠ '#'.toUInt8 :=
              mt (Text.eq_toUInt8_iff (by decide) (whole ▸ List.mem_cons_self)).mp hash
            refine iff_of_false (fun h => hash h.1.symm) fun h => differs ?_
            have every := h.2
            rw [Text.encode_cons, whole, List.cons_append, List.take_succ_cons, List.all_cons,
              Bool.and_eq_true, beq_iff_eq] at every
            exact every.1

theorem closesRaw_eq {c : Char} {t : Text} (n : Nat) (h : source.GoesOn offset (c :: t)) :
    closesRaw source.encode n offset =
      .ok (c = '"' ∧ (List.replicate n '#').isPrefixOf t = true) := by
  obtain ⟨first, tail, whole, -, -, goOn⟩ := h.exists_byte
  have member : first ∈ String.utf8EncodeChar c := whole ▸ List.mem_cons_self
  have quote : first = '"'.toUInt8 ↔ c = '"' := Text.eq_toUInt8_iff (by decide) member
  rw [closesRaw, goOn.byteAt, ok_bind]
  by_cases opens : c = '"'
  · subst opens
    have behind : GoOn source.encode (offset + 1) (Text.encode t) := h.next.goOn
    by_cases inside : n ≤ (Text.encode t).length
    · have bound : offset + 1 + n ≤ source.encode.length := by
        rw [behind.length]
        omega
      rw [if_pos ⟨quote.mpr rfl, bound⟩, behind.bytesBetween inside, ok_bind]
      refine congrArg Except.ok (Bool.eq_iff_iff.mpr ?_)
      rw [decide_eq_true_iff, isPrefixOf_replicate]
      exact ⟨fun every => ⟨rfl, inside, every⟩, fun h => h.2.2⟩
    · have bound : ¬ offset + 1 + n ≤ source.encode.length := by
        rw [behind.length]
        omega
      have short : ¬ ('"' = '"' ∧ (List.replicate n '#').isPrefixOf t = true) :=
        fun h => inside ((isPrefixOf_replicate n t).mp h.2).1
      rw [if_neg fun h => bound h.2, decide_eq_false short]
      rfl
  · rw [if_neg fun h => opens (quote.mp h.1), decide_eq_false fun h => opens h.1]
    rfl

theorem skipRaw_high {skipped : List UInt8} (n : Nat) (h : GoOn bytes offset (skipped ++ rest))
    (high : ∀ b ∈ skipped, 128 ≤ b) :
    skipRaw bytes n offset = skipRaw bytes n (offset + skipped.length) := by
  refine pass_high (fun {offset b rest} goOn large => ?_) h high
  have noQuote : b ≠ '"'.toUInt8 := Text.ne_toUInt8_of_le large (by decide)
  rw [skipRaw, if_pos goOn.lt, closesRaw, goOn.byteAt, ok_bind, if_neg fun h => noQuote h.1]
  rfl

theorem skipRaw_eq {t : Text} (n : Nat) (h : source.GoesOn offset t) :
    skipRaw source.encode n offset =
      .ok ((rawTail? (List.replicate n '#') t).map fun r => offset + r.1.byteSize) := by
  fun_induction rawTail? (List.replicate n '#') t generalizing offset with
  | case1 =>
      rw [skipRaw, if_neg h.not_lt_length]
      rfl
  | case2 c t closes =>
      have stop : offset + 1 + n = offset + Text.byteSize ('"' :: List.replicate n '#') := by
        rw [Text.byteSize_cons, Text.byteSize_replicate rfl]
        exact Nat.add_assoc offset 1 n
      rw [skipRaw, if_pos h.lt_length, closesRaw_eq n h, ok_bind, decide_eq_true closes]
      exact congrArg (Except.ok ∘ some) stop
  | case3 c t goesOn ih =>
      obtain ⟨first, tail, -, high, size, goOn⟩ := h.exists_byte
      have past : skipRaw source.encode n (offset + 1) = skipRaw source.encode n (offset + c.utf8Size) := by
        rw [skipRaw_high n goOn.next high, Nat.add_assoc, Nat.add_comm 1, size]
      rw [skipRaw, if_pos goOn.lt, closesRaw_eq n h, ok_bind, decide_eq_false goesOn]
      refine past.trans ?_
      rw [ih h.next]
      exact congrArg Except.ok (Text.map_add_byteSize _ [c] offset).symm

end Raw

end Stencil.Offsets
