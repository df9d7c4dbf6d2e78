import Stencil.Proofs.Code.Lookahead
import Stencil.Proofs.Offsets.Literals

/-!
Closing brackets by byte offsets. Main statement: from the place after an opening bracket no look of
the search fails, every round moves on, and it ends where the tokens end.
-/

namespace Stencil.Offsets

open Stencil.Code

variable {source : Text} {bytes rest : List UInt8} {offset : Nat} {b : UInt8}

section Closing

variable {bracket : Bracket} {depth : Nat}

theorem closingFrom_onward {after next : Nat} (inside : offset < source.encode.length)
    (h : round source bracket depth offset = .ok (.onward after next)) (forward : offset < next) :
    closingFrom source bracket depth offset = closingFrom source bracket after next := by
  rw [closingFrom, if_pos inside, h]
  exact if_pos forward

theorem closingFrom_behindLiteral {next : Option Nat} (inside : offset < source.encode.length)
    (h : round source bracket depth offset = .ok (behindLiteral depth next))
    (forward : ∀ stop ∈ next, offset < stop) :
    closingFrom source bracket depth offset =
      next.elim (.ok none) fun stop => closingFrom source bracket depth stop := by
  cases next with
  | none =>
      rw [closingFrom, if_pos inside, h]
      rfl
  | some stop => exact closingFrom_onward inside h (forward stop rfl)

theorem round_of_goOn (goOn : GoOn source.encode offset (b :: rest)) (noString : b ≠ '"'.toUInt8)
    (noQuote : b ≠ '\''.toUInt8) (noRaw : rawHashes? source.encode offset = .ok none) :
    round source bracket depth offset = bracketRound bracket depth offset b := by
  rw [round, goOn.byteAt, ok_bind, if_neg noString, if_neg noQuote, noRaw]
  rfl

theorem opening_lt (bracket : Bracket) : bracket.opening.toNat < 128 := by
  cases bracket <;> decide

theorem closing_lt (bracket : Bracket) : bracket.closing.toNat < 128 := by
  cases bracket <;> decide

theorem closingFrom_of_other (goOn : GoOn source.encode offset (b :: rest))
    (noString : b ≠ '"'.toUInt8) (noQuote : b ≠ '\''.toUInt8)
    (noRaw : rawHashes? source.encode offset = .ok none) (noOpening : b ≠ bracket.opening.toUInt8)
    (noClosing : b ≠ bracket.closing.toUInt8) :
    closingFrom source bracket depth offset = closingFrom source bracket depth (offset + 1) := by
  refine closingFrom_onward goOn.lt ?_ (Nat.lt_succ_self _)
  rw [round_of_goOn goOn noString noQuote noRaw, bracketRound, if_neg noOpening, if_neg noClosing]
  rfl

theorem closingFrom_high {skipped : List UInt8} (h : GoOn source.encode offset (skipped ++ rest))
    (high : ∀ b ∈ skipped, 128 ≤ b) :
    closingFrom source bracket depth offset =
      closingFrom source bracket depth (offset + skipped.length) := by
  refine pass_high (fun {offset b rest} goOn large => ?_) h high
  have noRaw : rawHashes? source.encode offset = .ok none := by
    rw [rawHashes?, goOn.byteAt, ok_bind, if_neg (Text.ne_toUInt8_of_le large (by decide))]
    rfl
  exact closingFrom_of_other goOn (Text.ne_toUInt8_of_le large (by decide))
    (Text.ne_toUInt8_of_le large (by decide)) noRaw
    (Text.ne_toUInt8_of_le large (opening_lt bracket)) (Text.ne_toUInt8_of_le large (closing_lt bracket))

/-- A character that is a token by itself and no bracket is passed, byte by byte. -/
theorem closingFrom_of_plain {c : Char} {t : Text} (h : source.GoesOn offset (c :: t))
    (noString : c ≠ '"') (noQuote : c ≠ '\'')
    (noRaw : rawHashes? source.encode offset = .ok none) (noOpening : c ≠ bracket.opening)
    (noClosing : c ≠ bracket.closing) :
    closingFrom source bracket depth offset =
      closingFrom source bracket depth (offset + c.utf8Size) := by
  obtain ⟨first, tail, whole, high, size, goOn⟩ := h.exists_byte
  have differs {d : Char} (small : d.toNat < 128) (other : c ≠ d) : first ≠ d.toUInt8 :=
    mt (Text.eq_toUInt8_iff small (whole ▸ List.mem_cons_self)).mp other
  rw [closingFrom_of_other goOn (differs (by decide) noString) (differs (by decide) noQuote) noRaw
    (differs (opening_lt bracket) noOpening) (differs (closing_lt bracket) noClosing),
    closingFrom_high goOn.next high, Nat.add_assoc, Nat.add_comm 1, size]

theorem closingFrom_string {t : Text} (h : source.GoesOn offset ('"' :: t)) :
    closingFrom source bracket depth offset =
      ((stringTail? t).map fun r => offset + 1 + r.1.byteSize).elim (.ok none) fun stop =>
        closingFrom source bracket depth stop := by
  have behind : source.GoesOn (offset + 1) t := h.next
  refine closingFrom_behindLiteral h.lt_length ?_ ?_
  · rw [round, h.byteAt (by decide), ok_bind, if_pos rfl, skipString_eq behind]
    rfl
  · intro stop member
    obtain ⟨r, -, rfl⟩ := Option.map_eq_some_iff.mp member
    omega

theorem closingFrom_quote {t : Text} (h : source.GoesOn offset ('\'' :: t)) :
    closingFrom source bracket depth offset =
      closingFrom source bracket depth (offset + (quoteToken t).1.byteSize) := by
  refine closingFrom_onward h.lt_length ?_ ?_
  · rw [round, h.byteAt (by decide), ok_bind, if_neg (by decide), if_pos rfl, skipQuote_eq h]
    rfl
  · have pos := Text.byteSize_pos (quoteToken_ne_nil t)
    omega

theorem closingFrom_raw {before t body : Text} (free : leadAfter before ≠ .word)
    (opens : t.dropWhile (· = '#') = '"' :: body) :
    closingFrom (before ++ 'r' :: t) bracket depth before.byteSize =
      ((rawTail? (t.takeWhile (· = '#')) body).map fun r =>
        before.byteSize + Text.byteSize ('r' :: t.takeWhile (· = '#') ++ '"' :: r.1)).elim (.ok none)
        fun stop => closingFrom (before ++ 'r' :: t) bracket depth stop := by
  have here : Text.GoesOn (before ++ 'r' :: t) before.byteSize ('r' :: t) := ⟨before, rfl, rfl⟩
  have behind : Text.GoesOn (before ++ 'r' :: t) (before.byteSize + 1) t := here.next
  have quote := (behind.span (· = '#')).skip
  rw [opens, byteSize_takeWhile_hash] at quote
  have inside : Text.GoesOn (before ++ 'r' :: t)
      (before.byteSize + (t.takeWhile (· = '#')).length + 2) body := by
    have next := quote.next
    rw [Nat.add_right_comm before.byteSize 1] at next
    exact next
  have size (s : Text) : before.byteSize + Text.byteSize ('r' :: t.takeWhile (· = '#') ++ '"' :: s) =
      before.byteSize + (t.takeWhile (· = '#')).length + 2 + s.byteSize := by
    rw [Text.byteSize_append, Text.byteSize_cons, byteSize_takeWhile_hash]
    change before.byteSize + (1 + _ + (1 + s.byteSize)) = _
    omega
  refine closingFrom_behindLiteral here.lt_length ?_ ?_
  · have hashes := rawHashes?_eq before t
    rw [opens, if_pos ⟨free, rfl⟩] at hashes
    have skipped := skipRaw_eq (t.takeWhile (· = '#')).length inside
    rw [← takeWhile_hash] at skipped
    simp only [size]
    rw [round, here.byteAt (by decide), ok_bind, if_neg (by decide), if_neg (by decide), hashes,
      ok_bind]
    change skipRaw _ _ _ >>= _ = _
    rw [skipped]
    rfl
  · intro stop member
    obtain ⟨r, -, rfl⟩ := Option.map_eq_some_iff.mp member
    rw [size]
    omega

theorem closingFrom_r {before t : Text} (noOpening : 'r' ≠ bracket.opening)
    (noClosing : 'r' ≠ bracket.closing) :
    closingFrom (before ++ 'r' :: t) bracket depth before.byteSize =
      (nextToken? (leadAfter before) ('r' :: t)).elim (.ok none) fun r =>
        closingFrom (before ++ 'r' :: t) bracket depth (before.byteSize + r.1.byteSize) := by
  have here : Text.GoesOn (before ++ 'r' :: t) before.byteSize ('r' :: t) := ⟨before, rfl, rfl⟩
  have plain (h : ¬ (leadAfter before ≠ .word ∧ (t.dropWhile (· = '#')).head? = some '"')) :
      closingFrom (before ++ 'r' :: t) bracket depth before.byteSize =
        closingFrom (before ++ 'r' :: t) bracket depth (before.byteSize + 1) := by
    have noRaw := rawHashes?_eq before t
    rw [if_neg h] at noRaw
    exact closingFrom_of_plain here (by decide) (by decide) noRaw noOpening noClosing
  rw [nextToken?]
  by_cases word : leadAfter before = .word
  · rw [if_pos word, plain fun h => h.1 word]
    rfl
  by_cases opens : (t.dropWhile (· = '#')).head? = some '"'
  · obtain ⟨body, opens⟩ := List.head?_eq_some_iff.mp opens
    rw [if_neg word, closingFrom_raw word opens, rawToken?]
    simp only [opens]
    cases rawTail? (t.takeWhile (· = '#')) body <;> rfl
  · rw [if_neg word, plain fun h => opens h.2, rawToken?_of_head opens]
    rfl

/-- The search passes the token that starts with a character which is no bracket. -/
theorem closingFrom_of_not_bracket {before t : Text} {c : Char} (noOpening : c ≠ bracket.opening)
    (noClosing : c ≠ bracket.closing) :
    closingFrom (before ++ c :: t) bracket depth before.byteSize =
      (nextToken? (leadAfter before) (c :: t)).elim (.ok none) fun r =>
        closingFrom (before ++ c :: t) bracket depth (before.byteSize + r.1.byteSize) := by
  have here : Text.GoesOn (before ++ c :: t) before.byteSize (c :: t) := ⟨before, rfl, rfl⟩
  by_cases string : c = '"'
  · subst string
    rw [closingFrom_string here, nextToken?]
    cases stringTail? t with
    | none => rfl
    | some r => exact congrArg (closingFrom _ bracket depth) (Nat.add_assoc _ 1 _)
  by_cases quote : c = '\''
  · subst quote
    rw [closingFrom_quote here]
    rfl
  by_cases raw : c = 'r'
  · subst raw
    exact closingFrom_r noOpening noClosing
  · rw [closingFrom_of_plain here string quote (rawHashes?_of_ne here raw) noOpening noClosing,
      nextToken?_of_ne _ string quote raw]
    rfl

theorem closingFrom_opening {t : Text} (h : source.GoesOn offset (bracket.opening :: t)) :
    closingFrom source bracket depth offset = closingFrom source bracket (depth + 1) (offset + 1) := by
  have noRaw : rawHashes? source.encode offset = .ok none :=
    rawHashes?_of_ne h (by cases bracket <;> decide)
  refine closingFrom_onward h.lt_length ?_ (Nat.lt_succ_self _)
  rw [round, h.byteAt (opening_lt bracket), ok_bind, noRaw]
  cases bracket <;> rfl

theorem closingFrom_closing {t : Text} (h : source.GoesOn offset (bracket.closing :: t)) :
    closingFrom source bracket depth offset =
      if depth = 0 then .ok (some offset)
      else closingFrom source bracket (depth - 1) (offset + 1) := by
  have noRaw : rawHashes? source.encode offset = .ok none :=
    rawHashes?_of_ne h (by cases bracket <;> decide)
  cases depth with
  | zero =>
      rw [closingFrom, if_pos h.lt_length, round, h.byteAt (closing_lt bracket), ok_bind, noRaw]
      cases bracket <;> rfl
  | succ depth =>
      rw [if_neg (Nat.succ_ne_zero depth)]
      refine closingFrom_onward h.lt_length ?_ (Nat.lt_succ_self _)
      rw [round, h.byteAt (closing_lt bracket), ok_bind, noRaw]
      cases bracket <;> rfl

/-- What the search does from one token to the next. -/
theorem closingFrom_step (before t : Text) :
    closingFrom (before ++ t) bracket depth before.byteSize =
      (nextToken? (leadAfter before) t).elim (.ok none) fun r =>
        if r.1 = [bracket.closing] ∧ depth = 0 then .ok (some before.byteSize)
        else closingFrom (before ++ t) bracket (bracket.depthAfter depth r.1)
          (before.byteSize + r.1.byteSize) := by
  cases t with
  | nil =>
      have atEnd : Text.GoesOn (before ++ []) before.byteSize [] := ⟨before, rfl, rfl⟩
      rw [closingFrom, if_neg atEnd.not_lt_length]
      rfl
  | cons c t =>
      have here : Text.GoesOn (before ++ c :: t) before.byteSize (c :: t) := ⟨before, rfl, rfl⟩
      by_cases opening : c = bracket.opening
      · subst opening
        rw [closingFrom_opening here]
        cases bracket <;> rfl
      by_cases closing : c = bracket.closing
      · subst closing
        rw [closingFrom_closing here]
        cases depth with
        | zero => cases bracket <;> rfl
        | succ depth => cases bracket <;> rfl
      rw [closingFrom_of_not_bracket opening closing]
      cases token : nextToken? (leadAfter before) (c :: t) with
      | none => rfl
      | some r =>
          have starts : r.1.head? = some c := by
            have whole := congrArg List.head? (eq_append_of_nextToken? token)
            rw [List.head?_append_of_ne_nil _ (ne_nil_of_nextToken? token)] at whole
            exact whole.symm
          have noOpening : r.1 ≠ [bracket.opening] := by
            intro same
            rw [same] at starts
            exact opening (Option.some.inj starts).symm
          have noClosing : r.1 ≠ [bracket.closing] := by
            intro same
            rw [same] at starts
            exact closing (Option.some.inj starts).symm
          rw [Option.elim_some, Option.elim_some, if_neg fun h => noClosing h.1, Bracket.depthAfter,
            if_neg noOpening, if_neg noClosing]

theorem stringTail?_eq_concat {t s r : Text} (h : stringTail? t = some (s, r)) :
    ∃ init, s = init ++ ['"'] := by
  fun_induction stringTail? t generalizing s with
  | case1 => cases h
  | case2 t =>
      cases h
      exact ⟨[], rfl⟩
  | case3 c t ih =>
      obtain ⟨⟨s', r'⟩, later, same⟩ := Option.map_eq_some_iff.mp h
      cases same
      obtain ⟨init, rfl⟩ := ih later
      exact ⟨'\\' :: c :: init, rfl⟩
  | case4 c t _ _ ih =>
      obtain ⟨⟨s', r'⟩, later, same⟩ := Option.map_eq_some_iff.mp h
      cases same
      obtain ⟨init, rfl⟩ := ih later
      exact ⟨c :: init, rfl⟩

theorem quoteToken_eq_concat (t : Text) : ∃ init, (quoteToken t).1 = init ++ ['\''] := by
  fun_cases quoteToken t with
  | case1 c t s r => exact ⟨'\'' :: '\\' :: c :: s, rfl⟩
  | case2 => exact ⟨[], rfl⟩
  | case3 => exact ⟨[], rfl⟩
  | case4 c t => exact ⟨['\'', c], rfl⟩
  | case5 => exact ⟨[], rfl⟩

theorem rawToken?_eq_concat {t token rest : Text} (h : rawToken? t = some (token, rest)) :
    ∃ init c, token = init ++ [c] ∧ (init = [] ∨ Text.isWordChar c = false) := by
  simp only [rawToken?] at h
  split at h
  · obtain ⟨⟨s, r⟩, tail, same⟩ := Option.map_eq_some_iff.mp h
    cases same
    obtain ⟨init, rfl⟩ := rawTail?_eq_append tail
    rcases List.eq_nil_or_concat' (t.takeWhile (· = '#')) with none | ⟨hashes, c, some⟩
    · rw [none]
      exact ⟨'r' :: [] ++ '"' :: init, '"', rfl, .inr (by decide)⟩
    · have member : c ∈ t.takeWhile (· = '#') := some ▸ List.mem_concat_self
      rw [takeWhile_hash] at member
      obtain rfl := List.eq_of_mem_replicate member
      refine ⟨'r' :: (hashes ++ ['#']) ++ '"' :: (init ++ '"' :: hashes), '#', ?_, .inr (by decide)⟩
      rw [some]
      simp only [List.append_assoc, List.cons_append]
  · cases h
    exact ⟨[], 'r', rfl, .inl rfl⟩

/-- A token is a single character, or it is a literal and ends in no word character. -/
theorem nextToken?_eq_concat {lead : Lead} {t token rest : Text}
    (h : nextToken? lead t = some (token, rest)) :
    ∃ init c, token = init ++ [c] ∧ (init = [] ∨ Text.isWordChar c = false) := by
  fun_cases nextToken? lead t with
  | case1 => cases h
  | case2 t =>
      obtain ⟨⟨s, r⟩, tail, same⟩ := Option.map_eq_some_iff.mp h
      cases same
      obtain ⟨init, rfl⟩ := stringTail?_eq_concat tail
      exact ⟨'"' :: init, '"', rfl, .inr (by decide)⟩
  | case3 t =>
      obtain ⟨init, ends⟩ := quoteToken_eq_concat t
      rw [Option.some.inj h] at ends
      exact ⟨init, '\'', ends, .inr (by decide)⟩
  | case4 t word =>
      rw [nextToken?, if_pos word] at h
      cases h
      exact ⟨[], 'r', rfl, .inl rfl⟩
  | case5 t free =>
      rw [nextToken?, if_neg free] at h
      exact rawToken?_eq_concat h
  | case6 c t h1 h2 h3 =>
      simp only [nextToken?] at h
      cases h
      exact ⟨[], c, rfl, .inl rfl⟩

theorem leadAfter_token {before t token rest : Text}
    (h : nextToken? (leadAfter before) t = some (token, rest)) :
    leadAfter (before ++ token) = (leadAfter before).next token := by
  obtain ⟨init, c, rfl, single | other⟩ := nextToken?_eq_concat h
  · rw [single, List.nil_append, leadAfter_concat]
  · rw [← List.append_assoc, leadAfter_of_not_word _ other]
    cases init with
    | nil =>
        rw [List.nil_append, Lead.next, other]
        rfl
    | cons d init => cases init <;> rfl

theorem closingFrom_eq (before t : Text) :
    closingFrom (before ++ t) bracket depth before.byteSize =
      .ok ((closeFrom? bracket depth (leadAfter before) t).map fun r =>
        before.byteSize + r.1.byteSize) := by
  generalize same : leadAfter before = lead
  fun_induction closeFrom? bracket depth lead t generalizing before with
  | case1 depth lead t none =>
      rw [closingFrom_step, same, none]
      rfl
  | case2 depth lead t token rest found _ closes =>
      rw [closingFrom_step, same, found, Option.elim_some, if_pos closes]
      rfl
  | case3 depth lead t token rest found _ goesOn ih =>
      have after := ih (before ++ token) (by rw [leadAfter_token (same ▸ found), same])
      rw [List.append_assoc, ← eq_append_of_nextToken? found, Text.byteSize_append] at after
      rw [closingFrom_step, same, found, Option.elim_some, if_neg goesOn, after]
      exact congrArg Except.ok (Text.map_add_byteSize _ token before.byteSize).symm

end Closing

/-- From the place after an opening bracket the search finds the bracket that closes it. -/
theorem closing_eq {bracket : Bracket} {t : Text}
    (h : source.GoesOn offset (bracket.opening :: t)) :
    closing source bracket (offset + 1) =
      .ok ((enclosed? bracket t).map fun r => offset + 1 + r.1.byteSize) := by
  obtain ⟨before, rfl, rfl⟩ := h
  have size : Text.byteSize (before ++ [bracket.opening]) = before.byteSize + 1 := by
    rw [Text.byteSize_append]
    cases bracket <;> rfl
  have fresh : leadAfter (before ++ [bracket.opening]) = .fresh :=
    leadAfter_of_not_word before (by cases bracket <;> decide)
  rw [List.append_cons, closing, ← size, closingFrom_eq, fresh]
  rfl

end Stencil.Offsets
