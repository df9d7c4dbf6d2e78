import Stencil.Proofs.Offsets.Literals

/-!
Where literals of embedded code start and end, said of the bytes of a source. Main statements: the
skipping of strings, raw strings and character literals ends at these places and nowhere else.
-/

namespace Stencil.Offsets

open Stencil.Code

/-- Whether an offset is the first one from a start on with a property. -/
structure IsFirst (p : Nat → Prop) (start stop : Nat) : Prop where
  le : start ≤ stop
  holds : p stop
  before : ∀ n, start ≤ n → n < stop → ¬ p n

/-- The inside of a string literal up to an offset: a backslash takes the byte behind it along, and
no other byte is a quote. -/
inductive StringInside (bytes : List UInt8) : Nat → Nat → Prop
  | done {offset} : StringInside bytes offset offset
  | escape {offset stop} : bytes[offset]? = some '\\'.toUInt8 →
      StringInside bytes (offset + 2) stop → StringInside bytes offset stop
  | plain {offset stop b} : bytes[offset]? = some b → b ≠ '\\'.toUInt8 → b ≠ '"'.toUInt8 →
      StringInside bytes (offset + 1) stop → StringInside bytes offset stop

def NoWordBefore (bytes : List UInt8) (offset : Nat) : Prop :=
  ∀ n b, n + 1 = offset → bytes[n]? = some b → isWordByte b = false

/-- Whether no word ends right in front of an offset, or one that is a single `b`. -/
def MayFollow (bytes : List UInt8) (offset : Nat) : Prop :=
  NoWordBefore bytes offset ∨
    ∃ n, n + 1 = offset ∧ bytes[n]? = some 'b'.toUInt8 ∧ NoWordBefore bytes n

/-- Whether a raw string with a number of hashes starts at an offset. -/
structure OpensRaw (bytes : List UInt8) (offset hashes : Nat) : Prop where
  mark : bytes[offset]? = some 'r'.toUInt8
  front : MayFollow bytes offset
  filled : ∀ n < hashes, bytes[offset + 1 + n]? = some '#'.toUInt8
  quote : bytes[offset + 1 + hashes]? = some '"'.toUInt8

/-- Whether a quote with a number of hashes behind it stands at an offset. -/
def ClosesRaw (bytes : List UInt8) (hashes offset : Nat) : Prop :=
  bytes[offset]? = some '"'.toUInt8 ∧ ∀ n < hashes, bytes[offset + 1 + n]? = some '#'.toUInt8

/-- Whether a character literal extends from an offset to another. With a backslash it ends at the
first quote that is three bytes away or more. -/
inductive QuoteLiteral (source : Text) (offset : Nat) : Nat → Prop
  | escaped {stop} : source.encode[offset]? = some '\''.toUInt8 →
      source.encode[offset + 1]? = some '\\'.toUInt8 →
      IsFirst (fun n => source.encode[n]? = some '\''.toUInt8) (offset + 3) stop →
      QuoteLiteral source offset (stop + 1)
  | plain {c : Char} {rest : Text} : source.GoesOn offset ('\'' :: c :: '\'' :: rest) → c ≠ '\\' →
      QuoteLiteral source offset (offset + 2 + c.utf8Size)

variable {source : Text} {bytes : List UInt8} {offset stop next hashes : Nat} {b : UInt8}

section First

variable {p : Nat → Prop}

theorem isFirst_of_here (here : p offset) : IsFirst p offset stop ↔ stop = offset := by
  constructor
  · intro first
    by_contra apart
    exact first.before offset (Nat.le_refl _) (by have := first.le; omega) here
  · rintro rfl
    exact ⟨Nat.le_refl _, here, fun n low high => absurd low (Nat.not_le_of_lt high)⟩

theorem isFirst_of_not_here (elsewhere : ¬ p offset) :
    IsFirst p offset stop ↔ IsFirst p (offset + 1) stop := by
  constructor
  · intro first
    refine ⟨Nat.lt_of_le_of_ne first.le ?_, first.holds, fun n low => first.before n (by omega)⟩
    rintro rfl
    exact elsewhere first.holds
  · intro first
    refine ⟨Nat.le_of_succ_le first.le, first.holds, fun n low high => ?_⟩
    rcases Nat.eq_or_lt_of_le low with rfl | later
    · exact elsewhere
    · exact first.before n later high

end First

theorem exists_goOn (h : bytes[offset]? = some b) : ∃ rest, GoOn bytes offset (b :: rest) := by
  obtain ⟨bound, rfl⟩ := List.getElem?_eq_some_iff.mp h
  refine ⟨bytes.drop (offset + 1), bytes.take offset, ?_, List.length_take_of_le (Nat.le_of_lt bound)⟩
  rw [← List.drop_eq_getElem_cons bound, List.take_append_drop]

theorem lt_length_of_getElem? (h : bytes[offset]? = some b) : offset < bytes.length :=
  (List.getElem?_eq_some_iff.mp h).1

section Strings

theorem StringInside.le (h : StringInside bytes offset stop) : offset ≤ stop := by
  induction h with
  | done => exact Nat.le_refl _
  | escape _ _ ih => omega
  | plain _ _ _ _ ih => omega

theorem skipString_of_some (h : bytes[offset]? = some b) :
    skipString bytes offset =
      if b = '\\'.toUInt8 then skipString bytes (offset + 2)
      else if b = '"'.toUInt8 then .ok (some (offset + 1))
      else skipString bytes (offset + 1) := by
  obtain ⟨rest, goOn⟩ := exists_goOn h
  exact skipString_of_goOn goOn

/-- A string literal ends at the quote behind its inside. -/
theorem skipString_spec (bytes : List UInt8) (offset : Nat) :
    ∃ found, skipString bytes offset = .ok found ∧ ∀ next, found = some next ↔
      ∃ stop, StringInside bytes offset stop ∧ bytes[stop]? = some '"'.toUInt8 ∧
        next = stop + 1 := by
  cases here : bytes[offset]? with
  | none =>
      have past := List.getElem?_eq_none_iff.mp here
      refine ⟨none, skipString_of_le past, fun next => iff_of_false (Option.some_ne_none next).symm ?_⟩
      rintro ⟨stop, inside, quote, -⟩
      have bound := lt_length_of_getElem? quote
      have ordered := inside.le
      omega
  | some b =>
      have bound := lt_length_of_getElem? here
      rw [skipString_of_some here]
      by_cases escape : b = '\\'.toUInt8
      · subst escape
        obtain ⟨found, skipped, ends⟩ := skipString_spec bytes (offset + 2)
        refine ⟨found, skipped, fun next => (ends next).trans (exists_congr fun stop => ?_)⟩
        refine and_congr_left fun ⟨quote, _⟩ => ⟨.escape here, fun inside => ?_⟩
        cases inside with
        | done => cases here.symm.trans quote
        | escape _ later => exact later
        | plain other noEscape _ _ => exact absurd (Option.some.inj (other.symm.trans here)) noEscape
      · rw [if_neg escape]
        by_cases quote : b = '"'.toUInt8
        · subst quote
          refine ⟨some (offset + 1), rfl, fun next => ?_⟩
          rw [Option.some.injEq]
          constructor
          · rintro rfl
            exact ⟨offset, .done, here, rfl⟩
          · rintro ⟨stop, inside, -, rfl⟩
            cases inside with
            | done => rfl
            | escape other _ => exact absurd (Option.some.inj (here.symm.trans other)) escape
            | plain other _ noQuote _ => exact absurd (Option.some.inj (other.symm.trans here)) noQuote
        · rw [if_neg quote]
          obtain ⟨found, skipped, ends⟩ := skipString_spec bytes (offset + 1)
          refine ⟨found, skipped, fun next => (ends next).trans (exists_congr fun stop => ?_)⟩
          refine and_congr_left fun ⟨closing, _⟩ => ⟨.plain here escape quote, fun inside => ?_⟩
          cases inside with
          | done => exact absurd (Option.some.inj (here.symm.trans closing)) quote
          | escape other _ => exact absurd (Option.some.inj (here.symm.trans other)) escape
          | plain _ _ _ later => exact later
termination_by bytes.length - offset

end Strings

section Raw

theorem noWordBefore_zero (bytes : List UInt8) : NoWordBefore bytes 0 := by
  intro n b front
  cases front

theorem noWordBefore_succ {n : Nat} (h : bytes[n]? = some b) :
    NoWordBefore bytes (n + 1) ↔ isWordByte b = false := by
  constructor
  · intro free
    exact free n b rfl h
  · intro other m c front found
    cases front
    cases h.symm.trans found
    exact other

theorem byteAt_of_some (h : bytes[offset]? = some b) : byteAt bytes offset = .ok b := by
  rw [byteAt, h]

theorem mayOpenRaw_spec (inside : offset ≤ bytes.length) :
    ∃ answer, mayOpenRaw bytes offset = .ok answer ∧ (answer = true ↔ MayFollow bytes offset) := by
  cases offset with
  | zero => exact ⟨true, rfl, iff_of_true rfl (.inl (noWordBefore_zero bytes))⟩
  | succ n =>
      have found : bytes[n]? = some bytes[n] := List.getElem?_eq_getElem inside
      generalize bytes[n] = before at found
      rw [mayOpenRaw, if_neg (Nat.succ_ne_zero n), difference_of_le (Nat.le_add_left 1 n), ok_bind,
        Nat.add_sub_cancel, byteAt_of_some found, ok_bind]
      by_cases mark : before = 'b'.toUInt8
      · subst mark
        have word : ¬ NoWordBefore bytes (n + 1) := by
          rw [noWordBefore_succ found]
          decide
        have follow : MayFollow bytes (n + 1) ↔ NoWordBefore bytes n := by
          constructor
          · rintro (free | ⟨m, front, -, free⟩)
            · exact absurd free word
            · cases front
              exact free
          · intro free
            exact .inr ⟨n, rfl, found, free⟩
        rw [if_pos rfl, follow]
        cases n with
        | zero => exact ⟨true, rfl, iff_of_true rfl (noWordBefore_zero bytes)⟩
        | succ m =>
            have earlier : bytes[m]? = some bytes[m] :=
              List.getElem?_eq_getElem (Nat.lt_of_succ_lt inside)
            generalize bytes[m] = first at earlier
            rw [if_neg (by omega), difference_of_le (by omega), ok_bind]
            change ∃ answer, (byteAt bytes m >>= fun first => pure (!isWordByte first)) = .ok answer ∧ _
            rw [byteAt_of_some earlier, noWordBefore_succ earlier]
            exact ⟨!isWordByte first, rfl, iff_of_eq (Bool.not_eq_true' _)⟩
      · rw [if_neg mark]
        refine ⟨!isWordByte before, rfl, ?_⟩
        rw [Bool.not_eq_true', ← noWordBefore_succ found]
        constructor
        · exact .inl
        · rintro (free | ⟨m, front, other, -⟩)
          · exact free
          · cases front
            exact absurd (Option.some.inj (found.symm.trans other)) mark

theorem filled_iff {l : List UInt8} {n : Nat} : (∀ k < n, l[k]? = some b) ↔
    n ≤ l.length ∧ (l.take n).all (· == b) = true := by
  induction n generalizing l with
  | zero => exact iff_of_true (fun n h => absurd h (Nat.not_lt_zero n)) ⟨Nat.zero_le _, rfl⟩
  | succ n ih =>
      rw [Nat.forall_lt_succ_left]
      cases l with
      | nil => exact iff_of_false (fun h => nomatch h.1) fun h => Nat.not_succ_le_zero n h.1
      | cons c l =>
          simp only [List.getElem?_cons_zero, List.getElem?_cons_succ, Option.some.injEq, ih,
            List.length_cons, Nat.add_le_add_iff_right, List.take_succ_cons, List.all_cons,
            Bool.and_eq_true, beq_iff_eq]
          exact and_left_comm

theorem filled_takeWhile_iff {l : List UInt8} {c : UInt8} (apart : b ≠ c) {n : Nat}
    (ends : l[n]? = some c) :
    (∀ k < n, l[k]? = some b) ↔ n = (l.takeWhile (· == b)).length := by
  induction n generalizing l with
  | zero =>
      cases l with
      | nil => cases ends
      | cons d l =>
          cases Option.some.inj ends
          rw [List.takeWhile_cons_of_neg (by simpa using apart.symm)]
          exact iff_of_true nofun rfl
  | succ n ih =>
      rw [Nat.forall_lt_succ_left]
      cases l with
      | nil => cases ends
      | cons d l =>
          by_cases same : d = b
          · subst same
            rw [List.takeWhile_cons_of_pos (p := (· == d)) (beq_self_eq_true d), List.length_cons,
              Nat.add_right_cancel_iff, ← ih ends]
            exact and_iff_right rfl
          · rw [List.takeWhile_cons_of_neg (by simpa using same)]
            exact iff_of_false (fun h => same (Option.some.inj h.1)) nofun

theorem bytesBetween_of_le {start : Nat} (inside : start ≤ bytes.length) :
    bytesBetween bytes start bytes.length = .ok (bytes.drop start) := by
  rw [bytesBetween, if_pos ⟨inside, Nat.le_refl _⟩, ← List.length_drop, List.take_length]

/-- The hashes are counted where a raw string starts. -/
theorem rawHashes?_spec (inside : offset < bytes.length) :
    ∃ found, rawHashes? bytes offset = .ok found ∧ ∀ n, found = some n ↔ OpensRaw bytes offset n := by
  have here : bytes[offset]? = some bytes[offset] := List.getElem?_eq_getElem inside
  generalize bytes[offset] = b at here
  rw [rawHashes?, byteAt_of_some here, ok_bind]
  by_cases mark : b = 'r'.toUInt8
  · subst mark
    obtain ⟨answer, decided, follows⟩ := mayOpenRaw_spec (Nat.le_of_lt inside)
    rw [if_pos rfl, decided, ok_bind]
    cases answer with
    | false =>
        refine ⟨none, rfl, fun n => iff_of_false (Option.some_ne_none n).symm fun opens => ?_⟩
        cases follows.mpr opens.front
    | true =>
        rw [if_pos rfl, bytesBetween_of_le inside, ok_bind]
        refine ⟨_, rfl, fun n => ?_⟩
        have place (k : Nat) : bytes[offset + 1 + k]? = (bytes.drop (offset + 1))[k]? :=
          List.getElem?_drop.symm
        have opens : OpensRaw bytes offset n ↔
            (∀ k < n, (bytes.drop (offset + 1))[k]? = some '#'.toUInt8) ∧
              (bytes.drop (offset + 1))[n]? = some '"'.toUInt8 := by
          simp only [← place]
          constructor
          · intro opens
            exact ⟨opens.filled, opens.quote⟩
          · rintro ⟨filled, quote⟩
            exact ⟨here, follows.mp rfl, filled, quote⟩
        rw [opens, place]
        constructor
        · intro found
          split at found
          · rename_i quote
            cases found
            exact ⟨(filled_takeWhile_iff (by decide) quote).mpr rfl, quote⟩
          · cases found
        · rintro ⟨filled, quote⟩
          rw [← (filled_takeWhile_iff (by decide) quote).mp filled, if_pos quote]
  · rw [if_neg mark]
    refine ⟨none, rfl, fun n => iff_of_false (Option.some_ne_none n).symm fun opens => mark ?_⟩
    exact Option.some.inj (here.symm.trans opens.mark)

theorem closesRaw_spec (hashes : Nat) (inside : offset < bytes.length) :
    ∃ answer, closesRaw bytes hashes offset = .ok answer ∧
      (answer = true ↔ ClosesRaw bytes hashes offset) := by
  have here : bytes[offset]? = some bytes[offset] := List.getElem?_eq_getElem inside
  generalize bytes[offset] = b at here
  have filled : (∀ n < hashes, bytes[offset + 1 + n]? = some '#'.toUInt8) ↔
      offset + 1 + hashes ≤ bytes.length ∧
        ((bytes.drop (offset + 1)).take hashes).all (· == '#'.toUInt8) = true := by
    simp only [← List.getElem?_drop]
    rw [filled_iff, List.length_drop]
    exact and_congr_left fun _ => by omega
  rw [closesRaw, byteAt_of_some here, ok_bind]
  by_cases both : b = '"'.toUInt8 ∧ offset + 1 + hashes ≤ bytes.length
  · rw [if_pos both, bytesBetween, if_pos ⟨Nat.le_add_right _ _, both.2⟩, ok_bind,
      Nat.add_sub_cancel_left]
    refine ⟨_, rfl, ?_⟩
    rw [ClosesRaw, filled, here, both.1]
    exact ⟨fun every => ⟨rfl, both.2, every⟩, fun closes => closes.2.2⟩
  · rw [if_neg both]
    refine ⟨false, rfl, iff_of_false Bool.false_ne_true fun closes => both ⟨?_, ?_⟩⟩
    · exact Option.some.inj (here.symm.trans closes.1)
    · exact (filled.mp closes.2).1

/-- A raw string ends behind the first quote with enough hashes. -/
theorem skipRaw_spec (bytes : List UInt8) (hashes offset : Nat) :
    ∃ found, skipRaw bytes hashes offset = .ok found ∧ ∀ next, found = some next ↔
      ∃ stop, IsFirst (ClosesRaw bytes hashes) offset stop ∧ next = stop + 1 + hashes := by
  by_cases inside : offset < bytes.length
  · obtain ⟨answer, decided, closes⟩ := closesRaw_spec hashes inside
    rw [skipRaw, if_pos inside, decided, ok_bind]
    cases answer with
    | true =>
        refine ⟨some (offset + 1 + hashes), rfl, fun next => ?_⟩
        simp only [isFirst_of_here (closes.mp rfl), exists_eq_left, Option.some.injEq]
        exact eq_comm
    | false =>
        obtain ⟨found, skipped, ends⟩ := skipRaw_spec bytes hashes (offset + 1)
        refine ⟨found, skipped, fun next => ?_⟩
        have elsewhere : ¬ ClosesRaw bytes hashes offset := mt closes.mpr Bool.false_ne_true
        simp only [isFirst_of_not_here elsewhere]
        exact ends next
  · rw [skipRaw, if_neg inside]
    refine ⟨none, rfl, fun next => iff_of_false (Option.some_ne_none next).symm ?_⟩
    rintro ⟨stop, first, -⟩
    have bound := lt_length_of_getElem? first.holds.1
    have ordered := first.le
    omega
termination_by bytes.length - offset

end Raw

section Quotes

/-- Where the byte of a character of one byte stands, this character stands. -/
theorem exists_goesOn {d : Char} (small : d.toNat < 128)
    (h : source.encode[offset]? = some d.toUInt8) : ∃ rest, source.GoesOn offset (d :: rest) := by
  induction source generalizing offset with
  | nil => cases h
  | cons c t ih =>
      have size := String.length_utf8EncodeChar c
      rw [Text.encode_cons] at h
      by_cases first : offset < c.utf8Size
      · rw [List.getElem?_append_left (by omega)] at h
        have same := (Text.eq_toUInt8_iff small (List.mem_of_getElem? h)).mp rfl
        subst same
        rw [Text.utf8EncodeChar_of_lt small, List.length_singleton] at size
        obtain rfl : offset = 0 := by omega
        exact ⟨t, .zero _⟩
      · rw [List.getElem?_append_right (by omega), size] at h
        obtain ⟨rest, before, rfl, place⟩ := ih h
        refine ⟨rest, c :: before, rfl, ?_⟩
        rw [Text.byteSize_cons, place]
        omega

theorem findIdx?_drop_iff {start n : Nat} :
    (bytes.drop start).findIdx? (· == b) = some n ↔
      IsFirst (fun m => bytes[m]? = some b) start (start + n) := by
  have at' (m : Nat) : bytes[start + m]? = (bytes.drop start)[m]? := List.getElem?_drop.symm
  rw [List.findIdx?_eq_some_iff_getElem]
  constructor
  · rintro ⟨bound, here, before⟩
    refine ⟨Nat.le_add_right _ _, ?_, fun m low high => ?_⟩
    · rw [at', List.getElem?_eq_getElem bound, beq_iff_eq.mp here]
    · obtain ⟨k, rfl⟩ := Nat.exists_eq_add_of_le low
      have smaller : k < n := by omega
      rw [at', List.getElem?_eq_getElem (Nat.lt_trans smaller bound), Option.some.injEq]
      exact fun same => before k smaller (beq_iff_eq.mpr same)
  · rintro ⟨-, here, before⟩
    rw [at'] at here
    obtain ⟨bound, same⟩ := List.getElem?_eq_some_iff.mp here
    refine ⟨bound, beq_iff_eq.mpr same, fun k smaller equal => ?_⟩
    refine before (start + k) (Nat.le_add_right _ _) (by omega) ?_
    rw [at', List.getElem?_eq_getElem (Nat.lt_trans smaller bound), beq_iff_eq.mp equal]

theorem skipQuote_of_escape (escape : source.encode[offset + 1]? = some '\\'.toUInt8) :
    skipQuote source offset =
      .ok (((source.encode.drop (offset + 3)).findIdx? (· == '\''.toUInt8)).elim (offset + 1)
        fun n => offset + 3 + n + 1) := by
  have slice : bytesBetween source.encode (min (offset + 3) source.encode.length)
      source.encode.length = .ok (source.encode.drop (offset + 3)) := by
    rw [bytesBetween_of_le (Nat.min_le_right _ _)]
    rcases Nat.le_total (offset + 3) source.encode.length with inside | past
    · rw [Nat.min_eq_left inside]
    · rw [Nat.min_eq_right past, List.drop_length, List.drop_of_length_le past]
  rw [skipQuote, if_pos escape, slice, ok_bind]
  cases (source.encode.drop (offset + 3)).findIdx? (· == '\''.toUInt8) with
  | none => rfl
  | some n => rfl

theorem QuoteLiteral.skipQuote (h : QuoteLiteral source offset stop) :
    skipQuote source offset = .ok stop := by
  cases h with
  | escaped quote escape first =>
      obtain ⟨n, rfl⟩ := Nat.exists_eq_add_of_le first.le
      rw [skipQuote_of_escape escape, findIdx?_drop_iff.mpr first]
      rfl
  | plain place other => rw [plainQuote_eq place other, List.head?_cons, if_pos rfl]

/-- Where no character literal starts, the quote alone is skipped. -/
theorem skipQuote_of_alone (quote : source.encode[offset]? = some '\''.toUInt8)
    (alone : ∀ stop, ¬ QuoteLiteral source offset stop) :
    Offsets.skipQuote source offset = .ok (offset + 1) := by
  obtain ⟨t, place⟩ := exists_goesOn (by decide) quote
  have behind : source.GoesOn (offset + 1) t := place.next
  by_cases escape : source.encode[offset + 1]? = some '\\'.toUInt8
  · rw [skipQuote_of_escape escape]
    cases found : (source.encode.drop (offset + 3)).findIdx? (· == '\''.toUInt8) with
    | none => rfl
    | some n => exact absurd (.escaped quote escape (findIdx?_drop_iff.mp found)) (alone _)
  · cases t with
    | nil =>
        rw [skipQuote, if_neg escape, behind.textFrom]
        rfl
    | cons c t =>
        have other : c ≠ '\\' := by
          rintro rfl
          exact escape ((behind.getElem?_eq_iff (by decide)).mpr rfl)
        rw [plainQuote_eq place other, if_neg]
        intro closes
        obtain ⟨rest, rfl⟩ := List.head?_eq_some_iff.mp closes
        exact alone _ (.plain place other)

theorem QuoteLiteral.lt (h : QuoteLiteral source offset stop) : offset < stop := by
  cases h with
  | escaped _ _ first =>
      have far := first.le
      omega
  | plain _ _ => omega

theorem QuoteLiteral.quote (h : QuoteLiteral source offset stop) :
    source.encode[offset]? = some '\''.toUInt8 := by
  cases h with
  | escaped quote _ _ => exact quote
  | plain place _ => exact (place.getElem?_eq_iff (by decide)).mpr rfl

end Quotes

end Stencil.Offsets
