import Stencil.Text.Basic

/-!
The bytes of a text. A byte of a character of one byte is found nowhere else in the UTF-8 form, so a
search for such a byte finds the first such character.
-/

namespace Stencil.Text

theorem byteSize_replicate {c : Char} (narrow : c.utf8Size = 1) (n : Nat) :
    byteSize (List.replicate n c) = n := by
  induction n with
  | zero => rfl
  | succ n ih => rw [List.replicate_succ, byteSize_cons, narrow, ih, Nat.add_comm]

theorem byteSize_pos {t : Text} (nonempty : t ≠ []) : 0 < t.byteSize := by
  cases t with
  | nil => exact absurd rfl nonempty
  | cons c t => exact Nat.lt_of_lt_of_le c.utf8Size_pos (Nat.le_add_right _ _)

theorem exists_of_dropBytes? {t rest : Text} {n : Nat} (h : t.dropBytes? n = some rest)
    (inside : n ≤ t.byteSize) : ∃ before, t = before ++ rest ∧ before.byteSize = n := by
  fun_induction dropBytes? t n with
  | case1 t =>
      cases h
      exact ⟨[], rfl, rfl⟩
  | case2 n => exact absurd inside (Nat.not_succ_le_zero n)
  | case3 c t n fits ih =>
      rw [byteSize_cons] at inside
      obtain ⟨before, rfl, size⟩ := ih h (by omega)
      refine ⟨c :: before, rfl, ?_⟩
      rw [byteSize_cons]
      omega
  | case4 => cases h

theorem dropBytes?_of_le {t : Text} {n : Nat} (past : t.byteSize ≤ n) :
    t.dropBytes? n = some [] := by
  fun_induction dropBytes? t n with
  | case1 t =>
      cases t with
      | nil => rfl
      | cons c t => exact absurd past (Nat.not_le_of_lt (byteSize_pos (List.cons_ne_nil c t)))
  | case2 n => rfl
  | case3 c t n fits ih =>
      rw [byteSize_cons] at past
      exact ih (by omega)
  | case4 c t n short =>
      rw [byteSize_cons] at past
      omega

theorem encode_cons (c : Char) (t : Text) : encode (c :: t) = String.utf8EncodeChar c ++ encode t :=
  List.flatMap_cons

theorem encode_append (s t : Text) : encode (s ++ t) = encode s ++ encode t := List.flatMap_append

theorem length_encode (t : Text) : (encode t).length = t.byteSize := by
  induction t with
  | nil => rfl
  | cons c t ih => rw [encode_cons, List.length_append, String.length_utf8EncodeChar, ih, byteSize_cons]

theorem toByteArray_encode (t : Text) : ByteArray.mk (encode t).toArray = t.utf8Encode := by
  apply ByteArray.ext
  rw [List.utf8Encode]
  exact List.data_toByteArray.symm

/-- Bytes are read as the text whose UTF-8 form they are. -/
theorem decode?_eq_some_iff {bytes : List UInt8} {t : Text} :
    decode? bytes = some t ↔ bytes = encode t := by
  rw [decode?, Option.map_eq_some_iff]
  constructor
  · rintro ⟨chars, decoded, rfl⟩
    have whole := ByteArray.utf8Encode_get_utf8Decode? (b := ByteArray.mk bytes.toArray)
      (h := decoded ▸ rfl)
    simp only [decoded, Option.get_some] at whole
    rw [← toByteArray_encode] at whole
    have data := congrArg (fun b => b.data.toList) whole
    simpa using data.symm
  · rintro rfl
    refine ⟨t.toArray, ?_, rfl⟩
    rw [toByteArray_encode]
    exact List.utf8Decode?_utf8Encode

/-- Where a part ends, if more text stands in front of it. -/
theorem map_add_byteSize (parts : Option (Text × Text)) (more : Text) (offset : Nat) :
    ((parts.map fun r => (more ++ r.1, r.2)).map fun r => offset + r.1.byteSize) =
      parts.map fun r => offset + more.byteSize + r.1.byteSize := by
  cases parts with
  | none => rfl
  | some r => simp only [Option.map_some, Text.byteSize_append, Nat.add_assoc]

variable {b : UInt8} {c d : Char} {p : Char → Bool}

theorem utf8EncodeChar_of_lt (small : c.toNat < 128) : String.utf8EncodeChar c = [c.toUInt8] := by
  have bound : c.val.toNat ≤ 127 := Nat.le_of_lt_succ small
  rw [String.utf8EncodeChar, if_pos bound]
  rfl

theorem le_of_mem_utf8EncodeChar (large : 128 ≤ c.toNat) :
    ∀ b ∈ String.utf8EncodeChar c, 128 ≤ b := by
  have bound : ¬ c.val.toNat ≤ 127 := Nat.not_le_of_lt large
  have high {n : Nat} (low : 128 ≤ n) (top : n < 256) : (128 : UInt8) ≤ UInt8.ofNat n := by
    rw [UInt8.le_iff_toNat_le, UInt8.toNat_ofNat_of_lt' top]
    exact low
  intro b member
  rw [String.utf8EncodeChar, if_neg bound] at member
  split at member
  · simp only [List.mem_cons, List.not_mem_nil, or_false] at member
    rcases member with rfl | rfl <;> exact high (by omega) (by omega)
  · split at member
    · simp only [List.mem_cons, List.not_mem_nil, or_false] at member
      rcases member with rfl | rfl | rfl <;> exact high (by omega) (by omega)
    · simp only [List.mem_cons, List.not_mem_nil, or_false] at member
      rcases member with rfl | rfl | rfl | rfl <;> exact high (by omega) (by omega)

/-- A character has a first byte, and its other bytes belong to no character of one byte. -/
theorem exists_utf8EncodeChar (c : Char) :
    ∃ first tail, String.utf8EncodeChar c = first :: tail ∧ ∀ b ∈ tail, 128 ≤ b := by
  by_cases small : c.toNat < 128
  · exact ⟨c.toUInt8, [], utf8EncodeChar_of_lt small, List.forall_mem_nil _⟩
  · have high := le_of_mem_utf8EncodeChar (Nat.le_of_not_lt small)
    have nonempty : String.utf8EncodeChar c ≠ [] := by
      intro empty
      have size := String.length_utf8EncodeChar c
      rw [empty, List.length_nil] at size
      exact absurd size.symm (Nat.ne_of_gt c.utf8Size_pos)
    obtain ⟨first, tail, whole⟩ := List.exists_cons_of_ne_nil nonempty
    rw [whole] at high
    exact ⟨first, tail, whole, fun b member => high b (List.mem_cons_of_mem first member)⟩

theorem toUInt8_inj (smallC : c.toNat < 128) (smallD : d.toNat < 128) :
    c.toUInt8 = d.toUInt8 ↔ c = d := by
  constructor
  · intro same
    have low := congrArg UInt8.toNat same
    change c.val.toNat % 256 = d.val.toNat % 256 at low
    change c.val.toNat < 128 at smallC
    change d.val.toNat < 128 at smallD
    apply Char.ext
    apply UInt32.toNat.inj
    omega
  · exact congrArg Char.toUInt8

theorem ne_toUInt8_of_le (high : 128 ≤ b) (small : d.toNat < 128) : b ≠ d.toUInt8 := by
  rintro rfl
  have large := UInt8.le_iff_toNat_le.mp high
  change 128 ≤ d.val.toNat % 256 at large
  change d.val.toNat < 128 at small
  omega

/-- A byte of a character is that of a given character of one byte only if this is the one. -/
theorem eq_toUInt8_iff (small : d.toNat < 128) (member : b ∈ String.utf8EncodeChar c) :
    b = d.toUInt8 ↔ c = d := by
  by_cases single : c.toNat < 128
  · rw [utf8EncodeChar_of_lt single, List.mem_singleton] at member
    rw [member, toUInt8_inj single small]
  · have high := le_of_mem_utf8EncodeChar (Nat.le_of_not_lt single) b member
    refine iff_of_false (ne_toUInt8_of_le high small) ?_
    rintro rfl
    exact single small

/-- Whether a test of bytes gives, for every byte of a character, what a test of characters gives
for the character. -/
def Agrees (test : UInt8 → Bool) (p : Char → Bool) : Prop :=
  ∀ c, ∀ b ∈ String.utf8EncodeChar c, test b = p c

variable {test : UInt8 → Bool}

theorem agrees_beq (small : d.toNat < 128) : Agrees (· == d.toUInt8) (· == d) := by
  intro c b member
  rw [Bool.eq_iff_iff, beq_iff_eq, beq_iff_eq]
  exact eq_toUInt8_iff small member

/-- A test for characters of one byte agrees with itself on bytes. -/
theorem agrees_ofUInt8 (narrow : ∀ c, 128 ≤ c.toNat → p c = false) :
    Agrees (fun b => p (Char.ofUInt8 b)) p := by
  intro c b member
  change p (Char.ofUInt8 b) = p c
  by_cases small : c.toNat < 128
  · rw [utf8EncodeChar_of_lt small, List.mem_singleton] at member
    have same : Char.ofUInt8 c.toUInt8 = c := by
      apply Char.ext
      apply UInt32.toNat.inj
      change c.val.toNat % 256 = c.val.toNat
      change c.val.toNat < 128 at small
      omega
    rw [member, same]
  · have large := Nat.le_of_not_lt small
    have high := UInt8.le_iff_toNat_le.mp (le_of_mem_utf8EncodeChar large b member)
    rw [narrow c large, narrow (Char.ofUInt8 b) high]

theorem Agrees.takeWhile_encode (agrees : Agrees test p) (t : Text) :
    (encode t).takeWhile test = encode (t.takeWhile p) := by
  induction t with
  | nil => rfl
  | cons c t ih =>
      rw [encode_cons, List.takeWhile_cons]
      cases holds : p c with
      | true =>
          rw [List.takeWhile_append_of_pos fun b member => (agrees c b member).trans holds, ih]
          exact (encode_cons c _).symm
      | false =>
          obtain ⟨first, tail, whole, -⟩ := exists_utf8EncodeChar c
          have fails := (agrees c first (whole ▸ List.mem_cons_self)).trans holds
          rw [whole, List.cons_append, List.takeWhile_cons_of_neg (Bool.eq_false_iff.mp fails)]
          rfl

/-- The first byte that passes a test is the first byte of the first character that passes it. -/
theorem Agrees.findIdx_encode (agrees : Agrees test p) (t : Text) :
    (encode t).findIdx test = byteSize (t.takeWhile (!p ·)) := by
  induction t with
  | nil => rfl
  | cons c t ih =>
      rw [encode_cons, List.takeWhile_cons]
      cases holds : p c with
      | true =>
          obtain ⟨first, tail, whole, -⟩ := exists_utf8EncodeChar c
          have passes := (agrees c first (whole ▸ List.mem_cons_self)).trans holds
          rw [whole, List.cons_append, List.findIdx_cons, passes]
          rfl
      | false =>
          have none : (String.utf8EncodeChar c).findIdx test = c.utf8Size := by
            rw [← String.length_utf8EncodeChar, List.findIdx_eq_length]
            exact fun b member => (agrees c b member).trans holds
          rw [List.findIdx_append, none, String.length_utf8EncodeChar, if_neg (Nat.lt_irrefl _), ih,
            Nat.add_comm]
          rfl

theorem findIdx?_encode (small : d.toNat < 128) (t : Text) :
    (encode t).findIdx? (· == d.toUInt8) = (breakOn? [d] t).map fun r => r.1.byteSize := by
  induction t with
  | nil => rfl
  | cons c t ih =>
      have agrees := agrees_beq small c
      rw [encode_cons, List.findIdx?_append, ih, String.length_utf8EncodeChar, breakOn?]
      by_cases same : c = d
      · subst same
        have first : [c].isPrefixOf (c :: t) = true := by
          rw [List.isPrefixOf_cons_cons, beq_self_eq_true]
          rfl
        rw [utf8EncodeChar_of_lt small, if_pos first]
        simp
      · have other : ¬ [d].isPrefixOf (c :: t) = true := by
          rw [List.isPrefixOf_iff_prefix, List.cons_prefix_cons]
          exact fun h => same h.1.symm
        have none : (String.utf8EncodeChar c).findIdx? (· == d.toUInt8) = none := by
          rw [List.findIdx?_eq_none_iff]
          exact fun b member => (agrees b member).trans (beq_eq_false_iff_ne.mpr same)
        rw [none, if_neg other]
        cases breakOn? [d] t with
        | none => rfl
        | some parts => exact congrArg some (Nat.add_comm _ _)

theorem Agrees.head?_encode (agrees : Agrees test p) (t : Text) :
    (encode t).head?.any test = t.head?.any p := by
  cases t with
  | nil => rfl
  | cons c t =>
      obtain ⟨first, tail, whole, -⟩ := exists_utf8EncodeChar c
      rw [encode_cons, whole]
      exact agrees c first (whole ▸ List.mem_cons_self)

end Stencil.Text
