import Stencil.Offsets.Access
import Stencil.Proofs.Text.Bytes

/-!
Texts by byte offsets. A reader may move an offset over the bytes of a source and look at bytes and
slices there. Here every look is checked: it fails outside of the source, and a slice also at an
offset inside a character. At the boundaries of characters no look fails, and it gives what stands
there in the text.
-/

namespace Stencil

/-- Whether a text goes on with a given text from an offset on. -/
def Text.GoesOn (source : Text) (offset : Nat) (rest : Text) : Prop :=
  ∃ before, source = before ++ rest ∧ before.byteSize = offset

/-- Whether an offset lies between two characters of a text, or at one of its ends. -/
def Text.IsBoundary (source : Text) (offset : Nat) : Prop := ∃ rest, source.GoesOn offset rest

namespace Offsets

/-- Whether bytes go on with given bytes from an offset on. -/
def GoOn (bytes : List UInt8) (offset : Nat) (rest : List UInt8) : Prop :=
  ∃ before, bytes = before ++ rest ∧ before.length = offset

variable {bytes rest more : List UInt8} {offset : Nat} {b : UInt8}

theorem ok_bind {α β : Type} (a : α) (f : α → Checked β) : (Except.ok a >>= f) = f a := rfl

namespace GoOn

theorem skip (h : GoOn bytes offset (more ++ rest)) : GoOn bytes (offset + more.length) rest := by
  obtain ⟨before, rfl, rfl⟩ := h
  exact ⟨before ++ more, (List.append_assoc before more rest).symm, List.length_append⟩

theorem next (h : GoOn bytes offset (b :: rest)) : GoOn bytes (offset + 1) rest := by
  rw [← List.singleton_append] at h
  exact h.skip

theorem length (h : GoOn bytes offset rest) : bytes.length = offset + rest.length := by
  obtain ⟨before, rfl, rfl⟩ := h
  exact List.length_append

theorem lt (h : GoOn bytes offset (b :: rest)) : offset < bytes.length := by
  rw [h.length, List.length_cons]
  omega

theorem drop (h : GoOn bytes offset rest) : bytes.drop offset = rest := by
  obtain ⟨before, rfl, rfl⟩ := h
  exact List.drop_left

theorem getElem? (h : GoOn bytes offset rest) : bytes[offset]? = rest.head? := by
  rw [← h.drop, List.head?_drop]

theorem byteAt (h : GoOn bytes offset (b :: rest)) : byteAt bytes offset = .ok b := by
  rw [Offsets.byteAt, h.getElem?]
  rfl

theorem bytesBetween (h : GoOn bytes offset rest) {n : Nat} (inside : n ≤ rest.length) :
    bytesBetween bytes offset (offset + n) = .ok (rest.take n) := by
  have stop : offset + n ≤ bytes.length := by
    rw [h.length]
    omega
  rw [Offsets.bytesBetween, if_pos ⟨Nat.le_add_right offset n, stop⟩, h.drop, Nat.add_sub_cancel_left]

end GoOn

end Offsets

namespace Text

variable {source rest more : Text} {offset stop : Nat}

namespace GoesOn

theorem zero (source : Text) : source.GoesOn 0 source := ⟨[], rfl, rfl⟩

theorem skip (h : source.GoesOn offset (more ++ rest)) :
    source.GoesOn (offset + more.byteSize) rest := by
  obtain ⟨before, rfl, rfl⟩ := h
  exact ⟨before ++ more, (List.append_assoc before more rest).symm, byteSize_append before more⟩

theorem next {c : Char} (h : source.GoesOn offset (c :: rest)) :
    source.GoesOn (offset + c.utf8Size) rest := by
  rw [← List.singleton_append] at h
  exact h.skip

theorem byteSize (h : source.GoesOn offset rest) : source.byteSize = offset + rest.byteSize := by
  obtain ⟨before, rfl, rfl⟩ := h
  exact byteSize_append before rest

theorem lt_byteSize {c : Char} (h : source.GoesOn offset (c :: rest)) : offset < source.byteSize := by
  have pos := c.utf8Size_pos
  rw [h.byteSize, byteSize_cons]
  omega

theorem goOn (h : source.GoesOn offset rest) : Offsets.GoOn source.encode offset rest.encode := by
  obtain ⟨before, rfl, rfl⟩ := h
  exact ⟨before.encode, encode_append before rest, length_encode before⟩

theorem dropBytes? (h : source.GoesOn offset rest) : source.dropBytes? offset = some rest := by
  obtain ⟨before, rfl, rfl⟩ := h
  exact dropBytes?_byteSize_append before rest

theorem textFrom (h : source.GoesOn offset rest) : Offsets.textFrom source offset = .ok rest := by
  have inside : offset ≤ source.byteSize := by
    rw [h.byteSize]
    omega
  rw [Offsets.textFrom, if_pos inside, h.dropBytes?]

theorem textBetween (h : source.GoesOn offset (more ++ rest)) :
    Offsets.textBetween source offset (offset + more.byteSize) = .ok more := by
  rw [Offsets.textBetween, if_pos (Nat.le_add_right _ _), h.textFrom, h.skip.textFrom]
  change Except.ok _ = _
  rw [List.length_append, Nat.add_sub_cancel, List.take_left]

end GoesOn

theorem GoesOn.exists_byte {c : Char} {t : Text} (h : source.GoesOn offset (c :: t)) :
    ∃ first tail, String.utf8EncodeChar c = first :: tail ∧ (∀ b ∈ tail, 128 ≤ b) ∧
      tail.length + 1 = c.utf8Size ∧ Offsets.GoOn source.encode offset (first :: (tail ++ encode t)) := by
  obtain ⟨first, tail, whole, high⟩ := exists_utf8EncodeChar c
  have size := String.length_utf8EncodeChar c
  have bytes := h.goOn
  rw [whole, List.length_cons] at size
  rw [encode_cons, whole] at bytes
  exact ⟨first, tail, whole, high, size, bytes⟩

theorem GoesOn.byteAt {d : Char} {t : Text} (h : source.GoesOn offset (d :: t))
    (small : d.toNat < 128) : Offsets.byteAt source.encode offset = .ok d.toUInt8 := by
  have goOn := h.goOn
  rw [encode_cons, utf8EncodeChar_of_lt small] at goOn
  exact goOn.byteAt

theorem GoesOn.span {t : Text} (h : source.GoesOn offset t) (p : Char → Bool) :
    source.GoesOn offset (t.takeWhile p ++ t.dropWhile p) := by
  rw [List.takeWhile_append_dropWhile]
  exact h

/-- The byte at an offset is that of a given character of one byte only if this stands there. -/
theorem GoesOn.getElem?_eq_iff {t : Text} {d : Char} (h : source.GoesOn offset t)
    (small : d.toNat < 128) : source.encode[offset]? = some d.toUInt8 ↔ t.head? = some d := by
  cases t with
  | nil =>
      rw [h.goOn.getElem?]
      exact iff_of_false nofun nofun
  | cons c t =>
      obtain ⟨first, tail, whole, -, -, goOn⟩ := h.exists_byte
      rw [goOn.getElem?, List.head?_cons, List.head?_cons, Option.some.injEq, Option.some.injEq]
      exact eq_toUInt8_iff small (whole ▸ List.mem_cons_self)

theorem GoesOn.lt_length {c : Char} {t : Text} (h : source.GoesOn offset (c :: t)) :
    offset < source.encode.length := by
  rw [length_encode]
  exact h.lt_byteSize

theorem GoesOn.not_lt_length (h : source.GoesOn offset []) : ¬ offset < source.encode.length := by
  rw [h.goOn.length]
  exact Nat.lt_irrefl _

end Text

end Stencil
