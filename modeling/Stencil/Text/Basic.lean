/-!
Texts as lists of characters. A position in a text counts the bytes of its UTF-8 form, so that
positions of one source agree between all of its readers.
-/

namespace Stencil

abbrev Text := List Char

instance : Coe String Text := ⟨String.toList⟩

namespace Text

/-- The number of bytes of the UTF-8 form. -/
def byteSize (t : Text) : Nat := t.foldr (fun c n => c.utf8Size + n) 0

@[simp] theorem byteSize_nil : byteSize [] = 0 := rfl

@[simp] theorem byteSize_cons (c : Char) (t : Text) :
    byteSize (c :: t) = c.utf8Size + byteSize t := rfl

@[simp] theorem byteSize_append (s t : Text) : byteSize (s ++ t) = byteSize s + byteSize t := by
  induction s with
  | nil => simp only [List.nil_append, byteSize_nil, Nat.zero_add]
  | cons c s ih => simp only [List.cons_append, byteSize_cons, ih, Nat.add_assoc]

/-- What follows the first `n` bytes. Nothing follows a position past the end, and there is no
answer for a position inside a character. -/
def dropBytes? : Text → Nat → Option Text
  | t, 0 => some t
  | [], _ + 1 => some []
  | c :: t, n + 1 => if c.utf8Size ≤ n + 1 then dropBytes? t (n + 1 - c.utf8Size) else none

theorem dropBytes?_byteSize_append (s t : Text) : dropBytes? (s ++ t) s.byteSize = some t := by
  induction s with
  | nil => cases t <;> rfl
  | cons c s ih =>
      have pos := c.utf8Size_pos
      obtain ⟨n, hn⟩ : ∃ n, byteSize (c :: s) = n + 1 :=
        ⟨byteSize (c :: s) - 1, by simp only [byteSize_cons]; omega⟩
      rw [hn, List.cons_append, dropBytes?]
      simp only [byteSize_cons] at hn
      rw [if_pos (by omega), show n + 1 - c.utf8Size = byteSize s by omega]
      exact ih

def breakOn? (sep : Text) : Text → Option (Text × Text)
  | [] => if sep.isEmpty then some ([], []) else none
  | c :: t =>
      if sep.isPrefixOf (c :: t) then some ([], (c :: t).drop sep.length)
      else (breakOn? sep t).map fun (before, after) => (c :: before, after)

theorem eq_append_of_breakOn? {sep t before after : Text}
    (h : breakOn? sep t = some (before, after)) : t = before ++ sep ++ after := by
  induction t generalizing before with
  | nil =>
      simp only [breakOn?] at h
      split at h
      · obtain ⟨rfl, rfl⟩ := Prod.mk.inj (Option.some.inj h)
        rename_i empty
        simp only [List.isEmpty_iff] at empty
        simp [empty]
      · cases h
  | cons c t ih =>
      simp only [breakOn?] at h
      split at h
      · rename_i first
        obtain ⟨rfl, rfl⟩ := Prod.mk.inj (Option.some.inj h)
        obtain ⟨rest, hrest⟩ := List.isPrefixOf_iff_prefix.mp first
        simp [← hrest]
      · obtain ⟨⟨b, a⟩, hb, he⟩ := Option.map_eq_some_iff.mp h
        obtain ⟨rfl, rfl⟩ := Prod.mk.inj he
        simp [ih hb]

/-- Whether a text comes before another: at their first difference it ends, or has the smaller code
point. -/
def precedes (s t : Text) : Bool := List.lex s t fun a b => decide (a.toNat < b.toNat)

def listPrecedes (s t : List Text) : Bool := List.lex s t precedes

def decimal (n : Nat) : Text := Nat.toDigits 10 n

def joinWith (sep : Text) (ts : List Text) : Text := List.intercalate sep ts

def encode (t : Text) : List UInt8 := t.flatMap String.utf8EncodeChar

/-- The text with a given UTF-8 form, if the bytes are one. -/
def decode? (bytes : List UInt8) : Option Text :=
  (ByteArray.mk bytes.toArray).utf8Decode?.map Array.toList

end Text

end Stencil
