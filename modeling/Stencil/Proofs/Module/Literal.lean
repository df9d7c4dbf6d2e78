import Stencil.Module.Literal
import Stencil.Proofs.Offsets.Literals

/-!
String literals read back. Main statement: a literal ends at the quote written behind its escaped
text, whatever follows, its value is the text it was written for, and the skipping of strings in
embedded code ends at the same quote.
-/

namespace Stencil.Module

def hexValue? (c : Char) : Option Nat :=
  if '0' ≤ c ∧ c ≤ '9' then some (c.toNat - '0'.toNat)
  else if 'a' ≤ c ∧ c ≤ 'f' then some (c.toNat - 'a'.toNat + 10)
  else if 'A' ≤ c ∧ c ≤ 'F' then some (c.toNat - 'A'.toNat + 10)
  else none

/-- The character with a code point of one to six hexadecimal digits. -/
def ofHex? (digits : Text) : Option Char :=
  if digits.length = 0 ∨ 6 < digits.length then none
  else do
    let n ← digits.foldlM (fun n c => (hexValue? c).map (16 * n + ·)) 0
    if n.isValidChar then some (Char.ofNat n) else none

/-- The character of an escape and what follows it, given what follows the backslash. -/
def escaped? : Text → Option (Char × Text)
  | '\\' :: t => some ('\\', t)
  | '"' :: t => some ('"', t)
  | 'n' :: t => some ('\n', t)
  | 't' :: t => some ('\t', t)
  | 'r' :: t => some ('\r', t)
  | 'u' :: '{' :: t => (Text.breakOn? ['}'] t).bind fun r => (ofHex? r.1).map (·, r.2)
  | _ => none

/-- The first character of a literal's value, and what is left of the literal. A quote, and a
carriage return that is not escaped, are none. -/
def element? : Text → Option (Char × Text)
  | [] => none
  | '"' :: _ => none
  | '\r' :: _ => none
  | '\\' :: t => escaped? t
  | c :: t => some (c, t)

theorem length_lt_of_escaped? {t rest : Text} {c : Char} (h : escaped? t = some (c, rest)) :
    rest.length < t.length := by
  fun_cases escaped? t with
  | case6 t =>
      obtain ⟨parts, found, made⟩ := Option.bind_eq_some_iff.mp h
      obtain ⟨c, -, same⟩ := Option.map_eq_some_iff.mp made
      obtain ⟨rfl, rfl⟩ := Prod.mk.inj same
      rw [Text.eq_append_of_breakOn? found]
      simp only [List.length_cons, List.length_append]
      omega
  | case7 => simp only [escaped?, reduceCtorEq] at h
  | _ =>
      obtain ⟨rfl, rfl⟩ := Prod.mk.inj (Option.some.inj h)
      exact Nat.lt_succ_self _

theorem length_lt_of_element? {t rest : Text} {c : Char} (h : element? t = some (c, rest)) :
    rest.length < t.length := by
  fun_cases element? t with
  | case1 => cases h
  | case2 => cases h
  | case3 => cases h
  | case4 t => exact Nat.lt_succ_of_lt (length_lt_of_escaped? h)
  | case5 c t quote feed backslash =>
      simp only [element?] at h
      obtain ⟨rfl, rfl⟩ := Prod.mk.inj (Option.some.inj h)
      exact Nat.lt_succ_self _

/-- The value of a literal up to its closing quote, and what follows the quote. -/
def value? (t : Text) : Option (Text × Text) :=
  if t.head? = some '"' then some ([], t.tail)
  else
    match h : element? t with
    | none => none
    | some (c, rest) =>
        have := length_lt_of_element? h
        (value? rest).map fun r => (c :: r.1, r.2)
termination_by t.length

def readLiteral? : Text → Option (Text × Text)
  | '"' :: t => value? t
  | _ => none

theorem value?_of_element? {t rest : Text} {c : Char} (h : element? t = some (c, rest)) :
    value? t = (value? rest).map fun r => (c :: r.1, r.2) := by
  have noQuote : t.head? ≠ some '"' := by
    intro quote
    obtain ⟨t, rfl⟩ := List.head?_eq_some_iff.mp quote
    cases h
  rw [value?, if_neg noQuote]
  split
  · rename_i none
    cases none.symm.trans h
  · rename_i some
    cases some.symm.trans h
    rfl

theorem element?_escapeChar (c : Char) (s : Text) : element? (escapeChar c ++ s) = some (c, s) := by
  fun_cases escapeChar c with
  | case8 c quote backslash line tab feed form back =>
      rw [List.singleton_append]
      simp only [element?]
  | _ => rfl

theorem value?_escape (t s : Text) : value? (escape t ++ '"' :: s) = some (t, s) := by
  induction t with
  | nil =>
      rw [value?]
      rfl
  | cons c t ih =>
      rw [escape, List.flatMap_cons, List.append_assoc, value?_of_element? (element?_escapeChar c _)]
      change (value? (escape t ++ '"' :: s)).map _ = _
      rw [ih]
      rfl

theorem stringTail?_cons {c : Char} (noQuote : c ≠ '"') (noEscape : c ≠ '\\') (t : Text) :
    Code.stringTail? (c :: t) = (Code.stringTail? t).map fun r => (c :: r.1, r.2) := by
  rw [Code.stringTail?]
  · exact noQuote
  · exact fun _ _ escape => absurd escape noEscape

theorem stringTail?_escapeChar (c : Char) (s : Text) :
    Code.stringTail? (escapeChar c ++ s) =
      (Code.stringTail? s).map fun r => (escapeChar c ++ r.1, r.2) := by
  have pair (d : Char) (t : Text) : Code.stringTail? ('\\' :: d :: t) =
      (Code.stringTail? t).map fun r => ('\\' :: d :: r.1, r.2) := rfl
  have wide (d : Char) (noQuote : d ≠ '"') (noEscape : d ≠ '\\') :
      Code.stringTail? ('\\' :: 'u' :: '{' :: d :: '}' :: s) =
        (Code.stringTail? s).map fun r => ('\\' :: 'u' :: '{' :: d :: '}' :: r.1, r.2) := by
    rw [pair, stringTail?_cons (by decide) (by decide), stringTail?_cons noQuote noEscape,
      stringTail?_cons (by decide) (by decide)]
    simp only [Option.map_map]
    rfl
  fun_cases escapeChar c with
  | case6 => exact wide 'c' (by decide) (by decide)
  | case7 => exact wide '8' (by decide) (by decide)
  | case8 c quote backslash => exact stringTail?_cons quote backslash s
  | _ => exact pair _ s

theorem stringTail?_escape (t s : Text) :
    Code.stringTail? (escape t ++ '"' :: s) = some (escape t ++ ['"'], s) := by
  induction t with
  | nil => rfl
  | cons c t ih =>
      rw [escape, List.flatMap_cons, List.append_assoc, stringTail?_escapeChar]
      change (Code.stringTail? (escape t ++ '"' :: s)).map _ = _
      rw [ih, Option.map_some, List.append_assoc]
      rfl

theorem not_mem_escapeChar {d : Char} (control : d ∈ ['\n', '\r', '\t', '\x08', '\x0c']) (c : Char) :
    d ∉ escapeChar c := by
  fun_cases escapeChar c with
  | case8 c quote backslash line tab feed form back =>
      intro member
      obtain rfl := List.mem_singleton.mp member
      simp only [List.mem_cons, List.not_mem_nil, or_false] at control
      rcases control with rfl | rfl | rfl | rfl | rfl
      · exact line rfl
      · exact feed rfl
      · exact tab rfl
      · exact back rfl
      · exact form rfl
  | _ =>
      intro member
      simp only [List.mem_cons, List.not_mem_nil, or_false] at control
      rcases control with rfl | rfl | rfl | rfl | rfl <;> exact absurd member (by decide)

/-- A literal reads back as its text and leaves what follows, its escaped text has no line breaks,
tabs, backspaces or form feeds, and both skippings of strings stop behind its closing quote. -/
theorem literal_readsBack (t : Text) :
    (∀ s : Text, readLiteral? (literal t ++ s) = some (t, s)) ∧
      (∀ c ∈ ['\n', '\r', '\t', '\x08', '\x0c'], c ∉ escape t) ∧
      (∀ s : Text, Code.stringTail? (escape t ++ '"' :: s) = some (escape t ++ ['"'], s)) ∧
      ∀ before s : Text,
        Offsets.skipString (Text.encode (before ++ (escape t ++ '"' :: s))) before.byteSize =
          .ok (some (before.byteSize + (escape t).byteSize + 1)) := by
  refine ⟨fun s => ?_, fun c control member => ?_, stringTail?_escape t, fun before s => ?_⟩
  · have whole : literal t ++ s = '"' :: (escape t ++ '"' :: s) := by
      simp only [literal, List.cons_append, List.append_assoc, List.nil_append]
    rw [whole]
    exact value?_escape t s
  · obtain ⟨d, -, inside⟩ := List.mem_flatMap.mp member
    exact not_mem_escapeChar control d inside
  · have here : Text.GoesOn (before ++ (escape t ++ '"' :: s)) before.byteSize
        (escape t ++ '"' :: s) := ⟨before, rfl, rfl⟩
    rw [Offsets.skipString_eq here, stringTail?_escape, Option.map_some, Text.byteSize_append,
      ← Nat.add_assoc]
    rfl

end Stencil.Module
