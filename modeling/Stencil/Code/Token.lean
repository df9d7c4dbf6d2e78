import Stencil.Text.Word

/-!
Tokens of embedded code. Only as much of the code's syntax is read as is needed to tell a bracket
from a bracket inside a literal: string literals, raw string literals and character literals are
single tokens, and every other character is a token of its own.
-/

namespace Stencil.Code

/-- What stands before the next character. A raw string may start after a character that is no
word character, or after a `b` that itself starts a word. -/
inductive Lead where
  | fresh
  | byteMark
  | word
  deriving DecidableEq, Repr

def Lead.next (lead : Lead) : Text → Lead
  | [c] =>
      if !Text.isWordChar c then .fresh
      else if c = 'b' ∧ lead = .fresh then .byteMark
      else .word
  | _ => .fresh

/-- The rest of a string literal through its closing quote, and what follows. A backslash keeps the
next character from closing it. -/
def stringTail? : Text → Option (Text × Text)
  | [] => none
  | '"' :: t => some (['"'], t)
  | '\\' :: c :: t => (stringTail? t).map fun (s, r) => ('\\' :: c :: s, r)
  | c :: t => (stringTail? t).map fun (s, r) => (c :: s, r)

/-- The rest of a raw string through its closing quote and the hashes after it. -/
def rawTail? (hashes : Text) : Text → Option (Text × Text)
  | [] => none
  | c :: t =>
      if c = '"' ∧ hashes.isPrefixOf t then some ('"' :: hashes, t.drop hashes.length)
      else (rawTail? hashes t).map fun (s, r) => (c :: s, r)

/-- The token that starts with a single quote, given what follows the quote. A quote that opens no
character literal, such as that of a lifetime, stands alone. -/
def quoteToken : Text → Text × Text
  | '\\' :: c :: t =>
      match Text.breakOn? ['\''] t with
      | some (s, r) => ('\'' :: '\\' :: c :: s ++ ['\''], r)
      | none => (['\''], '\\' :: c :: t)
  | '\\' :: t => (['\''], '\\' :: t)
  | c :: '\'' :: t => (['\'', c, '\''], t)
  | t => (['\''], t)

/-- The token that starts with an `r` that may open a raw string, given what follows the `r`. -/
def rawToken? (t : Text) : Option (Text × Text) :=
  let hashes := t.takeWhile (· = '#')
  match t.dropWhile (· = '#') with
  | '"' :: body => (rawTail? hashes body).map fun (s, r) => ('r' :: hashes ++ '"' :: s, r)
  | _ => some (['r'], t)

/-- The first token and what follows it. There is none at the end and in a string that is never
closed. -/
def nextToken? (lead : Lead) : Text → Option (Text × Text)
  | [] => none
  | '"' :: t => (stringTail? t).map fun (s, r) => ('"' :: s, r)
  | '\'' :: t => some (quoteToken t)
  | 'r' :: t => if lead = .word then some (['r'], t) else rawToken? t
  | c :: t => some ([c], t)

theorem eq_append_of_stringTail? {t s r : Text} (h : stringTail? t = some (s, r)) : t = s ++ r := by
  fun_induction stringTail? t generalizing s with
  | case1 => cases h
  | case2 t =>
      obtain ⟨rfl, rfl⟩ := Prod.mk.inj (Option.some.inj h)
      rfl
  | case3 c t ih =>
      obtain ⟨⟨s', r'⟩, hs, he⟩ := Option.map_eq_some_iff.mp h
      obtain ⟨rfl, rfl⟩ := Prod.mk.inj he
      simp [ih hs]
  | case4 c t _ _ ih =>
      obtain ⟨⟨s', r'⟩, hs, he⟩ := Option.map_eq_some_iff.mp h
      obtain ⟨rfl, rfl⟩ := Prod.mk.inj he
      simp [ih hs]

theorem eq_append_of_rawTail? {hashes t s r : Text} (h : rawTail? hashes t = some (s, r)) :
    t = s ++ r := by
  fun_induction rawTail? hashes t generalizing s with
  | case1 => cases h
  | case2 c t closes =>
      obtain ⟨rfl, rfl⟩ := Prod.mk.inj (Option.some.inj h)
      obtain ⟨rest, hrest⟩ := List.isPrefixOf_iff_prefix.mp closes.2
      simp [closes.1, ← hrest]
  | case3 c t _ ih =>
      obtain ⟨⟨s', r'⟩, hs, he⟩ := Option.map_eq_some_iff.mp h
      obtain ⟨rfl, rfl⟩ := Prod.mk.inj he
      simp [ih hs]

theorem quoteToken_append (t : Text) : '\'' :: t = (quoteToken t).1 ++ (quoteToken t).2 := by
  fun_cases quoteToken t with
  | case1 c t s r h => simp [Text.eq_append_of_breakOn? h]
  | case2 => simp
  | case3 => simp
  | case4 => simp
  | case5 => simp

theorem eq_append_of_rawToken? {t s r : Text} (h : rawToken? t = some (s, r)) :
    'r' :: t = s ++ r := by
  have split := List.takeWhile_append_dropWhile (p := (· = '#')) (l := t)
  simp only [rawToken?] at h
  generalize t.dropWhile (· = '#') = after at h split
  split at h
  · obtain ⟨⟨s', r'⟩, hs, he⟩ := Option.map_eq_some_iff.mp h
    obtain ⟨rfl, rfl⟩ := Prod.mk.inj he
    rw [eq_append_of_rawTail? hs] at split
    rw [List.cons_append, List.cons_append, List.append_assoc, List.cons_append, split]
  · obtain ⟨rfl, rfl⟩ := Prod.mk.inj (Option.some.inj h)
    rfl

/-- A token and what follows it make up the text. -/
theorem eq_append_of_nextToken? {lead : Lead} {t s r : Text}
    (h : nextToken? lead t = some (s, r)) : t = s ++ r := by
  fun_cases nextToken? lead t with
  | case1 => simp [nextToken?] at h
  | case2 t =>
      obtain ⟨⟨s', r'⟩, hs, he⟩ := Option.map_eq_some_iff.mp h
      obtain ⟨rfl, rfl⟩ := Prod.mk.inj he
      simp [eq_append_of_stringTail? hs]
  | case3 t =>
      have hq := quoteToken_append t
      rw [Option.some.inj h] at hq
      exact hq
  | case4 t word =>
      rw [nextToken?, if_pos word] at h
      obtain ⟨rfl, rfl⟩ := Prod.mk.inj (Option.some.inj h)
      rfl
  | case5 t hl =>
      rw [nextToken?, if_neg hl] at h
      exact eq_append_of_rawToken? h
  | case6 c t h1 h2 h3 =>
      simp only [nextToken?] at h
      obtain ⟨rfl, rfl⟩ := Prod.mk.inj (Option.some.inj h)
      rfl

theorem quoteToken_ne_nil (t : Text) : (quoteToken t).1 ≠ [] := by
  fun_cases quoteToken t with
  | case1 => simp
  | case2 => simp
  | case3 => simp
  | case4 => simp
  | case5 => simp

theorem ne_nil_of_rawToken? {t s r : Text} (h : rawToken? t = some (s, r)) : s ≠ [] := by
  simp only [rawToken?] at h
  split at h
  · obtain ⟨_, -, he⟩ := Option.map_eq_some_iff.mp h
    exact (Prod.mk.inj he).1 ▸ List.cons_ne_nil _ _
  · exact (Prod.mk.inj (Option.some.inj h)).1 ▸ List.cons_ne_nil _ _

theorem ne_nil_of_nextToken? {lead : Lead} {t s r : Text}
    (h : nextToken? lead t = some (s, r)) : s ≠ [] := by
  fun_cases nextToken? lead t with
  | case1 => simp [nextToken?] at h
  | case2 t =>
      obtain ⟨_, -, he⟩ := Option.map_eq_some_iff.mp h
      exact (Prod.mk.inj he).1 ▸ List.cons_ne_nil _ _
  | case3 t =>
      have hq := quoteToken_ne_nil t
      rw [Option.some.inj h] at hq
      exact hq
  | case4 t word =>
      rw [nextToken?, if_pos word] at h
      exact (Prod.mk.inj (Option.some.inj h)).1 ▸ List.cons_ne_nil _ _
  | case5 t word =>
      rw [nextToken?, if_neg word] at h
      exact ne_nil_of_rawToken? h
  | case6 c t h1 h2 h3 =>
      simp only [nextToken?] at h
      exact (Prod.mk.inj (Option.some.inj h)).1 ▸ List.cons_ne_nil _ _

/-- Reading a token makes progress. -/
theorem length_lt_of_nextToken? {lead : Lead} {t s r : Text}
    (h : nextToken? lead t = some (s, r)) : r.length < t.length := by
  have := List.length_pos_iff.mpr (ne_nil_of_nextToken? h)
  rw [eq_append_of_nextToken? h, List.length_append]
  omega

end Stencil.Code
