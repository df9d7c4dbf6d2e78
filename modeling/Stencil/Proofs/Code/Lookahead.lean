import Stencil.Proofs.Code.Closed
import Stencil.Proofs.Text.Cutting

/-!
How far tokens look ahead. Main statement: the bracket that closes a text closes it with another
text behind it too, if that text brings no quote. A quote is the only character behind the closing
bracket that matters, since it may end a character literal.
-/

namespace Stencil.Code

/-- Whether a text put in place of another brings no quote: it starts with one only if the other
does, and has one only if the other has. -/
structure BringsNoQuote (rest rest' : Text) : Prop where
  first : rest.head? ≠ some '\'' → rest'.head? ≠ some '\''
  later : '\'' ∉ rest → '\'' ∉ rest'

section Literals

variable {hashes t s r : Text}

theorem stringTail?_of_eq_some (h : stringTail? t = some (s, r)) (r' : Text) :
    stringTail? (s ++ r') = some (s, r') := by
  fun_induction stringTail? t generalizing s with
  | case1 => cases h
  | case2 t =>
      cases h
      rfl
  | case3 c t ih =>
      obtain ⟨⟨s', rest⟩, later, same⟩ := Option.map_eq_some_iff.mp h
      cases same
      simp only [List.cons_append, stringTail?, ih later, Option.map_some]
  | case4 c t noQuote noEscape ih =>
      obtain ⟨⟨s', rest⟩, later, same⟩ := Option.map_eq_some_iff.mp h
      cases same
      rw [List.cons_append, stringTail?, ih later]
      · rfl
      · exact noQuote
      · rintro d u rfl -
        cases t with
        | nil => cases later
        | cons d u => exact noEscape d u rfl rfl

theorem rawTail?_eq_append (h : rawTail? hashes t = some (s, r)) :
    ∃ init, s = init ++ '"' :: hashes := by
  fun_induction rawTail? hashes t generalizing s with
  | case1 => cases h
  | case2 c t closes =>
      cases h
      exact ⟨[], rfl⟩
  | case3 c t _ ih =>
      obtain ⟨⟨s', r'⟩, later, same⟩ := Option.map_eq_some_iff.mp h
      cases same
      obtain ⟨init, rfl⟩ := ih later
      exact ⟨c :: init, rfl⟩

theorem rawTail?_of_eq_some (h : rawTail? hashes t = some (s, r)) (r' : Text) :
    rawTail? hashes (s ++ r') = some (s, r') := by
  fun_induction rawTail? hashes t generalizing s with
  | case1 => cases h
  | case2 c t closes =>
      cases h
      have here : hashes.isPrefixOf (hashes ++ r') = true :=
        List.isPrefixOf_iff_prefix.mpr (List.prefix_append hashes r')
      rw [List.cons_append, rawTail?, if_pos ⟨rfl, here⟩, List.drop_left]
  | case3 c t goesOn ih =>
      obtain ⟨⟨s', rest⟩, later, same⟩ := Option.map_eq_some_iff.mp h
      cases same
      have long : hashes.length ≤ s'.length := by
        obtain ⟨init, rfl⟩ := rawTail?_eq_append later
        rw [List.length_append, List.length_cons]
        omega
      have stays : ¬ (c = '"' ∧ hashes.isPrefixOf (s' ++ r') = true) := by
        rintro ⟨quote, matches'⟩
        refine goesOn ⟨quote, List.isPrefixOf_iff_prefix.mpr ?_⟩
        rw [eq_append_of_rawTail? later]
        have within := List.prefix_of_prefix_length_le (List.isPrefixOf_iff_prefix.mp matches')
          (List.prefix_append s' r') long
        exact within.trans (List.prefix_append s' r)
      rw [List.cons_append, rawTail?, if_neg stays, ih later]
      rfl

theorem rawToken?_of_head (other : (t.dropWhile (· = '#')).head? ≠ some '"') :
    rawToken? t = some (['r'], t) := by
  simp only [rawToken?]
  split
  · rename_i opens
    exact absurd (congrArg List.head? opens) other
  · rfl

/-- A quote stands alone if no escape and no second quote follows it. -/
theorem quoteToken_alone (noEscape : t[0]? ≠ some '\\') (noQuote : t[1]? ≠ some '\'') :
    quoteToken t = (['\''], t) := by
  fun_cases quoteToken t with
  | case1 => exact absurd rfl noEscape
  | case2 => exact absurd rfl noEscape
  | case3 => exact absurd rfl noEscape
  | case4 => exact absurd rfl noQuote
  | case5 => simp only

/-- A quote stands alone too if an escape follows it and no quote behind that. -/
theorem quoteToken_unclosed {c : Char} (noQuote : '\'' ∉ t) :
    quoteToken ('\\' :: c :: t) = (['\''], '\\' :: c :: t) := by
  simp only [quoteToken, Text.breakOn?_eq_none_iff.mpr noQuote]

end Literals

section Tokens

variable {t token inner rest rest' : Text} {lead : Lead} {b : Bracket}

theorem Bracket.closing_ne (b : Bracket) {c : Char} (other : ['}', ')'].contains c = false) :
    b.closing ≠ c := by
  rintro rfl
  cases b <;> cases other

theorem quoteToken_of_eq (h : quoteToken t = (token, inner ++ b.closing :: rest))
    (brings : BringsNoQuote rest rest') :
    ∃ body, token = '\'' :: body ∧
      quoteToken (body ++ (inner ++ b.closing :: rest')) = (token, inner ++ b.closing :: rest') := by
  fun_cases quoteToken t with
  | case1 c t s after found =>
      simp only [quoteToken, found] at h
      cases h
      refine ⟨'\\' :: c :: s ++ ['\''], rfl, ?_⟩
      have split := Text.breakOn?_of_eq_some found (inner ++ b.closing :: rest')
      simp only [List.cons_append, List.append_assoc, quoteToken]
      rw [List.singleton_append] at split
      simp only [List.nil_append, split]
  | case2 c t none =>
      simp only [quoteToken, none] at h
      obtain ⟨rfl, whole⟩ := Prod.mk.inj h
      rw [Text.breakOn?_eq_none_iff] at none
      refine ⟨[], rfl, ?_⟩
      rcases inner with _ | ⟨a, _ | ⟨d, inner⟩⟩
      · exact absurd (List.cons.inj whole).1.symm (b.closing_ne (by decide))
      · cases whole
        exact quoteToken_unclosed (brings.later none)
      · rw [List.cons_append, List.cons_append] at whole
        cases whole
        rw [List.mem_append, List.mem_cons, not_or, not_or] at none
        have still : '\'' ∉ inner ++ b.closing :: rest' := by
          rw [List.mem_append, List.mem_cons, not_or, not_or]
          exact ⟨none.1, none.2.1, brings.later none.2.2⟩
        exact quoteToken_unclosed still
  | case3 t noChar =>
      simp only [quoteToken] at h
      obtain ⟨rfl, whole⟩ := Prod.mk.inj h
      rcases inner with _ | ⟨a, _ | ⟨d, inner⟩⟩
      · exact absurd (List.cons.inj whole).1.symm (b.closing_ne (by decide))
      · exact absurd (List.cons.inj whole).2 (noChar _ _)
      · exact absurd (List.cons.inj whole).2 (noChar _ _)
  | case4 c t noEscape =>
      simp only [quoteToken] at h
      cases h
      refine ⟨[c, '\''], rfl, ?_⟩
      simp only [List.cons_append, quoteToken]
      rfl
  | case5 t noLiteral noEscape noQuote =>
      simp only [quoteToken] at h
      obtain ⟨rfl, rfl⟩ := Prod.mk.inj h
      refine ⟨[], rfl, quoteToken_alone ?_ ?_⟩
      · cases inner with
        | nil => exact fun same => b.closing_ne (by decide) (Option.some.inj same)
        | cons a inner =>
            intro same
            exact noEscape _ (congrArg (· :: _) (Option.some.inj same))
      · rcases inner with _ | ⟨a, _ | ⟨d, inner⟩⟩
        · change rest'[0]? ≠ some '\''
          rw [← List.head?_eq_getElem?]
          refine brings.first ?_
          intro first
          obtain ⟨after, rfl⟩ := List.head?_eq_some_iff.mp first
          exact noQuote _ _ rfl
        · exact fun same => b.closing_ne (by decide) (Option.some.inj same)
        · intro same
          cases Option.some.inj same
          exact noQuote _ _ rfl

theorem rawToken?_of_eq_some (h : rawToken? t = some (token, inner ++ b.closing :: rest)) :
    ∃ body, token = 'r' :: body ∧
      rawToken? (body ++ (inner ++ b.closing :: rest')) =
        some (token, inner ++ b.closing :: rest') := by
  simp only [rawToken?] at h
  split at h
  · rename_i body opens
    obtain ⟨⟨s, r⟩, tail, same⟩ := Option.map_eq_some_iff.mp h
    cases same
    refine ⟨t.takeWhile (· = '#') ++ '"' :: s, rfl, ?_⟩
    have all : ∀ c ∈ t.takeWhile (· = '#'), decide (c = '#') = true :=
      fun c member => List.mem_takeWhile_imp (p := (· = '#')) member
    have stops : ∀ c ∈ ('"' :: (s ++ (inner ++ b.closing :: rest'))).head?,
        decide (c = '#') = false := by
      intro c first
      cases Option.some.inj first
      decide
    obtain ⟨taken, left⟩ := Text.span_append (t.takeWhile (· = '#')) stops
    rw [List.takeWhile_eq_self_iff.mpr all] at taken
    rw [List.dropWhile_eq_nil_iff.mpr all] at left
    simp only [List.append_assoc, List.cons_append, rawToken?, taken, left, List.nil_append,
      rawTail?_of_eq_some tail, Option.map_some]
  · rename_i noQuote
    cases h
    refine ⟨[], rfl, rawToken?_of_head ?_⟩
    have left (behind : Text) : (inner ++ b.closing :: behind).dropWhile (· = '#') =
        inner.dropWhile (· = '#') ++ b.closing :: behind := by
      refine (Text.span_append inner ?_).2
      intro c first
      cases Option.some.inj first
      exact decide_eq_false (b.closing_ne (by decide))
    rw [left] at noQuote
    rw [List.nil_append, left]
    generalize inner.dropWhile (· = '#') = run at noQuote ⊢
    cases run with
    | nil => exact fun first => b.closing_ne (by decide) (Option.some.inj first)
    | cons c more =>
        intro first
        obtain rfl := Option.some.inj first
        exact noQuote _ rfl

/-- A token in front of a closing bracket is the same token with another text behind the bracket. -/
theorem nextToken?_of_eq_some (h : nextToken? lead t = some (token, inner ++ b.closing :: rest))
    (brings : BringsNoQuote rest rest') :
    nextToken? lead (token ++ (inner ++ b.closing :: rest')) =
      some (token, inner ++ b.closing :: rest') := by
  fun_cases nextToken? lead t with
  | case1 => cases h
  | case2 t =>
      obtain ⟨⟨s, r⟩, tail, same⟩ := Option.map_eq_some_iff.mp h
      cases same
      rw [List.cons_append, nextToken?, stringTail?_of_eq_some tail]
      rfl
  | case3 t =>
      obtain ⟨body, rfl, same⟩ := quoteToken_of_eq (Option.some.inj h) brings
      rw [List.cons_append, nextToken?, same]
  | case4 t word =>
      rw [nextToken?, if_pos word] at h
      cases h
      rw [List.singleton_append, nextToken?, if_pos word]
  | case5 t free =>
      rw [nextToken?, if_neg free] at h
      obtain ⟨body, rfl, same⟩ := rawToken?_of_eq_some h
      rw [List.cons_append, nextToken?, if_neg free, same]
  | case6 c t noString noQuote noRaw =>
      simp only [nextToken?] at h
      cases h
      exact nextToken?_of_ne lead noString noQuote noRaw

/-- The bracket that closes a text closes it with another text behind it too. -/
theorem closeFrom?_of_eq_some {depth : Nat} (h : closeFrom? b depth lead t = some (inner, rest))
    (brings : BringsNoQuote rest rest') :
    closeFrom? b depth lead (inner ++ b.closing :: rest') = some (inner, rest') := by
  fun_induction closeFrom? b depth lead t generalizing inner with
  | case1 => cases h
  | case2 depth lead t token after found _ closes =>
      cases h
      rw [closes.2]
      exact closeFrom?_closing b lead rest'
  | case3 depth lead t token after found _ goesOn ih =>
      obtain ⟨⟨inner, last⟩, later, same⟩ := Option.map_eq_some_iff.mp h
      cases same
      rw [eq_append_of_closeFrom? later] at found
      rw [List.append_assoc, closeFrom?_of_nextToken? b depth (nextToken?_of_eq_some found brings),
        if_neg goesOn, ih later]
      rfl

theorem enclosed?_of_eq_some (h : enclosed? b t = some (inner, rest))
    (brings : BringsNoQuote rest rest') :
    enclosed? b (inner ++ b.closing :: rest') = some (inner, rest') :=
  closeFrom?_of_eq_some h brings

end Tokens

end Stencil.Code
