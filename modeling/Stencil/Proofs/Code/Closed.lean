import Stencil.Code.Enclosed
import Stencil.Text.Blank

/-!
Texts that can be put in brackets: the bracket written after such a text closes the one in front of
it, whatever follows. Texts without quotes, hashes and brackets are of this kind.
-/

namespace Stencil.Code

/-- Whether a bracket that encloses a text is closed where the text ends, whatever follows. -/
def Closed (b : Bracket) (t : Text) : Prop :=
  ∀ rest : Text, enclosed? b (t ++ b.closing :: rest) = some (t, rest)

/-- A character that is a token by itself and no bracket. -/
def isPlain (c : Char) : Bool := !(['"', '\'', '#', '(', ')', '{', '}'].contains c)

theorem rawToken?_of_apart {t : Text} (apart : ∀ next ∈ t.head?, next ≠ '#' ∧ next ≠ '"') :
    rawToken? t = some (['r'], t) := by
  cases t with
  | nil => rfl
  | cons next t =>
      obtain ⟨noHash, noQuote⟩ := apart next rfl
      simp only [rawToken?, List.dropWhile_cons, noHash, decide_false, Bool.false_eq_true, if_false]
      split
      · rename_i same
        exact absurd (List.cons.inj same).1 noQuote
      · rfl

/-- A character that opens no literal is a token, if what follows does not make it the start of a
raw string. -/
theorem nextToken?_of_apart {c : Char} {t : Text} (lead : Lead) (noString : c ≠ '"')
    (noQuote : c ≠ '\'') (apart : ∀ next ∈ t.head?, next ≠ '#' ∧ next ≠ '"') :
    nextToken? lead (c :: t) = some ([c], t) := by
  by_cases raw : c = 'r'
  · subst raw
    rw [nextToken?, rawToken?_of_apart apart, ite_self]
  · simp only [nextToken?]

theorem closeFrom?_of_nextToken? (b : Bracket) (depth : Nat) {lead : Lead} {t token rest : Text}
    (h : nextToken? lead t = some (token, rest)) :
    closeFrom? b depth lead t =
      if token = [b.closing] ∧ depth = 0 then some ([], rest)
      else
        (closeFrom? b (b.depthAfter depth token) (lead.next token) rest).map
          fun (inner, after) => (token ++ inner, after) := by
  rw [closeFrom?]
  split
  · rename_i none
    cases none.symm.trans h
  · rename_i some
    cases some.symm.trans h
    rfl

theorem closeFrom?_closing (b : Bracket) (lead : Lead) (rest : Text) :
    closeFrom? b 0 lead (b.closing :: rest) = some ([], rest) := by
  have token : nextToken? lead (b.closing :: rest) = some ([b.closing], rest) := by
    cases b <;> rfl
  rw [closeFrom?_of_nextToken? b 0 token, if_pos ⟨rfl, rfl⟩]

theorem isPlain_ne {c d : Char} (plain : isPlain c = true) (special : isPlain d = false) :
    c ≠ d := by
  rintro rfl
  exact absurd plain (Bool.eq_false_iff.mp special)

/-- What may follow a plain character: another one, or the closing bracket. -/
theorem head?_apart_of_plain (b : Bracket) {t : Text} (plain : t.all isPlain = true) (rest : Text) :
    ∀ next ∈ (t ++ b.closing :: rest).head?, next ≠ '#' ∧ next ≠ '"' := by
  intro next first
  cases t with
  | nil =>
      cases Option.some.inj first
      cases b <;> decide
  | cons c t =>
      cases Option.some.inj first
      simp only [List.all_cons, Bool.and_eq_true] at plain
      exact ⟨isPlain_ne plain.1 (by decide), isPlain_ne plain.1 (by decide)⟩

theorem closeFrom?_of_plain (b : Bracket) (lead : Lead) {t : Text} (plain : t.all isPlain = true)
    (rest : Text) : closeFrom? b 0 lead (t ++ b.closing :: rest) = some (t, rest) := by
  induction t generalizing lead with
  | nil => exact closeFrom?_closing b lead rest
  | cons c t ih =>
      simp only [List.all_cons, Bool.and_eq_true] at plain
      have token : nextToken? lead (c :: (t ++ b.closing :: rest)) = some ([c], _) :=
        nextToken?_of_apart lead (isPlain_ne plain.1 (by decide)) (isPlain_ne plain.1 (by decide))
          (head?_apart_of_plain b plain.2 rest)
      have notClosing : [c] ≠ [b.closing] := by
        intro same
        exact isPlain_ne plain.1 (by cases b <;> decide) (List.cons.inj same).1
      have notOpening : [c] ≠ [b.opening] := by
        intro same
        exact isPlain_ne plain.1 (by cases b <;> decide) (List.cons.inj same).1
      rw [List.cons_append, closeFrom?_of_nextToken? b 0 token, if_neg fun h => notClosing h.1,
        Bracket.depthAfter, if_neg notOpening, if_neg notClosing, ih _ plain.2]
      rfl

theorem closed_of_plain (b : Bracket) {t : Text} (plain : t.all isPlain = true) : Closed b t :=
  closeFrom?_of_plain b .fresh plain

theorem nextToken?_of_ne {c : Char} {t : Text} (lead : Lead) (noString : c ≠ '"')
    (noQuote : c ≠ '\'') (noRaw : c ≠ 'r') : nextToken? lead (c :: t) = some ([c], t) := by
  simp only [nextToken?]

/-- An enclosed text does not start with the bracket that closes it, also after blanks. -/
theorem head?_trimStart_ne_closing {b : Bracket} {depth : Nat} {lead : Lead} {t inner after : Text}
    (h : closeFrom? b depth lead t = some (inner, after)) (outside : depth = 0) :
    (Text.trimStart inner).head? ≠ some b.closing := by
  fun_induction closeFrom? b depth lead t generalizing inner with
  | case1 => cases h
  | case2 depth lead t token rest found _ closes =>
      cases h
      intro none
      cases none
  | case3 depth lead t token rest found _ goesOn ih =>
      obtain ⟨⟨inner, last⟩, later, same⟩ := Option.map_eq_some_iff.mp h
      obtain ⟨rfl, rfl⟩ := Prod.mk.inj same
      have whole := eq_append_of_nextToken? found
      cases token with
      | nil => exact absurd rfl (ne_nil_of_nextToken? found)
      | cons c token =>
          rw [whole, List.cons_append] at found
          cases blank : Text.isBlank c with
          | true =>
              have single : nextToken? lead (c :: (token ++ rest)) = some ([c], token ++ rest) :=
                nextToken?_of_ne lead (by rintro rfl; cases blank) (by rintro rfl; cases blank)
                  (by rintro rfl; cases blank)
              cases single.symm.trans found
              have notOpening : [c] ≠ [b.opening] := by
                intro same
                rw [(List.cons.inj same).1] at blank
                cases b <;> cases blank
              have stays : b.depthAfter depth [c] = 0 := by
                rw [Bracket.depthAfter, if_neg notOpening, outside, Nat.zero_sub, ite_self]
              rw [List.singleton_append, Text.trimStart, List.dropWhile_cons_of_pos blank]
              exact ih later stays
          | false =>
              rw [List.cons_append, Text.trimStart,
                List.dropWhile_cons_of_neg (Bool.eq_false_iff.mp blank)]
              intro first
              cases Option.some.inj first
              have single : nextToken? lead (b.closing :: (token ++ rest)) =
                  some ([b.closing], token ++ rest) := by
                cases b <;> exact nextToken?_of_ne lead (by decide) (by decide) (by decide)
              cases single.symm.trans found
              exact goesOn ⟨rfl, outside⟩

end Stencil.Code
