import Stencil.Code.Token

/-!
Bracketed code: where the bracket opened just before a text is closed.
-/

namespace Stencil.Code

inductive Bracket where
  | paren
  | brace
  deriving DecidableEq, Repr

def Bracket.opening : Bracket → Char
  | .paren => '('
  | .brace => '{'

def Bracket.closing : Bracket → Char
  | .paren => ')'
  | .brace => '}'

/-- How many brackets are to be closed first, after one more token. -/
def Bracket.depthAfter (b : Bracket) (depth : Nat) (token : Text) : Nat :=
  if token = [b.opening] then depth + 1 else if token = [b.closing] then depth - 1 else depth

/-- Reads tokens up to the closing bracket that has `depth` others to close before it. Returns the
text in front of that bracket and the text after it. -/
def closeFrom? (b : Bracket) (depth : Nat) (lead : Lead) (t : Text) : Option (Text × Text) :=
  match h : nextToken? lead t with
  | none => none
  | some (token, rest) =>
      have : rest.length < t.length := length_lt_of_nextToken? h
      if token = [b.closing] ∧ depth = 0 then some ([], rest)
      else
        (closeFrom? b (b.depthAfter depth token) (lead.next token) rest).map
          fun (inner, after) => (token ++ inner, after)
termination_by t.length

/-- Splits what follows an opening bracket into the enclosed text and what stands after the closing
bracket. -/
def enclosed? (b : Bracket) (t : Text) : Option (Text × Text) := closeFrom? b 0 .fresh t

theorem eq_append_of_closeFrom? {b : Bracket} {depth : Nat} {lead : Lead} {t inner after : Text}
    (h : closeFrom? b depth lead t = some (inner, after)) : t = inner ++ b.closing :: after := by
  fun_induction closeFrom? b depth lead t generalizing inner with
  | case1 => cases h
  | case2 depth lead t token rest ht _ closes =>
      obtain ⟨rfl, rfl⟩ := Prod.mk.inj (Option.some.inj h)
      rw [eq_append_of_nextToken? ht, closes.1]
      rfl
  | case3 depth lead t token rest ht _ _ ih =>
      obtain ⟨⟨i, a⟩, hi, he⟩ := Option.map_eq_some_iff.mp h
      obtain ⟨rfl, rfl⟩ := Prod.mk.inj he
      rw [eq_append_of_nextToken? ht, ih hi, List.append_assoc]

/-- The enclosed text, the closing bracket and what stands after it make up the text. -/
theorem eq_append_of_enclosed? {b : Bracket} {t inner after : Text}
    (h : enclosed? b t = some (inner, after)) : t = inner ++ b.closing :: after :=
  eq_append_of_closeFrom? h

end Stencil.Code
