import Stencil.Body.Traversal

/-!
Reading a body in one pass. Recognition, the literal text in front of a directive, the directive and
the calls of the visitor take turns.
-/

namespace Stencil.Body

variable {ε σ : Type}

/-- Hands the event of a lexeme to the visitor, if there is one. Returns the blocks open after it. -/
def step (kind : SourceKind) (visit : Event → EStateM ε σ Unit) (raise : Error → ε)
    (position : Nat) (nesting : Nesting) (lexeme : Lexeme) : EStateM ε σ Nesting :=
  match lexeme.effect kind position nesting with
  | .error e => throw (raise e)
  | .ok (none, after) => pure after
  | .ok (some (depth, payload), after) => do
      visit ⟨depth, Span.ofRange position (position + lexeme.spelling.byteSize), payload⟩
      pure after

def flush (kind : SourceKind) (visit : Event → EStateM ε σ Unit) (raise : Error → ε)
    (position : Nat) (nesting : Nesting) (text : Text) : EStateM ε σ Nesting :=
  if text.isEmpty then pure nesting else step kind visit raise position nesting (.text text)

/-- One pass over a text from its start on. The pending text has been passed since the last
directive, which ended at the given position. -/
def sweep (kind : SourceKind) (visit : Event → EStateM ε σ Unit) (raise : Error → ε)
    (position : Nat) (nesting : Nesting) (pending : Text) : Text → EStateM ε σ Unit
  | [] => do
      let after ← flush kind visit raise position nesting pending
      match after with
      | frame :: _ => throw (raise frame.unclosed)
      | [] => pure ()
  | c :: t =>
      match h : recognize (c :: t) with
      | .literal => sweep kind visit raise position nesting (pending ++ [c]) t
      | .fault cause => throw (raise ⟨position + pending.byteSize, cause⟩)
      | .found d rest => do
          have := length_lt_of_recognize h
          let here := position + pending.byteSize
          let nesting ← flush kind visit raise position nesting pending
          let nesting ← step kind visit raise here nesting (.directive d)
          sweep kind visit raise (here + d.spelling.byteSize) nesting [] rest
termination_by t => t.length
decreasing_by
  · exact Nat.lt_succ_self t.length
  · exact this

end Stencil.Body
