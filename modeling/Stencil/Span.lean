/-!
Spans: where a piece of a source lies, in 32-bit byte counts that stop at their maximum.
-/

namespace Stencil

/-- A byte range of a source, given by its start and its length. -/
structure Span where
  start : Nat
  length : Nat
  deriving DecidableEq, Repr

def Span.limit : Nat := 0xFFFFFFFF

/-- The span from `start` up to `stop`. Both counts stop at the limit, and a reversed range is
empty. -/
def Span.ofRange (start stop : Nat) : Span :=
  ⟨min start limit, min (stop - start) limit⟩

/-- Below the limit a span is the range it was built from. -/
theorem Span.ofRange_of_le {start stop : Nat} (ordered : start ≤ stop) (small : stop ≤ limit) :
    (ofRange start stop).start = start ∧
      (ofRange start stop).start + (ofRange start stop).length = stop := by
  simp only [ofRange]
  omega

end Stencil
