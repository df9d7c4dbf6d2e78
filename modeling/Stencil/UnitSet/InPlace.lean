import Stencil.UnitSet

/-!
Operations that change a set in place, and runs of such operations on several sets that all start
empty. What is merged into a set is a copy of another one.
-/

namespace Stencil.UnitSet

/-- Reserves a name for a source. Returns whether the name was free. -/
def reserveInPlace (name : QualifiedName) (source : Text) : EStateM Collision UnitSet Bool :=
  modifyGet (·.reserve name source)

def check (slot : Slot) : EStateM Collision UnitSet Unit := fun set =>
  match set.collision? slot with
  | some e => .error e set
  | none => .ok () set

/-- Merges another set into a set slot by slot: every slot is checked, and then every slot is put in
unless its name is present. -/
def mergeInPlace (other : UnitSet) : EStateM Collision UnitSet Unit := do
  forM other.slots check
  forM other.slots fun slot => modify (·.insertNew slot)

inductive Operation (ι : Type) where
  | reserve (target : ι) (name : QualifiedName) (source : Text)
  | finalize (target : ι) (u : CodeUnit)
  | merge (target other : ι)

/-- What an operation returns: whether a name was free, nothing, or why a merge was refused. -/
inductive Answer where
  | reserved (free : Bool)
  | done
  | refused (collision : Collision)
  deriving DecidableEq

namespace Operation

variable {ι : Type}

def target : Operation ι → ι
  | reserve target _ _ => target
  | finalize target _ => target
  | merge target _ => target

def act (sets : ι → UnitSet) : Operation ι → EStateM Collision UnitSet Answer
  | reserve _ name source => return .reserved (← reserveInPlace name source)
  | finalize _ u => do
      modify (·.finalize u)
      return .done
  | merge _ other => do
      (sets other).mergeInPlace
      return .done

variable [DecidableEq ι]

def setAt (sets : ι → UnitSet) (i : ι) (set : UnitSet) : ι → UnitSet := fun j =>
  if j = i then set else sets j

/-- Carries an operation out. What it did to its set stays, also if it was refused. -/
def step (op : Operation ι) (sets : ι → UnitSet) : (ι → UnitSet) × Answer :=
  match (op.act sets).run (sets op.target) with
  | .ok answer after => (setAt sets op.target after, answer)
  | .error e after => (setAt sets op.target after, .refused e)

def run (ops : List (Operation ι)) : ι → UnitSet :=
  ops.foldl (fun sets op => (op.step sets).1) fun _ => .empty

end Operation

end Stencil.UnitSet
