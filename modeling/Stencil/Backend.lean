import Stencil.Compiler

/-!
From generated units to something that renders. Generated code has to be built before it can run; a
linked backend holds the templates that are already built into the running program, by their module
paths.
-/

namespace Stencil

/-- A template that is given a model of another type than it expects. -/
structure RenderError where
  expected : Text
  deriving DecidableEq, Repr

def RenderError.message (e : RenderError) : Text :=
  List.flatten ["Template expects a model of type `", e.expected, "`"]

/-- A template that can run: it writes output for a model, or fails after some output. -/
abbrev Renderable (μ : Type) := μ → EStateM RenderError Text Unit

def Renderable.nothing {μ : Type} : Renderable μ := fun _ => pure ()

inductive BuildError where
  | io (path : Text)
  | rejected (reason : Text)
  | missingUnit (name : Text)
  deriving DecidableEq, Repr

def BuildError.message : BuildError → Text
  | .io path => "I/O error at ".toList ++ path
  | .rejected reason => "Build rejected: ".toList ++ reason
  | .missingUnit name => List.flatten ["No compiled unit named '", name, "'"]

/-- Units that have been built: the renderable of a name. -/
abbrev Artifact (μ : Type) := QualifiedName → Except BuildError (Renderable μ)

abbrev Backend (μ : Type) := UnitSet → Except BuildError (Artifact μ)

/-- Renderables by module path. -/
structure LinkedBackend (μ : Type) where
  table : List (Text × Renderable μ) := []

namespace LinkedBackend

variable {μ : Type}

def empty : LinkedBackend μ := {}

/-- Links a renderable under a module path, in place of one that is there. -/
def register (b : LinkedBackend μ) (modulePath : Text) (r : Renderable μ) : LinkedBackend μ :=
  ⟨(modulePath, r) :: b.table.filter (·.1 != modulePath)⟩

def ofTable (table : List (Text × Renderable μ)) : LinkedBackend μ :=
  table.foldl (fun b (modulePath, r) => b.register modulePath r) empty

def isLinked (b : LinkedBackend μ) (name : QualifiedName) : Bool :=
  (b.table.lookup name.modulePath).isSome

def size (b : LinkedBackend μ) : Nat := b.table.length

def artifact (b : LinkedBackend μ) : Artifact μ := fun name =>
  match b.table.lookup name.modulePath with
  | none => .error (.missingUnit name.modulePath)
  | some r => .ok r

/-- Builds units all of whose templates are linked. -/
def build (b : LinkedBackend μ) : Backend μ := fun units =>
  match (units.templates.filter (!b.isLinked ·.name)).map (·.name.modulePath) with
  | [] => .ok b.artifact
  | missing =>
      .error (.rejected ("template units not linked into this binary: ".toList ++
        Text.joinWith ", " missing))

end LinkedBackend

inductive CompileError where
  | generate (error : GenerateError)
  | build (error : BuildError)
  deriving DecidableEq, Repr

def CompileError.message : CompileError → Text
  | .generate e => e.message
  | .build e => e.message

namespace Compiler

variable {μ : Type}

variable {m : Type → Type} [Monad m]

/-- Builds a generated template and takes its renderable, with a backend that may have effects. What
is empty needs no backend. -/
def Generated.buildWith (name : Text) (backend : UnitSet → m (Except BuildError (Artifact μ))) :
    Generated → m (Except BuildError (Renderable μ))
  | .nothing => return .ok Renderable.nothing
  | .units set =>
      match set.main? with
      | none => return .error (.missingUnit name)
      | some main => return (← backend set).bind fun artifact => artifact main.name

def compileWith (c : Compiler) (name : Text)
    (backend : UnitSet → m (Except BuildError (Artifact μ))) :
    m (Except CompileError (Renderable μ)) :=
  match (c.generate name).result with
  | .error e => return .error (.generate e)
  | .ok generated => return (← generated.buildWith name backend).mapError .build

def compile (c : Compiler) (name : Text) (backend : Backend μ) :
    Except CompileError (Renderable μ) :=
  Id.run (c.compileWith name fun units => return backend units)

end Compiler

end Stencil
