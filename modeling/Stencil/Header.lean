import Stencil.Body.Basic
import Stencil.Event
import Stencil.Text.Blank
import Stencil.Text.Word

/-!
The header of a source: import and parameter declarations, one to a line, in front of the body.
Blanks may stand before each of them. The first line that is no declaration starts the body.
-/

namespace Stencil

structure Parameter where
  name : Text
  type : Text
  deriving DecidableEq, Repr

/-- What a header declares, and the body after it. A template has a model and no parameters, a tag
or layout has parameters and no model. -/
structure Header where
  imports : List Text
  params : List Parameter
  model : Option Parameter
  body : Body
  deriving DecidableEq, Repr

namespace Header

inductive ParamFault where
  | noColon
  | badName
  | noType
  deriving DecidableEq, Repr

def ParamFault.text : ParamFault → Text
  | .noColon => "expected '<name>: <type>'"
  | .badName => "parameter name must be an identifier"
  | .noType => "missing parameter type"

inductive Error where
  | emptyImport (position : Nat)
  | malformedParam (position : Nat) (fault : ParamFault)
  | missingParam
  | duplicateParam (position : Nat)
  deriving DecidableEq, Repr

def Error.message : Error → Text
  | .emptyImport position =>
      List.flatten ["Empty '@import' at position ", Text.decimal position]
  | .malformedParam position fault =>
      List.flatten ["Malformed '@param' at position ", Text.decimal position, ": ", fault.text]
  | .missingParam =>
      "Missing '@param' declaration: a template declares exactly one model parameter"
  | .duplicateParam position =>
      List.flatten ["Duplicate '@param' at position ", Text.decimal position,
        ": a template declares exactly one model parameter"]

inductive Directive where
  | importPath
  | param
  deriving DecidableEq, Repr

def Directive.mark : Directive → Text
  | .importPath => "@import"
  | .param => "@param"

inductive Declaration where
  | importPath (path : Text)
  | param (parameter : Parameter)
  deriving DecidableEq, Repr

/-- What follows a directive's mark, if the text starts with the mark and a space or tab. -/
def Directive.after? (d : Directive) (t : Text) : Option Text :=
  if d.mark.isPrefixOf t then
    match t.drop d.mark.length with
    | ' ' :: rest => some (' ' :: rest)
    | '\t' :: rest => some ('\t' :: rest)
    | _ => none
  else none

/-- The directive at the start of a text, and what follows its mark. -/
def directive? (t : Text) : Option (Directive × Text) :=
  match Directive.importPath.after? t with
  | some rest => some (.importPath, rest)
  | none => (Directive.param.after? t).map fun rest => (.param, rest)

/-- The path of an import, which may end in semicolons. -/
def importPath? (content : Text) : Option Text :=
  let path := Text.trim (Text.dropEndWhile (· == ';') content)
  if path.isEmpty then none else some path

/-- A name, a single colon and a type. -/
def parameter (content : Text) : Except ParamFault Parameter :=
  match Text.breakOn? [':'] content with
  | none => .error .noColon
  | some (name, type) =>
      if type.head? = some ':' then .error .noColon
      else if !Text.isIdentifier (Text.trim name) then .error .badName
      else if (Text.trim type).isEmpty then .error .noType
      else .ok ⟨Text.trim name, Text.trim type⟩

/-- What a directive at a position declares, given the rest of its line. -/
def Directive.declare (position : Nat) (content : Text) : Directive → Except Error Declaration
  | .importPath =>
      match importPath? content with
      | none => .error (.emptyImport position)
      | some path => .ok (.importPath path)
  | .param =>
      match parameter content with
      | .error fault => .error (.malformedParam position fault)
      | .ok p => .ok (.param p)

/-- The rest of the first line, and what follows its line break. -/
def splitLine (t : Text) : Text × Text :=
  (t.takeWhile (· != '\n'), (t.dropWhile (· != '\n')).drop 1)

/-- The line break at the end of the first line, if there is one. -/
def lineBreak (t : Text) : Text := (t.dropWhile (· != '\n')).take 1

/-- A text is its first line, the line break and what follows. -/
theorem splitLine_append (t : Text) : (splitLine t).1 ++ lineBreak t ++ (splitLine t).2 = t := by
  simp only [splitLine, lineBreak, List.append_assoc, List.take_append_drop,
    List.takeWhile_append_dropWhile]

theorem Directive.after?_eq_some {d : Directive} {t rest : Text} (h : d.after? t = some rest) :
    t = d.mark ++ rest := by
  simp only [after?] at h
  split at h
  · rename_i first
    obtain ⟨tail, rfl⟩ := List.isPrefixOf_iff_prefix.mp first
    rw [List.drop_left] at h
    split at h
    · rw [← Option.some.inj h]
    · rw [← Option.some.inj h]
    · cases h
  · cases h

theorem directive?_eq_some {t rest : Text} {d : Directive} (h : directive? t = some (d, rest)) :
    t = d.mark ++ rest := by
  simp only [directive?] at h
  split at h
  · rename_i found
    cases h
    exact Directive.after?_eq_some found
  · obtain ⟨rest', found, he⟩ := Option.map_eq_some_iff.mp h
    cases he
    exact Directive.after?_eq_some found

theorem length_splitLine_le (t : Text) : (splitLine t).2.length ≤ t.length := by
  have := congrArg List.length (List.takeWhile_append_dropWhile (p := (· != '\n')) (l := t))
  simp only [splitLine, List.length_drop, List.length_append] at *
  omega

theorem length_lt_of_directive? {t rest : Text} {d : Directive}
    (h : directive? (Text.trimStart t) = some (d, rest)) :
    (splitLine rest).2.length < t.length := by
  have split := congrArg List.length
    (List.takeWhile_append_dropWhile (p := Text.isBlank) (l := t))
  have line := congrArg List.length (directive?_eq_some h)
  have mark : 0 < d.mark.length := by cases d <;> decide
  have := length_splitLine_le rest
  simp only [Text.trimStart, List.length_append] at *
  omega

/-- Reads declarations from a position on. Returns each with its position, and the body: all that
follows the last of them. -/
def declarations (position : Nat) (t : Text) :
    Except Error (List (Nat × Declaration) × Body) :=
  match h : directive? (Text.trimStart t) with
  | none => .ok ([], ⟨position, t⟩)
  | some (d, rest) =>
      have : (splitLine rest).2.length < t.length := length_lt_of_directive? h
      let start := position + Text.byteSize (t.takeWhile Text.isBlank)
      let next := start + Text.byteSize (d.mark ++ (splitLine rest).1 ++ lineBreak rest)
      match d.declare start (Text.trim (splitLine rest).1) with
      | .error e => .error e
      | .ok declared =>
          match declarations next (splitLine rest).2 with
          | .error e => .error e
          | .ok (more, body) => .ok ((start, declared) :: more, body)
termination_by t.length

def importsOf (ds : List (Nat × Declaration)) : List Text :=
  ds.filterMap fun
    | (_, .importPath path) => some path
    | _ => none

def paramsOf (ds : List (Nat × Declaration)) : List (Nat × Parameter) :=
  ds.filterMap fun
    | (position, .param p) => some (position, p)
    | _ => none

/-- The header of a tag or a layout: any imports and parameters. -/
def ofFragment (source : Text) : Except Error Header :=
  match declarations 0 source with
  | .error e => .error e
  | .ok (ds, body) => .ok ⟨importsOf ds, (paramsOf ds).map (·.2), none, body⟩

/-- The header of a template: any imports, and exactly one parameter, the model. -/
def ofTemplate (source : Text) : Except Error Header :=
  match declarations 0 source with
  | .error e => .error e
  | .ok (ds, body) =>
      match paramsOf ds with
      | [] => .error .missingParam
      | [(_, model)] => .ok ⟨importsOf ds, [], some model, body⟩
      | _ :: (position, _) :: _ => .error (.duplicateParam position)

def ofSource (kind : SourceKind) (source : Text) : Except Error Header :=
  match kind with
  | .template => ofTemplate source
  | .tag | .layout => ofFragment source

end Header

end Stencil
