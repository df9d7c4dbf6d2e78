import Stencil.Event

/-!
Body trees. A tree is a derivation of the grammar of bodies: each constructor is a production, and
the entries of a tree at a depth are the sentence that it derives there.
-/

namespace Stencil

/-- An event without its place: its depth and its payload. -/
def Event.entry (e : Event) : Nat × Event.Payload := (e.depth, e.payload)

namespace Body

mutual

/-- Items one after another: literal texts, code, calls and blocks. -/
inductive Tree where
  | nil
  | text (text : Text) (rest : Tree)
  | code (code : Text) (rest : Tree)
  | statement (code : Text) (rest : Tree)
  | tagCall (name args : Text) (rest : Tree)
  | conditional (condition : Text) (body : Tree) (branches : Branches) (rest : Tree)
  | loop (header : Text) (body rest : Tree)
  | layoutCall (name args : Text) (sections : Sections) (rest : Tree)
  | placeholder (name : Text) (body rest : Tree)

/-- The branches of a conditional after its first one. An else branch is the last. -/
inductive Branches where
  | done
  | elseIf (condition : Text) (body : Tree) (more : Branches)
  | otherwise (body : Tree)

inductive Sections where
  | done
  | cons (name : Text) (body : Tree) (more : Sections)

end

mutual

def Tree.entries (depth : Nat) : Tree → List (Nat × Event.Payload)
  | .nil => []
  | .text text rest => (depth, .text text) :: rest.entries depth
  | .code code rest => (depth, .code code) :: rest.entries depth
  | .statement code rest => (depth, .statement code) :: rest.entries depth
  | .tagCall name args rest => (depth, .tagCall name args) :: rest.entries depth
  | .conditional condition body branches rest =>
      (depth, .conditionStart condition) :: body.entries (depth + 1) ++ branches.entries depth ++
        (depth, .conditionEnd) :: rest.entries depth
  | .loop header body rest =>
      (depth, .loopStart header) :: body.entries (depth + 1) ++
        (depth, .loopEnd) :: rest.entries depth
  | .layoutCall name args sections rest =>
      (depth, .layoutCall name args) :: sections.entries (depth + 1) ++
        (depth, .layoutEnd) :: rest.entries depth
  | .placeholder name body rest =>
      (depth, .sectionStart name) :: body.entries (depth + 1) ++
        (depth, .sectionEnd) :: rest.entries depth

def Branches.entries (depth : Nat) : Branches → List (Nat × Event.Payload)
  | .done => []
  | .elseIf condition body more =>
      (depth, .conditionElseIf condition) :: body.entries (depth + 1) ++ more.entries depth
  | .otherwise body => (depth, .conditionElse) :: body.entries (depth + 1)

def Sections.entries (depth : Nat) : Sections → List (Nat × Event.Payload)
  | .done => []
  | .cons name body more =>
      (depth, .sectionStart name) :: body.entries (depth + 1) ++
        (depth, .sectionEnd) :: more.entries depth

end

def Sections.names : Sections → List Text
  | .done => []
  | .cons name _ more => name :: more.names

mutual

/-- Whether a source of a kind may have such a body: only a layout has placeholders, and no layout
call is supplied with two sections of one name. -/
def Tree.Permitted (kind : SourceKind) : Tree → Prop
  | .nil => True
  | .text _ rest => rest.Permitted kind
  | .code _ rest => rest.Permitted kind
  | .statement _ rest => rest.Permitted kind
  | .tagCall _ _ rest => rest.Permitted kind
  | .conditional _ body branches rest =>
      body.Permitted kind ∧ branches.Permitted kind ∧ rest.Permitted kind
  | .loop _ body rest => body.Permitted kind ∧ rest.Permitted kind
  | .layoutCall _ _ sections rest =>
      sections.names.Nodup ∧ sections.Permitted kind ∧ rest.Permitted kind
  | .placeholder _ body rest => kind = .layout ∧ body.Permitted kind ∧ rest.Permitted kind

def Branches.Permitted (kind : SourceKind) : Branches → Prop
  | .done => True
  | .elseIf _ body more => body.Permitted kind ∧ more.Permitted kind
  | .otherwise body => body.Permitted kind

def Sections.Permitted (kind : SourceKind) : Sections → Prop
  | .done => True
  | .cons _ body more => body.Permitted kind ∧ more.Permitted kind

end

end Body

end Stencil
