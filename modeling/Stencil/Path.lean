import Stencil.Text.Basic

/-!
Paths as texts, with slashes between their components.
-/

namespace Stencil.Path

/-- Appends a component. An absolute one replaces the path, and no second slash is written after a
trailing one. -/
def push (path component : Text) : Text :=
  if component.head? = some '/' then component
  else if path.isEmpty || path.getLast? = some '/' then path ++ component
  else path ++ '/' :: component

/-- Appends a component to a path that is read from its end. -/
def pushBack (path component : Text) : Text :=
  if component.head? = some '/' then component.reverse
  else if path.isEmpty || path.head? = some '/' then component.reverse ++ path
  else component.reverse ++ '/' :: path

def ofComponents (components : List Text) : Text := (components.foldl pushBack []).reverse

theorem pushBack_reverse (path component : Text) :
    pushBack path.reverse component = (push path component).reverse := by
  simp only [pushBack, push, List.isEmpty_reverse, List.head?_reverse]
  split
  · rfl
  · split
    · rw [List.reverse_append]
    · rw [List.reverse_append, List.reverse_cons, List.append_assoc, List.singleton_append]

theorem ofComponents_append_singleton (components : List Text) (component : Text) :
    ofComponents (components ++ [component]) = push (ofComponents components) component := by
  have := pushBack_reverse (ofComponents components) component
  simp only [ofComponents, List.reverse_reverse] at this
  simp only [ofComponents, List.foldl_append, List.foldl_cons, List.foldl_nil, this,
    List.reverse_reverse]

/-- Drops the trailing slashes and the trailing components that are a single dot, reading a path
from its end. -/
def dropTrailing : Text → Text
  | '/' :: t => dropTrailing t
  | '.' :: '/' :: t => dropTrailing ('/' :: t)
  | t => t

/-- The directory part, through its last slash, and the final component. A path that ends in the
parent directory, or has no component besides the root and the current directory, has none. -/
def splitName? (path : Text) : Option (Text × Text) :=
  let tail := dropTrailing path.reverse
  let name := (tail.takeWhile (· != '/')).reverse
  if name.isEmpty || name == ['.'] || name == ['.', '.'] then none
  else some ((tail.dropWhile (· != '/')).reverse, name)

/-- A component without its last dot and what follows that. A leading dot does not count. -/
def stem (name : Text) : Text :=
  match name.reverse.dropWhile (· != '.') with
  | _ :: c :: t => (c :: t).reverse
  | _ => name

/-- Replaces what follows the last dot of the final component, or adds it. -/
def setExtension (extension path : Text) : Text :=
  match splitName? path with
  | none => path
  | some (directory, name) => directory ++ stem name ++ '.' :: extension

/-- The parent directory as written, without trailing slashes. The root and the empty path have
none. -/
def parent? (path : Text) : Option Text :=
  match dropTrailing path.reverse with
  | [] => none
  | tail =>
      let directory := tail.dropWhile (· != '/')
      let rest := dropTrailing directory
      if rest.isEmpty && !directory.isEmpty then some ['/'] else some rest.reverse

end Stencil.Path
