import Stencil.Text.Basic

/-!
Words are runs of ASCII letters, digits and underscores. Identifiers are the non-empty words that
do not start with a digit, and dotted names are identifiers with dots between them.
-/

namespace Stencil.Text

/-- A letter, a digit or an underscore of ASCII. -/
def isWordChar (c : Char) : Bool := c.isAlphanum || c == '_'

/-- A letter or an underscore, then any word characters. -/
def isIdentifier : Text → Bool
  | [] => false
  | c :: t => (c.isAlpha || c == '_') && t.all isWordChar

def dotParts (name : Text) : List Text := List.splitOn '.' name

def isDottedName (name : Text) : Bool := (dotParts name).all isIdentifier

end Stencil.Text
