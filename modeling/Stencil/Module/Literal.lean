import Stencil.Text.Basic

/-!
Texts as string literals of the generated language.
-/

namespace Stencil.Module

/-- How a character is written between the quotes of a string literal. -/
def escapeChar : Char → Text
  | '"' => ['\\', '"']
  | '\\' => ['\\', '\\']
  | '\n' => ['\\', 'n']
  | '\t' => ['\\', 't']
  | '\r' => ['\\', 'r']
  | '\x0c' => ['\\', 'u', '{', 'c', '}']
  | '\x08' => ['\\', 'u', '{', '8', '}']
  | c => [c]

/-- A text as it stands between the quotes of a string literal with that value. -/
def escape (t : Text) : Text := t.flatMap escapeChar

def literal (t : Text) : Text := '"' :: escape t ++ ['"']

end Stencil.Module
