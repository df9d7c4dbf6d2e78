import Stencil.Text.Basic

/-!
JSON values and their indented text: two spaces to a level, fields in the order of their names,
characters outside ASCII as they are.
-/

namespace Stencil

inductive Json where
  | null
  | number (value : Nat)
  | string (value : Text)
  | array (items : List Json)
  | object (fields : List (Text × Json))
  deriving Repr

namespace Json

/-- An object with its fields in the order of their names. -/
def ofFields (fields : List (String × Json)) : Json :=
  .object ((fields.map fun (name, value) => (name.toList, value)).mergeSort
    (fun a b => !b.1.precedes a.1))

def hexDigit (n : Nat) : Char := (Nat.toDigits 16 n).getLastD '0'

def escapeChar (c : Char) : Text :=
  match c with
  | '"' => ['\\', '"']
  | '\\' => ['\\', '\\']
  | '\x08' => ['\\', 'b']
  | '\t' => ['\\', 't']
  | '\n' => ['\\', 'n']
  | '\x0c' => ['\\', 'f']
  | '\r' => ['\\', 'r']
  | c =>
      if c.toNat < 0x20 then ['\\', 'u', '0', '0', hexDigit (c.toNat / 16), hexDigit (c.toNat % 16)]
      else [c]

def quote (t : Text) : Text := '"' :: t.flatMap escapeChar ++ ['"']

def newLine (level : Nat) : Text := '\n' :: List.replicate (2 * level) ' '

mutual

def render (level : Nat) : Json → Text
  | null => "null"
  | number value => Text.decimal value
  | string value => quote value
  | array [] => "[]"
  | array (item :: items) =>
      '[' :: newLine (level + 1) ++ render (level + 1) item ++ renderItems (level + 1) items ++
        newLine level ++ [']']
  | object [] => "\x7b\x7d"
  | object ((name, value) :: fields) =>
      '{' :: newLine (level + 1) ++ quote name ++ [':', ' '] ++ render (level + 1) value ++
        renderFields (level + 1) fields ++ newLine level ++ ['}']

def renderItems (level : Nat) : List Json → Text
  | [] => []
  | item :: items => ',' :: newLine level ++ render level item ++ renderItems level items

def renderFields (level : Nat) : List (Text × Json) → Text
  | [] => []
  | (name, value) :: fields =>
      ',' :: newLine level ++ quote name ++ [':', ' '] ++ render level value ++
        renderFields level fields

end

def pretty (v : Json) : Text := v.render 0

end Json

end Stencil
