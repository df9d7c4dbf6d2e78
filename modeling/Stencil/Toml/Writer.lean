import Stencil.Toml.Reader

/-!
Writing a table out as a document. Tables and arrays of nothing but tables get headers, and all other
values are written in one piece, with brackets and braces.
-/

namespace Stencil.Toml

/-- A character in double quotes. Control characters are escaped by their codes. -/
def quotedChar : Char → Text
  | '"' => "\\\"".toList
  | '\\' => "\\\\".toList
  | '\n' => "\\n".toList
  | c =>
      if isPrintable c then [c]
      else "\\u00".toList ++ [Nat.digitChar (c.toNat / 16), Nat.digitChar (c.toNat % 16)]

def quoted (t : Text) : Text := '"' :: t.flatMap quotedChar ++ ['"']

/-- A key, in quotes if it has to be. -/
def keyText (key : Text) : Text :=
  if !key.isEmpty && key.all isBareChar then key else quoted key

def integerText (i : Int) : Text := if i < 0 then '-' :: Text.decimal i.natAbs else Text.decimal i.natAbs

/-- A floating-point number, told apart from an integer by a point. -/
def floatText : Double → Text
  | .nan => "nan".toList
  | .infinite negative => (Double.infinite negative).text
  | .finite negative mantissa exponent =>
      let digits := (Double.finite negative mantissa exponent).text
      if digits.contains '.' then digits else digits ++ ".0".toList

mutual

def Value.inline : Value → Text
  | .string t => quoted t
  | .integer i => integerText i
  | .float x => floatText x
  | .boolean b => (if b then "true" else "false").toList
  | .datetime d => d.text
  | .array _ items => '[' :: Text.joinWith ", " (inlineItems items) ++ [']']
  | .table _ entries => '{' :: Text.joinWith ", " (inlineEntries entries) ++ ['}']

def inlineItems : List Value → List Text
  | [] => []
  | v :: rest => v.inline :: inlineItems rest

def inlineEntries : List (Text × Value) → List Text
  | [] => []
  | (key, v) :: rest => List.flatten [keyText key, " = ".toList, v.inline] :: inlineEntries rest

end

def Value.hasHeader : Value → Bool
  | .array _ items => !items.isEmpty && items.all Value.isTable
  | v => v.isTable

def plainEntries (entries : Entries) : Text :=
  (entries.filter (!·.2.hasHeader)).flatMap fun (key, v) =>
    List.flatten [keyText key, " = ".toList, v.inline, "\n".toList]

/-- Whether the headers below a table are not enough to make it. -/
def needsHeader (entries : Entries) : Bool := entries.isEmpty || entries.any (!·.2.hasHeader)

def headerLine (opening : String) (path : List Text) (closing : String) : Text :=
  List.flatten [opening.toList, Text.joinWith "." (path.map keyText), closing.toList, "\n".toList]

mutual

/-- A value with its headers, if it gets any. -/
def Value.sections (path : List Text) : Value → Text
  | .table _ entries =>
      List.flatten [if needsHeader entries then headerLine "[" path "]" else [],
        plainEntries entries, sectionsBelow path entries]
  | .array _ items =>
      if !items.isEmpty && items.all Value.isTable then arraySections path items else []
  | _ => []

def arraySections (path : List Text) : List Value → Text
  | .table _ entries :: rest =>
      List.flatten [headerLine "[[" path "]]", plainEntries entries, sectionsBelow path entries,
        arraySections path rest]
  | _ => []

def sectionsBelow (path : List Text) : List (Text × Value) → Text
  | [] => []
  | (key, v) :: rest => v.sections (path ++ [key]) ++ sectionsBelow path rest

end

def write (entries : Entries) : Text := plainEntries entries ++ sectionsBelow [] entries

end Stencil.Toml
