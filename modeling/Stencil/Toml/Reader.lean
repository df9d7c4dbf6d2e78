import Stencil.Toml.Value

/-!
Reading TOML documents. Readers take a text and return what they read with the rest, or nothing if
the text is not well formed; those that call themselves take a bound on their steps, which the length
of the text gives.
-/

namespace Stencil.Toml

abbrev Reader (α : Type) := Text → Option (α × Text)

/-- Whether a character may stand in a comment or a string: no control character but the tab. -/
def isPrintable (c : Char) : Bool := c == '\t' || (c.toNat ≥ 0x20 && c.toNat != 0x7F)

def isSpace (c : Char) : Bool := c == ' ' || c == '\t'

def skipSpace (t : Text) : Text := t.dropWhile isSpace

def lineBreak? : Text → Option Text
  | '\n' :: t => some t
  | '\r' :: '\n' :: t => some t
  | _ => none

/-- What follows a comment up to its line break, if a comment stands here. -/
def skipComment? : Text → Option Text
  | '#' :: t =>
      let rest := t.dropWhile isPrintable
      if rest.isEmpty || (lineBreak? rest).isSome then some rest else none
  | t => some t

/-- What follows the end of a line: spaces, a comment and a line break. -/
def endOfLine? (t : Text) : Option Text :=
  (skipComment? (skipSpace t)).bind fun rest => if rest.isEmpty then some [] else lineBreak? rest

/-- Skips spaces, comments and line breaks, starting inside a comment or outside. -/
def skipTriviaFrom? (inComment : Bool) : Text → Option Text
  | [] => some []
  | '\n' :: t => skipTriviaFrom? false t
  | '\r' :: '\n' :: t => skipTriviaFrom? false t
  | c :: t =>
      if inComment then if isPrintable c then skipTriviaFrom? true t else none
      else if isSpace c then skipTriviaFrom? false t
      else if c == '#' then skipTriviaFrom? true t
      else some (c :: t)

def skipTrivia? (t : Text) : Option Text := skipTriviaFrom? false t

/-- Skips what may stand between the parts of a pair. -/
def skipGap? (inBraces : Bool) (t : Text) : Option Text :=
  if inBraces then skipTrivia? t else some (skipSpace t)

def hexDigit? (c : Char) : Option Nat :=
  if c.isDigit then some (c.toNat - '0'.toNat)
  else if 'a' ≤ c && c ≤ 'f' then some (c.toNat - 'a'.toNat + 10)
  else if 'A' ≤ c && c ≤ 'F' then some (c.toNat - 'A'.toNat + 10)
  else none

def codePoint? (digits : Text) : Option Char :=
  (digits.mapM hexDigit?).bind fun ds =>
    let code := ds.foldl (fun n d => 16 * n + d) 0
    if code.isValidChar then some (Char.ofNat code) else none

def escape? : Reader Char
  | 'b' :: t => some ('\x08', t)
  | 't' :: t => some ('\t', t)
  | 'n' :: t => some ('\n', t)
  | 'f' :: t => some ('\x0c', t)
  | 'r' :: t => some ('\r', t)
  | 'e' :: t => some ('\x1b', t)
  | '"' :: t => some ('"', t)
  | '\\' :: t => some ('\\', t)
  | 'x' :: a :: b :: t => (codePoint? [a, b]).map (·, t)
  | 'u' :: a :: b :: c :: d :: t => (codePoint? [a, b, c, d]).map (·, t)
  | 'U' :: a :: b :: c :: d :: e :: f :: g :: h :: t =>
      (codePoint? [a, b, c, d, e, f, g, h]).map (·, t)
  | _ => none

def skipBlanks : Text → Text
  | ' ' :: t => skipBlanks t
  | '\t' :: t => skipBlanks t
  | '\n' :: t => skipBlanks t
  | '\r' :: '\n' :: t => skipBlanks t
  | t => t

/-- What follows the line break, the spaces and the further line breaks that a backslash at the end
of a line removes. -/
def lineContinuation? (t : Text) : Option Text := (lineBreak? (skipSpace t)).map skipBlanks

/-- How a string is quoted: by which character, and whether three times on each side. -/
structure Quoting where
  quote : Char
  triple : Bool := false
  deriving DecidableEq, Repr

namespace Quoting

def escapes (q : Quoting) : Bool := q.quote == '"'

/-- What belongs to the string of the quotes that end it here, and what follows them. Up to two more
quotes than three belong to the string. -/
def closing? (q : Quoting) (t : Text) : Option (Text × Text) :=
  if q.triple then
    let quotes := (t.takeWhile (· == q.quote)).take 5
    if quotes.length < 3 then none else some (quotes.drop 3, t.drop quotes.length)
  else if t.head? = some q.quote then some ([], t.drop 1)
  else none

/-- Splits around the quotes that end a string. A character after a backslash does not end it. -/
def split? (q : Quoting) : Text → Option (Text × Text)
  | [] => none
  | c :: t =>
      match q.closing? (c :: t) with
      | some found => some found
      | none =>
          if q.escapes && c == '\\' then
            match t with
            | [] => none
            | d :: t => (q.split? t).map fun (inside, rest) => (c :: d :: inside, rest)
          else (q.split? t).map fun (inside, rest) => (c :: inside, rest)

/-- The string that stands between quotes. Line breaks stand in triple quotes only. -/
def decode? (q : Quoting) : Nat → Text → Option Text
  | 0, _ => none
  | _ + 1, [] => some []
  | n + 1, c :: t =>
      if q.escapes && c == '\\' then
        match if q.triple then lineContinuation? t else none with
        | some t => q.decode? n t
        | none => (escape? t).bind fun (e, t) => (q.decode? n t).map (e :: ·)
      else if isPrintable c || (q.triple && (lineBreak? (c :: t)).isSome) then
        (q.decode? n t).map (c :: ·)
      else none

def tail? (q : Quoting) : Reader Text := fun t =>
  (q.split? t).bind fun (inside, rest) => (q.decode? (inside.length + 1) inside).map (·, rest)

end Quoting

def shortString? : Reader Text
  | '"' :: t => Quoting.tail? ⟨'"', false⟩ t
  | '\'' :: t => Quoting.tail? ⟨'\'', false⟩ t
  | _ => none

/-- A string. A line break right after triple quotes is not part of it. -/
def string? : Reader Text
  | '"' :: '"' :: '"' :: t => Quoting.tail? ⟨'"', true⟩ ((lineBreak? t).getD t)
  | '\'' :: '\'' :: '\'' :: t => Quoting.tail? ⟨'\'', true⟩ ((lineBreak? t).getD t)
  | t => shortString? t

def isBareChar (c : Char) : Bool := c.isAlphanum || c == '_' || c == '-'

/-- A part of a key: bare, or a string in single quotes of either kind. -/
def keyPart? : Reader Text
  | '"' :: t => shortString? ('"' :: t)
  | '\'' :: t => shortString? ('\'' :: t)
  | t =>
      let part := t.takeWhile isBareChar
      if part.isEmpty then none else some (part, t.dropWhile isBareChar)

/-- How many parts a key can have, and how many brackets and braces can stand open at once. -/
def nestingLimit : Nat := 80

/-- Parts of a key with dots between them, so many at most. Spaces may stand around the dots. -/
def keyParts? : Nat → Reader (List Text)
  | 0, _ => none
  | n + 1, t =>
      (keyPart? (skipSpace t)).bind fun (part, t) =>
        match skipSpace t with
        | '.' :: t => (keyParts? n t).map fun (parts, t) => (part :: parts, t)
        | t => some ([part], t)

/-- A key: all but its last part, and that. -/
def key? : Reader (List Text × Text) := fun t =>
  (keyParts? nestingLimit t).bind fun (parts, t) =>
    parts.getLast?.map fun key => ((parts.dropLast, key), t)

/-- Digits of a base, with single underscores between them. -/
def digits? (base : Nat) (t : Text) : Option Nat :=
  let groups := List.splitOn '_' t
  if groups.any List.isEmpty then none
  else
    (groups.flatten.mapM fun c => (hexDigit? c).filter (· < base)).map fun ds =>
      ds.foldl (fun n d => base * n + d) 0

/-- A number without its sign. A decimal number has no leading zero. -/
def magnitude? : Text → Option Nat
  | '0' :: [] => some 0
  | '0' :: _ => none
  | t => digits? 10 t

def integer? : Text → Option Int
  | '+' :: t => (magnitude? t).map Int.ofNat
  | '-' :: t => (magnitude? t).map fun n => -(n : Int)
  | '0' :: 'x' :: t => (digits? 16 t).map Int.ofNat
  | '0' :: 'o' :: t => (digits? 8 t).map Int.ofNat
  | '0' :: 'b' :: t => (digits? 2 t).map Int.ofNat
  | t => (magnitude? t).map Int.ofNat

/-- A sign, if one stands here, and what follows. The answer is whether it is a minus. -/
def splitSign : Text → Bool × Text
  | '+' :: t => (false, t)
  | '-' :: t => (true, t)
  | t => (false, t)

/-- The digits after the point of a number, without underscores. There need not be a point. -/
def fraction? : Reader Text
  | '.' :: t =>
      let run := t.takeWhile fun c => c.isDigit || c == '_'
      (digits? 10 run).map fun _ => (run.filter (· != '_'), t.drop run.length)
  | t => some ([], t)

/-- The power of ten that a number is times, up to the end. There need not be one. -/
def power? : Text → Option Int
  | [] => some 0
  | mark :: t =>
      if mark != 'e' && mark != 'E' then none
      else
        let (negative, t) := splitSign t
        (digits? 10 t).map fun n => if negative then -(n : Int) else n

/-- A floating-point number. What is too great for one is not well formed. -/
def float? (t : Text) : Option Double :=
  let (negative, t) := splitSign t
  if t = "inf".toList then some (.infinite negative)
  else if t = "nan".toList then some .nan
  else do
    let run := t.takeWhile fun c => c.isDigit || c == '_'
    let whole ← magnitude? run
    let (fraction, t) ← fraction? (t.drop run.length)
    let power ← power? t
    let digits := whole * Nat.pow 10 fraction.length + Datetime.digitsValue fraction
    Double.ofDecimal? negative digits (power - fraction.length)

/-- A value that is neither quoted nor in brackets or braces. What can be an integer is one. -/
def scalar? (t : Text) : Option Value :=
  if t = "true".toList then some (.boolean true)
  else if t = "false".toList then some (.boolean false)
  else ((integer? t).map .integer).or
    (((float? t).map .float).or ((Datetime.read? t).map .datetime))

def isScalarChar (c : Char) : Bool := c.isAlphanum || ['_', '+', '-', '.', ':'].contains c

/-- How many characters a value takes that is neither quoted nor in brackets or braces. A space may
stand between a date and a time. -/
def scalarLength (t : Text) : Nat :=
  let first := t.takeWhile isScalarChar
  match t.drop first.length with
  | ' ' :: rest =>
      let second := rest.takeWhile isScalarChar
      if (Datetime.date? first).any (·.2.isEmpty) && second.head?.any Char.isDigit then
        first.length + 1 + second.length
      else first.length
  | _ => first.length

mutual

/-- A value in which a number of brackets and braces can still be opened. -/
def value? : Nat → Nat → Reader Value
  | 0, _, _ => none
  | n + 1, room, t =>
      match t with
      | '"' :: _ => (string? t).map fun (s, t) => (.string s, t)
      | '\'' :: _ => (string? t).map fun (s, t) => (.string s, t)
      | '[' :: t =>
          if room = 0 then none
          else (items? n (room - 1) t).map fun (items, t) => (.array false items, t)
      | '{' :: t =>
          if room = 0 then none
          else (pairs? n (room - 1) [] t).map fun (entries, t) => (.table .braces entries, t)
      | t =>
          let length := scalarLength t
          (scalar? (t.take length)).map fun v => (v, t.drop length)

/-- The items of an array, through its bracket. A comma may follow the last one. -/
def items? : Nat → Nat → Reader (List Value)
  | 0, _, _ => none
  | n + 1, room, t =>
      match skipTrivia? t with
      | none => none
      | some (']' :: t) => some ([], t)
      | some t =>
          match value? n room t with
          | none => none
          | some (v, t) =>
              match skipTrivia? t with
              | some (',' :: t) => (items? n room t).map fun (vs, t) => (v :: vs, t)
              | some (']' :: t) => some ([v], t)
              | _ => none

/-- The pairs of a table in braces, through its brace, added to the pairs before them. A comma may
follow the last one. -/
def pairs? : Nat → Nat → Entries → Reader Entries
  | 0, _, _, _ => none
  | n + 1, room, entries, t =>
      match skipTrivia? t with
      | none => none
      | some ('}' :: t) => some (entries, t)
      | some t =>
          match pair? n true room t with
          | none => none
          | some ((path, key, v), t) =>
              match entries.addDotted? path key v, skipTrivia? t with
              | some entries, some (',' :: t) => pairs? n room entries t
              | some entries, some ('}' :: t) => some (entries, t)
              | _, _ => none

/-- A key and its value. All but the last part of the key come first. In braces, comments and line
breaks may stand around the equals sign. -/
def pair? : Nat → Bool → Nat → Reader (List Text × Text × Value)
  | 0, _, _, _ => none
  | n + 1, inBraces, room, t =>
      match key? t with
      | none => none
      | some ((path, key), t) =>
          match skipGap? inBraces t with
          | some ('=' :: t) =>
              match skipGap? inBraces t with
              | none => none
              | some t => (value? n room t).map fun (v, t) => ((path, key, v), t)
          | _ => none

end

/-- Reads lines, given the entries so far and the path of the last header. The bound is greater than
the number of characters that are left. -/
def lines? : Nat → Entries → List Text → Text → Option Entries
  | 0, _, _, _ => none
  | n + 1, entries, header, t =>
      match skipTrivia? t with
      | none => none
      | some [] => some entries
      | some ('[' :: '[' :: t) =>
          match key? t with
          | some ((path, key), ']' :: ']' :: t) =>
              match entries.appendTable? path key, endOfLine? t with
              | some entries, some t => lines? n entries (path ++ [key]) t
              | _, _ => none
          | _ => none
      | some ('[' :: t) =>
          match key? t with
          | some ((path, key), ']' :: t) =>
              match entries.openTable? path key, endOfLine? t with
              | some entries, some t => lines? n entries (path ++ [key]) t
              | _, _ => none
          | _ => none
      | some t =>
          match pair? (2 * n + 2) false nestingLimit t with
          | none => none
          | some ((path, key, v), t) =>
              match entries.addBelow? header path key v, endOfLine? t with
              | some entries, some t => lines? n entries header t
              | _, _ => none

def skipMark : Text → Text
  | '\ufeff' :: t => t
  | t => t

/-- The entries of a document. A byte order mark at its start is skipped. -/
def read? (t : Text) : Option Entries :=
  let t := skipMark t
  lines? (t.length + 1) [] [] t

end Stencil.Toml
