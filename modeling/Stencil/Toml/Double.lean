import Stencil.Text.Blank

/-!
Floating-point numbers of 64 bits. A decimal number stands for the nearest one, and each is written
in the fewest decimal digits that stand for it.
-/

namespace Stencil.Toml

/-- A floating-point number. A finite one is its mantissa of at most 53 bits times a power of two. -/
inductive Double where
  | finite (negative : Bool) (mantissa : Nat) (exponent : Int)
  | infinite (negative : Bool)
  | nan
  deriving DecidableEq, Repr

namespace Double

def leastExponent : Int := -1074

def greatestExponent : Int := 971

def scale (base n d : Nat) : Int → Nat × Nat
  | .ofNat k => (n * Nat.pow base k, d)
  | .negSucc k => (n, d * Nat.pow base (k + 1))

/-- A fraction as the nearest whole number, or as the even one of two. -/
def round (n d : Nat) : Nat :=
  let quotient := n / d
  let rest := n % d
  if 2 * rest < d ∨ (2 * rest = d ∧ quotient % 2 = 0) then quotient else quotient + 1

/-- The mantissa and the exponent nearest to a fraction other than zero. The exponent may be too
great. -/
def nearest (n d : Nat) : Nat × Int :=
  let size : Int := n.log2 - d.log2
  let (high, low) := scale 2 n d (-size)
  let exponent := max (if high < low then size - 53 else size - 52) leastExponent
  let (high, low) := scale 2 n d (-exponent)
  let mantissa := round high low
  if mantissa = 0x20000000000000 then (0x10000000000000, exponent + 1) else (mantissa, exponent)

/-- The number nearest to a decimal one, unless that is too great. Powers that are out of range
anyway are not raised. -/
def ofDecimal? (negative : Bool) (digits : Nat) (power : Int) : Option Double :=
  let point := (Text.decimal digits).length + power
  if digits = 0 ∨ point < -330 then some (finite negative 0 leastExponent)
  else if 310 < point then none
  else
    let (high, low) := scale 10 digits 1 power
    let (mantissa, exponent) := nearest high low
    if exponent ≤ greatestExponent then some (finite negative mantissa exponent) else none

/-- How many digits of a fraction other than zero stand before the point. They are fewer than none
if zeros follow the point. -/
def pointOf (n d : Nat) : Int :=
  let point : Int := (Text.decimal n).length - (Text.decimal d).length
  let (high, low) := scale 10 n d (-point)
  if high < low then point else point + 1

/-- Some digits that stand for a number, given as a fraction, and how many of them stand before the
point; the nearer ones if there are two. They are as many as asked for, or a one with zeros that are
left out. -/
def digits? (mantissa : Nat) (exponent : Int) (n d : Nat) (width : Nat) : Option (Text × Int) :=
  let power := pointOf n d - width
  let (high, low) := scale 10 n d (-power)
  let below := high / low
  let nearer := if 2 * (high % low) ≤ low then [below, below + 1] else [below + 1, below]
  let found := nearer.find? fun digits =>
    ofDecimal? false digits power = some (finite false mantissa exponent)
  found.map fun digits =>
    let all := Text.decimal digits
    (Text.dropEndWhile (· == '0') all, all.length + power)

/-- The fewest digits that stand for a positive number, and how many of them stand before the point.
Seventeen are always enough. -/
def shortest (mantissa : Nat) (exponent : Int) : Text × Int :=
  let (n, d) := scale 2 mantissa 1 exponent
  ((List.range' 1 17).findSome? (digits? mantissa exponent n d)).getD ([], 0)

def positional (digits : Text) : Int → Text
  | .negSucc k => "0.".toList ++ List.replicate (k + 1) '0' ++ digits
  | 0 => "0.".toList ++ digits
  | .ofNat k =>
      if digits.length ≤ k then digits ++ List.replicate (k - digits.length) '0'
      else digits.take k ++ '.' :: digits.drop k

def signText (negative : Bool) : Text := if negative then ['-'] else []

def text : Double → Text
  | finite negative mantissa exponent =>
      let (digits, point) := shortest mantissa exponent
      signText negative ++ if mantissa = 0 then ['0'] else positional digits point
  | infinite negative => signText negative ++ "inf".toList
  | nan => "NaN".toList

def isZero : Double → Bool
  | finite _ mantissa _ => mantissa == 0
  | _ => false

end Double

end Stencil.Toml
