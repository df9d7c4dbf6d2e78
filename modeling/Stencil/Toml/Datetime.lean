import Stencil.Text.Basic

/-!
Dates and times: a date, a time of day, or both with an offset from universal time. They are read
from groups of digits of fixed width, and each is written in one way only.
-/

namespace Stencil.Toml

structure Date where
  year : Nat
  month : Nat
  day : Nat
  deriving DecidableEq, Repr

/-- A time of day. Seconds may be left out, and so may the fraction, counted in billionths of a
second. -/
structure Time where
  hour : Nat
  minute : Nat
  second : Option Nat := none
  fraction : Option Nat := none
  deriving DecidableEq, Repr

/-- An offset from universal time: none by name, or one in minutes. -/
inductive Offset where
  | universal
  | minutes (count : Int)
  deriving DecidableEq, Repr

inductive Datetime where
  | date (date : Date)
  | time (time : Time)
  | both (date : Date) (time : Time) (offset : Option Offset)
  deriving DecidableEq, Repr

def Date.isLeap (year : Nat) : Bool := year % 4 == 0 && (year % 100 != 0 || year % 400 == 0)

def Date.daysIn (year month : Nat) : Nat :=
  if month == 2 then if isLeap year then 29 else 28
  else if [4, 6, 9, 11].contains month then 30
  else 31

def Date.isValid (d : Date) : Bool :=
  1 ≤ d.month && d.month ≤ 12 && 1 ≤ d.day && d.day ≤ Date.daysIn d.year d.month

/-- Whether a time is one of some day. The last minute may have a leap second. -/
def Time.isValid (t : Time) : Bool := t.hour ≤ 23 && t.minute ≤ 59 && t.second.all (· ≤ 60)

namespace Datetime

def digitsValue (digits : Text) : Nat :=
  digits.foldl (fun n c => 10 * n + (c.toNat - '0'.toNat)) 0

def digits? (width : Nat) (t : Text) : Option (Nat × Text) :=
  let run := t.takeWhile Char.isDigit
  if run.length = width then some (digitsValue run, t.dropWhile Char.isDigit) else none

def after? (mark : Char) (width : Nat) : Text → Option (Nat × Text)
  | c :: t => if c = mark then digits? width t else none
  | [] => none

def date? (t : Text) : Option (Date × Text) := do
  let (year, t) ← digits? 4 t
  let (month, t) ← after? '-' 2 t
  let (day, t) ← after? '-' 2 t
  let found : Date := ⟨year, month, day⟩
  if found.isValid then some (found, t) else none

/-- The fraction of a second after its point, if one stands here. Digits past the ninth do not
count. -/
def fraction? : Text → Option (Option Nat × Text)
  | '.' :: t =>
      let run := t.takeWhile Char.isDigit
      if run.isEmpty then none
      else some (some (digitsValue ((run ++ List.replicate 9 '0').take 9)), t.dropWhile Char.isDigit)
  | t => some (none, t)

/-- A time: hour and minute, and perhaps the second with a fraction. -/
def time? (t : Text) : Option (Time × Text) := do
  let (hour, t) ← digits? 2 t
  let (minute, t) ← after? ':' 2 t
  let (clock, t) ←
    if t.head? = some ':' then do
      let (second, t) ← after? ':' 2 t
      let (fraction, t) ← fraction? t
      some ((⟨hour, minute, some second, fraction⟩ : Time), t)
    else some ((⟨hour, minute, none, none⟩ : Time), t)
  if clock.isValid then some (clock, t) else none

/-- What stands for an offset up to the end: nothing, a letter, or a signed time. -/
def offset? : Text → Option (Option Offset)
  | [] => some none
  | ['Z'] => some (some .universal)
  | ['z'] => some (some .universal)
  | sign :: t => do
      if sign != '+' && sign != '-' then none
      else
        let (hours, t) ← digits? 2 t
        let (minutes, t) ← after? ':' 2 t
        let count : Int := 60 * hours + minutes
        if t.isEmpty && hours ≤ 23 && minutes ≤ 59 then
          some (some (.minutes (if sign = '-' then -count else count)))
        else none

/-- The date or time that a text spells. A letter or a space stands between a date and a time. -/
def read? (t : Text) : Option Datetime :=
  match date? t with
  | some (day, []) => some (.date day)
  | some (day, separator :: t) =>
      if ['T', 't', ' '].contains separator then
        (time? t).bind fun (clock, t) => (offset? t).map (.both day clock)
      else none
  | none =>
      match time? t with
      | some (clock, []) => some (.time clock)
      | _ => none

def padded (width n : Nat) : Text :=
  let digits := Text.decimal n
  List.replicate (width - digits.length) '0' ++ digits

def dateText (d : Date) : Text :=
  padded 4 d.year ++ '-' :: padded 2 d.month ++ '-' :: padded 2 d.day

/-- A fraction without the zeros at its end, but with one digit at least. -/
def fractionText (fraction : Nat) : Text :=
  match ((padded 9 fraction).reverse.dropWhile (· == '0')).reverse with
  | [] => ['0']
  | digits => digits

def timeText (t : Time) : Text :=
  padded 2 t.hour ++ ':' :: padded 2 t.minute ++
    ((t.second.map fun s => ':' :: padded 2 s).getD []) ++
    ((t.fraction.map fun f => '.' :: fractionText f).getD [])

def offsetText : Offset → Text
  | .universal => ['Z']
  | .minutes count =>
      (if count < 0 then '-' else '+') ::
        (padded 2 (count.natAbs / 60) ++ ':' :: padded 2 (count.natAbs % 60))

def text : Datetime → Text
  | .date d => dateText d
  | .time t => timeText t
  | .both d t offset => dateText d ++ 'T' :: timeText t ++ (offset.map offsetText).getD []

end Datetime

end Stencil.Toml
