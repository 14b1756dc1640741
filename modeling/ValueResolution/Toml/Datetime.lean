import ValueResolution.Text.Numeral
/-!
# Dates and times

A date-time of a TOML document is a date, a time of day, or both, and with both it may have an
offset. It is written with a `T` between the date and the time, with the fraction of a second to
nine digits at most and without zeros at its end, and with the offset as `Z` or in hours and
minutes.

`Datetime.read?` reads one off the front of a text: a date has to exist in the calendar, the
seconds of a time must be there, and digits of the fraction beyond the ninth are dropped.
`Datetime.ofText?` reads a whole text.
-/

set_option autoImplicit false

namespace ValueResolution.Toml

/-- Reads something off the front of a text; the answer ends with what is left. -/
abbrev Reader (α : Type) := List Char → Option (α × List Char)

structure Date where
  year : Nat
  month : Nat
  day : Nat
deriving DecidableEq

structure TimeOfDay where
  hour : Nat
  minute : Nat
  second : Nat
  nanosecond : Nat
deriving DecidableEq

/-- The distance of local time from universal time. -/
inductive Offset where
  | utc
  | minutes (n : Int)
deriving DecidableEq

structure Datetime where
  date : Option Date := none
  time : Option TimeOfDay := none
  offset : Option Offset := none
deriving DecidableEq

/-! ## Writing -/

/-- A number in at least `width` digits. -/
def padded (width n : Nat) : String :=
  let digits := Nat.toDigits 10 n
  String.ofList (List.replicate (width - digits.length) '0' ++ digits)

def Date.text (d : Date) : String :=
  padded 4 d.year ++ "-" ++ padded 2 d.month ++ "-" ++ padded 2 d.day

/-- The fraction of a second without zeros at its end; nothing for a whole second. -/
def fractionText (nanosecond : Nat) : String :=
  if nanosecond = 0 then ""
  else
    let digits := (padded 9 nanosecond).toList.reverse.dropWhile (· == '0')
    "." ++ String.ofList digits.reverse

def TimeOfDay.text (t : TimeOfDay) : String :=
  padded 2 t.hour ++ ":" ++ padded 2 t.minute ++ ":" ++ padded 2 t.second ++
    fractionText t.nanosecond

def Offset.text : Offset → String
  | utc => "Z"
  | minutes n =>
    (if n < 0 then "-" else "+") ++ padded 2 (n.natAbs / 60) ++ ":" ++ padded 2 (n.natAbs % 60)

def Datetime.text (d : Datetime) : String :=
  let date := (d.date.map Date.text).getD ""
  let time := (d.time.map TimeOfDay.text).getD ""
  let between := if d.date.isSome && d.time.isSome then "T" else ""
  date ++ between ++ time ++ (d.offset.map Offset.text).getD ""

/-! ## Reading -/

/-- Reads exactly `n` digits as a number. -/
def digits (n : Nat) : Reader Nat := fun cs =>
  if (cs.take n).length = n then (Text.numeral? (cs.take n)).map fun v => (v, cs.drop n) else none

/-- Reads `n` digits as a number between two bounds. -/
def digitsWithin (n low high : Nat) : Reader Nat := fun cs =>
  (digits n cs).filter fun (v, _) => low ≤ v && v ≤ high

/-- Reads one of the given characters. -/
def oneOf (chars : List Char) : Reader Char
  | c :: rest => if chars.contains c then some (c, rest) else none
  | [] => none

def isLeapYear (year : Nat) : Bool :=
  year % 4 == 0 && (year % 100 != 0 || year % 400 == 0)

/-- The number of days of a month. -/
def daysIn (year month : Nat) : Nat :=
  if month = 2 then if isLeapYear year then 29 else 28
  else if month = 4 || month = 6 || month = 9 || month = 11 then 30
  else 31

/-- Reads a date that exists in the calendar. -/
def date? : Reader Date := fun cs => do
  let (year, cs) ← digits 4 cs
  let (_, cs) ← oneOf ['-'] cs
  let (month, cs) ← digitsWithin 2 1 12 cs
  let (_, cs) ← oneOf ['-'] cs
  let (day, cs) ← digitsWithin 2 1 (daysIn year month) cs
  return (⟨year, month, day⟩, cs)

/-- Reads a fraction of a second, if there is one, in billionths. -/
def nanosecond? : Reader Nat
  | '.' :: cs =>
    let fraction := cs.takeWhile Char.isDigit
    let kept := fraction.take 9
    (Text.numeral? kept).map fun v => (v * Nat.pow 10 (9 - kept.length), cs.drop fraction.length)
  | cs => some (0, cs)

/-- Reads a time of day; a minute may have a sixty-first second. -/
def time? : Reader TimeOfDay := fun cs => do
  let (hour, cs) ← digitsWithin 2 0 23 cs
  let (_, cs) ← oneOf [':'] cs
  let (minute, cs) ← digitsWithin 2 0 59 cs
  let (_, cs) ← oneOf [':'] cs
  let (second, cs) ← digitsWithin 2 0 60 cs
  let (nanosecond, cs) ← nanosecond? cs
  return (⟨hour, minute, second, nanosecond⟩, cs)

/-- Reads the hours and minutes of an offset with the given sign. -/
def offsetMinutes? (sign : Int) : Reader Offset := fun cs => do
  let (hour, cs) ← digitsWithin 2 0 23 cs
  let (_, cs) ← oneOf [':'] cs
  let (minute, cs) ← digitsWithin 2 0 59 cs
  return (.minutes (sign * (hour * 60 + minute : Nat)), cs)

/-- Reads an offset, if one begins here. -/
def offset? : Reader (Option Offset)
  | 'Z' :: cs => some (some .utc, cs)
  | 'z' :: cs => some (some .utc, cs)
  | '+' :: cs => (offsetMinutes? 1 cs).map fun (o, cs) => (some o, cs)
  | '-' :: cs => (offsetMinutes? (-1) cs).map fun (o, cs) => (some o, cs)
  | cs => some (none, cs)

/-- Reads a time behind a date, if one follows. -/
def timeAfterDate (date : Date) (cs : List Char) : Option (Datetime × List Char) :=
  match oneOf ['T', 't', ' '] cs with
  | none => some ({ date := some date }, cs)
  | some (_, after) =>
    match time? after with
    | none => some ({ date := some date }, cs)
    | some (time, after) =>
      (offset? after).map fun (offset, after) =>
        ({ date := some date, time := some time, offset := offset }, after)

/-- Reads a date-time. -/
def Datetime.read? : Reader Datetime := fun cs =>
  match date? cs with
  | some (date, after) => timeAfterDate date after
  | none => (time? cs).map fun (time, after) => ({ time := some time }, after)

/-- The date-time that a whole text spells. -/
def Datetime.ofText? (text : String) : Option Datetime :=
  match Datetime.read? text.toList with
  | some (d, []) => some d
  | _ => none

example : ((Datetime.read? "1979-05-27 07:32:00.5000-07:30".toList).map fun r => r.1.text) =
    some "1979-05-27T07:32:00.5-07:30" := by decide +kernel

end ValueResolution.Toml
