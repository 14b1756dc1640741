import ValueResolution.Text.Decimal
import ValueResolution.Toml.Basic
/-!
# The numbers of a TOML document

Digits may have single underscores between them. A whole number is decimal with an optional sign,
without zeros in front, or hexadecimal, octal or binary without a sign; it has to fit 64 bits. A
floating number has a fraction, an exponent or both, or is one of the words `inf` and `nan`; a
positive one that is too large is refused.
-/

set_option autoImplicit false

namespace ValueResolution.Toml

/-- Reads digits with single underscores between them; the answer leaves the underscores out. -/
def digitRun (isDigit : Char → Bool) : Reader (List Char)
  | [] => none
  | c :: rest =>
    if !isDigit c then none
    else
      match rest with
      | '_' :: d :: after =>
        if isDigit d then (digitRun isDigit (d :: after)).map fun (ds, cs) => (c :: ds, cs)
        else none
      | '_' :: [] => none
      | d :: after =>
        if isDigit d then (digitRun isDigit (d :: after)).map fun (ds, cs) => (c :: ds, cs)
        else some ([c], d :: after)
      | [] => some ([c], [])

/-- Reads a sign, if there is one, as its character. -/
def sign : List Char → List Char × List Char
  | '+' :: rest => (['+'], rest)
  | '-' :: rest => (['-'], rest)
  | cs => ([], cs)

/-- Reads the digits of a decimal number: a zero alone, or a run that starts with none. -/
def wholeDigits : Reader (List Char)
  | '0' :: rest => some (['0'], rest)
  | cs => digitRun Char.isDigit cs

/-- Reads a fraction with its point, if one begins here. -/
def fraction? : Reader (List Char)
  | '.' :: rest => (digitRun Char.isDigit rest).map fun (ds, cs) => ('.' :: ds, cs)
  | cs => some ([], cs)

/-- Reads an exponent with its letter, if one begins here. -/
def exponentPart? : Reader (List Char)
  | c :: rest =>
    if c = 'e' || c = 'E' then
      let (s, rest) := sign rest
      (digitRun Char.isDigit rest).map fun (ds, cs) => ('e' :: s ++ ds, cs)
    else some ([], c :: rest)
  | [] => some ([], [])

/-- Reads one of the words for numbers that are not finite, behind its sign. -/
def special? (negative : Bool) : Reader Toml
  | 'i' :: 'n' :: 'f' :: rest => some (.float (.ofMagnitude negative Binary64.infinite), rest)
  | 'n' :: 'a' :: 'n' :: rest =>
    some (.float (.ofMagnitude negative Binary64.notANumber), rest)
  | _ => none

/-- Reads a floating number in digits. -/
def decimal? : Reader Toml := fun cs => do
  let (s, cs) := sign cs
  let (whole, cs) ← wholeDigits cs
  let (fraction, cs) ← fraction? cs
  let (exponent, cs) ← exponentPart? cs
  if fraction.isEmpty && exponent.isEmpty then none
  let x ← (Text.Decimal.read? (s ++ whole ++ fraction ++ exponent)).map Text.Decimal.toBinary64
  if x = .ofMagnitude false Binary64.infinite then none
  return (.float x, cs)

/-- Reads a floating number. -/
def float? : Reader Toml := fun cs =>
  match decimal? cs with
  | some r => some r
  | none =>
    let (s, cs) := sign cs
    special? (s == ['-']) cs

/-- Reads a whole number to a base behind its two marks. -/
def based? (base : Nat) (isDigit : Char → Bool) : Reader Toml := fun cs => do
  let (ds, cs) ← digitRun isDigit cs
  let n := Text.ofDigits base ds
  if n < Text.signedBound then return (.integer n, cs) else none

/-- Reads a whole number. -/
def integer? : Reader Toml
  | '0' :: 'x' :: cs => based? 16 Text.isHexDigit cs
  | '0' :: 'o' :: cs => based? 8 (fun c => '0' ≤ c && c ≤ '7') cs
  | '0' :: 'b' :: cs => based? 2 (fun c => c == '0' || c == '1') cs
  | cs => do
    let (s, cs) := sign cs
    let (ds, cs) ← wholeDigits cs
    let n ← Text.signed? (if s = ['-'] then '-' :: ds else ds)
    return (.integer n, cs)

/-- Reads a date-time or a number. -/
def number? : Reader Toml := fun cs =>
  match Datetime.read? cs with
  | some (d, rest) => some (.datetime d, rest)
  | none =>
    match float? cs with
    | some r => some r
    | none => integer? cs

end ValueResolution.Toml
