import ValueResolution.Binary64
import ValueResolution.Text.Numeral
/-!
# Decimal fractions

A decimal is a sign, a whole number of digits and a power of ten. `Decimal.read?` reads the usual
scientific spelling: a sign, digits with at most one point, at least one digit, and an exponent.
`Decimal.toBinary64` is the nearest binary64 number, computed on whole numbers; powers of ten that
are out of reach of the format are cut off first.

`float?` reads a decimal or one of the words for the infinite numbers and for what is not a
number.
-/

set_option autoImplicit false

namespace ValueResolution.Text

/-- The number `± digits * 10 ^ exponent`. -/
structure Decimal where
  negative : Bool
  digits : Nat
  exponent : Int

/-- Splits a leading sign off; `true` is negative. -/
def splitSign : List Char → Bool × List Char
  | '-' :: rest => (true, rest)
  | '+' :: rest => (false, rest)
  | cs => (false, cs)

/-- The exponent at the end of a decimal: none, or `e` or `E`, a sign and a numeral. -/
def exponent? : List Char → Option Int
  | [] => some 0
  | c :: rest =>
    if c = 'e' || c = 'E' then
      let (negative, digits) := splitSign rest
      (numeral? digits).map fun n => if negative then -(n : Int) else n
    else none

namespace Decimal

/-- Reads the digits and the exponent of a decimal with the given sign. -/
def readUnsigned? (negative : Bool) (cs : List Char) : Option Decimal :=
  let whole := cs.takeWhile Char.isDigit
  let rest := cs.dropWhile Char.isDigit
  let (fraction, rest) := match rest with
    | '.' :: after => (after.takeWhile Char.isDigit, after.dropWhile Char.isDigit)
    | _ => ([], rest)
  match numeral? (whole ++ fraction), exponent? rest with
  | some digits, some e => some ⟨negative, digits, e - fraction.length⟩
  | _, _ => none

/-- Reads a decimal with an optional sign. -/
def read? (cs : List Char) : Option Decimal :=
  let (negative, rest) := splitSign cs
  readUnsigned? negative rest

/-- A power of ten beyond which every nonzero decimal is infinite, and below whose opposite it
rounds to zero. -/
def cutoff : Int := 400

/-- The nearest number of the binary64 format. Below `-cutoff` the digits are counted in, since
a number of `n` bits is less than `10 ^ n`. -/
def toBinary64 (d : Decimal) : Binary64 :=
  if d.digits = 0 then .ofMagnitude d.negative 0
  else if cutoff < d.exponent then .ofMagnitude d.negative Binary64.infinite
  else if d.exponent + (d.digits.log2 + 1) < -cutoff then .ofMagnitude d.negative 0
  else .ofRatio d.negative (d.digits * Nat.pow 10 d.exponent.toNat) (Nat.pow 10 (-d.exponent).toNat)

end Decimal

/-- Reads a decimal, or `inf`, `infinity` or `nan` in any letter case, as a binary64 number. -/
def float? (cs : List Char) : Option Binary64 :=
  let (negative, rest) := splitSign cs
  let word := String.ofList (rest.map Char.toLower)
  if word = "inf" || word = "infinity" then some (.ofMagnitude negative Binary64.infinite)
  else if word = "nan" then some (.ofMagnitude negative Binary64.notANumber)
  else (Decimal.readUnsigned? negative rest).map Decimal.toBinary64

end ValueResolution.Text
