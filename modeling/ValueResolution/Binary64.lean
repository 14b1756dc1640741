/-!
# Binary floating point

A `Binary64` is a word of the binary64 interchange format: a sign bit, eleven exponent bits and
fifty-two fraction bits. `Binary64.ofRatio` is the nearest number to a fraction, a tie going to
the even fraction field; beyond the largest finite number it is infinite.

Two numbers are the same (`Binary64.same`) when they are equal as numbers: both zeros are the same
and what is not a number is the same as nothing.
-/

set_option autoImplicit false

namespace ValueResolution

/-- A word of the binary64 format. -/
structure Binary64 where
  bits : UInt64
deriving DecidableEq

namespace Binary64

/-- The place of the sign bit. -/
def signPlace : Nat := 0x8000000000000000

/-- The bits below the sign. -/
def magnitude (x : Binary64) : Nat := x.bits.toNat % signPlace

/-- The magnitude of an infinite number. -/
def infinite : Nat := 0x7FF0000000000000

/-- The magnitude of the word that stands for what is not a number. -/
def notANumber : Nat := 0x7FF8000000000000

def isNaN (x : Binary64) : Bool := infinite < x.magnitude

def isFinite (x : Binary64) : Bool := x.magnitude < infinite

/-- Equality as numbers. -/
def same (x y : Binary64) : Bool :=
  !x.isNaN && !y.isNaN && (x.bits == y.bits || (x.magnitude == 0 && y.magnitude == 0))

/-- A word from its sign and the bits below it. -/
def ofMagnitude (negative : Bool) (magnitude : Nat) : Binary64 :=
  ⟨UInt64.ofNat ((if negative then signPlace else 0) + magnitude)⟩

/-- The quotient rounded to the nearest whole number, a tie going to the even one. -/
def roundDiv (num den : Nat) : Nat :=
  let q := num / den
  let r := num % den
  if 2 * r < den || (2 * r == den && q % 2 == 0) then q else q + 1

/-- The greatest `k` with `2 ^ k ≤ num / den`, for positive `num` and `den`. -/
def leadingPlace (num den : Nat) : Int :=
  let k : Int := (num.log2 : Int) - den.log2
  if den <<< k.toNat ≤ num <<< (-k).toNat then k else k - 1

/-- The magnitude nearest to `num / den`. The last place kept is 52 below the leading one, but
not below `-1074`; adding the rounded digits to the exponent field carries when they overflow. -/
def magnitudeOfRatio (num den : Nat) : Nat :=
  if num = 0 then 0
  else
    let place := max (leadingPlace num den - 52) (-1074)
    let digits := roundDiv (num <<< (-place).toNat) (den <<< place.toNat)
    min ((place + 1074).toNat <<< 52 + digits) infinite

/-- The number nearest to `num / den`, with the given sign. -/
def ofRatio (negative : Bool) (num den : Nat) : Binary64 :=
  ofMagnitude negative (magnitudeOfRatio num den)

end Binary64

end ValueResolution
