/-!
# Numerals

Whole numbers written in decimal digits. A numeral is one or more of the digits `0` to `9`
(`isNumeral`); it may start with zeros. `index?` reads a position, `signed?` a number that fits
64 bits with a sign. `index?_repr` says that a position is read back from its usual spelling.
-/

set_option autoImplicit false

namespace ValueResolution.Text

/-- One or more decimal digits. -/
def isNumeral (cs : List Char) : Bool := !cs.isEmpty && cs.all Char.isDigit

/-- The number a numeral spells. -/
def numeral? (cs : List Char) : Option Nat :=
  if isNumeral cs then some (Nat.ofDigitChars 10 cs 0) else none

/-- The value of a digit of a base up to sixteen; letters count in either case. -/
def digitValue (c : Char) : Nat :=
  if c.isDigit then c.toNat - '0'.toNat else c.toLower.toNat - 'a'.toNat + 10

/-- The digits of hexadecimal numbers. -/
def isHexDigit (c : Char) : Bool := c.isDigit || ('a' ≤ c.toLower && c.toLower ≤ 'f')

/-- The number that digits spell to a base up to sixteen. -/
def ofDigits (base : Nat) (cs : List Char) : Nat :=
  cs.foldl (fun n c => n * base + digitValue c) 0

/-- The number of positions that 64 bits can count. -/
def indexBound : Nat := 0x10000000000000000

/-- One more than the greatest number that fits 64 bits with a sign. -/
def signedBound : Nat := 0x8000000000000000

/-- Reads a position: at most one `+`, then a numeral below `indexBound`. -/
def index? (cs : List Char) : Option Nat :=
  let digits := match cs with
    | '+' :: rest => rest
    | _ => cs
  (numeral? digits).filter (· < indexBound)

/-- Reads a signed number: at most one `-`, then a numeral, within 64 bits. -/
def signed? (cs : List Char) : Option Int :=
  match cs with
  | '-' :: rest => (numeral? rest).bind fun n => if n ≤ signedBound then some (-(n : Int)) else none
  | _ => (numeral? cs).bind fun n => if n < signedBound then some (n : Int) else none

theorem isNumeral_toDigits (n : Nat) : isNumeral (Nat.toDigits 10 n) = true := by
  simp only [isNumeral, Bool.and_eq_true, Bool.not_eq_true', List.isEmpty_eq_false_iff,
    List.all_eq_true]
  exact ⟨Nat.toDigits_ne_nil, fun c hc =>
    Nat.isDigit_of_mem_toDigits (by decide) (by decide) hc⟩

theorem numeral?_toDigits (n : Nat) : numeral? (Nat.toDigits 10 n) = some n := by
  simp [numeral?, isNumeral_toDigits, Nat.ofDigitChars_toDigits]

/-- A position is read back from its usual spelling. -/
theorem index?_repr {n : Nat} (h : n < indexBound) : index? n.repr.toList = some n := by
  have hd : n.repr.toList = Nat.toDigits 10 n := by simp [Nat.repr]
  rw [hd]
  unfold index?
  split
  · rename_i rest heq
    have : ('+' : Char).isDigit = true :=
      Nat.isDigit_of_mem_toDigits (b := 10) (n := n) (by decide) (by decide) (by simp [heq])
    simp at this
  · simp [numeral?_toDigits, h]

example : index? ['+', '0', '7'] = some 7 := by decide
example : index? ['-', '0'] = none := by decide
example : signed? ['-', '0'] = some 0 := by decide

end ValueResolution.Text
