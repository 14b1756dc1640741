import ValueResolution.Binary64
import ValueResolution.Fields
import ValueResolution.Key
/-!
# Plain values

A plain value is null, a boolean, a number, a text, an array or an object whose fields are in
order. A number is either whole or a binary64 number, and the two kinds are never equal.

`Value.same` is equality of values: arrays in order, objects without regard to it, floating
numbers by size. `Value.reach` follows a path into a value.
-/

set_option autoImplicit false

namespace ValueResolution

/-- A whole number, or a binary64 one. -/
inductive Number where
  | whole (n : Int)
  | float (x : Binary64)
deriving DecidableEq

/-- Equality as numbers of one kind. -/
def Number.same : Number → Number → Bool
  | whole m, whole n => m == n
  | float x, float y => x.same y
  | _, _ => false

/-- Plain data. -/
inductive Value where
  | null
  | bool (b : Bool)
  | number (n : Number)
  | string (s : String)
  | array (items : List Value)
  | object (fields : List (String × Value))

namespace Value

/-- A whole number. -/
def whole (n : Int) : Value := number (.whole n)

mutual

/-- Equality of values. Objects of one size are equal when each field of the first has an equal
one of the same name in the second. -/
def same : Value → Value → Bool
  | null, null => true
  | bool a, bool b => a == b
  | number a, number b => a.same b
  | string a, string b => a == b
  | array xs, array ys => sameItems xs ys
  | object xs, object ys => xs.length == ys.length && sameFields xs ys
  | _, _ => false

/-- Equality of arrays, item by item. -/
def sameItems : List Value → List Value → Bool
  | [], [] => true
  | x :: xs, y :: ys => same x y && sameItems xs ys
  | _, _ => false

/-- Whether each field has an equal one in `ys`. -/
def sameFields : List (String × Value) → Fields Value → Bool
  | [], _ => true
  | (name, x) :: xs, ys =>
    (match ys.at? name with
      | some y => same x y
      | none => false) && sameFields xs ys

end

/-- Equality of values that may be undefined; undefined equals undefined only. -/
def sameOption : Option Value → Option Value → Bool
  | some a, some b => a.same b
  | none, none => true
  | _, _ => false

/-- The field or the item that a key addresses. -/
def child? (v : Value) (key : Key) : Option Value :=
  match v with
  | object fields => Fields.at? fields key.text
  | array items => key.index?.bind fun i => items[i]?
  | _ => none

/-- Follows a path into a value. -/
def reach (v : Value) : Path → Option Value
  | [] => some v
  | key :: rest => (v.child? key).bind fun child => child.reach rest

end Value

end ValueResolution
