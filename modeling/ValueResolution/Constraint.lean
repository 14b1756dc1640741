import ValueResolution.Preferences
import ValueResolution.Resolution
import ValueResolution.Text.Blank
import ValueResolution.Text.Decimal
/-!
# Type constraints

A constraint asks for a kind of value. An undefined value passes every constraint. A value of the
wrong kind is refused but kept, with the code and the wording of its constraint.

With conversion on, a text that spells a number or a boolean passes the constraint that asks for
one, as that number or boolean. A number may have blanks around it; digits alone, with at most a
minus sign, are a whole number while 64 bits with a sign can hold it, and everything else a
floating one, which has to be finite (`numberOfText?`).
-/

set_option autoImplicit false

namespace ValueResolution

/-- The kinds of value that can be asked for. -/
inductive Constraint where
  | any
  | number
  | string
  | boolean
  | array
  | object
deriving DecidableEq

/-- The number a text spells. -/
def numberOfText? (text : String) : Option Number :=
  let cs := Text.trim text.toList
  match Text.signed? cs with
  | some n => some (.whole n)
  | none => ((Text.float? cs).filter Binary64.isFinite).map Number.float

/-- The boolean a text spells, in any letter case. -/
def booleanOfText? (text : String) : Option Bool :=
  let word := String.ofList (text.toList.map Char.toLower)
  if word = "true" then some true else if word = "false" then some false else none

namespace Constraint

/-- The code of a refusal. -/
def code : Constraint → String
  | any => "any.base"
  | number => "number.base"
  | string => "string.base"
  | boolean => "boolean.base"
  | array => "array.base"
  | object => "object.base"

/-- What is asked for, in words. -/
def description : Constraint → String
  | any => "any value"
  | number => "a number"
  | string => "a string"
  | boolean => "a boolean"
  | array => "an array"
  | object => "an object"

/-- The value as the constraint lets it through, if it does. -/
def accept? (c : Constraint) (convert : Bool) (v : Value) : Option Value :=
  match c, v with
  | any, v => some v
  | number, .number n => some (.number n)
  | number, .string s => if convert then (numberOfText? s).map .number else none
  | string, .string s => some (.string s)
  | boolean, .bool b => some (.bool b)
  | boolean, .string s => if convert then (booleanOfText? s).map .bool else none
  | array, .array items => some (.array items)
  | object, .object fields => some (.object fields)
  | _, _ => none

/-- A value that does not fit. -/
def refuse (c : Constraint) (v : Value) : Resolution where
  value := some v
  errors := [{ code := c.code, message := "must be " ++ c.description }]

/-- Checks a value, converting it where that is allowed. -/
def check (c : Constraint) (convert : Bool) : Option Value → Resolution
  | none => .undefined
  | some v =>
    match c.accept? convert v with
    | some accepted => .ofValue accepted
    | none => c.refuse v

end Constraint

end ValueResolution
