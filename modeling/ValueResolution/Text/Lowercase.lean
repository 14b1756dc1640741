import ValueResolution.Text.CaseTable
/-!
# Lower case

The full lower case of a text, by the rules of the Unicode standard that hold in every language.
A letter is replaced by its lower case; the capital `İ` becomes two characters, and the capital
sigma has the final form at the end of a word: behind a cased letter and before none, where
characters that do not matter for case are passed over (`endsWord`).
-/

set_option autoImplicit false

namespace ValueResolution.Text

/-- Whether a code point is in one of the ranges. -/
def inRanges (ranges : List (Nat × Nat)) (n : Nat) : Bool :=
  ranges.any fun (first, last) => first ≤ n && n ≤ last

/-- The lower case of a letter that has one of one character. -/
def lowerChar (c : Char) : Char :=
  let n := c.toNat
  match lowercaseRuns.find? fun (first, last, step, _) =>
      first ≤ n && n ≤ last && (n - first) % step == 0 with
  | some (_, _, _, shift) => Char.ofNat (n + shift).toNat
  | none => c

/-- Whether the first character that matters for case, if there is one, is cased. -/
def startsCased (cs : List Char) : Bool :=
  match cs.dropWhile fun c => inRanges ignorableRanges c.toNat with
  | [] => false
  | c :: _ => inRanges casedRanges c.toNat

/-- Whether a letter between `before`, nearest first, and `after` is the last of its word. -/
def endsWord (before after : List Char) : Bool := startsCased before && !startsCased after

/-- The lower case of the characters behind `before`, which is kept nearest first. -/
def lowercaseFrom (before : List Char) : List Char → List Char
  | [] => []
  | c :: rest =>
    let lower :=
      if c = 'İ' then ['i', '\u0307']
      else if c = 'Σ' then [if endsWord before rest then 'ς' else 'σ']
      else [lowerChar c]
    lower ++ lowercaseFrom (c :: before) rest

/-- The lower case of a text. -/
def lowercase (text : String) : String := String.ofList (lowercaseFrom [] text.toList)

end ValueResolution.Text
