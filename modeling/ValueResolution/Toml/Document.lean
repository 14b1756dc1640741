import ValueResolution.Toml.Number
import ValueResolution.Toml.Section
import ValueResolution.Toml.Text
/-!
# TOML documents

A document is a list of lines: blank ones, comments, assignments, and headers that say which table
the assignments behind them belong to. `Document.read?` reads a whole document into its table, or
fails if any part of it is malformed, writes a table or a key twice, or stands for nothing.

Arrays and tables may be nested inside one another, and keys dotted, less than `nestingLimit`
times.
-/

set_option autoImplicit false

namespace ValueResolution.Toml

/-- The number of steps down that is too many, in values and in keys. -/
def nestingLimit : Nat := 80

/-! ## Keys -/

/-- A character of a key without quotes. -/
def isBare (c : Char) : Bool := c.isAlphanum || c == '_' || c == '-'

/-- Reads one part of a key: with or without quotes. -/
def simpleKey? : Reader String
  | '"' :: cs => (line? '"' cs).map fun (s, rest) => (String.ofList s, rest)
  | '\'' :: cs => (line? '\'' cs).map fun (s, rest) => (String.ofList s, rest)
  | cs =>
    let s := cs.takeWhile isBare
    if s.isEmpty then none else some (String.ofList s, cs.drop s.length)

/-- Reads the parts of a dotted key, with spaces around them. -/
def keyParts : Nat → Reader (List String)
  | 0, _ => none
  | fuel + 1, cs => do
    let (part, cs) ← simpleKey? (skipSpaces cs)
    match skipSpaces cs with
    | '.' :: cs =>
      let (parts, cs) ← keyParts fuel cs
      return (part :: parts, cs)
    | cs => return ([part], cs)

/-- A dotted key: the tables it goes through, and its last part. -/
abbrev DottedKey := List String × String

/-- Reads a dotted key. -/
def key? : Reader DottedKey := fun cs => do
  let (parts, cs) ← keyParts (cs.length + 1) cs
  if nestingLimit ≤ parts.length then none
  let last ← parts.getLast?
  return ((parts.dropLast, last), cs)

/-- Reads an assignment. -/
def assignment? (value : Reader Part) : Reader (DottedKey × Part) := fun cs => do
  let (key, cs) ← key? cs
  match cs with
  | '=' :: cs =>
    let (p, cs) ← value (skipSpaces cs)
    return ((key, p), cs)
  | _ => none

/-! ## Values -/

/-- Reads the items of an array up to its closing bracket. -/
def arrayItems (value : Reader Part) : Nat → Reader (List Part)
  | 0, _ => none
  | fuel + 1, cs =>
    match skipTrivia cs with
    | ']' :: rest => some ([], rest)
    | cs => do
      let (p, cs) ← value cs
      match skipTrivia cs with
      | ',' :: rest =>
        let (ps, rest) ← arrayItems value fuel rest
        return (p :: ps, rest)
      | ']' :: rest => return ([p], rest)
      | _ => none

/-- Reads the assignments of an inline table up to its closing brace. -/
def inlineAssignments (value : Reader Part) : Nat → Section → Reader Section
  | 0, _, _ => none
  | fuel + 1, s, cs => do
    let (((tables, key), p), cs) ← assignment? value cs
    let s ← s.assign tables key p
    match skipSpaces cs with
    | ',' :: rest => inlineAssignments value fuel s rest
    | '\x7d' :: rest => return (s, rest)
    | _ => none

/-- Reads an inline table behind its opening brace. -/
def inlineTable? (value : Reader Part) : Reader Part := fun cs =>
  match skipSpaces cs with
  | '\x7d' :: rest => some (.inline .empty, rest)
  | cs => (inlineAssignments value (cs.length + 1) .empty cs).map fun (s, rest) =>
      (.inline s, rest)

/-- Reads a given word. -/
def word? (word : List Char) (v : Toml) : Reader Toml := fun cs =>
  if word.isPrefixOf cs then some (v, cs.drop word.length) else none

/-- Reads a value that holds no others. -/
def scalar? : Reader Toml := fun cs =>
  match cs with
  | [] => none
  | c :: _ =>
    if c = '"' || c = '\'' then (string? cs).map fun (s, rest) => (.string s, rest)
    else if c = 't' then word? ['t', 'r', 'u', 'e'] (.boolean true) cs
    else if c = 'f' then word? ['f', 'a', 'l', 's', 'e'] (.boolean false) cs
    else number? cs

/-- Reads a value in which others are nested less than `room` times. -/
def value? : (room : Nat) → Reader Part
  | 0, _ => none
  | room + 1, cs =>
    match cs with
    | '[' :: rest =>
      if room = 0 then none
      else (arrayItems (value? room) (rest.length + 1) rest).map fun (ps, rest) => (.array ps, rest)
    | '\x7b' :: rest => if room = 0 then none else inlineTable? (value? room) rest
    | cs => (scalar? cs).map fun (v, rest) => (.value v, rest)

/-! ## Lines -/

/-- A document as far as it was read: its tables, and where assignments go. -/
structure Document where
  root : Section := .empty
  here : List String := []

namespace Document

/-- Carries an assignment out in the table of the last header. -/
def assign (d : Document) (tables : List String) (key : String) (p : Part) : Option Document :=
  (Section.modifyAt false (Section.assign tables key p) d.here d.root).map fun root =>
    { d with root }

/-- Follows a header. -/
def follow (opens : List String → String → Section → Option Section) (d : Document)
    (key : DottedKey) : Option Document :=
  (opens key.1 key.2 d.root).map fun root => { root, here := key.1 ++ [key.2] }

/-- Reads the key of a header up to its closing brackets. -/
def header? (closing : List Char) : Reader DottedKey := fun cs => do
  let (key, cs) ← key? cs
  if closing.isPrefixOf cs then some (key, cs.drop closing.length) else none

/-- Reads one line that is not blank, up to what may stand at its end. -/
def line? (d : Document) : Reader Document
  | '#' :: rest => some (d, '#' :: rest)
  | '[' :: '[' :: rest => do
    let (key, rest) ← header? [']', ']'] rest
    return (← d.follow Section.openItem key, rest)
  | '[' :: rest => do
    let (key, rest) ← header? [']'] rest
    return (← d.follow Section.openTable key, rest)
  | cs => do
    let (((tables, key), p), rest) ← assignment? (value? nestingLimit) cs
    return (← d.assign tables key p, rest)

/-- Reads lines to the end. -/
def lines? : Nat → Document → List Char → Option Document
  | 0, _, _ => none
  | fuel + 1, d, cs =>
    match skipSpaces cs with
    | [] => some d
    | cs =>
      match newline? cs with
      | some rest => lines? fuel d rest
      | none => do
        let (d, rest) ← d.line? cs
        lines? fuel d (← endOfLine? rest)

/-- Reads a whole document; a byte order mark at its start is passed over. -/
def read? (text : String) : Option Table :=
  let cs := match text.toList with
    | '\ufeff' :: rest => rest
    | cs => cs
  (lines? (cs.length + 1) {} cs).bind fun d => d.root.toTable?

end Document

end ValueResolution.Toml
