import ValueResolution.Resolver
/-!
# Schemas and value trees

A value tree is a skeleton of plain data with empty slots, and a terminal for every slot: a
reference, an expression or a nested schema. A schema is a source of values and the stages they go
through; its source, its default and its conditional hold value trees again.

A tree keeps two orders of its terminals. In `order` references that count from the outermost
container are left out, since they lead out of a nested tree. `rootedOrder` counts them in, as they
lead into the tree when it is the outermost one; it is the text of a path on a cycle if there is no
such order.
-/

set_option autoImplicit false

namespace ValueResolution

mutual

/-- A place in a tree whose value has to be found. -/
inductive Terminal where
  | reference (r : Reference)
  | expression (x : Expression)
  | schema (s : Schema)

/-- Where a schema takes its value from. -/
inductive Source where
  /-- The value under validation. -/
  | subject
  /-- A value that goes through no stage. -/
  | literal (v : Value)
  | tree (t : ValueTree)
  | reference (r : Reference)
  | expression (x : Expression)

/-- A source of values and the stages they go through. -/
structure Schema where
  source : Source
  default : Option ValueTree
  validator : Option Validator
  required : Bool
  conditional : Option Conditional
  strip : Bool

/-- A terminal and its place in the tree. -/
structure Site where
  path : Path
  terminal : Terminal

/-- Plain data with terminals in it. -/
structure ValueTree where
  skeleton : Arena Slot
  root : NodeId
  /-- The terminals in the order of their declaration. -/
  sites : List Site
  order : List Path
  rootedOrder : Except String (List Path)

/-- A list of cases for the value at `subject` inside another, or for the whole value. -/
structure Conditional where
  subject : Option Path
  branches : List Branch
  otherwise : Option ValueTree

/-- A case: which values it is for, and what they turn into. -/
structure Branch where
  pattern : Pattern
  outcome : Option ValueTree

/-- What a value is compared with. -/
inductive Pattern where
  /-- The value the tree resolves to. -/
  | equals (t : ValueTree)
  /-- All values without errors under the schema. -/
  | schema (s : Schema)

end

/-- The kinds of terminal. -/
inductive TerminalKind where
  | reference
  | expression
  | schema
deriving DecidableEq

def Terminal.kind : Terminal → TerminalKind
  | reference _ => .reference
  | expression _ => .expression
  | schema _ => .schema

/-- A terminal as it is listed: its place and its kind. -/
structure Registration where
  path : Path
  kind : TerminalKind
deriving DecidableEq

/-- The terminals in the order of their declaration. -/
def ValueTree.registrations (t : ValueTree) : List Registration :=
  t.sites.map fun site => ⟨site.path, site.terminal.kind⟩

/-- The terminals of the tree that is the schema's source. -/
def Schema.registrations (s : Schema) : List Registration :=
  match s.source with
  | .tree t => t.registrations
  | _ => []

/-- The value of a source that goes through no stage. -/
def Source.literal? : Source → Option Value
  | literal v => some v
  | _ => none

end ValueResolution
