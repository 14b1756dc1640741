import ValueResolution.Node
import ValueResolution.Schema.Resolve
/-!
# Schemas as they are written

A `SchemaSpec` is the written form of a schema, in which value trees are nodes. `SchemaSpec.build`
compiles them: the source, then the default, then the conditional, and fails with the first that
has no order of resolution.
-/

set_option autoImplicit false

namespace ValueResolution

/-- The written form of a pattern. -/
inductive Matcher where
  | equals (node : Node)
  | schema (s : Schema)

/-- The written form of a case. -/
structure Case where
  matcher : Matcher
  outcome : Option Node := none

/-- The written form of a conditional. -/
structure When where
  subject : Option Path := none
  cases : List Case := []
  otherwise : Option Node := none

/-- The written form of a source. -/
inductive SourceSpec where
  | subject
  | literal (v : Value)
  | tree (node : Node)
  | reference (r : Reference)
  | expression (x : Expression)

/-- The written form of a schema. -/
structure SchemaSpec where
  source : SourceSpec := .subject
  validator : Option Validator := none
  default : Option Node := none
  conditional : Option When := none
  required : Bool := false
  strip : Bool := false

/-- Compiles a node, if there is one. -/
def ValueTree.compile? : Option Node → Except Error (Option ValueTree)
  | none => .ok none
  | some node => some <$> ValueTree.compile node

def Matcher.compile : Matcher → Except Error Pattern
  | equals node => .equals <$> ValueTree.compile node
  | schema s => .ok (.schema s)

def Case.compile (c : Case) : Except Error Branch := do
  return { pattern := ← c.matcher.compile, outcome := ← ValueTree.compile? c.outcome }

/-- Compiles the cases in order, then what holds otherwise. -/
def When.compile (w : When) : Except Error Conditional := do
  return { subject := w.subject
           branches := ← w.cases.mapM Case.compile
           otherwise := ← ValueTree.compile? w.otherwise }

/-- Compiles a conditional, if there is one. -/
def When.compile? : Option When → Except Error (Option Conditional)
  | none => .ok none
  | some w => some <$> w.compile

def SourceSpec.compile : SourceSpec → Except Error Source
  | subject => .ok .subject
  | literal v => .ok (.literal v)
  | tree node => .tree <$> ValueTree.compile node
  | reference r => .ok (.reference r)
  | expression x => .ok (.expression x)

/-- Compiles a schema. -/
def SchemaSpec.build (s : SchemaSpec) : Except Error Schema := do
  return { source := ← s.source.compile
           default := ← ValueTree.compile? s.default
           validator := s.validator
           required := s.required
           conditional := ← When.compile? s.conditional
           strip := s.strip }

end ValueResolution
