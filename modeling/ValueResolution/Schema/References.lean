import ValueResolution.Schema.Basic
/-!
# References out of a schema

The references that a terminal makes, seen from its place (`Terminal.references`). A nested schema
makes those references of its trees that reach out of them, with the steps up to its own place
taken off.
-/

set_option autoImplicit false

namespace ValueResolution

mutual

/-- The references a terminal makes from its place. -/
def Terminal.references (t : Terminal) : List Reference :=
  match t with
  | .reference r => [r]
  | .expression x => x.references
  | .schema s => s.references
termination_by structural t

/-- The references a schema makes out of itself, from its place. -/
def Schema.references (s : Schema) : List Reference :=
  match s with
  | ⟨source, default, _, _, conditional, _⟩ =>
    source.references ++ referencesOfTree? default ++ referencesOfConditional? conditional
termination_by structural s

/-- The references a source makes. -/
def Source.references (s : Source) : List Reference :=
  match s with
  | .subject => []
  | .literal _ => []
  | .tree t => t.references
  | .reference r => (r.escape? 0).toList
  | .expression x => x.references.filterMap fun r => r.escape? 0
termination_by structural s

/-- The references out of a tree, from the place of the tree. -/
def ValueTree.references (t : ValueTree) : List Reference :=
  match t with
  | ⟨_, _, sites, _, _⟩ => referencesOfSites sites
termination_by structural t

/-- The references of terminals out of their tree. -/
def referencesOfSites (sites : List Site) : List Reference :=
  match sites with
  | [] => []
  | ⟨path, terminal⟩ :: rest =>
    (terminal.references.filterMap fun r => r.escape? path.length) ++ referencesOfSites rest
termination_by structural sites

/-- The references out of a tree, if there is one. -/
def referencesOfTree? (t : Option ValueTree) : List Reference :=
  match t with
  | none => []
  | some t => t.references
termination_by structural t

/-- The references out of a conditional, if there is one. -/
def referencesOfConditional? (c : Option Conditional) : List Reference :=
  match c with
  | none => []
  | some c => c.references
termination_by structural c

/-- The references out of the trees of a conditional. -/
def Conditional.references (c : Conditional) : List Reference :=
  match c with
  | ⟨_, branches, otherwise⟩ => referencesOfBranches branches ++ referencesOfTree? otherwise
termination_by structural c

/-- The references out of the trees of several cases. -/
def referencesOfBranches (branches : List Branch) : List Reference :=
  match branches with
  | [] => []
  | ⟨pattern, outcome⟩ :: rest =>
    pattern.references ++ referencesOfTree? outcome ++ referencesOfBranches rest
termination_by structural branches

/-- The references a pattern makes. -/
def Pattern.references (p : Pattern) : List Reference :=
  match p with
  | .equals t => t.references
  | .schema s => s.references
termination_by structural p

end

end ValueResolution
