import ValueResolution.Proofs.References.Inside
import ValueResolution.Schema.References
/-!
# References inside a schema

`Terminal.made` lists every reference that is made somewhere in a terminal, together with the
number of containers between the terminal and the place that makes it. The references that are
counted for a terminal are those of them that reach out of it (`Terminal.references_of_made`), with
the steps in between taken off all at once or tree by tree (`Reference.escape?_escape?`).
-/

set_option autoImplicit false

namespace ValueResolution

namespace Reference

/-- Leaving two trees one after the other takes off the steps of both. -/
theorem escape?_escape? (r : Reference) (a b : Nat) :
    ((r.escape? a).bind fun s => s.escape? b) = r.escape? (b + a) := by
  obtain ⟨anchor, path⟩ := r
  cases anchor with
  | root => rfl
  | level depth => rfl
  | relative up =>
    by_cases ha : a < up
    · by_cases hb : b + a < up
      · have hlt : b < up - a := by omega
        have hsub : up - a - b = up - (b + a) := by omega
        simp [escape?, ha, hb, hlt, hsub]
      · have hge : ¬ b < up - a := by omega
        simp [escape?, ha, hb, hge]
    · have hb : ¬ b + a < up := by omega
      simp [escape?, ha, hb]

/-- A reference that leaves its own place is the same there. -/
theorem eq_of_escape?_zero {r out : Reference} (h : r.escape? 0 = some out) : out = r := by
  obtain ⟨anchor, path⟩ := r
  cases anchor with
  | root => simp [escape?] at h
  | level depth => exact (Option.some.inj h).symm
  | relative up =>
    simp only [escape?, Option.ite_none_right_eq_some, Nat.sub_zero] at h
    exact (Option.some.inj h.2).symm

end Reference

/-- A reference and the number of containers between its place and the place it is counted for. -/
abbrev Made := Nat × Reference

namespace Made

/-- The reference as the place makes it that has this one in a tree of its own, `depth` containers
further out. -/
def deeper (depth : Nat) (m : Made) : Made := (depth + m.1, m.2)

/-- The reference as it leaves its place. -/
def out? (m : Made) : Option Reference := m.2.escape? m.1

theorem out?_deeper (depth : Nat) (m : Made) :
    (m.deeper depth).out? = m.out?.bind fun r => r.escape? depth :=
  (Reference.escape?_escape? m.2 m.1 depth).symm

/-- The references of an expression or a reference itself, from their own place. -/
def here (references : List Reference) : List Made := references.map fun r => (0, r)

/-- Of the references of a terminal those lead out of a tree that escape it. -/
theorem filterMap_here (references : List Reference) (depth : Nat) :
    ((here references).map (deeper depth)).filterMap out? =
      references.filterMap fun r => r.escape? depth := by
  rw [here, List.map_map, List.filterMap_map]
  rfl

/-- What leads out of a tree and of the one around it escapes both. -/
theorem filterMap_deeper (made : List Made) (depth : Nat) :
    (made.map (deeper depth)).filterMap out? =
      (made.filterMap out?).filterMap fun r => r.escape? depth := by
  rw [List.filterMap_map, List.filterMap_filterMap]
  exact congrArg (fun f => made.filterMap f) (funext fun m => out?_deeper depth m)

end Made

mutual

/-- The references made in a terminal. -/
def Terminal.made (t : Terminal) : List Made :=
  match t with
  | .reference r => Made.here [r]
  | .expression x => Made.here x.references
  | .schema s => s.made
termination_by structural t

/-- The references made in a schema. -/
def Schema.made (s : Schema) : List Made :=
  match s with
  | ⟨source, default, _, _, conditional, _⟩ =>
    source.made ++ madeInTree? default ++ madeInConditional? conditional
termination_by structural s

/-- The references made in a source. -/
def Source.made (s : Source) : List Made :=
  match s with
  | .subject => []
  | .literal _ => []
  | .tree t => t.made
  | .reference r => Made.here [r]
  | .expression x => Made.here x.references
termination_by structural s

/-- The references made in a tree. -/
def ValueTree.made (t : ValueTree) : List Made :=
  match t with
  | ⟨_, _, sites, _, _⟩ => madeInSites sites
termination_by structural t

/-- The references made in terminals of a tree, as seen from the place of the tree. -/
def madeInSites (sites : List Site) : List Made :=
  match sites with
  | [] => []
  | ⟨path, terminal⟩ :: rest => terminal.made.map (Made.deeper path.length) ++ madeInSites rest
termination_by structural sites

/-- The references made in a tree, if there is one. -/
def madeInTree? (t : Option ValueTree) : List Made :=
  match t with
  | none => []
  | some t => t.made
termination_by structural t

/-- The references made in a conditional, if there is one. -/
def madeInConditional? (c : Option Conditional) : List Made :=
  match c with
  | none => []
  | some c => c.made
termination_by structural c

/-- The references made in the trees of a conditional. -/
def Conditional.made (c : Conditional) : List Made :=
  match c with
  | ⟨_, branches, otherwise⟩ => madeInBranches branches ++ madeInTree? otherwise
termination_by structural c

/-- The references made in the trees of several cases. -/
def madeInBranches (branches : List Branch) : List Made :=
  match branches with
  | [] => []
  | ⟨pattern, outcome⟩ :: rest => pattern.made ++ madeInTree? outcome ++ madeInBranches rest
termination_by structural branches

/-- The references made in a pattern. -/
def Pattern.made (p : Pattern) : List Made :=
  match p with
  | .equals t => t.made
  | .schema s => s.made
termination_by structural p

end

open Made

/-- A tree makes what its terminals make. -/
theorem ValueTree.made_eq (t : ValueTree) : t.made = madeInSites t.sites := by
  obtain ⟨skeleton, root, sites, order, rootedOrder⟩ := t
  rfl

theorem filterMap_here_zero (references : List Reference) :
    references.filterMap (fun r => r.escape? 0) = (here references).filterMap out? := by
  rw [here, List.filterMap_map]
  rfl

mutual

/-- The references of a terminal, as they leave a tree, are those made in it that leave the tree. -/
theorem Terminal.filterMap_references (t : Terminal) (depth : Nat) :
    t.references.filterMap (fun r => r.escape? depth) =
      (t.made.map (deeper depth)).filterMap out? := by
  match t with
  | .reference r => exact (filterMap_here [r] depth).symm
  | .expression x => exact (filterMap_here x.references depth).symm
  | .schema s =>
    rw [Terminal.references, Terminal.made, s.references_eq, filterMap_deeper]
termination_by structural t

/-- The references of a schema are those made in it that leave it. -/
theorem Schema.references_eq (s : Schema) : s.references = s.made.filterMap out? := by
  match s with
  | ⟨source, default, _, _, conditional, _⟩ =>
    rw [Schema.references, Schema.made, source.references_eq, referencesOfTree?_eq default,
      referencesOfConditional?_eq conditional, List.filterMap_append, List.filterMap_append]
termination_by structural s

theorem Source.references_eq (s : Source) : s.references = s.made.filterMap out? := by
  match s with
  | .subject => rfl
  | .literal _ => rfl
  | .tree t => exact t.references_eq
  | .reference r =>
    rw [Source.references, Source.made, ← filterMap_here_zero, List.filterMap_cons]
    cases r.escape? 0 <;> rfl
  | .expression x => exact filterMap_here_zero x.references
termination_by structural s

/-- The references out of a tree are those it makes that lead out of it. -/
theorem ValueTree.references_eq (t : ValueTree) : t.references = t.made.filterMap out? := by
  match t with
  | ⟨_, _, sites, _, _⟩ => exact referencesOfSites_eq sites
termination_by structural t

/-- The same of terminals, each at its place. -/
theorem referencesOfSites_eq (sites : List Site) :
    referencesOfSites sites = (madeInSites sites).filterMap out? := by
  match sites with
  | [] => rfl
  | ⟨path, terminal⟩ :: rest =>
    rw [referencesOfSites, madeInSites, terminal.filterMap_references, referencesOfSites_eq rest,
      List.filterMap_append]
termination_by structural sites

theorem referencesOfTree?_eq (t : Option ValueTree) :
    referencesOfTree? t = (madeInTree? t).filterMap out? := by
  match t with
  | none => rfl
  | some t => exact t.references_eq
termination_by structural t

theorem referencesOfConditional?_eq (c : Option Conditional) :
    referencesOfConditional? c = (madeInConditional? c).filterMap out? := by
  match c with
  | none => rfl
  | some c => exact c.references_eq
termination_by structural c

/-- The same of a conditional. -/
theorem Conditional.references_eq (c : Conditional) :
    c.references = c.made.filterMap out? := by
  match c with
  | ⟨_, branches, otherwise⟩ =>
    rw [Conditional.references, Conditional.made, referencesOfBranches_eq branches,
      referencesOfTree?_eq otherwise, List.filterMap_append]
termination_by structural c

theorem referencesOfBranches_eq (branches : List Branch) :
    referencesOfBranches branches = (madeInBranches branches).filterMap out? := by
  match branches with
  | [] => rfl
  | ⟨pattern, outcome⟩ :: rest =>
    rw [referencesOfBranches, madeInBranches, pattern.references_eq, referencesOfTree?_eq outcome,
      referencesOfBranches_eq rest, List.filterMap_append, List.filterMap_append]
termination_by structural branches

theorem Pattern.references_eq (p : Pattern) : p.references = p.made.filterMap out? := by
  match p with
  | .equals t => exact t.references_eq
  | .schema s => exact s.references_eq
termination_by structural p

end

/-- A reference made in a terminal counts as it leaves its place. -/
theorem Terminal.mem_references {t : Terminal} {m : Made} {r : Reference} (hm : m ∈ t.made)
    (hr : m.out? = some r) : r ∈ t.references := by
  cases t with
  | reference s =>
    obtain rfl := List.mem_singleton.1 hm
    exact List.mem_singleton.2 (Reference.eq_of_escape?_zero hr)
  | expression x =>
    obtain ⟨s, hs, rfl⟩ := List.mem_map.1 hm
    rw [Reference.eq_of_escape?_zero hr]
    exact hs
  | schema s =>
    rw [Terminal.references, s.references_eq]
    exact List.mem_filterMap.2 ⟨m, hm, hr⟩

/-- A reference of a terminal is made in it, with the same path and the same kind of anchor. -/
theorem Terminal.exists_made {t : Terminal} {r : Reference} (hr : r ∈ t.references) :
    ∃ m ∈ t.made, r.path = m.2.path ∧ r.isLevel = m.2.isLevel := by
  have hhere : ∀ {references : List Reference}, r ∈ references →
      ∃ m ∈ here references, r.path = m.2.path ∧ r.isLevel = m.2.isLevel :=
    fun h => ⟨(0, r), List.mem_map_of_mem (f := fun r => (0, r)) h, rfl, rfl⟩
  cases t with
  | reference s => exact hhere hr
  | expression x => exact hhere hr
  | schema s =>
    rw [Terminal.references, s.references_eq] at hr
    obtain ⟨m, hm, hout⟩ := List.mem_filterMap.1 hr
    exact ⟨m, hm, Reference.path_of_escape? hout, Reference.isLevel_of_escape? hout⟩

end ValueResolution
