import ValueResolution.Proofs.Ending
/-!
# Results that keep to their constraints

A schema whose stages report nothing ends with a value of the kind that its constraint asks for, or
without a value if it may (`Stages.run_met`). The tree writes that value to the place of the
schema, and nothing it does afterwards changes what is there: on a way of fields the object that the
tree stands for has just this value, or no field (`Node.reach_form`). So a tree that is resolved
without errors keeps to all its constraints (`ValueTree.resolver_conforms`).
-/

set_option autoImplicit false

namespace ValueResolution

/-! ## What constraints ask for -/

namespace Constraint

/-- Whether the value is of the kind that is asked for. -/
def admits : Constraint → Value → Bool
  | any, _ => true
  | number, .number _ => true
  | string, .string _ => true
  | boolean, .bool _ => true
  | array, .array _ => true
  | object, .object _ => true
  | _, _ => false

/-- A constraint lets values of its kind through, converted or not. -/
theorem admits_of_accept? {c : Constraint} {convert : Bool} {v accepted : Value}
    (h : c.accept? convert v = some accepted) : c.admits accepted = true := by
  unfold accept? at h
  split at h
  case h_3 =>
    -- a text that spells a number
    split at h
    · obtain ⟨n, -, rfl⟩ := Option.map_eq_some_iff.1 h
      rfl
    · cases h
  case h_6 =>
    -- a text that spells a boolean
    split at h
    · obtain ⟨b, -, rfl⟩ := Option.map_eq_some_iff.1 h
      rfl
    · cases h
  case h_9 => cases h
  all_goals
    obtain rfl := Option.some.inj h
    rfl

/-- What is left of a value in which a constraint finds no fault is of its kind. -/
theorem admits_of_check {c : Constraint} {convert : Bool} {value : Option Value}
    (h : (c.check convert value).errors = []) {v : Value}
    (hv : (c.check convert value).value = some v) : c.admits v = true := by
  cases value with
  | none => cases hv
  | some given =>
    rw [check] at h hv
    cases ha : c.accept? convert given with
    | some accepted =>
      rw [ha] at hv
      obtain rfl := Option.some.inj hv
      exact admits_of_accept? ha
    | none =>
      rw [ha] at h
      cases h

/-- The value, if there is one, is of the kind that is asked for, and there is one if it is
needed. -/
structure Met (c : Constraint) (needed : Bool) (value : Option Value) : Prop where
  admits : ∀ v, value = some v → c.admits v = true
  isSome : needed = true → value.isSome = true

end Constraint

/-! ## Stages that report nothing -/

namespace Resolution

theorem errors_ne_nil_of_stops {r : Resolution} {scope : Scope} (h : r.stops scope = true) :
    r.errors ≠ [] := by
  intro hnil
  simp [stops, isOk, hnil] at h

end Resolution

namespace Stages

variable {s : Stages (Except Error)} {c : Constraint} {scope : Scope}

/-- The constraint has let the value through and it was found present, so it is of the kind asked
for, and there is one where there has to be. -/
theorem finish_met (hv : s.validator = some c.validator) (hc : s.conditional = none)
    {r full : Resolution} (h : s.finish r scope = .ok full) (hok : full.errors = []) :
    c.Met (s.required && !s.strip) full.value := by
  have hcheck : s.check r.value scope = c.check scope.prefs.convert r.value := by
    rw [check, hv]
    rfl
  have hremap : ∀ value, s.remap value scope = .ok ⟨value, []⟩ := by
    intro value
    rw [remap, hc]
    rfl
  simp only [finish_eq, hcheck] at h
  generalize hchecked : c.check scope.prefs.convert r.value = checked at h
  have hadmits : checked.errors = [] → ∀ v, checked.value = some v → c.admits v = true := by
    subst hchecked
    exact fun h v hv => Constraint.admits_of_check h hv
  split at h
  · rename_i hrefused
    obtain rfl := Except.ok.inj h
    have hnil : checked.errors = [] := (List.append_eq_nil_iff.1 hok).2
    simp [Resolution.isOk, hnil] at hrefused
  · split at h
    · obtain rfl := Except.ok.inj h
      simp at hok
    · rename_i hpresent
      rw [hremap] at h
      obtain rfl := Except.ok.inj h
      have hnil : checked.errors = [] := by
        simp only [List.append_nil] at hok
        exact (List.append_eq_nil_iff.1 hok).2
      cases hstrip : s.strip with
      | true => exact ⟨fun v hv => by simp at hv, fun hneeded => by simp at hneeded⟩
      | false =>
        refine ⟨fun v hv => hadmits hnil v (by simpa using hv), fun hneeded => ?_⟩
        have hrequired : s.required = true := by simpa using hneeded
        simpa [hrequired, Option.isSome_iff_ne_none] using hpresent

/-- Stages that report nothing end with a value of the kind asked for, or with none. -/
theorem run_met (hv : s.validator = some c.validator) (hc : s.conditional = none)
    {full : Resolution} (h : s.run scope = .ok full) (hok : full.errors = []) :
    c.Met (s.required && !s.strip) full.value := by
  obtain ⟨produced, -, h⟩ := bind_eq_ok_iff.1 h
  split at h
  · rename_i hstops
    obtain rfl := Except.ok.inj h
    exact absurd hok (Resolution.errors_ne_nil_of_stops hstops)
  · obtain ⟨filled, -, h⟩ := bind_eq_ok_iff.1 h
    split at h
    · rename_i hstops
      obtain rfl := Except.ok.inj h
      exact absurd hok (Resolution.errors_ne_nil_of_stops hstops)
    · exact finish_met hv hc h hok

end Stages

theorem Schema.resolver_met {s : Schema} (hsource : s.source.literal? = none) {c : Constraint}
    (hv : s.validator = some c.validator) (hc : s.conditional = none) {scope : Scope}
    {r : Resolution} (h : s.resolver scope = .ok r) (hok : r.errors = []) :
    c.Met (s.required && !s.strip) r.value := by
  obtain ⟨source, default, validator, required, conditional, strip⟩ := s
  obtain rfl : validator = some c.validator := hv
  obtain rfl : conditional = none := hc
  rw [Schema.resolver_eq, hsource] at h
  exact Stages.run_met rfl rfl h hok

/-! ## What a tree has at a way of fields -/

/-- On a way of fields to a terminal, the value of a form has what is in the slot. -/
theorem Node.reach_form {n : Node} {site : Site} (h : site ∈ n.sites)
    (hfields : ∀ key ∈ site.path, ∃ name, key = .field name) (σ : Path → Slot) :
    (((n.form σ).value fun slot => slot).bind fun v => v.reach site.path) = σ site.path := by
  refine site_induction (motive := fun n path => (∀ key ∈ path, ∃ name, key = .field name) →
    ∀ σ, (((n.form σ).value fun slot => slot).bind fun v => v.reach path) = σ path)
    (fun t _ σ => ?_) (fun n slot child path hs ih hfields σ => ?_) h hfields σ
  · cases hσ : σ [] with
    | none => simp [form, Tree.value, hσ]
    | some v => simp [form, Tree.value, hσ, Value.reach]
  · obtain ⟨⟨name, rfl⟩, hrest⟩ := List.forall_mem_cons.1 hfields
    cases n with
    | literal v => simp [step?] at hs
    | terminal t => simp [step?] at hs
    | seq items =>
      obtain ⟨i, -, -, heq⟩ := step?_seq.1 hs
      cases heq
    | map entries =>
      obtain ⟨hc, -⟩ := step?_map.1 hs
      have hd := Fields.distinct_ofEntries entries
      have hd' : Fields.Distinct ((Fields.ofEntries entries).map fun e =>
          (e.1, e.2.form (under σ (.field e.1)))) := by
        simpa [Fields.Distinct, Fields.names, Function.comp_def] using hd
      rw [form_map, Tree.value, Option.bind_some, Value.reach, Value.child?, Tree.at?_fields _ hd',
        Fields.at?_mapNamed fun name (n : Node) => n.form (under σ (.field name)), hc]
      exact ih hrest (under σ (.field name))

namespace ValueTree

/-- A tree that is resolved without errors has, at the place of a schema on a way of fields, a value
of the kind that the schema's constraint asks for or none at all, and it has one if the schema
requires it and keeps it. -/
theorem resolver_conforms {n : Node} {t : ValueTree} (hc : compile n = .ok t) {site : Site}
    (hsite : site ∈ t.sites) (hfields : ∀ key ∈ site.path, ∃ name, key = .field name) {s : Schema}
    (hs : site.terminal = .schema s) (hsource : s.source.literal? = none) {c : Constraint}
    (hv : s.validator = some c.validator) (hcond : s.conditional = none) {scope : Scope}
    {r : Resolution} (hr : t.resolver scope = .ok r) (hok : r.errors = []) :
    (∀ v, (r.value.bind fun w => w.reach site.path) = some v → c.admits v = true) ∧
    (s.required = true → s.strip = false →
      (r.value.bind fun w => w.reach site.path).isSome = true) := by
  have hfrom := compiledFrom_of_compile hc
  rw [hfrom.sites] at hsite
  obtain ⟨order, steps, kept, ho, -, hres⟩ := hfrom.resolved hr
  have hquiet : ∀ u ∈ steps, u.resolution.errors = [] := by
    rw [hres.errors, Step.errors, List.flatMap_eq_nil_iff] at hok
    exact fun u hu => List.map_eq_nil_iff.1 (hok u hu)
  rcases hres.rest with ⟨hall, rfl⟩ | ⟨u, rfl, hstops⟩
  · have hmem : site.path ∈ steps.map Step.path := by
      rw [hall]
      exact hres.follows.perm.symm.subset (List.mem_map_of_mem hsite)
    obtain ⟨u, hu, hpath⟩ := List.mem_map.1 hmem
    have hvalue : (r.value.bind fun w => w.reach site.path) = u.resolution.value := by
      rw [hres.value, Node.reach_form hsite hfields, ← hpath,
        Step.slots_of_mem hres.follows.nodup hu]
    have hrun : s.resolver u.scope = .ok u.resolution := by
      have hterminal := hres.follows.resolver_eq hu hsite hpath.symm
      rwa [hs] at hterminal
    have hmet := s.resolver_met hsource hv hcond hrun (hquiet u hu)
    rw [hvalue]
    exact ⟨hmet.admits, fun hrequired hkept => hmet.isSome (by rw [hrequired, hkept]; rfl)⟩
  · exact absurd (hquiet u (List.mem_append_right _ (List.mem_singleton_self u)))
      (Resolution.errors_ne_nil_of_stops hstops)

end ValueTree

/-- The number of a port, for which there is a text if the input has none. -/
def Schema.port : Schema where
  source := .reference ⟨.root, [.field "port"]⟩
  default := some (.ofOrder (.literal (.string "8080")) [])
  validator := some Constraint.number.validator
  required := true
  conditional := none
  strip := false

/-- A server with its port, under two names. -/
def Node.server : Node :=
  .map [("server", .map [("port", .schema .port),
    ("same", .reference ⟨.relative 1, [.field "port"]⟩)])]

namespace ValueTree

/-- The text that stands in for the port is a number in the end. -/
theorem resolver_conforms_server : ∃ t r v, compile .server = .ok t ∧
    t.resolver (Scope.ofInput (.object []) {}) = .ok r ∧ r.errors = [] ∧
    (r.value.bind fun w => w.reach [.field "server", .field "port"]) = some v ∧
    Constraint.number.admits v = true := by
  have hrun : (((compile .server).toOption.bind fun t =>
      (t.resolver (Scope.ofInput (.object []) {})).toOption).map Resolution.errors) = some [] := by
    decide +kernel
  obtain ⟨r, hr, hok⟩ := Option.map_eq_some_iff.1 hrun
  obtain ⟨t, ht, hres⟩ := Option.bind_eq_some_iff.1 hr
  have hc := eq_ok_of_toOption ht
  have hres := eq_ok_of_toOption hres
  have hsite : ⟨[.field "server", .field "port"], .schema .port⟩ ∈ t.sites := by
    rw [(compiledFrom_of_compile hc).sites]
    exact List.mem_cons_self
  obtain ⟨hadmits, hpresent⟩ := resolver_conforms hc hsite (by simp) rfl rfl rfl rfl hres hok
  obtain ⟨v, hv⟩ := Option.isSome_iff_exists.1 (hpresent rfl rfl)
  exact ⟨t, r, v, hc, hres, hok, hv, hadmits v hv⟩

end ValueTree

end ValueResolution
