import ValueResolution.Proofs.Inquiry.Accounts
import ValueResolution.Schema.Builder
/-!
# The scopes of a run

Whatever scope a run asks in, its containers stand for the keys of its path, one for one from the
outside in (`Scope.Coherent`): a step into a terminal adds both, and a labelled validation neither.
So a level counted from the outside and one counted from the inside name the same container when
they add up to the length of the path (`Schema.resolve_scopes`).
-/

set_option autoImplicit false

namespace ValueResolution

/-- The frame is a container with a child under the key. -/
def Frame.Contains (f : Frame) (key : Key) : Prop :=
  ∃ e child, Store.get? f.store f.id = some e ∧ e.isContainer = true ∧ e.child? key = some child

theorem Frame.contains_of_child? {store : Overlay Slot} {id child : NodeId} {key : Key}
    (h : Store.child? store id key = some child) : Contains ⟨store, id⟩ key := by
  obtain ⟨e, he, hc⟩ := Option.bind_eq_some_iff.1 h
  refine ⟨e, child, he, ?_, hc⟩
  cases e with
  | leaf slot => simp [Entry.child?] at hc
  | map children => rfl
  | seq items => rfl

/-- The containers along a path have the keys of the path, the outermost one the first key. -/
theorem Pass.framesAlong_contain {store : Overlay Slot} {current : NodeId} {path : Path}
    {outer frames : List Frame} (h : framesAlong store current path outer = some frames) :
    ∃ inner, frames = inner ++ outer ∧ List.Forall₂ Frame.Contains inner.reverse path := by
  induction path generalizing current outer with
  | nil => exact ⟨[], (Option.some.inj h).symm, .nil⟩
  | cons key rest ih =>
    obtain ⟨child, hc, h⟩ := Option.bind_eq_some_iff.1 h
    obtain ⟨inner, rfl, hinner⟩ := ih h
    refine ⟨inner ++ [⟨store, current⟩], by simp, ?_⟩
    rw [List.reverse_append]
    exact .cons (Frame.contains_of_child? hc) hinner

namespace Scope

/-- The scope belongs to a call with this input, and from the outside in its containers have the
keys of its path. -/
structure Coherent (input : Value) (s : Scope) : Prop where
  input : s.input = input
  frames : List.Forall₂ Frame.Contains s.frames.reverse s.path

variable {input : Value} {s s' : Scope}

theorem ofInput_coherent (input : Value) (prefs : Preferences) :
    (ofInput input prefs).Coherent input :=
  ⟨rfl, .nil⟩

/-- A step into a terminal adds its containers and the keys of its place. -/
theorem Coherent.localize (h : s.Coherent input) {store : Overlay Slot} {current : NodeId}
    {path : Path} {frames : List Frame}
    (hf : Pass.framesAlong store current path [] = some frames) :
    (s.localize path frames).Coherent input := by
  obtain ⟨inner, rfl, hinner⟩ := Pass.framesAlong_contain hf
  refine ⟨h.input, ?_⟩
  rw [Scope.localize, List.append_nil, List.reverse_append]
  exact List.rel_append h.frames hinner

theorem Coherent.nest (h : s.Coherent input) (label : String) (value : Option Value) :
    (s.nest label value).Coherent input :=
  ⟨h.input, h.frames⟩

/-- Coherence is kept wherever a run goes. -/
theorem Leads.coherent {places : List Path} (h : s.Leads places s') (hs : s.Coherent input) :
    s'.Coherent input := by
  induction h with
  | here s => exact hs
  | into hframes _ ih => exact ih (hs.localize hframes)
  | nested _ ih => exact ih (hs.nest _ _)

namespace Coherent

theorem length_frames (h : s.Coherent input) : s.frames.length = s.path.length := by
  rw [← List.length_reverse]
  exact h.frames.length_eq

/-- From the outside, the container at a depth has a child under the key at that depth. -/
theorem contains (h : s.Coherent input) {j : Nat} (hj : j < s.path.length) : ∃ frame key,
    s.frames.reverse[j]? = some frame ∧ s.path[j]? = some key ∧ frame.Contains key := by
  have hf : j < s.frames.reverse.length := by rwa [List.length_reverse, h.length_frames]
  exact ⟨_, _, List.getElem?_eq_getElem hf, List.getElem?_eq_getElem hj, h.frames.get hf hj⟩

/-- Counting downward to a container is counting upward by what is left of the path. -/
theorem frame?_level (h : s.Coherent input) {k : Nat} (hk : k < s.path.length) : ∃ frame,
    s.frame? (.level k) = some frame ∧ s.frame? (.relative (s.path.length - k)) = some frame := by
  have hlt : s.path.length - (k + 1) < s.frames.length := by
    rw [h.length_frames]
    omega
  have hup : s.path.length - k = s.path.length - (k + 1) + 1 := by omega
  refine ⟨s.frames[s.path.length - (k + 1)], ?_, ?_⟩
  · rw [frame?, h.length_frames, if_pos hk]
    exact List.getElem?_eq_getElem hlt
  · rw [hup, frame?]
    exact List.getElem?_eq_getElem hlt

theorem frame?_level_eq_none (h : s.Coherent input) {k : Nat} (hk : s.path.length ≤ k) :
    s.frame? (.level k) = none := by
  rw [frame?, h.length_frames, if_neg (Nat.not_lt.2 hk)]

theorem frame?_relative_eq_none (h : s.Coherent input) {u : Nat} (hu : s.path.length < u) :
    s.frame? (.relative u) = none := by
  cases u with
  | zero => rfl
  | succ up =>
    rw [frame?]
    exact List.getElem?_eq_none (by rw [h.length_frames]; omega)

end Coherent

end Scope

namespace Schema

/-- The queries that a whole call makes. -/
def queries (s : Schema) (input : Value) (prefs : Preferences) : List Query :=
  (s.inquiry (Scope.ofInput input prefs)).notes

/-- Every query of a call is made in a scope that the scope of the call leads to. -/
theorem leads_of_mem_queries {s : Schema} {input : Value} {prefs : Preferences} {q : Query}
    (h : q ∈ s.queries input prefs) : (Scope.ofInput input prefs).Leads q.places q.scope :=
  (s.accounts _).led q h

/-- A whole call is its inquiry without the record. In every scope in which it asks, the input is
that of the call, there is a container for each key of the path, and it has a child under this key.
So each of them is named by counting down and by counting up, and nothing is beyond them. -/
theorem resolve_scopes (s : Schema) (input : Value) (prefs : Preferences) :
    (s.inquiry (Scope.ofInput input prefs)).outcome = s.resolve input prefs ∧
    ∀ q ∈ s.queries input prefs,
      q.scope.input = input ∧ q.scope.frames.length = q.scope.path.length ∧
      (∀ j < q.scope.path.length, ∃ frame key, q.scope.frames.reverse[j]? = some frame ∧
        q.scope.path[j]? = some key ∧ frame.Contains key) ∧
      (∀ k < q.scope.path.length, ∃ frame, q.scope.frame? (.level k) = some frame ∧
        q.scope.frame? (.relative (q.scope.path.length - k)) = some frame) ∧
      (∀ k, q.scope.path.length ≤ k → q.scope.frame? (.level k) = none) ∧
      q.scope.frame? (.relative 0) = none ∧
      ∀ u, q.scope.path.length < u → q.scope.frame? (.relative u) = none := by
  refine ⟨congrFun s.inquiry_resolver _, fun q hq => ?_⟩
  have hc := (leads_of_mem_queries hq).coherent (Scope.ofInput_coherent input prefs)
  exact ⟨hc.input, hc.length_frames, fun j hj => hc.contains hj, fun k hk => hc.frame?_level hk,
    fun k hk => hc.frame?_level_eq_none hk, rfl, fun u hu => hc.frame?_relative_eq_none hu⟩

end Schema

/-! ### A schema that asks in every stage -/

/-- A reference that leads past every container. -/
def Node.lost : Node := .reference ⟨.level 7, [.field "x"]⟩

/-- A check that refuses everything, at a place inside the value. -/
def Validator.refusesInside : Validator := fun value _ =>
  ⟨value, [{ path := [.field "deep"], code := "deep", message := "is refused" }]⟩

namespace Schema

/-- A schema that fails in a nested tree, in a default, in a validator and in a matcher. -/
def everyStage : Except Error Schema := do
  let inTree ← SchemaSpec.build { source := .tree (.map [("b", .lost)]) }
  let inDefault ← SchemaSpec.build
    { source := .reference ⟨.root, [.field "x"]⟩, default := some (.seq [.lost])
      validator := some .refusesInside }
  let present ← SchemaSpec.build { source := .reference ⟨.root, [.field "x"]⟩, required := true }
  let inMatcher ← SchemaSpec.build
    { source := .reference ⟨.root, [.field "x"]⟩
      conditional := some
        { cases := [{ matcher := .schema present },
                    { matcher := .equals (.map [("e", .lost)]) }] } }
  SchemaSpec.build
    { source := .tree (.map [("n", .schema inTree), ("m", .schema inDefault),
        ("k", .schema inMatcher)]) }

theorem resolve_scopes_everyStage : ∃ s, everyStage = .ok s ∧
    (s.inquiry (Scope.ofInput (.object []) {})).outcome = s.resolve (.object []) {} ∧
    ∃ q ∈ s.queries (.object []) {}, q.scope.path = [.field "n", .field "b"] ∧
      q.scope.frames.length = 2 ∧
      (∃ frame, q.scope.frame? (.level 0) = some frame ∧
        q.scope.frame? (.relative 2) = some frame) ∧
      q.scope.frame? (.level 2) = none ∧ q.scope.frame? (.relative 3) = none := by
  have hrun : (everyStage.toOption.map fun s => (s.queries (.object []) {}).any fun q =>
      q.scope.path = [.field "n", .field "b"]) = some true := by
    decide +kernel
  obtain ⟨s, hs, hany⟩ := Option.map_eq_some_iff.1 hrun
  obtain ⟨q, hq, hpath⟩ := List.any_eq_true.1 hany
  have hpath : q.scope.path = [.field "n", .field "b"] := by simpa using hpath
  obtain ⟨houtcome, hscopes⟩ := resolve_scopes s (.object []) {}
  obtain ⟨-, hlen, -, hlevel, hdeep, -, hhigh⟩ := hscopes q hq
  rw [hpath] at hlen hlevel hdeep hhigh
  exact ⟨s, eq_ok_of_toOption hs, houtcome, q, hq, hpath, hlen, hlevel 0 (by decide),
    hdeep 2 (by decide), hhigh 3 (by decide)⟩

end Schema

end ValueResolution
