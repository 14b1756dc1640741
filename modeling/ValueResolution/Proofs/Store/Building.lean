import ValueResolution.Proofs.Outcome
import ValueResolution.Proofs.Store.Ways
/-!
# Building fails exactly on loops

Building the plain value at a root goes into every container, and into a container that is shared
once for each of its places. It fails where it comes to a container that it is inside of. So it
fails exactly when a loop can be reached from the root, the path of the error leads into such a loop
and once round it, and otherwise it gives the value of the tree at the root
(`Store.materialize_loops`).

The containers around a place are kept in a list, and what is known of them (`Store.Around`) is that
each is met once on the way from the root. There are never more of them than the store has entries,
so the room for entering containers does not run out before a loop has closed
(`Store.build_eq_error`). On the other hand a value that was built bounds the length of every way
down (`Store.length_of_build`), and a loop has ways of any length.
-/

set_option autoImplicit false

namespace ValueResolution

namespace Store

open Relation

variable {σ α : Type} [Store σ α] {s : σ} {valueOf : α → Option Value}

/-! ## One step -/

theorem collect_eq_ok {β γ : Type} {f : β → Except Error (Option γ)} {l : List β} {cs : List γ}
    (h : collect f l = .ok cs) : ∀ b ∈ l, ∃ c?, f b = .ok c? := by
  induction l generalizing cs with
  | nil => simp
  | cons b rest ih =>
    obtain ⟨c?, hb, h⟩ := bind_eq_ok_iff.1 h
    obtain ⟨others, hrest, -⟩ := bind_eq_ok_iff.1 h
    exact List.forall_mem_cons.2 ⟨⟨c?, hb⟩, ih hrest⟩

theorem collect_eq_error {β γ : Type} {f : β → Except Error (Option γ)} {l : List β} {err : Error}
    (h : collect f l = .error err) : ∃ b ∈ l, f b = .error err := by
  induction l with
  | nil => cases h
  | cons b rest ih =>
    rw [collect] at h
    rcases bind_eq_error_iff.1 h with hb | ⟨c?, -, h⟩
    · exact ⟨b, List.mem_cons_self, hb⟩
    · rcases bind_eq_error_iff.1 h with hrest | ⟨others, -, h⟩
      · obtain ⟨b', hb', hf⟩ := ih hrest
        exact ⟨b', List.mem_cons_of_mem _ hb', hf⟩
      · cases h

variable {room : Nat} {active : List NodeId} {id : NodeId} {path : Path}

/-- A value that was built at a container was built at all of its children. -/
theorem build_children {v? : Option Value}
    (h : build s valueOf (room + 1) active id path = .ok v?) {key : Key} {j : NodeId}
    (hj : Under s id key j) :
    ∃ w?, build s valueOf room (id :: active) j (path ++ [key]) = .ok w? := by
  obtain ⟨e, he, hmem⟩ := hj
  rw [build, he] at h
  cases e with
  | leaf a => simp [Entry.children] at hmem
  | map children =>
    obtain ⟨c, hc, heq⟩ := List.mem_map.1 hmem
    obtain ⟨rfl, rfl⟩ := Prod.mk.inj heq
    by_cases hin : id ∈ active
    · simp [hin] at h
    · simp only [if_neg hin] at h
      obtain ⟨fields, hfields, -⟩ := bind_eq_ok_iff.1 h
      obtain ⟨_, hchild⟩ := collect_eq_ok hfields c hc
      obtain ⟨w?, hw, -⟩ := bind_eq_ok_iff.1 hchild
      exact ⟨w?, hw⟩
  | seq items =>
    obtain ⟨i, hi, heq⟩ := List.mem_mapIdx.1 hmem
    obtain ⟨rfl, rfl⟩ := Prod.mk.inj heq
    by_cases hin : id ∈ active
    · simp [hin] at h
    · simp only [if_neg hin] at h
      obtain ⟨values, hvalues, -⟩ := bind_eq_ok_iff.1 h
      exact collect_eq_ok hvalues (i, items[i]) (List.mem_mapIdx.2 ⟨i, hi, rfl⟩)

/-- Building fails at a container that it is inside of, or at a child. -/
theorem build_succ_eq_error {err : Error}
    (h : build s valueOf (room + 1) active id path = .error err) :
    (id ∈ active ∧ err = .cyclicValue path.text) ∨ id ∉ active ∧ ∃ key j, Under s id key j ∧
      build s valueOf room (id :: active) j (path ++ [key]) = .error err := by
  rw [build] at h
  cases he : get? s id with
  | none => simp [he] at h
  | some e =>
    rw [he] at h
    cases e with
    | leaf a => cases h
    | map children =>
      by_cases hin : id ∈ active
      · simp only [if_pos hin, Except.error.injEq] at h
        exact Or.inl ⟨hin, h.symm⟩
      · simp only [if_neg hin] at h
        rcases bind_eq_error_iff.1 h with hfields | ⟨fields, -, h⟩
        · obtain ⟨c, hc, hchild⟩ := collect_eq_error hfields
          rcases bind_eq_error_iff.1 hchild with hbuild | ⟨w?, -, h⟩
          · exact Or.inr ⟨hin, .field c.1, c.2,
              ⟨_, he, List.mem_map_of_mem (f := fun c => (Key.field c.1, c.2)) hc⟩, hbuild⟩
          · cases h
        · cases h
    | seq items =>
      by_cases hin : id ∈ active
      · simp only [if_pos hin, Except.error.injEq] at h
        exact Or.inl ⟨hin, h.symm⟩
      · simp only [if_neg hin] at h
        rcases bind_eq_error_iff.1 h with hvalues | ⟨values, -, h⟩
        · obtain ⟨_, hc, hbuild⟩ := collect_eq_error hvalues
          obtain ⟨i, hi, rfl⟩ := List.mem_mapIdx.1 hc
          exact Or.inr ⟨hin, .index i, items[i], ⟨_, he, List.mem_mapIdx.2 ⟨i, hi, rfl⟩⟩, hbuild⟩
        · cases h

/-! ## Loops -/

/-- The path leads from the root into a loop and once round it. -/
def LoopsAt (s : σ) (root : NodeId) (path : Path) : Prop :=
  ∃ p q i, path = p ++ q ∧ q ≠ [] ∧ Leads s (fun _ => True) root p i ∧
    Leads s (fun _ => True) i q i

/-- What is known at `id` inside of the containers `active`: each of them is an entry on the way
from the root, and no two are the same. -/
structure Around (s : σ) (root : NodeId) (active : List NodeId) (id : NodeId) (path : Path) :
    Prop where
  nodup : active.Nodup
  stored : ∀ i ∈ active, i < size s
  leads : Leads s (fun _ => True) root path id
  passed : ∀ i ∈ active, ∃ p q, path = p ++ q ∧ q ≠ [] ∧ Leads s (fun _ => True) root p i ∧
    Leads s (fun _ => True) i q id

variable {root : NodeId}

theorem around_root (s : σ) (root : NodeId) : Around s root [] root [] where
  nodup := List.nodup_nil
  stored := by simp
  leads := .here root
  passed := by simp

theorem Around.loopsAt (h : Around s root active id path) (hin : id ∈ active) :
    LoopsAt s root path := by
  obtain ⟨p, q, hpath, hne, hp, hq⟩ := h.passed id hin
  exact ⟨p, q, id, hpath, hne, hp, hq⟩

theorem Around.length_le (h : Around s root active id path) : active.length ≤ size s := by
  have hsub : active.Subperm (List.range (size s)) :=
    h.nodup.subperm fun i hi => List.mem_range.2 (h.stored i hi)
  simpa using hsub.length_le

variable [LawfulStore σ]

/-- Going into a container. -/
theorem Around.child (h : Around s root active id path) (hout : id ∉ active) {key : Key}
    {j : NodeId} (hj : Under s id key j) : Around s root (id :: active) j (path ++ [key]) where
  nodup := List.nodup_cons.2 ⟨hout, h.nodup⟩
  stored := List.forall_mem_cons.2 ⟨hj.lt_size, h.stored⟩
  leads := h.leads.snoc trivial hj
  passed := by
    refine List.forall_mem_cons.2 ⟨⟨path, [key], rfl, by simp, h.leads, ?_⟩, fun i hi => ?_⟩
    · exact .step trivial hj (.here j)
    · obtain ⟨p, q, rfl, hne, hp, hq⟩ := h.passed i hi
      exact ⟨p, q ++ [key], List.append_assoc .., by simp, hp, hq.snoc trivial hj⟩

/-- Building fails only where a loop has closed. -/
theorem build_eq_error (h : Around s root active id path)
    (hroom : room + active.length = size s + 1) {err : Error}
    (hb : build s valueOf room active id path = .error err) :
    ∃ path, LoopsAt s root path ∧ err = .cyclicValue path.text := by
  induction room generalizing active id path with
  | zero =>
    have hle := h.length_le
    omega
  | succ room ih =>
    rcases build_succ_eq_error hb with ⟨hin, rfl⟩ | ⟨hout, key, j, hj, hb⟩
    · exact ⟨path, h.loopsAt hin, rfl⟩
    · exact ih (h.child hout hj) (by rw [List.length_cons]; omega) hb

omit [LawfulStore σ] in
/-- Where a value was built, no way down is longer than there was room. -/
theorem length_of_build {v? : Option Value} (h : build s valueOf room active id path = .ok v?)
    {q : Path} {j : NodeId} (hq : Leads s (fun _ => True) id q j) : q.length < room := by
  induction room generalizing active id path v? q with
  | zero => cases h
  | succ room ih =>
    cases hq with
    | here _ => exact Nat.succ_pos _
    | step _ hj rest =>
      obtain ⟨w?, hw⟩ := build_children h hj
      exact Nat.succ_lt_succ (ih hw rest)

omit [LawfulStore σ] in
/-- A loop that can be reached keeps the value from being built. -/
theorem not_materialize_of_loopsAt (h : LoopsAt s root path) (v? : Option Value) :
    materialize s root valueOf ≠ .ok v? := by
  intro hb
  obtain ⟨p, q, i, -, hne, hp, hq⟩ := h
  have hlen := length_of_build hb (hp.append (hq.replicate (size s + 1)))
  have hpos : 0 < q.length := List.length_pos_iff.2 hne
  rw [List.length_append, List.length_flatten, List.map_replicate, List.sum_replicate_nat] at hlen
  have hle : size s + 1 ≤ (size s + 1) * q.length := Nat.le_mul_of_pos_right _ hpos
  omega

omit [LawfulStore σ] in
theorem exists_loopsAt_iff :
    (∃ path, LoopsAt s root path) ↔
      ∃ i, ReflTransGen (Links s) root i ∧ TransGen (Links s) i i := by
  constructor
  · rintro ⟨-, p, q, i, -, hne, hp, hq⟩
    exact ⟨i, hp.reflTransGen, hq.transGen hne⟩
  · rintro ⟨i, hi, hloop⟩
    obtain ⟨p, hp⟩ := exists_leads_iff.2 hi
    obtain ⟨q, hne, hq⟩ := exists_leads_of_transGen hloop
    exact ⟨p ++ q, p, q, i, rfl, hne, hp, hq⟩

/-- Building the value at a root fails exactly when some entry that can be reached from the root can
be reached from itself. The error then tells of a loop, and its path leads into one and comes back
to a container that it has passed. Where there is no such entry, the value is the one of the tree at
the root, in which every branch stands in all of its places. -/
theorem materialize_loops (s : σ) (root : NodeId) (valueOf : α → Option Value) :
    ((∃ err, materialize s root valueOf = .error err) ↔
      ∃ i, ReflTransGen (Links s) root i ∧ TransGen (Links s) i i) ∧
    (∀ err, materialize s root valueOf = .error err →
      ∃ path, LoopsAt s root path ∧ err = .cyclicValue path.text) ∧
    (Acyclic s root → ∃ t, Unfolds s root t ∧
      materialize s root valueOf = .ok (t.value valueOf)) := by
  have herror : ∀ err, materialize s root valueOf = .error err →
      ∃ path, LoopsAt s root path ∧ err = .cyclicValue path.text := fun err h =>
    build_eq_error (around_root s root) (by simp) h
  refine ⟨⟨fun ⟨err, h⟩ => ?_, fun h => ?_⟩, herror, fun h => ?_⟩
  · obtain ⟨path, hloop, -⟩ := herror err h
    exact exists_loopsAt_iff.1 ⟨path, hloop⟩
  · obtain ⟨path, hloop⟩ := exists_loopsAt_iff.2 h
    cases hb : materialize s root valueOf with
    | error err => exact ⟨err, rfl⟩
    | ok v? => exact absurd hb (not_materialize_of_loopsAt hloop v?)
  · obtain ⟨_, u, hu, rfl, rfl⟩ := exists_unfolds_iff.2 h
    exact ⟨u.tree, hu.unfolds, hu.materialize valueOf⟩

/-- A mapping in two places of a sequence, and a mapping and a sequence that name each other. -/
def looped : Arena Nat :=
  ⟨#[.leaf 7, .map [("x", 0)], .seq [1, 1], .map [("a", 2), ("b", 4)], .seq [2, 3]]⟩

/-- What is shared is built in both places, and what comes back to itself is not built. -/
theorem materialize_loops_looped :
    let valueOf : Nat → Option Value := fun n => some (.whole n)
    Acyclic looped 2 ∧ TransGen (Links looped) 3 3 ∧
      (∃ t, Unfolds looped 2 t ∧ materialize looped 2 valueOf = .ok (t.value valueOf)) ∧
      ∃ path, LoopsAt looped 3 path ∧
        materialize looped 3 valueOf = .error (.cyclicValue path.text) := by
  intro valueOf
  have hheld : Holds looped
      (.seq 2 [.map 1 [("x", .leaf 0 7)], .map 1 [("x", .leaf 0 7)]]) := by
    unfold Holds
    decide
  have hdown : Links looped 3 4 := ⟨_, .field "b", rfl, by decide⟩
  have hup : Links looped 4 3 := ⟨_, .index 1, rfl, by decide⟩
  have hloop : TransGen (Links looped) 3 3 := .tail (.single hdown) hup
  obtain ⟨hfails, hpath, -⟩ := materialize_loops looped 3 valueOf
  obtain ⟨err, herr⟩ := hfails.2 ⟨3, .refl, hloop⟩
  obtain ⟨path, hp, rfl⟩ := hpath err herr
  exact ⟨hheld.acyclic, hloop, (materialize_loops looped 2 valueOf).2.2 hheld.acyclic,
    path, hp, herr⟩

end Store

end ValueResolution
