import ValueResolution.Proofs.Store.Acyclic
import ValueResolution.Proofs.Store.Walk
/-!
# Ways through a store

A key of a container leads to a child (`Store.Under`), and a path leads on from child to child
(`Store.Leads`). The keys of a way are those that containers list: names in mappings, positions in
sequences. A store can have loops, so ways can come back to where they were; whether there is one
is the same as whether the links between entries lead there (`Store.exists_leads_iff`).

In a store without repeated names (`Store.Tidy`) a way leads to one entry only
(`Store.Leads.unique`), the one that its keys look up.
-/

set_option autoImplicit false

namespace ValueResolution

namespace Entry

variable {α : Type}

/-- A container lists its children under keys of their own, if no name is repeated. -/
theorem nodup_keys {e : Entry α} (h : ∀ children, e = .map children → Fields.Distinct children) :
    (e.children.map Prod.fst).Nodup := by
  cases e with
  | leaf a => exact List.nodup_nil
  | map children =>
    have hnames : ((children.map Prod.fst).map Key.field).Nodup :=
      List.Nodup.map (fun _ _ heq => Key.field.inj heq) (h children rfl)
    simpa [Entry.children, Function.comp_def] using hnames
  | seq items =>
    refine List.pairwise_iff_getElem.2 fun i j hi hj hlt heq => ?_
    simp only [Entry.children, List.getElem_map, List.getElem_mapIdx, Key.index.injEq] at heq
    exact Nat.ne_of_lt hlt heq

/-- A listed child is the one that its key looks up. -/
theorem child?_of_mem {e : Entry α} (h : ∀ children, e = .map children → Fields.Distinct children)
    {key : Key} {j : NodeId} (hmem : (key, j) ∈ e.children) : e.child? key = some j := by
  cases e with
  | leaf a => simp [Entry.children] at hmem
  | map children =>
    obtain ⟨c, hc, heq⟩ := List.mem_map.1 hmem
    obtain ⟨rfl, rfl⟩ := Prod.mk.inj heq
    exact Fields.at?_of_mem (h children rfl) hc
  | seq items =>
    obtain ⟨i, hi, heq⟩ := List.mem_mapIdx.1 hmem
    obtain ⟨rfl, rfl⟩ := Prod.mk.inj heq
    simp [Entry.child?, Key.index?_index, hi]

end Entry

namespace Store

open Relation

variable {σ α : Type} [Store σ α]

/-- No mapping has a name twice. -/
def Tidy (s : σ) : Prop := ∀ i children, get? s i = some (.map children) → children.Distinct

/-- The entry `i` lists `j` under `key`. -/
def Under (s : σ) (i : NodeId) (key : Key) (j : NodeId) : Prop :=
  ∃ e, get? s i = some e ∧ (key, j) ∈ e.children

/-- The path leads from one entry to another, and `via` is true of every entry that it leaves. -/
inductive Leads (s : σ) (via : NodeId → Prop) : NodeId → Path → NodeId → Prop where
  | here (i : NodeId) : Leads s via i [] i
  | step {i j k : NodeId} {key : Key} {path : Path} (hi : via i) (h : Under s i key j)
      (rest : Leads s via j path k) : Leads s via i (key :: path) k

variable {s : σ} {via : NodeId → Prop} {i j k : NodeId} {key : Key} {p q : Path}

theorem links_iff : Links s i j ↔ ∃ key, Under s i key j :=
  ⟨fun ⟨e, key, he, hmem⟩ => ⟨key, e, he, hmem⟩, fun ⟨key, e, he, hmem⟩ => ⟨e, key, he, hmem⟩⟩

theorem Under.lt_size [LawfulStore σ] (h : Under s i key j) : i < size s := by
  obtain ⟨e, he, -⟩ := h
  exact lt_size_of_get? he

namespace Leads

theorem append (hp : Leads s via i p j) (hq : Leads s via j q k) : Leads s via i (p ++ q) k := by
  induction hp with
  | here i => exact hq
  | step hi h _ ih => exact .step hi h (ih hq)

/-- A way goes on to a child of its end. -/
theorem snoc (hp : Leads s via i p j) (hj : via j) (h : Under s j key k) :
    Leads s via i (p ++ [key]) k :=
  hp.append (.step hj h (.here k))

/-- What is true of the entries that a way leaves and of its end is true of its start. -/
theorem via_start (h : Leads s via i p j) (hj : via j) : via i := by
  cases h with
  | here _ => exact hj
  | step hi _ _ => exact hi

theorem reflTransGen (h : Leads s via i p j) : ReflTransGen (Links s) i j := by
  induction h with
  | here i => exact .refl
  | step _ h _ ih => exact .head (links_iff.2 ⟨_, h⟩) ih

theorem transGen (h : Leads s via i p j) (hne : p ≠ []) : TransGen (Links s) i j := by
  cases h with
  | here i => exact absurd rfl hne
  | step _ h rest => exact .head' (links_iff.2 ⟨_, h⟩) rest.reflTransGen

/-- A way round a loop can be gone round as often as one likes. -/
theorem replicate (h : Leads s via i p i) (n : Nat) :
    Leads s via i (List.replicate n p).flatten i := by
  induction n with
  | zero => exact .here i
  | succ n ih =>
    rw [List.replicate_succ, List.flatten_cons]
    exact h.append ih

/-- The keys of a way look up its end. -/
theorem reach?_eq (hs : Tidy s) (h : Leads s via i p j) : reach? s i p = some j := by
  induction h with
  | here i => rfl
  | step _ h _ ih =>
    obtain ⟨e, he, hmem⟩ := h
    have hchild := Entry.child?_of_mem (fun children heq => hs _ children (heq ▸ he)) hmem
    rw [reach?, child?, he, Option.bind_some, hchild, Option.bind_some, ih]

theorem unique (hs : Tidy s) (hj : Leads s via i p j) (hk : Leads s via i p k) : j = k :=
  Option.some.inj ((hj.reach?_eq hs).symm.trans (hk.reach?_eq hs))

end Leads

/-- A loop of links is a way round it. -/
theorem exists_leads_of_transGen (h : TransGen (Links s) i j) :
    ∃ p, p ≠ [] ∧ Leads s (fun _ => True) i p j := by
  induction h with
  | single h =>
    obtain ⟨key, h⟩ := links_iff.1 h
    exact ⟨[key], List.cons_ne_nil _ _, .step trivial h (.here _)⟩
  | tail _ h ih =>
    obtain ⟨key, h⟩ := links_iff.1 h
    obtain ⟨p, -, hp⟩ := ih
    exact ⟨p ++ [key], by simp, hp.snoc trivial h⟩

/-- Links lead to an entry exactly when a path does. -/
theorem exists_leads_iff :
    (∃ p, Leads s (fun _ => True) i p j) ↔ ReflTransGen (Links s) i j := by
  constructor
  · rintro ⟨p, hp⟩
    exact hp.reflTransGen
  · intro h
    rcases reflTransGen_iff_eq_or_transGen.1 h with rfl | h
    · exact ⟨[], .here _⟩
    · obtain ⟨p, -, hp⟩ := exists_leads_of_transGen h
      exact ⟨p, hp⟩

end Store

end ValueResolution
