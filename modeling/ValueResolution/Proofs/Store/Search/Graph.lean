import ValueResolution.Store.Search
import ValueResolution.Proofs.Store.Ways
/-!
# What a search finds in a graph

In a store with shared containers and loops there can be many ways to an entry. A search whose test
goes by the entry alone looks into the containers that do not pass and that can be reached through
such containers (`Store.Opens`), each of them once, on one way: its access path
(`Store.Explored`). What it comes to is the root and, for each of these containers, the places of
its children, and each of them once: there it finds that an entry passes, or that a leaf does not,
or a container that it looks into elsewhere (`Store.findPaths_graph`).

The walk ends because looking into a container leaves one less unseen, and every other step one
place less on the stack. It is followed step by step (`Store.Explores`): it looks into the
containers on the stack and those below them as far as they are unseen, and the containers that are
no longer unseen are ones that do not pass, since a test that goes by the entry has the same answer
on every way to it.
-/

set_option autoImplicit false

namespace ValueResolution

namespace Store

variable {σ α : Type} [Store σ α]

/-- The places of the children of the entry at a place. -/
def listed (s : σ) (a : Path × NodeId) : List (Path × NodeId) :=
  match get? s a.2 with
  | none => []
  | some e => e.children.map fun (key, child) => (a.1 ++ [key], child)

theorem listed_eq {s : σ} {path : Path} {id : NodeId} {e : Entry α} (h : get? s id = some e) :
    listed s (path, id) = e.children.map fun (key, child) => (path ++ [key], child) := by
  simp only [listed, h]

theorem mem_listed {s : σ} {a b : Path × NodeId} :
    b ∈ listed s a ↔ ∃ key, Under s a.2 key b.2 ∧ b.1 = a.1 ++ [key] := by
  obtain ⟨path, id⟩ := a
  obtain ⟨q, j⟩ := b
  cases he : get? s id with
  | none => simp [listed, Under, he]
  | some e => simp [listed_eq he, Under, he, eq_comm, and_comm]

/-! ## The steps of the walk -/

section Steps

variable {s : σ} {test : Entry α → Path → Bool} {unseen : List NodeId} {path : Path} {id : NodeId}
variable {rest : List (Path × NodeId)} {e : Entry α}

theorem walk_missing (he : get? s id = none) :
    walk s test unseen ((path, id) :: rest) = walk s test unseen rest := by
  rw [walk, he]

theorem walk_seen (he : get? s id = some e) (hc : e.isContainer = true) (hid : id ∉ unseen) :
    walk s test unseen ((path, id) :: rest) = walk s test unseen rest := by
  rw [walk, he]
  simp [hc, hid]

theorem walk_passed (he : get? s id = some e) (hid : e.isContainer = true → id ∈ unseen)
    (ht : test e path = true) :
    walk s test unseen ((path, id) :: rest) = ⟨path, true⟩ :: walk s test unseen rest := by
  have hseen : ¬((e.isContainer && !unseen.contains id) = true) := by simpa using hid
  rw [walk, he]
  simp only [if_neg hseen, if_pos ht]

theorem walk_entered (he : get? s id = some e) (hc : e.isContainer = true) (hid : id ∈ unseen)
    (ht : test e path = false) :
    walk s test unseen ((path, id) :: rest) = ⟨path, false⟩ :: walk s test (unseen.erase id)
      (((listed s (path, id)).filter fun b => (unseen.erase id).contains b.2).reverse ++ rest) := by
  rw [walk, he, listed_eq he, List.filter_map]
  simp [hc, hid, ht, Function.comp_def]

theorem walk_leaf (he : get? s id = some e) (hc : e.isContainer = false)
    (ht : test e path = false) :
    walk s test unseen ((path, id) :: rest) = ⟨path, false⟩ :: walk s test unseen rest := by
  rw [walk, he]
  simp [hc, ht]

end Steps

/-! ## What the walk comes to -/

/-- The entry passes the test. -/
def Passes (s : σ) (test : Entry α → Bool) (i : NodeId) : Prop :=
  ∃ e, get? s i = some e ∧ test e = true

/-- The entry is a container that does not pass the test, so that the search looks into it. -/
def Opens (s : σ) (test : Entry α → Bool) (i : NodeId) : Prop :=
  ∃ e, get? s i = some e ∧ e.isContainer = true ∧ test e = false

/-- The visit to a place that is not looked into: an entry that passes, or a leaf that does not. -/
def end? (s : σ) (test : Entry α → Bool) (a : Path × NodeId) : Option Visit :=
  match get? s a.2 with
  | none => none
  | some e =>
    if test e then some ⟨a.1, true⟩ else if e.isContainer then none else some ⟨a.1, false⟩

/-- The visits to a container that is looked into, and to what ends below it. -/
def opened (s : σ) (test : Entry α → Bool) (a : Path × NodeId) : List Visit :=
  ⟨a.1, false⟩ :: (listed s a).filterMap (end? s test)

/-- The places under a container whose entries pass. -/
def hits (s : σ) (test : Entry α → Bool) (a : Path × NodeId) : List Path :=
  ((listed s a).filter fun b => (get? s b.2).any test).map Prod.fst

variable {s : σ} {test : Entry α → Bool}

theorem any_iff_passes {i : NodeId} : (get? s i).any test = true ↔ Passes s test i := by
  simp [Passes, Option.any_eq_true]

theorem not_opens_of_passes {i : NodeId} (h : Passes s test i) : ¬Opens s test i := by
  rintro ⟨e, he, -, ht⟩
  obtain ⟨e', he', ht'⟩ := h
  obtain rfl := Option.some.inj (he.symm.trans he')
  exact absurd ht' (by rw [ht]; exact Bool.false_ne_true)

theorem end?_of_opens {a : Path × NodeId} (h : Opens s test a.2) : end? s test a = none := by
  obtain ⟨e, he, hc, ht⟩ := h
  simp [end?, he, hc, ht]

/-- The passing visits at the end of ways are those to the entries that pass. -/
theorem passed_of_ends (l : List (Path × NodeId)) :
    ((l.filterMap (end? s test)).filter Visit.passed).map Visit.path =
      (l.filter fun b => (get? s b.2).any test).map Prod.fst := by
  induction l with
  | nil => rfl
  | cons a rest ih =>
    cases he : get? s a.2 with
    | none => simp [end?, he, ih]
    | some e => cases ht : test e <;> cases hc : e.isContainer <;> simp [end?, he, ht, hc, ih]

/-- The walk over the places on `stack` looks into the containers `accesses`: unseen containers,
each once, at the ends of ways from the stack. They are all that can be reached so, and `log` are
the visits to them and to what ends on the stack and below them. -/
structure Explores (s : σ) (test : Entry α → Bool) (unseen : List NodeId)
    (stack : List (Path × NodeId)) (log : List Visit) (accesses : List (Path × NodeId)) : Prop where
  nodup : (accesses.map Prod.snd).Nodup
  opens : ∀ a ∈ accesses, a.2 ∈ unseen ∧ Opens s test a.2
  leads : ∀ a ∈ accesses, ∃ b ∈ stack, ∃ q, a.1 = b.1 ++ q ∧ Leads s (Opens s test) b.2 q a.2
  start : ∀ b ∈ stack, Opens s test b.2 → b.2 ∈ unseen → b.2 ∈ accesses.map Prod.snd
  next : ∀ a ∈ accesses, ∀ key j, Under s a.2 key j → Opens s test j → j ∈ unseen →
    j ∈ accesses.map Prod.snd
  logged : log.Perm (stack.filterMap (end? s test) ++ accesses.flatMap (opened s test))

namespace Explores

variable {unseen : List NodeId} {stack : List (Path × NodeId)} {log : List Visit}
variable {accesses : List (Path × NodeId)} {a : Path × NodeId}

theorem nil : Explores s test unseen [] [] [] where
  nodup := List.nodup_nil
  opens := by simp
  leads := by simp
  start := by simp
  next := by simp
  logged := .nil

/-- A place that the walk does not go on from. -/
theorem skip (h : Explores s test unseen stack log accesses)
    (hout : Opens s test a.2 → a.2 ∉ unseen) :
    Explores s test unseen (a :: stack) ((end? s test a).toList ++ log) accesses where
  nodup := h.nodup
  opens := h.opens
  leads b hb := by
    obtain ⟨c, hc, q, heq, hq⟩ := h.leads b hb
    exact ⟨c, List.mem_cons_of_mem _ hc, q, heq, hq⟩
  start := List.forall_mem_cons.2 ⟨fun ho hin => absurd hin (hout ho), h.start⟩
  next := h.next
  logged := by
    have hend : (a :: stack).filterMap (end? s test) =
        (end? s test a).toList ++ stack.filterMap (end? s test) := by
      cases hv : end? s test a <;> simp [hv]
    rw [hend, List.append_assoc]
    exact h.logged.append_left _

/-- A container that the walk goes into. What is left out of its children ends nowhere: it is
missing, or a container that was looked into already. -/
theorem enter (hunseen : unseen.Nodup) (ho : Opens s test a.2) (hin : a.2 ∈ unseen)
    (hleft : ∀ i, i ∉ unseen.erase a.2 → get? s i = none ∨ Opens s test i)
    (h : Explores s test (unseen.erase a.2)
      (((listed s a).filter fun b => (unseen.erase a.2).contains b.2).reverse ++ stack) log
      accesses) :
    Explores s test unseen (a :: stack) (⟨a.1, false⟩ :: log) (a :: accesses) where
  nodup := by
    refine List.nodup_cons.2 ⟨fun hmem => ?_, h.nodup⟩
    obtain ⟨b, hb, heq⟩ := List.mem_map.1 hmem
    have hb' := (h.opens b hb).1
    rw [heq] at hb'
    exact hunseen.not_mem_erase hb'
  opens := List.forall_mem_cons.2
    ⟨⟨hin, ho⟩, fun b hb => ⟨List.mem_of_mem_erase (h.opens b hb).1, (h.opens b hb).2⟩⟩
  leads := by
    refine List.forall_mem_cons.2 ⟨⟨a, List.mem_cons_self, [], by simp, .here _⟩, fun b hb => ?_⟩
    obtain ⟨c, hc, q, heq, hq⟩ := h.leads b hb
    rcases List.mem_append.1 hc with hc | hc
    · obtain ⟨key, hkey, hpath⟩ := mem_listed.1 (List.mem_filter.1 (List.mem_reverse.1 hc)).1
      exact ⟨a, List.mem_cons_self, key :: q, by rw [heq, hpath]; simp, .step ho hkey hq⟩
    · exact ⟨c, List.mem_cons_of_mem _ hc, q, heq, hq⟩
  start := by
    refine List.forall_mem_cons.2 ⟨fun _ _ => List.mem_cons_self, fun b hb hopen hunseen' => ?_⟩
    by_cases heq : b.2 = a.2
    · exact List.mem_cons.2 (Or.inl heq)
    · exact List.mem_cons_of_mem _
        (h.start b (List.mem_append_right _ hb) hopen ((List.mem_erase_of_ne heq).2 hunseen'))
  next := by
    refine List.forall_mem_cons.2 ⟨fun key j hj hopen hunseen' => ?_,
      fun b hb key j hj hopen hunseen' => ?_⟩
    all_goals
      by_cases heq : j = a.2
      · exact List.mem_cons.2 (Or.inl heq)
    · have hmem : j ∈ unseen.erase a.2 := (List.mem_erase_of_ne heq).2 hunseen'
      refine List.mem_cons_of_mem _ (h.start (a.1 ++ [key], j) ?_ hopen hmem)
      refine List.mem_append_left _ (List.mem_reverse.2 (List.mem_filter.2 ⟨?_, ?_⟩))
      · exact mem_listed.2 ⟨key, hj, rfl⟩
      · simpa using hmem
    · exact List.mem_cons_of_mem _
        (h.next b hb key j hj hopen ((List.mem_erase_of_ne heq).2 hunseen'))
  logged := by
    have hends : ((listed s a).filter fun b => (unseen.erase a.2).contains b.2).filterMap
        (end? s test) = (listed s a).filterMap (end? s test) := by
      rw [List.filterMap_filter]
      refine List.filterMap_congr fun b _ => ?_
      by_cases hb : b.2 ∈ unseen.erase a.2
      · simp [hb]
      · rcases hleft b.2 hb with hnone | hopen
        · simp [end?, hnone]
        · simp [end?_of_opens hopen]
    have hlog := h.logged
    rw [List.filterMap_append, List.filterMap_reverse, hends] at hlog
    rw [List.filterMap_cons_none (end?_of_opens ho), List.flatMap_cons, opened]
    -- the ends below the container come before those on the stack
    have hmove : (((listed s a).filterMap (end? s test)).reverse ++
        stack.filterMap (end? s test)).Perm
        (stack.filterMap (end? s test) ++ (listed s a).filterMap (end? s test)) :=
      List.perm_append_comm.trans ((List.reverse_perm _).append_left _)
    refine ((hlog.trans (hmove.append_right _)).cons _).trans ?_
    rw [List.append_assoc, List.cons_append]
    exact List.perm_middle.symm

end Explores

/-- The walk explores what is unseen, if what is not unseen is missing or does not pass. -/
theorem exists_explores (s : σ) (test : Entry α → Bool) (unseen : List NodeId)
    (stack : List (Path × NodeId)) (hunseen : unseen.Nodup)
    (hleft : ∀ i, i ∉ unseen → get? s i = none ∨ Opens s test i) :
    ∃ accesses, Explores s test unseen stack (walk s (fun e _ => test e) unseen stack)
      accesses := by
  induction unseen, stack using walk.induct s (fun e _ => test e) with
  | case1 unseen => exact ⟨[], by rw [walk]; exact .nil⟩
  | case2 unseen path id rest he ih =>
    obtain ⟨accesses, h⟩ := ih hunseen hleft
    have hout : ¬Opens s test id := by simp [Opens, he]
    have hskip := h.skip (a := (path, id)) fun ho => absurd ho hout
    exact ⟨accesses, by rw [walk_missing he]; simpa [end?, he] using hskip⟩
  | case3 unseen path id rest e he hseen ih =>
    obtain ⟨accesses, h⟩ := ih hunseen hleft
    obtain ⟨hc, hid⟩ : e.isContainer = true ∧ id ∉ unseen := by simpa using hseen
    have ho : Opens s test id := (hleft id hid).resolve_left (by simp [he])
    have hskip := h.skip (a := (path, id)) fun _ => hid
    rw [end?_of_opens ho] at hskip
    exact ⟨accesses, by rw [walk_seen he hc hid]; exact hskip⟩
  | case4 unseen path id rest e he hseen ht ih =>
    obtain ⟨accesses, h⟩ := ih hunseen hleft
    have hskip := h.skip (a := (path, id)) fun ho => absurd ho (not_opens_of_passes ⟨e, he, ht⟩)
    have hwalk : walk s (fun e _ => test e) unseen ((path, id) :: rest) =
        ⟨path, true⟩ :: walk s (fun e _ => test e) unseen rest :=
      walk_passed he (by simpa using hseen) ht
    exact ⟨accesses, by rw [hwalk]; simpa [end?, he, ht] using hskip⟩
  | case5 unseen path id rest e he hseen ht henter left below ih =>
    have ht' : test e = false := by simpa using ht
    have ho : Opens s test id := ⟨e, he, henter.1, ht'⟩
    have hleft' : ∀ i, i ∉ unseen.erase id → get? s i = none ∨ Opens s test i := by
      intro i hi
      by_cases heq : i = id
      · exact Or.inr (heq ▸ ho)
      · exact hleft i fun hin => hi ((List.mem_erase_of_ne heq).2 hin)
    have hbelow : below = (listed s (path, id)).filter fun b => left.contains b.2 := by
      simp only [below, listed_eq he, List.filter_map, Function.comp_def]
    obtain ⟨accesses, h⟩ := ih (hunseen.erase id) hleft'
    rw [hbelow] at h
    rw [walk_entered he henter.1 henter.2 ht']
    exact ⟨_, Explores.enter (a := (path, id)) hunseen ho henter.2 hleft' h⟩
  | case6 unseen path id rest e he hseen ht henter ih =>
    obtain ⟨accesses, h⟩ := ih hunseen hleft
    have ht' : test e = false := by simpa using ht
    have hc : e.isContainer = false := by
      cases hc : e.isContainer with
      | false => rfl
      | true => exact absurd ⟨hc, by simpa [hc] using hseen⟩ henter
    have hout : ¬Opens s test id := by simp [Opens, he, hc]
    have hskip := h.skip (a := (path, id)) fun ho => absurd ho hout
    exact ⟨accesses, by rw [walk_leaf he hc ht']; simpa [end?, he, ht', hc] using hskip⟩

/-! ## Searches -/

/-- The containers that a search from the root looks into, with their access paths. -/
structure Explored (s : σ) (root : NodeId) (test : Entry α → Bool)
    (accesses : List (Path × NodeId)) : Prop where
  /-- No container has two accesses. -/
  nodup : (accesses.map Prod.snd).Nodup
  /-- An access path leads to its container through containers that do not pass. -/
  leads : ∀ a ∈ accesses, Opens s test a.2 ∧ Leads s (Opens s test) root a.1 a.2
  /-- A container that can be reached so has an access. -/
  complete : ∀ i path, Opens s test i → Leads s (Opens s test) root path i →
    i ∈ accesses.map Prod.snd

/-- A way through open containers goes on from access to access. -/
theorem Explores.mem_of_leads {unseen : List NodeId} {stack : List (Path × NodeId)}
    {log : List Visit} {accesses : List (Path × NodeId)}
    (h : Explores s test unseen stack log accesses) (hall : ∀ i, Opens s test i → i ∈ unseen)
    {i j : NodeId} {path : Path} (hleads : Leads s (Opens s test) i path j)
    (hj : Opens s test j) (hi : i ∈ accesses.map Prod.snd) : j ∈ accesses.map Prod.snd := by
  induction hleads with
  | here _ => exact hi
  | step _ hkey rest ih =>
    obtain ⟨a, ha, rfl⟩ := List.mem_map.1 hi
    have ho := rest.via_start hj
    exact ih hj (h.next a ha _ _ hkey ho (hall _ ho))

theorem Explores.explored [LawfulStore σ] {root : NodeId} {log : List Visit}
    {accesses : List (Path × NodeId)}
    (h : Explores s test (List.range (size s)) [([], root)] log accesses) :
    Explored s root test accesses where
  nodup := h.nodup
  leads a ha := by
    obtain ⟨b, hb, q, hpath, hq⟩ := h.leads a ha
    obtain rfl := List.mem_singleton.1 hb
    rw [List.nil_append] at hpath
    exact ⟨(h.opens a ha).2, hpath ▸ hq⟩
  complete i path hi hleads := by
    have hall : ∀ i, Opens s test i → i ∈ List.range (size s) := by
      rintro i ⟨e, he, -, -⟩
      exact List.mem_range.2 (lt_size_of_get? he)
    have hroot := hleads.via_start hi
    have hmem : root ∈ accesses.map Prod.snd :=
      h.start ([], root) List.mem_cons_self hroot (hall root hroot)
    exact h.mem_of_leads hall hleads hi hmem

theorem mem_hits {a : Path × NodeId} {path : Path} : path ∈ hits s test a ↔
    ∃ key j, Under s a.2 key j ∧ Passes s test j ∧ path = a.1 ++ [key] := by
  constructor
  · intro h
    obtain ⟨b, hb, rfl⟩ := List.mem_map.1 h
    obtain ⟨hlisted, ht⟩ := List.mem_filter.1 hb
    obtain ⟨key, hkey, hpath⟩ := mem_listed.1 hlisted
    exact ⟨key, b.2, hkey, any_iff_passes.1 ht, hpath⟩
  · rintro ⟨key, j, hkey, hj, rfl⟩
    refine List.mem_map.2 ⟨(a.1 ++ [key], j), List.mem_filter.2 ⟨?_, any_iff_passes.2 hj⟩, rfl⟩
    exact mem_listed.2 ⟨key, hkey, rfl⟩

/-- The places under one container have different paths. -/
theorem nodup_hits (hs : Tidy s) (a : Path × NodeId) : (hits s test a).Nodup := by
  obtain ⟨path, id⟩ := a
  refine List.Nodup.sublist (List.filter_sublist.map Prod.fst) ?_
  cases he : get? s id with
  | none => simp [listed, he]
  | some e =>
    have hkeys := Entry.nodup_keys fun children heq => hs id children (heq ▸ he)
    have hmap : (listed s (path, id)).map Prod.fst =
        (e.children.map Prod.fst).map fun key => path ++ [key] := by
      simp [listed_eq he, Function.comp_def]
    rw [hmap]
    exact hkeys.map fun _ _ heq => by simpa using heq

/-- No path is a hit under two containers. -/
theorem Explored.nodup_flatMap_hits {root : NodeId} {accesses : List (Path × NodeId)}
    (h : Explored s root test accesses) (hs : Tidy s) :
    (accesses.flatMap (hits s test)).Nodup := by
  refine List.nodup_flatMap.2 ⟨fun a _ => nodup_hits hs a, ?_⟩
  have hids : accesses.Pairwise fun a b => a.2 ≠ b.2 := List.pairwise_map.1 h.nodup
  refine hids.imp_of_mem fun {a b} ha hb hne path hpa hpb => hne ?_
  obtain ⟨key, _, -, -, rfl⟩ := mem_hits.1 hpa
  obtain ⟨key', _, -, -, heq⟩ := mem_hits.1 hpb
  have hpath : a.1 = b.1 := by
    simpa using congrArg List.dropLast heq
  exact (hpath ▸ (h.leads a ha).2).unique hs (h.leads b hb).2

/-- The paths that a search finds are the hits: the root, or what is under the containers. -/
theorem Explores.findPaths_perm {root : NodeId} {accesses : List (Path × NodeId)}
    (h : Explores s test (List.range (size s)) [([], root)] (visits s root fun e _ => test e)
      accesses) :
    (findPaths s root fun e _ => test e).Perm
      ((if (get? s root).any test then [[]] else []) ++ accesses.flatMap (hits s test)) := by
  have hopened : accesses.flatMap (hits s test) =
      ((accesses.flatMap (opened s test)).filter Visit.passed).map Visit.path := by
    rw [List.filter_flatMap, List.map_flatMap]
    refine List.flatMap_congr fun a _ => ?_
    rw [opened, List.filter_cons_of_neg (by simp), passed_of_ends]
    rfl
  have hroot : (if (get? s root).any test then [[]] else []) =
      (([([], root)].filterMap (end? s test)).filter Visit.passed).map Visit.path := by
    rw [passed_of_ends]
    by_cases ht : (get? s root).any test = true <;> simp [ht]
  rw [hopened, hroot, ← List.map_append, ← List.filter_append]
  exact (h.logged.filter _).map _

/-- A search whose root passes looks into nothing. -/
theorem Explored.eq_nil {root : NodeId} {accesses : List (Path × NodeId)}
    (h : Explored s root test accesses) (hroot : Passes s test root) : accesses = [] := by
  refine List.eq_nil_iff_forall_not_mem.2 fun a ha => ?_
  obtain ⟨ho, hleads⟩ := h.leads a ha
  exact not_opens_of_passes hroot (hleads.via_start ho)

/-- What a search comes to and finds in any graph of shared and looping containers, with a test that
goes by the entry. It looks into each container once that does not pass and can be reached through
such containers, on the container's access path, and tests each of its children at most once from
there. It finds the root alone, if the root passes, and otherwise each entry that passes under each
of these containers, without repetition: the paths are the access path and the key. Each leads to an
entry that passes, through none that passes. -/
theorem findPaths_graph [LawfulStore σ] (s : σ) (hs : Tidy s) (root : NodeId)
    (test : Entry α → Bool) :
    ∃ accesses, Explored s root test accesses ∧
      (visits s root fun e _ => test e).Perm
        ((end? s test ([], root)).toList ++ accesses.flatMap (opened s test)) ∧
      (Passes s test root → (findPaths s root fun e _ => test e) = [[]]) ∧
      (¬Passes s test root →
        (findPaths s root fun e _ => test e).Perm (accesses.flatMap (hits s test))) ∧
      (findPaths s root fun e _ => test e).Nodup ∧
      ∀ path ∈ findPaths s root fun e _ => test e,
        ∃ j, Leads s (Opens s test) root path j ∧ Passes s test j := by
  have hstart : ∀ i, i ∉ List.range (size s) → get? s i = none ∨ Opens s test i := by
    intro i hi
    refine Or.inl (Option.eq_none_iff_forall_ne_some.2 fun e he => hi ?_)
    exact List.mem_range.2 (lt_size_of_get? he)
  obtain ⟨accesses, h⟩ := exists_explores s test _ [([], root)] List.nodup_range hstart
  have hexp := h.explored
  have hperm := h.findPaths_perm
  have hlog : (visits s root fun e _ => test e).Perm
      ((end? s test ([], root)).toList ++ accesses.flatMap (opened s test)) := by
    have hone : [([], root)].filterMap (end? s test) = (end? s test ([], root)).toList := by
      cases hv : end? s test ([], root) <;> simp [hv]
    exact hone ▸ h.logged
  refine ⟨accesses, hexp, hlog, ?_⟩
  by_cases hroot : Passes s test root
  · have hfound : (findPaths s root fun e _ => test e) = [[]] := by
      rw [if_pos (any_iff_passes.2 hroot), hexp.eq_nil hroot] at hperm
      exact List.perm_singleton.1 hperm
    refine ⟨fun _ => hfound, fun hnot => absurd hroot hnot, by simp [hfound], fun path hpath => ?_⟩
    rw [hfound, List.mem_singleton] at hpath
    exact ⟨root, hpath ▸ .here root, hroot⟩
  · rw [if_neg (mt any_iff_passes.1 hroot), List.nil_append] at hperm
    refine ⟨fun hyes => absurd hyes hroot, fun _ => hperm,
      hperm.nodup_iff.2 (hexp.nodup_flatMap_hits hs), fun path hpath => ?_⟩
    obtain ⟨a, ha, hhit⟩ := List.mem_flatMap.1 (hperm.mem_iff.1 hpath)
    obtain ⟨key, j, hkey, hj, rfl⟩ := mem_hits.1 hhit
    obtain ⟨ho, hleads⟩ := hexp.leads a ha
    exact ⟨j, hleads.snoc ho hkey, hj⟩

/-- A mapping that stands under three keys and leads back to the root. -/
def tangled : Arena Nat :=
  ⟨#[.leaf 7, .map [("x", 0), ("up", 3)], .seq [1, 1], .map [("a", 2), ("b", 1), ("c", 0)]]⟩

/-- The leaf is found under the root and under the mapping, which is looked into once. -/
theorem findPaths_graph_tangled :
    let test : Entry Nat → Bool := fun e => e = .leaf 7
    Tidy tangled ∧
      (findPaths tangled 3 fun e _ => test e) = [[.field "c"], [.field "b", .field "x"]] ∧
      ∃ accesses, Explored tangled 3 test accesses ∧
        [[.field "c"], [.field "b", .field "x"]].Perm (accesses.flatMap (hits tangled test)) := by
  intro test
  have hs : Tidy tangled := by
    intro i children h
    have hmem : Entry.map children ∈ tangled.entries := Array.mem_of_getElem? h
    simp only [tangled, List.mem_toArray, List.mem_cons, reduceCtorEq, Entry.map.injEq,
      List.not_mem_nil, false_or, or_false] at hmem
    unfold Fields.Distinct
    rcases hmem with rfl | rfl <;> decide
  have hfound : (findPaths tangled 3 fun e _ => test e) =
      [[.field "c"], [.field "b", .field "x"]] := by cbv
  obtain ⟨accesses, hexp, -, -, hperm, -⟩ := findPaths_graph tangled hs 3 test
  refine ⟨hs, hfound, accesses, hexp, hfound ▸ hperm ?_⟩
  rintro ⟨e, he, ht⟩
  obtain rfl : e = .map [("a", 2), ("b", 1), ("c", 0)] := (Option.some.inj he).symm
  cases ht

end Store

end ValueResolution
