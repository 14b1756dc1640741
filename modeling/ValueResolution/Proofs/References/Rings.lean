import Mathlib.Data.List.Chain
import ValueResolution.Proofs.References.Made
import ValueResolution.Proofs.StableOrder
import ValueResolution.Proofs.Trace
/-!
# Rings of references

A ring (`ValueTree.Ring`) is a list of terminals of a node each of which makes a reference to the
place of the next one, and the last a reference to the place of the first. The items of the sorter
of a tree depend on each other as its terminals read each other (`ValueTree.dependsOn_sorterOf`),
and a terminal that depends on itself through others stands on a ring (`exists_nodup_cycle`). So a
node has no order exactly when it has a ring, and the error names a terminal on one
(`ValueTree.resolutionOrder_rings`).

Compiling looks at rings without level references; those with them are found when the tree is
resolved as the outermost one, before anything else is done (`ValueTree.compile_rejects_rings`).
-/

set_option autoImplicit false

namespace ValueResolution

open Relation

/-! ## Cycles as lists -/

section Cycles

variable {α : Type} {r : α → α → Prop}

/-- Where one thing leads to another, a chain without repetition does. -/
theorem exists_nodup_chain {a b : α} (h : ReflTransGen r a b) : ∃ l : List α,
    l.Nodup ∧ l.IsChain r ∧ l.head? = some a ∧ l.getLast? = some b := by
  classical
  induction h using ReflTransGen.head_induction_on with
  | refl => exact ⟨[b], List.nodup_singleton b, List.isChain_singleton b, rfl, rfl⟩
  | @head a c hac _ ih =>
    obtain ⟨l, hn, hchain, hhead, hlast⟩ := ih
    by_cases hmem : a ∈ l
    · -- what is before the other visit of `a` is left out
      obtain ⟨before, behind, rfl⟩ := List.append_of_mem hmem
      refine ⟨a :: behind, (List.nodup_append.1 hn).2.1, hchain.right_of_append, rfl, ?_⟩
      rwa [List.getLast?_append_of_ne_nil _ (List.cons_ne_nil _ _)] at hlast
    · have hne : l ≠ [] := by
        rintro rfl
        simp at hhead
      refine ⟨a :: l, List.nodup_cons.2 ⟨hmem, hn⟩, hchain.cons fun x hx => ?_, rfl, ?_⟩
      · obtain rfl : c = x := Option.some.inj (hhead.symm.trans hx)
        exact hac
      · rw [← List.singleton_append, List.getLast?_append_of_ne_nil _ hne, hlast]

/-- What leads to itself does so along a chain without repetition. -/
theorem exists_nodup_cycle {a : α} (h : TransGen r a a) :
    ∃ rest, (a :: rest).Nodup ∧ (a :: (rest ++ [a])).IsChain r := by
  obtain ⟨b, hab, hba⟩ := TransGen.head'_iff.1 h
  obtain ⟨l, hn, hchain, hhead, hlast⟩ := exists_nodup_chain hba
  obtain ⟨rest, rfl⟩ := List.getLast?_eq_some_iff.1 hlast
  refine ⟨rest, (List.perm_append_singleton a rest).nodup_iff.1 hn, hchain.cons fun x hx => ?_⟩
  obtain rfl : b = x := Option.some.inj (hhead.symm.trans hx)
  exact hab

/-- A chain leads from its first member to its last one, without the steps that stay. -/
theorem reflTransGen_of_isChain {a b : α} {l : List α} (h : (a :: (l ++ [b])).IsChain r) :
    ReflTransGen (fun x y => r x y ∧ x ≠ y) a b := by
  have hstep : ∀ {x y : α}, r x y → ReflTransGen (fun x y => r x y ∧ x ≠ y) x y := by
    intro x y hxy
    by_cases heq : x = y
    · exact heq ▸ .refl
    · exact .single ⟨hxy, heq⟩
  induction l generalizing a with
  | nil => exact hstep (List.isChain_pair.1 h)
  | cons c l ih =>
    obtain ⟨hac, hrest⟩ := List.isChain_cons_cons.1 h
    exact (hstep hac).trans (ih hrest)

/-- Every member of a chain but the last one has a next one. -/
theorem exists_next_of_isChain {a b : α} {l : List α} (h : (l ++ [b]).IsChain r) (ha : a ∈ l) :
    ∃ c, r a c := by
  obtain ⟨before, behind, rfl⟩ := List.append_of_mem ha
  rw [List.append_assoc, List.cons_append] at h
  obtain ⟨c, rest, hc⟩ := List.exists_cons_of_ne_nil (l := behind ++ [b]) (by simp)
  rw [hc] at h
  exact ⟨c, (List.isChain_cons_cons.1 h.right_of_append).1⟩

end Cycles

/-- A reference with a target in the tree of a terminal is one of the terminal exactly when it comes
out of it. -/
theorem Terminal.mem_references_iff {t : Terminal} {r : Reference} {place target : Path}
    (h : r.target? place = some target) : r ∈ t.references ↔ ∃ m ∈ t.made, m.out? = some r := by
  have hleaves : r.escape? 0 = some r := by
    obtain ⟨anchor, path⟩ := r
    cases anchor with
    | root => simp [Reference.target?] at h
    | level depth => rfl
    | relative up =>
      simp only [Reference.target?, Option.ite_none_right_eq_some] at h
      exact if_pos h.1.1
  refine ⟨fun hr => ?_, fun ⟨m, hm, hr⟩ => Terminal.mem_references hm hr⟩
  cases t with
  | reference s =>
    obtain rfl := List.mem_singleton.1 hr
    exact ⟨(0, r), List.mem_singleton_self _, hleaves⟩
  | expression x => exact ⟨(0, r), List.mem_map_of_mem (f := fun r => (0, r)) hr, hleaves⟩
  | schema s =>
    rw [Terminal.references, s.references_eq] at hr
    exact List.mem_filterMap.1 hr

namespace ValueTree

/-- The terminal makes a reference, of its own or from inside, whose target in the tree overlaps the
place. Level references count if asked for. -/
def ReadsAt (levels : Bool) (site : Site) (place : Path) : Prop :=
  ∃ m ∈ site.terminal.made, ∃ r, m.out? = some r ∧ (levels = true ∨ r.isLevel = false) ∧
    ∃ target, r.target? site.path = some target ∧ Path.overlaps place target = true

/-- Two or more terminals of a node, each of which reads the place of the next one, and the last one
that of the first. -/
structure Ring (n : Node) (levels : Bool) (site : Site) (rest : List Site) : Prop where
  sites : ∀ s ∈ site :: rest, s ∈ n.sites
  two : rest ≠ []
  nodup : (site :: rest).Nodup
  chain : (site :: (rest ++ [site])).IsChain fun s t => ReadsAt levels s t.path

/-- The terminal reads the place of another one. -/
def Edge (n : Node) (levels : Bool) (s t : Site) : Prop :=
  s ∈ n.sites ∧ t ∈ n.sites ∧ s ≠ t ∧ ReadsAt levels s t.path

/-- A terminal is on a ring exactly when it depends on itself through others. -/
theorem exists_ring_iff {n : Node} {levels : Bool} {site : Site} :
    (∃ rest, Ring n levels site rest) ↔ TransGen (Edge n levels) site site := by
  constructor
  · rintro ⟨rest, hring⟩
    obtain ⟨next, rest, rfl⟩ := List.exists_cons_of_ne_nil hring.two
    have hne : site ≠ next := fun heq =>
      (List.nodup_cons.1 hring.nodup).1 (heq ▸ List.mem_cons_self)
    have hchain := List.IsChain.iff_mem.1 hring.chain
    have hedges : (site :: (next :: rest ++ [site])).IsChain fun s t =>
        s ∈ n.sites ∧ t ∈ n.sites ∧ ReadsAt levels s t.path := by
      refine hchain.imp fun s t h => ?_
      have hmem : ∀ {u}, u ∈ site :: (next :: rest ++ [site]) → u ∈ n.sites := fun {u} hu =>
        hring.sites u (by simpa [or_comm, or_assoc, or_left_comm] using hu)
      exact ⟨hmem h.1, hmem h.2.1, h.2.2⟩
    obtain ⟨hfirst, hrest⟩ := List.isChain_cons_cons.1 hedges
    refine TransGen.head' ⟨hfirst.1, hfirst.2.1, hne, hfirst.2.2⟩ ?_
    exact ReflTransGen.mono (fun s t h => ⟨h.1.1, h.1.2.1, h.2, h.1.2.2⟩) _ _
      (reflTransGen_of_isChain hrest)
  · intro h
    obtain ⟨rest, hn, hchain⟩ := exists_nodup_cycle h
    refine ⟨rest, fun s hs => ?_, ?_, hn, hchain.imp fun s t h => h.2.2.2⟩
    · obtain ⟨t, hst⟩ := exists_next_of_isChain (l := site :: rest) hchain hs
      exact hst.1
    · rintro rfl
      exact (List.isChain_pair.1 hchain).2.2.1 rfl

/-! ## Rings and orders -/

/-- The sorter of the terminals of a node. -/
def sorterOf (n : Node) (levels : Bool) : Sorter Path :=
  ⟨(terminalsOf n).map (itemOf ((terminalsOf n).map Prod.fst) levels)⟩

theorem resolutionOrder_terminalsOf (n : Node) (levels : Bool) :
    resolutionOrder (terminalsOf n) levels = (sorterOf n levels).sort.mapError Path.text :=
  resolutionOrder_eq _ _

theorem getElem?_sorterOf (n : Node) (levels : Bool) (i : Nat) :
    (sorterOf n levels).items[i]? = n.sites[i]?.map fun site =>
      itemOf (n.sites.map Site.path) levels (site.path, site.terminal.references) := by
  rw [sorterOf, places_terminalsOf, terminalsOf, List.map_map, List.getElem?_map]
  rfl

theorem name?_sorterOf (n : Node) (levels : Bool) (i : Nat) :
    (sorterOf n levels).name? i = n.sites[i]?.map Site.path := by
  rw [Sorter.name?, getElem?_sorterOf, Option.map_map]
  rfl

theorem isLast_sorterOf {n : Node} {levels : Bool} {path : Path} {i : Nat} :
    (sorterOf n levels).IsLast path i ↔ n.sites[i]?.map Site.path = some path := by
  rw [Sorter.IsLast, name?_sorterOf]
  refine ⟨fun h => h.1, fun h => ⟨h, fun k hk hother => ?_⟩⟩
  rw [name?_sorterOf] at hother
  rw [← List.getElem?_map] at h hother
  have hi : i < (n.sites.map Site.path).length := (List.getElem?_eq_some_iff.1 h).1
  have heq : i = k := (List.getElem?_inj hi n.nodup_sites).1 (h.trans hother.symm)
  exact Nat.ne_of_lt hk heq

/-- Items depend on each other as their terminals read each other. -/
theorem dependsOn_sorterOf {n : Node} {levels : Bool} {i j : Nat} :
    (sorterOf n levels).DependsOn i j ↔
      ∃ s t, n.sites[i]? = some s ∧ n.sites[j]? = some t ∧ Edge n levels s t := by
  rw [Sorter.DependsOn]
  simp only [getElem?_sorterOf, isLast_sorterOf, Option.map_eq_some_iff]
  constructor
  · rintro ⟨hne, item, path, ⟨s, hs, rfl⟩, hwaits, t, ht, rfl⟩
    obtain ⟨-, hother, r, hr, hcounts, target, htarget, hover⟩ := mem_waitsFor.1 hwaits
    obtain ⟨m, hm, hout⟩ := (Terminal.mem_references_iff htarget).1 hr
    exact ⟨s, t, hs, ht, List.mem_of_getElem? hs, List.mem_of_getElem? ht,
      fun heq => hother (congrArg Site.path heq).symm, m, hm, r, hout, hcounts, target, htarget,
      hover⟩
  · rintro ⟨s, t, hs, ht, -, hmem, hst, m, hm, r, hout, hcounts, target, htarget, hover⟩
    have hpath : t.path ≠ s.path := fun heq => hst
      (List.inj_on_of_nodup_map n.nodup_sites hmem (List.mem_of_getElem? hs) heq).symm
    refine ⟨fun heq => ?_, _, t.path, ⟨s, hs, rfl⟩, mem_waitsFor.2 ⟨List.mem_map_of_mem hmem, hpath,
      r, Terminal.mem_references hm hout, hcounts, target, htarget, hover⟩, t, ht, rfl⟩
    subst heq
    exact hst (Option.some.inj (hs.symm.trans ht))

/-- An item that depends on itself through others is one whose terminal is on a ring. -/
theorem transGen_sorterOf {n : Node} {levels : Bool} {i : Nat} {site : Site}
    (hi : n.sites[i]? = some site) : TransGen (sorterOf n levels).DependsOn i i ↔
      ∃ rest, Ring n levels site rest := by
  rw [exists_ring_iff]
  constructor
  · suffices ∀ {j}, TransGen (sorterOf n levels).DependsOn i j →
        ∃ t, n.sites[j]? = some t ∧ TransGen (Edge n levels) site t by
      intro h
      obtain ⟨t, ht, hcycle⟩ := this h
      exact Option.some.inj (hi.symm.trans ht) ▸ hcycle
    intro j h
    induction h with
    | single h =>
      obtain ⟨s, t, hs, ht, hst⟩ := dependsOn_sorterOf.1 h
      obtain rfl := Option.some.inj (hi.symm.trans hs)
      exact ⟨t, ht, .single hst⟩
    | tail _ h ih =>
      obtain ⟨s, hs, hcycle⟩ := ih
      obtain ⟨s', t, hs', ht, hst⟩ := dependsOn_sorterOf.1 h
      obtain rfl := Option.some.inj (hs.symm.trans hs')
      exact ⟨t, ht, hcycle.tail hst⟩
  · suffices ∀ {t}, TransGen (Edge n levels) site t →
        ∃ j, n.sites[j]? = some t ∧ TransGen (sorterOf n levels).DependsOn i j by
      intro h
      obtain ⟨j, hj, hcycle⟩ := this h
      have hlt : i < n.sites.length := (List.getElem?_eq_some_iff.1 hi).1
      exact (List.getElem?_inj hlt (n.nodup_sites.of_map _)).1 (hi.trans hj.symm) ▸ hcycle
    intro t h
    induction h with
    | single h =>
      obtain ⟨j, hj⟩ := List.getElem?_of_mem h.2.1
      exact ⟨j, hj, .single (dependsOn_sorterOf.2 ⟨_, _, hi, hj, h⟩)⟩
    | tail _ h ih =>
      obtain ⟨j, hj, hcycle⟩ := ih
      obtain ⟨k, hk⟩ := List.getElem?_of_mem h.2.1
      exact ⟨k, hk, hcycle.tail (dependsOn_sorterOf.2 ⟨_, _, hj, hk, h⟩)⟩

/-- The terminals of a node have no order exactly when some of them form a ring, and the error is
the text of the place of one on a ring. -/
theorem resolutionOrder_rings (n : Node) (levels : Bool) :
    ((∃ key, resolutionOrder (terminalsOf n) levels = .error key) ↔
      ∃ site rest, Ring n levels site rest) ∧
    ∀ key, resolutionOrder (terminalsOf n) levels = .error key →
      ∃ site rest, Ring n levels site rest ∧ key = site.path.text := by
  have hnamed : ∀ key, resolutionOrder (terminalsOf n) levels = .error key →
      ∃ site rest, Ring n levels site rest ∧ key = site.path.text := by
    intro key h
    rw [resolutionOrder_terminalsOf] at h
    cases hsort : (sorterOf n levels).sort with
    | ok order => simp [hsort, Except.mapError] at h
    | error path =>
      obtain rfl : path.text = key := by simpa [hsort, Except.mapError] using h
      obtain ⟨i, hname, hcycle⟩ := Sorter.sort_eq_error hsort
      rw [name?_sorterOf] at hname
      obtain ⟨site, hsite, rfl⟩ := Option.map_eq_some_iff.1 hname
      obtain ⟨rest, hring⟩ := (transGen_sorterOf hsite).1 hcycle
      exact ⟨site, rest, hring, rfl⟩
  refine ⟨⟨fun ⟨key, h⟩ => ?_, fun ⟨site, rest, hring⟩ => ?_⟩, hnamed⟩
  · obtain ⟨site, rest, hring, -⟩ := hnamed key h
    exact ⟨site, rest, hring⟩
  · obtain ⟨i, hi⟩ := List.getElem?_of_mem (hring.sites site List.mem_cons_self)
    have hcycle := (transGen_sorterOf hi).2 ⟨rest, hring⟩
    rw [resolutionOrder_terminalsOf]
    cases hsort : (sorterOf n levels).sort with
    | ok order => exact absurd hcycle (Sorter.exists_sort_iff.1 ⟨order, hsort⟩ i)
    | error path => exact ⟨path.text, rfl⟩

theorem compile_eq_error_iff {n : Node} {e : Error} : compile n = .error e ↔
    ∃ key, resolutionOrder (terminalsOf n) false = .error key ∧ e = .dependencyCycle key := by
  have hrun : compile n = (resolutionOrder (terminalsOf n) false).mapError .dependencyCycle >>=
      fun order => .ok (ofOrder n order) := rfl
  rw [hrun]
  cases resolutionOrder (terminalsOf n) false with
  | ok order => simp [Except.mapError, bind, Except.bind]
  | error key => simp [Except.mapError, bind, Except.bind, eq_comm]

theorem orderIn_eq_error_iff {order : List Path} {rootedOrder : Except String (List Path)}
    {scope : Scope} (hframes : scope.frames = []) {e : Error} :
    orderIn order rootedOrder scope = .error e ↔
      ∃ key, rootedOrder = .error key ∧ e = .dependencyCycle key := by
  cases rootedOrder with
  | ok found => simp [orderIn, hframes, Except.mapError]
  | error key => simp [orderIn, hframes, Except.mapError, eq_comm]

/-- A node compiles unless some of its terminals form a ring of relative references. The compiled
tree has no order as the outermost one exactly when some of them form a ring with level references
counted in; it then fails whatever its terminals are. Either error names a terminal on such a ring.
-/
theorem compile_rejects_rings (n : Node) :
    ((∃ e, compile n = .error e) ↔ ∃ site rest, Ring n false site rest) ∧
    (∀ e, compile n = .error e →
      ∃ site rest, Ring n false site rest ∧ e = .dependencyCycle site.path.text) ∧
    ∀ t, compile n = .ok t → ∀ scope : Scope, scope.frames = [] →
      ((∃ e, orderIn t.order t.rootedOrder scope = .error e) ↔
        ∃ site rest, Ring n true site rest) ∧
      ∀ e, orderIn t.order t.rootedOrder scope = .error e →
        (∃ site rest, Ring n true site rest ∧ e = .dependencyCycle site.path.text) ∧
        ∀ sites, { t with sites }.resolver scope = .error e := by
  refine ⟨?_, fun e h => ?_, fun t hc scope hframes => ?_⟩
  · rw [← (resolutionOrder_rings n false).1]
    simp only [compile_eq_error_iff]
    exact ⟨fun ⟨_, key, h, _⟩ => ⟨key, h⟩, fun ⟨key, h⟩ => ⟨_, key, h, rfl⟩⟩
  · obtain ⟨key, hkey, rfl⟩ := compile_eq_error_iff.1 h
    obtain ⟨site, rest, hring, rfl⟩ := (resolutionOrder_rings n false).2 key hkey
    exact ⟨site, rest, hring, rfl⟩
  · have hfrom := compiledFrom_of_compile hc
    simp only [orderIn_eq_error_iff hframes, hfrom.rootedOrder]
    refine ⟨?_, fun e h => ?_⟩
    · rw [← (resolutionOrder_rings n true).1]
      exact ⟨fun ⟨_, key, h, _⟩ => ⟨key, h⟩, fun ⟨key, h⟩ => ⟨_, key, h, rfl⟩⟩
    · obtain ⟨key, hkey, rfl⟩ := h
      obtain ⟨site, rest, hring, rfl⟩ := (resolutionOrder_rings n true).2 key hkey
      refine ⟨⟨site, rest, hring, rfl⟩, fun sites => ?_⟩
      have horder : orderIn t.order (resolutionOrder (terminalsOf n) true) scope =
          .error (.dependencyCycle site.path.text) :=
        (orderIn_eq_error_iff hframes).2 ⟨_, hkey, rfl⟩
      rw [resolver, resolverIn]
      simp only [horder]
      rfl

/-- Two terminals that read each other, the first one by the given reference. -/
def mutualReaders (r : Reference) : Node :=
  .map [("a", .reference r), ("b", .reference ⟨.relative 1, [.field "a"]⟩)]

theorem compile_rejects_rings_mutual :
    (∃ site rest, Ring (mutualReaders ⟨.relative 1, [.field "b"]⟩) false site rest ∧
      compile (mutualReaders ⟨.relative 1, [.field "b"]⟩) =
        .error (.dependencyCycle site.path.text)) ∧
    ∃ t site rest, compile (mutualReaders ⟨.level 0, [.field "b"]⟩) = .ok t ∧
      Ring (mutualReaders ⟨.level 0, [.field "b"]⟩) true site rest ∧
      t.resolver (.ofInput .null {}) = .error (.dependencyCycle site.path.text) := by
  constructor
  · have hrun : (compile (mutualReaders ⟨.relative 1, [.field "b"]⟩)).toOption.isNone = true := by
      decide +kernel
    cases hc : compile (mutualReaders ⟨.relative 1, [.field "b"]⟩) with
    | ok t => simp [hc, Except.toOption] at hrun
    | error e =>
      obtain ⟨site, rest, hring, rfl⟩ := (compile_rejects_rings _).2.1 e hc
      exact ⟨site, rest, hring, rfl⟩
  · have hrun : ((compile (mutualReaders ⟨.level 0, [.field "b"]⟩)).toOption.map fun t =>
        (orderIn t.order t.rootedOrder (.ofInput .null {})).toOption.isNone) = some true := by
      decide +kernel
    obtain ⟨t, hc, hnone⟩ := Option.map_eq_some_iff.1 hrun
    have hc := eq_ok_of_toOption hc
    cases ho : orderIn t.order t.rootedOrder (.ofInput .null {}) with
    | ok order => simp [ho, Except.toOption] at hnone
    | error e =>
      obtain ⟨⟨site, rest, hring, rfl⟩, hresolver⟩ :=
        ((compile_rejects_rings _).2.2 t hc _ rfl).2 e ho
      refine ⟨t, site, rest, hc, hring, ?_⟩
      obtain ⟨skeleton, root, sites, order, rootedOrder⟩ := t
      exact hresolver sites

end ValueTree

end ValueResolution
