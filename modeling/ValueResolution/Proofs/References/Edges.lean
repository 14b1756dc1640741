import ValueResolution.Proofs.References.Made
import ValueResolution.Proofs.Store.Walk
import ValueResolution.Proofs.Trace
/-!
# What a terminal waits for

A terminal reads another one when the walk of one of its references, from the container that the
reference is anchored at, meets the other's leaf. It waits for it exactly when that walk names
every position by its numeral (`ValueTree.waits_iff_spelled`), since what a reference may read is
told by the texts of keys, whereas a walk goes by the positions they name. This holds of every
reference made in a terminal, however deep inside it: the container that its anchor selects at run
time is the one its target starts from when it is seen from the terminal
(`Made.target_of_frame`).
-/

set_option autoImplicit false

namespace ValueResolution

open Store

/-- A container that is selected whatever the first ones are is one of the others. -/
theorem getElem?_of_forall_append {d i : Nat} {frames : List Frame} {frame : Frame}
    (h : ∀ inner : List Frame, inner.length = d → (inner ++ frames)[i]? = some frame) :
    d ≤ i ∧ frames[i - d]? = some frame := by
  have hle : d ≤ i := by
    by_contra hlt
    have hother := h (List.replicate d ⟨frame.store, frame.id + 1⟩) List.length_replicate
    rw [List.getElem?_append_left (by simpa using hlt), List.getElem?_replicate,
      if_pos (Nat.not_le.1 hlt)] at hother
    exact Nat.succ_ne_self frame.id (congrArg Frame.id (Option.some.inj hother))
  have hself := h (List.replicate d frame) List.length_replicate
  rw [List.getElem?_append_right (by simpa using hle), List.length_replicate] at hself
  exact ⟨hle, hself⟩

/-- A reference whose anchor selects a container around the terminal, whatever the containers
inside the terminal are, leaves the terminal and has a target that starts at that container. -/
theorem Made.target_of_frame {m : Made} {place : Path} {frames : List Frame}
    (hlen : frames.length = place.length) {frame : Frame}
    (h : ∀ (scope : Scope) (inner : List Frame), scope.frames = inner ++ frames →
      inner.length = m.1 → scope.frame? m.2.anchor = some frame) :
    ∃ k < place.length, ∃ r, m.out? = some r ∧ r.target? place = some (place.take k ++ m.2.path) ∧
      frames[place.length - (k + 1)]? = some frame := by
  obtain ⟨d, anchor, path⟩ := m
  have h : ∀ inner : List Frame, inner.length = d →
      ({ Scope.ofInput .null {} with frames := inner ++ frames }).frame? anchor = some frame :=
    fun inner hi => h { Scope.ofInput .null {} with frames := inner ++ frames } inner rfl hi
  have hone := h (List.replicate d frame) List.length_replicate
  cases anchor with
  | root => simp [Scope.frame?] at hone
  | relative up =>
    cases up with
    | zero => simp [Scope.frame?] at hone
    | succ up =>
      obtain ⟨hle, hget⟩ := getElem?_of_forall_append fun inner hi => h inner hi
      obtain ⟨hlt, -⟩ := List.getElem?_eq_some_iff.1 hget
      have hup : d < up + 1 := by omega
      have htake : place.length - (up + 1 - d) = place.length - 1 - (up - d) := by omega
      refine ⟨place.length - 1 - (up - d), by omega, ⟨.relative (up + 1 - d), path⟩, ?_, ?_, ?_⟩
      · simp [Made.out?, Reference.escape?, hup]
      · have hrange : 1 ≤ up + 1 - d ∧ up + 1 - d ≤ place.length := by omega
        simp only [Reference.target?, if_pos hrange, htake]
      · rw [← hget]
        congr 1
        omega
  | level depth =>
    have hdepth : depth < d + place.length := by
      by_contra hge
      simp [Scope.frame?, hlen, hge] at hone
    have hselect : ∀ inner : List Frame, inner.length = d →
        (inner ++ frames)[d + place.length - (depth + 1)]? = some frame := by
      intro inner hi
      have hframe := h inner hi
      simp only [Scope.frame?, List.length_append, hi, hlen, if_pos hdepth] at hframe
      exact hframe
    obtain ⟨hle, hget⟩ := getElem?_of_forall_append hselect
    obtain ⟨hlt, -⟩ := List.getElem?_eq_some_iff.1 hget
    refine ⟨depth, by omega, ⟨.level depth, path⟩, rfl, ?_, ?_⟩
    · simp only [Reference.target?, if_pos (show depth < place.length by omega)]
    · rw [← hget]
      congr 1
      omega

namespace ValueTree

/-- The working tree before any terminal is resolved. -/
def blank (t : ValueTree) : Overlay Slot := { base := t.skeleton }

/-- The blank tree of a compiled tree holds the form of the node with every slot empty. -/
theorem CompiledFrom.blank_holds {t : ValueTree} {n : Node} (h : t.CompiledFrom n) :
    ∃ u : Unfolding Slot, u.id = t.root ∧ Holds t.blank u ∧ u.ids.Nodup ∧
      u.tree = n.form Node.noSlots := by
  obtain ⟨u, hroot, hsound, htree⟩ := Pass.start_shows n
  refine ⟨u, ?_, ?_, hsound.nodup, htree⟩
  · rw [h.root]
    exact (Option.some.inj hroot).symm
  · rw [blank, h.skeleton]
    exact hsound.holds

/-- A reference made in the terminal at `site` reads the terminal at `other`: its anchor selects a
container around the terminal, behind those inside it, and the walk from there meets the leaf of the
other one. -/
structure Reads (t : ValueTree) (site other : Site) (m : Made) (frame : Frame) : Prop where
  made : m ∈ site.terminal.made
  selects : ∃ frames, Pass.framesAlong t.blank t.root site.path [] = some frames ∧
    ∀ (scope : Scope) (inner : List Frame), scope.frames = inner ++ frames →
      inner.length = m.1 → scope.frame? m.2.anchor = some frame
  meets : ∃ leaf, reach? t.blank t.root other.path = some leaf ∧
    Meets t.blank frame.id m.2.path leaf

/-- A terminal waits for another one that it reads exactly when the walk names every position by
its numeral; and then the other one comes first in the rooted order. -/
theorem waits_iff_spelled {n : Node} {t : ValueTree} (hc : compile n = .ok t) {order : List Path}
    (ho : t.rootedOrder = .ok order) {site other : Site} (hsite : site ∈ n.sites)
    (hother : other ∈ n.sites) (hne : other.path ≠ site.path) {m : Made} {frame : Frame}
    (hreads : t.Reads site other m frame) :
    (other.path ∈ waitsFor (n.sites.map Site.path) true site.path m.out?.toList ↔
      Spelled t.blank frame.id m.2.path) ∧
    (Spelled t.blank frame.id m.2.path → [other.path, site.path].Sublist order) := by
  obtain ⟨hm, ⟨frames, hframes, hframe⟩, leaf, hleaf, hmeets⟩ := hreads
  have hfrom := compiledFrom_of_compile hc
  obtain ⟨u, hid, hholds, hnodup, htree⟩ := hfrom.blank_holds
  rw [← hid] at hframes hleaf
  -- the container of the reference, and the leaf of the other terminal
  obtain ⟨_, _, hv⟩ := Node.exists_leaf_site htree hsite
  obtain ⟨inner, hinner, hlen, hget⟩ := Pass.framesAlong_of_holds hholds hv []
  obtain rfl : inner = frames := by simpa using hinner.symm.trans hframes
  obtain ⟨k, hk, r, hr, htarget, hkframe⟩ := Made.target_of_frame hlen hframe
  obtain ⟨w, hw, hwframe⟩ := hget k hk
  obtain rfl : ⟨t.blank, w.id⟩ = frame := Option.some.inj (hwframe.symm.trans hkframe)
  obtain ⟨i, slot, hl⟩ := Node.exists_leaf_site htree hother
  obtain rfl : i = leaf := by
    rw [hholds.reach?_eq, hl] at hleaf
    exact Option.some.inj hleaf
  have hplace : u.tree.Spelled other.path := htree ▸ Node.form_spelled_site hother _
  have hway : u.tree.Spelled (site.path.take k) := by
    have htake := (htree ▸ Node.form_spelled_site hsite _ :
      u.tree.Spelled site.path).take_append (q := []) (by simp) k
    rwa [List.append_nil] at htake
  have hwt : u.tree.at? (site.path.take k) = some w.tree := by
    rw [Unfolding.at?_tree, hw]
    rfl
  have hwholds : Holds t.blank w := hholds.at? hw
  have hoverlaps : Path.overlaps other.path (site.path.take k ++ m.2.path) = true ↔
      Spelled t.blank w.id m.2.path := by
    rw [hwholds.spelled_iff, ← Tree.spelled_append_iff hway hwt]
    exact Unfolding.overlaps_iff_spelled hnodup hplace hl
      (Unfolding.Meets.append hw ((hwholds.meets_iff _ _).1 hmeets))
  have hmem : other.path ∈ n.sites.map Site.path := List.mem_map_of_mem hother
  refine ⟨?_, fun hspelled => ?_⟩
  · rw [hr, mem_waitsFor, ← hoverlaps]
    constructor
    · rintro ⟨-, -, r', hr', -, target, ht, hover⟩
      obtain rfl := List.mem_singleton.1 hr'
      obtain rfl : site.path.take k ++ m.2.path = target :=
        Option.some.inj (htarget.symm.trans ht)
      exact hover
    · exact fun hover => ⟨hmem, hne, r, List.mem_singleton_self r, Or.inl rfl, _, htarget, hover⟩
  · have hmem' : other.path ∈ (terminalsOf n).map Prod.fst := by
      rw [places_terminalsOf]
      exact hmem
    refine resolutionOrder_after (hfrom.rootedOrder.symm.trans ho)
      (List.mem_map_of_mem (f := fun site => (site.path, site.terminal.references)) hsite) ?_
    exact mem_waitsFor.2 ⟨hmem', hne, r, Terminal.mem_references hm hr, Or.inl rfl, _, htarget,
      hoverlaps.2 hspelled⟩

/-! ### A list that is read under two spellings -/

/-- A reference to the second item of a list that stands after it. -/
def itemReference (position : String) : Reference := ⟨.relative 1, [.field "s", .field position]⟩

/-- A tree with that reference and that list. -/
def listReader (position : String) : Node := .map
  [("a", .reference (itemReference position)),
    ("s", .seq [.literal (.whole 0), .reference ⟨.root, [.field "x"]⟩])]

/-- The terminal that reads. -/
def readerSite (position : String) : Site := ⟨[.field "a"], .reference (itemReference position)⟩

/-- The terminal that is read. -/
def itemSite : Site := ⟨[.field "s", .index 1], .reference ⟨.root, [.field "x"]⟩⟩

def listSkeleton : Arena Slot :=
  ⟨#[.leaf none, .leaf (some (.whole 0)), .leaf none, .seq [1, 2], .map [("a", 0), ("s", 3)]]⟩

theorem listReader_reads {position : String} (h : (Key.field position).index? = some 1)
    {t : ValueTree} (hfrom : t.CompiledFrom (listReader position)) :
    t.Reads (readerSite position) itemSite (0, itemReference position) ⟨t.blank, t.root⟩ := by
  have hblank : t.blank = { base := listSkeleton } := congrArg Overlay.mk hfrom.skeleton ▸ rfl
  have hroot : t.root = 4 := hfrom.root
  rw [hroot]
  refine ⟨List.mem_singleton_self _, ⟨[⟨t.blank, 4⟩], ?_, ?_⟩, 2, ?_, ?_⟩
  · rw [hroot, hblank]
    rfl
  · intro scope inner hframes hlen
    obtain rfl := List.eq_nil_of_length_eq_zero hlen
    simp [Scope.frame?, hframes, itemReference]
  · rw [hroot, hblank]
    rfl
  · have hchild : child? t.blank 3 (.field position) = some 2 := by
      rw [hblank]
      simp [child?, get?, listSkeleton, Entry.child?, h]
    have hlist : child? t.blank 4 (.field "s") = some 3 := by
      rw [hblank]
      rfl
    refine Or.inl ⟨[.field "s", .field position], [], rfl, ?_⟩
    simp [reach?, hlist, hchild]

theorem mem_sites_listReader (position : String) :
    readerSite position ∈ (listReader position).sites ∧ itemSite ∈ (listReader position).sites :=
  ⟨List.mem_cons_self, List.mem_cons_of_mem _ List.mem_cons_self⟩

/-- Under its numeral the item comes before the reference to it. -/
theorem waits_iff_spelled_numeral : ∃ t order frame, compile (listReader "1") = .ok t ∧
    t.rootedOrder = .ok order ∧ itemSite.path ≠ (readerSite "1").path ∧
    t.Reads (readerSite "1") itemSite (0, itemReference "1") frame ∧
    Spelled t.blank frame.id (itemReference "1").path ∧
    [itemSite.path, (readerSite "1").path].Sublist order := by
  have hrun : ((compile (listReader "1")).toOption.bind fun t => t.rootedOrder.toOption).isSome =
      true := by decide +kernel
  obtain ⟨order, hrun⟩ := Option.isSome_iff_exists.1 hrun
  obtain ⟨t, hc, ho⟩ := Option.bind_eq_some_iff.1 hrun
  have hc := eq_ok_of_toOption hc
  have ho := eq_ok_of_toOption ho
  have hfrom := compiledFrom_of_compile hc
  have hreads := listReader_reads (by decide +kernel : (Key.field "1").index? = some 1) hfrom
  obtain ⟨hreader, hitem⟩ := mem_sites_listReader "1"
  have hspelled : Spelled t.blank t.root (itemReference "1").path := by
    have hlist : Spelled t.blank 3 [.field "1"] := by
      refine ⟨fun items i hget hi hlt => ?_, fun _ _ => trivial⟩
      have hone : (Key.field "1").index? = some 1 := by decide +kernel
      obtain rfl : 1 = i := Option.some.inj (hone.symm.trans hi)
      rfl
    have hblank : t.blank = { base := listSkeleton } := congrArg Overlay.mk hfrom.skeleton ▸ rfl
    rw [show t.root = 4 from hfrom.root]
    refine ⟨fun items i hget => ?_, fun child hchild => ?_⟩
    · rw [hblank] at hget
      simp [get?, listSkeleton] at hget
    · rw [hblank] at hchild
      obtain rfl : 3 = child := Option.some.inj hchild
      exact hlist
  exact ⟨t, order, _, hc, ho, by decide, hreads, hspelled,
    (waits_iff_spelled hc ho hreader hitem (by decide) hreads).2 hspelled⟩

/-- Under another spelling it comes after the reference, although the walk of the reference leads to
it. -/
theorem not_waits_misspelled : ∃ t order frame, compile (listReader "01") = .ok t ∧
    t.rootedOrder = .ok order ∧ readerSite "01" ∈ (listReader "01").sites ∧
    itemSite ∈ (listReader "01").sites ∧ itemSite.path ≠ (readerSite "01").path ∧
    t.Reads (readerSite "01") itemSite (0, itemReference "01") frame ∧
    ¬ [itemSite.path, (readerSite "01").path].Sublist order := by
  have hrun : ((compile (listReader "01")).toOption.bind fun t => t.rootedOrder.toOption) =
      some [[.field "a"], [.field "s", .index 1]] := by decide +kernel
  obtain ⟨t, hc, ho⟩ := Option.bind_eq_some_iff.1 hrun
  have hc := eq_ok_of_toOption hc
  have ho := eq_ok_of_toOption ho
  have hreads := listReader_reads (by decide +kernel : (Key.field "01").index? = some 1)
    (compiledFrom_of_compile hc)
  obtain ⟨hreader, hitem⟩ := mem_sites_listReader "01"
  exact ⟨t, _, _, hc, ho, hreader, hitem, by decide, hreads, by decide⟩

end ValueTree

end ValueResolution
