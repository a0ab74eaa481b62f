/-
# `SeerDb.Storage.Stored` — page trees in the data file

`stored dev pmt` is the page map behind a sparse tree.  `Laid dev pmt T` says that
a mapping table lays the page tree `T` out in the data file.

`Writing` relates the engine before a flush with the
engine after some of its page writes: each written page is read back through the
new table, all others as before, and no held slot was touched.
-/
import SeerDb.Storage.Slots
import SeerDb.Btree.OrderedMap

namespace SeerDb

open Lib List

/-! ## Reading through a table -/

/-- The page that a table leads to. -/
def stored (dev : Device) (pmt : PMT) (p : PageId) : Option Node :=
  (readNodeFromPmt dev pmt p).toOption

theorem stored_eq_some {dev : Device} {pmt : PMT} {p : PageId} {m : Node} :
    stored dev pmt p = some m ↔ readNodeFromPmt dev pmt p = .ok m := by
  rw [stored]
  cases readNodeFromPmt dev pmt p with
  | error e => simp [Except.toOption]
  | ok n => simp [Except.toOption]

section Read

variable {dev : Device} {pmt : PMT}

theorem stored_eq (hpmt : pmt.WF) (hin : ∀ o ∈ pmt.offsets, InFile dev.size o) (p : PageId) :
    stored dev pmt p = (pmt.get p).bind fun m => dev.page m.offset := by
  rw [stored, readNodeFromPmt]
  cases hg : pmt.get p with
  | none => rfl
  | some m =>
    obtain ⟨h1, h2⟩ := hin m.offset (hpmt.mem_offsets.mpr ⟨p, m, hg, rfl⟩)
    simp only [ne_eq, hpmt.file hg, not_true_eq_false, if_false, Nat.mod_eq_zero_of_dvd h1,
      gt_iff_lt, if_neg (not_lt.mpr h2), Option.bind_some]
    cases dev.page m.offset with
    | none => rfl
    | some n => rfl

/-- Only the mapped slots matter. -/
theorem stored_congr {dev' : Device} (hpmt : pmt.WF) (hin : ∀ o ∈ pmt.offsets, InFile dev.size o)
    (hin' : ∀ o ∈ pmt.offsets, InFile dev'.size o)
    (hpage : ∀ o ∈ pmt.offsets, dev'.page o = dev.page o) (p : PageId) :
    stored dev' pmt p = stored dev pmt p := by
  rw [stored_eq hpmt hin, stored_eq hpmt hin']
  cases hg : pmt.get p with
  | none => rfl
  | some m => exact hpage _ (hpmt.mem_offsets.mpr ⟨p, m, hg, rfl⟩)

/-- One page written out of place. -/
theorem stored_placed (hpmt : pmt.WF) (hin : ∀ o ∈ pmt.offsets, InFile dev.size o) {o : Nat}
    (ho : o ∉ pmt.offsets) (ha : pageSize ∣ o) (p : PageId) (n : Node) (q : PageId) :
    stored (dev.writePage o n) (pmt.insert p 0 o) q = if q =
      p then some n else stored dev pmt q := by
  have hnone : ∀ q m, pmt.get q = some m → m.offset = o → q = p := fun q m hq hm =>
    absurd (hpmt.mem_offsets.mpr ⟨q, m, hq, hm⟩) ho
  have hin' : ∀ x ∈ (pmt.insert p 0 o).offsets, InFile (dev.writePage o n).size x := by
    intro x hx
    rcases (hpmt.mem_offsets_insert hnone).mp hx with rfl | ⟨q, m, -, hq, rfl⟩
    · exact ⟨ha, le_max_right _ _⟩
    · exact (hin _ (hpmt.mem_offsets.mpr ⟨q, m, hq, rfl⟩)).mono (le_max_left _ _)
  rw [stored_eq (hpmt.insert hnone) hin', stored_eq hpmt hin, hpmt.get_insert]
  split
  · simp [Device.writePage]
  cases hg : pmt.get q with
  | none => rfl
  | some m =>
    have hne : m.offset ≠ o := fun he => ho (hpmt.mem_offsets.mpr ⟨q, m, hg, he⟩)
    simp [Device.writePage, hne]

end Read

/-! ## Writing the dirty pages -/

namespace StorageEngine

/-- A page as a flush writes it. -/
def stamp (generation : Nat) (n : Node) : Node := { n with writeGeneration := generation }

/-- One turn of `write_dirty_pages`: the file, the engine and the slot that was retired. -/
def writeDirtyPage (e : StorageEngine) (dev : Device) (pageId : PageId) :
    Device × StorageEngine × List Nat :=
  match e.btree.node pageId with
  | none => (dev, e, [])
  | some node => (dev.writePage e.nextSlot (stamp e.writeGeneration node), e.placed pageId,
      ((e.pmt.get pageId).map PageMapping.offset).toList)

def writeDirtyPages (e : StorageEngine) (dev : Device) :
    List PageId → Device × StorageEngine × List Nat
  | [] => (dev, e, [])
  | pageId :: rest =>
    let (dev, e, retired) := e.writeDirtyPage dev pageId
    let (dev, e, others) := e.writeDirtyPages dev rest
    (dev, e, retired ++ others)

/-- What `flush_after_reclamation_refresh` does once capacity is granted. -/
def flush (e : StorageEngine) (dev : Device) : Device × StorageEngine :=
  let (dev, e, retired) := e.writeDirtyPages dev e.btree.dirtyPageIds
  (dev.sync, { e with pendingReclaimedOffsets := retired })

/-- The two engines differ only in where the pages are. -/
structure SameButPlaces (e₀ e : StorageEngine) : Prop where
  btree : e.btree = e₀.btree
  writeGeneration : e.writeGeneration = e₀.writeGeneration
  pending : e.pendingReclaimedOffsets = e₀.pendingReclaimedOffsets
  reserved : e.rebuildReservedOffsets = e₀.rebuildReservedOffsets
  lazyRoot : e.lazyRoot = e₀.lazyRoot
  reclamationDirty : e.reclamationDirty = e₀.reclamationDirty

/-- From `e₀` and `dev₀`, the pages `done` have been written. -/
structure Writing (held : List Nat) (e₀ : StorageEngine) (dev₀ : Device) (done : List PageId)
    (e : StorageEngine) (dev : Device) (out : List Nat) : Prop where
  slots : SlotInv e dev.size out held
  rest : SameButPlaces e₀ e
  stored_eq : ∀ q, stored dev e.pmt q =
    if q ∈ done then (e₀.btree.node q).map (stamp e₀.writeGeneration) else stored dev₀ e₀.pmt q
  domain : ∀ q, (e.pmt.get q).isSome ↔ q ∈ done ∨ (e₀.pmt.get q).isSome
  kept : ∀ o ∈ held, dev.page o = dev₀.page o
  size_le : dev₀.size ≤ dev.size
  written : ∀ o ∈ dev.unsynced, (o ∈ dev₀.unsynced ∧ dev.page o = dev₀.page o) ∨
    (o ∉ held ∧ (dev.page o).map Node.writeGeneration = some e₀.writeGeneration)

variable {held out done : List Nat} {e₀ e : StorageEngine} {dev₀ dev : Device}

theorem Writing.start (h : SlotInv e dev.size [] held) : Writing held e dev [] e dev [] where
  slots := h
  rest := ⟨rfl, rfl, rfl, rfl, rfl, rfl⟩
  stored_eq q := by simp
  domain q := by simp
  kept _ _ := rfl
  size_le := le_rfl
  written o ho := .inl ⟨ho, rfl⟩

/-- **One page.** -/
theorem Writing.step (h : Writing held e₀ dev₀ done e dev out) {p : PageId} {n : Node}
    (hn : e.btree.node p = some n) :
    Writing held e₀ dev₀ (done ++ [p]) (e.placed p)
      (dev.writePage e.nextSlot (stamp e.writeGeneration n))
      (((e.pmt.get p).map PageMapping.offset).toList ++ out) := by
  obtain ⟨halign, hmapped, hheld, -, -, -⟩ := h.slots.nextSlot
  have hgen := h.rest.writeGeneration
  have hnode : e₀.btree.node p = some n := by rw [← h.rest.btree, hn]
  refine ⟨h.slots.placed p, ?_, ?_, ?_, ?_, ?_, ?_⟩
  · exact ⟨h.rest.btree, hgen, h.rest.pending, h.rest.reserved, h.rest.lazyRoot,
      h.rest.reclamationDirty⟩
  · intro q
    have hst := stored_placed h.slots.pmt h.slots.mapped hmapped halign p
      (stamp e.writeGeneration n) q
    refine hst.trans ?_
    by_cases hq : q = p
    · subst hq
      rw [if_pos rfl, if_pos (by simp), hnode, hgen]
      rfl
    · have hmem : q ∈ done ++ [p] ↔ q ∈ done := by simp [hq]
      rw [if_neg hq, h.stored_eq q]
      simp only [hmem]
  · intro q
    show ((e.pmt.insert p 0 e.nextSlot).get q).isSome ↔ _
    rw [h.slots.pmt.get_insert]
    by_cases hq : q = p
    · subst hq
      simp
    · rw [if_neg hq, h.domain q]
      simp [hq]
  · intro o ho
    have hne : o ≠ e.nextSlot := fun he => hheld (he ▸ ho)
    rw [← h.kept o ho]
    simp [Device.writePage, hne]
  · exact h.size_le.trans (le_max_left _ _)
  · intro o ho
    by_cases hne : o = e.nextSlot
    · subst hne
      exact .inr ⟨hheld, by simp [Device.writePage, stamp, hgen]⟩
    have hpage : (dev.writePage e.nextSlot (stamp e.writeGeneration n)).page o = dev.page o := by
      simp [Device.writePage, hne]
    rw [hpage]
    exact h.written o ((mem_cons.mp ho).resolve_left hne)

/-- **All pages of a list.** -/
theorem Writing.pages : ∀ (ps : List PageId) {done : List Nat} {e : StorageEngine} {dev : Device}
    {out : List Nat}, Writing held e₀ dev₀ done e dev out → (∀ p ∈ ps, e₀.btree.node p ≠ none) →
    ∃ e' dev' retired out', e.writeDirtyPages dev ps = (dev', e', retired) ∧
      Writing held e₀ dev₀ (done ++ ps) e' dev' out' ∧ (∀ o ∈ retired, o ∈ out') ∧
        ∀ o ∈ out, o ∈ out'
  | [], done, e, dev, out, h, _ => ⟨e, dev, [], out, rfl, by simpa using h, by simp, fun _ ho => ho⟩
  | p :: ps, done, e, dev, out, h, hload => by
    obtain ⟨n, hn⟩ := Option.ne_none_iff_exists'.mp (hload p (.head _))
    rw [← h.rest.btree] at hn
    obtain ⟨e', dev', retired, out', h1, h2, h3, h4⟩ := Writing.pages ps (h.step hn)
      fun q hq => hload q (.tail _ hq)
    refine ⟨e', dev', ((e.pmt.get p).map PageMapping.offset).toList ++ retired, out', ?_,
      by simpa using h2, ?_, fun o ho => h4 o (mem_append_right _ ho)⟩
    · rw [writeDirtyPages, writeDirtyPage, hn]
      simp only
      rw [h1]
    · intro o ho
      rcases mem_append.mp ho with ho | ho
      · exact h4 o (mem_append_left _ ho)
      · exact h3 o ho

end StorageEngine

/-! ## Trees laid out in the file -/

/-- The table `pmt` lays the page tree `T` out in the data file. -/
structure Laid (dev : Device) (pmt : PMT) (T : Lib.Tree Bytes Value) : Prop where
  wf : pmt.WF
  inside : ∀ o ∈ pmt.offsets, InFile dev.size o
  domain : ∀ p, (pmt.get p).isSome ↔ p < T.next
  shape : ∀ p, (stored dev pmt p).map Node.body = T.store p
  hints : ∀ p m, stored dev pmt p = some m → m.parentId ≠ 0 → BTree.IsInner T.store m.parentId
  limit : T.next ≤ u32Max + 1

section Laid

variable {dev : Device} {pmt : PMT} {T : Lib.Tree Bytes Value} {es : List (Bytes × Value)}

/-- The mapped pages, in order. -/
theorem Laid.keys (h : Laid dev pmt T) : pmt.mappings.map Prod.fst = List.range T.next := by
  have hs : (pmt.mappings.map Prod.fst).Pairwise (· < ·) := pairwise_map.mpr h.wf.sorted
  have hmem : ∀ p, p ∈ pmt.mappings.map Prod.fst ↔ p ∈ List.range T.next := by
    intro p
    rw [mem_range, ← h.domain p, Option.isSome_iff_exists, mem_map]
    constructor
    · rintro ⟨⟨q, m⟩, hm, rfl⟩
      exact ⟨m, (get_eq_some_iff h.wf.sorted).mpr hm⟩
    · rintro ⟨m, hm⟩
      exact ⟨(p, m), (get_eq_some_iff h.wf.sorted).mp hm, rfl⟩
  have hperm : (pmt.mappings.map Prod.fst).Perm (List.range T.next) :=
    (perm_ext_iff_of_nodup (hs.imp fun hlt => hlt.ne) nodup_range).mpr hmem
  exact hperm.eq_of_pairwise' hs pairwise_lt_range

theorem Laid.maxPageId (h : Laid dev pmt T) (hpos : 0 < T.next) :
    pmt.maxPageId = some (T.next - 1) := by
  rw [PMT.maxPageId, ← List.getLast?_map, h.keys, List.getLast?_range, if_neg (by omega)]

/-- A page of the tree is read back from the file. -/
theorem Laid.read (h : Laid dev pmt T) {p : Nat} {b : Page Bytes Value} (hp : T.store p = some b) :
    ∃ m, readNodeFromPmt dev pmt p = .ok m ∧ m.body = b := by
  have := h.shape p
  rw [hp] at this
  obtain ⟨m, hm, hb⟩ := Option.map_eq_some_iff.mp this
  exact ⟨m, stored_eq_some.mp hm, hb⟩

theorem node_fromSparse (len : Nat) (root : PageId) (allocator : PageAllocator) (p : PageId) :
    (BTree.fromSparse len root allocator).node p = none := by
  rw [BTree.node, BTree.fromSparse, List.getElem?_replicate]
  split <;> rfl

/-- A tree opened lazily: nothing loaded, everything behind it. -/
theorem Laid.sparse (h : Laid dev pmt T) (hT : T.Holds Node.layout es) :
    BTree.Tracks (stored dev pmt) False (.fromSparse T.next T.root ⟨T.next, []⟩)
      T.store T.next T.root := by
  have hview : ∀ p, (BTree.fromSparse T.next T.root ⟨T.next, []⟩).view (stored dev pmt) p
      = stored dev pmt p := fun p => by rw [BTree.view, node_fromSparse, Option.none_or]
  refine ⟨⟨fun p => by rw [hview, h.shape], rfl, rfl, by simp [BTree.fromSparse],
    h.limit, hT.unused,
    fun p m hm => h.hints p m (hview p ▸ hm), fun p m hm => ?_, by simp [BTree.fromSparse]⟩, rfl,
    False.elim⟩
  rw [node_fromSparse] at hm
  cases hm

theorem readNodes_eq (page : PageId → Except Error Node) : ∀ ids : List PageId,
    (∀ id ∈ ids, ∃ n, page id = .ok n) → ∃ nodes, StorageEngine.readNodes page ids = .ok nodes ∧
      nodes.map some = ids.map fun id => (page id).toOption
  | [], _ => ⟨[], rfl, rfl⟩
  | id :: ids, h => by
    obtain ⟨n, hn⟩ := h id (.head _)
    obtain ⟨nodes, h1, h2⟩ := readNodes_eq page ids fun q hq => h q (mem_cons_of_mem id hq)
    refine ⟨n :: nodes, by rw [StorageEngine.readNodes, hn]; simp only [h1], ?_⟩
    rw [map_cons, map_cons, hn, h2]
    rfl

theorem readNodes_forall₂ {page : PageId → Except Error Node} :
    ∀ {ids : List PageId} {nodes : List Node},
    StorageEngine.readNodes page ids = .ok nodes →
      List.Forall₂ (fun id n => page id = .ok n) ids nodes
  | [], nodes, h => by
    cases h
    exact .nil
  | id :: ids, nodes, h => by
    rw [StorageEngine.readNodes] at h
    split at h
    · cases h
    rename_i n hn
    split at h
    · cases h
    · rename_i ns hns
      cases h
      exact .cons hn (readNodes_forall₂ hns)

/-- A materialized tree: everything loaded, nothing dirty. -/
theorem Laid.materialized (h : Laid dev pmt T) (hT : T.Holds Node.layout es) :
    ∃ nodes, StorageEngine.readNodes (readNodeFromPmt dev pmt) (List.range T.next) = .ok nodes ∧
      BTree.Tracks (stored dev pmt) True (.fromNodes nodes T.root ⟨T.next, []⟩)
        T.store T.next T.root := by
  have hlive : ∀ p, p < T.next → ∃ b, T.store p = some b := fun p hp =>
    Option.ne_none_iff_exists'.mp (hT.live hp)
  obtain ⟨nodes, hread, hnodes⟩ := readNodes_eq (readNodeFromPmt dev pmt)
    (List.range T.next) fun p hp => by
      obtain ⟨b, hb⟩ := hlive p (mem_range.mp hp)
      obtain ⟨m, hm, -⟩ := h.read hb
      exact ⟨m, hm⟩
  have hnone : ∀ p, T.next ≤ p → stored dev pmt p = none := by
    intro p hp
    have := h.shape p
    rw [hT.unused p hp] at this
    simpa using this
  have hnode : ∀ p, (BTree.fromNodes nodes T.root ⟨T.next, []⟩).node p = stored dev pmt p := by
    intro p
    show ((nodes.map some)[p]?).join = stored dev pmt p
    rw [hnodes, List.getElem?_map]
    rcases Nat.lt_or_ge p T.next with hlt | hge
    · rw [List.getElem?_range hlt]
      rfl
    · rw [List.getElem?_eq_none (by simpa using hge), hnone p hge]
      rfl
  have hview : ∀ p, (BTree.fromNodes nodes T.root ⟨T.next, []⟩).view (stored dev pmt) p
      = stored dev pmt p := fun p => by
    rw [BTree.view, hnode]
    cases stored dev pmt p <;> rfl
  have hlen : nodes.length = T.next := by
    have := congrArg List.length hnodes
    simpa using this
  refine ⟨nodes, hread, ⟨fun p => by rw [hview, h.shape], rfl, rfl, by simp [BTree.fromNodes, hlen],
    h.limit, hT.unused, fun p m hm => h.hints p m (hview p ▸ hm), fun p m hm _ => ?_,
    by simp [BTree.fromNodes]⟩, rfl, fun _ p hp => ?_⟩
  · rw [hnode] at hm
    rw [hm]
    rfl
  · rw [hnode]
    intro hnone
    have := h.shape p
    rw [hnone] at this
    exact hp this.symm

end Laid

/-! ## Loading pages behind a tree -/

namespace BTree

/-- `t'` is `t` with more pages loaded. -/
structure Loads (bg : Nat → Option Node) (t t' : BTree) : Prop where
  root : t'.root = t.root
  dirty : t'.dirtyPages = t.dirtyPages
  allocator : t'.pageAllocator = t.pageAllocator
  len : t'.nodes.length = t.nodes.length
  node : ∀ p, t'.node p = t.node p ∨ (t.node p = none ∧ t'.node p = bg p)

section Loads

variable {bg : Nat → Option Node} {t t' t'' : BTree} {S : Store Bytes Value}
  {n root : Nat} {full : Prop}

theorem Loads.refl (t : BTree) : Loads bg t t := ⟨rfl, rfl, rfl, rfl, fun _ => .inl rfl⟩

theorem Loads.trans (h : Loads bg t t') (h' : Loads bg t' t'') : Loads bg t t'' where
  root := h'.root.trans h.root
  dirty := h'.dirty.trans h.dirty
  allocator := h'.allocator.trans h.allocator
  len := h'.len.trans h.len
  node p := by
    rcases h.node p with h1 | ⟨h1, h2⟩
    · rw [← h1]
      exact h'.node p
    · rcases h'.node p with h3 | ⟨-, h3⟩
      · exact .inr ⟨h1, h3.trans h2⟩
      · exact .inr ⟨h1, h3⟩

theorem Loads.of_node (h : Loads bg t t') {p : Nat} (hp : t.node p ≠ none) : t'.node p = t.node p :=
  (h.node p).resolve_right fun hn => hp hn.1

theorem Loads.view (h : Loads bg t t') (p : Nat) : t'.view bg p = t.view bg p := by
  rw [BTree.view, BTree.view]
  rcases h.node p with h1 | ⟨h1, h2⟩
  · rw [h1]
  · rw [h1, h2]
    cases bg p <;> rfl

theorem Loads.tracks (h : Loads bg t t') (ht : Tracks bg full t S n root) :
    Tracks bg full t' S n root := by
  refine ⟨⟨fun p => by rw [h.view, ht.sim.shape], by rw [h.allocator, ht.sim.next],
    by rw [h.allocator, ht.sim.free], by rw [h.len, ht.sim.len], ht.sim.limit, ht.sim.unused,
    fun p m hm => ht.sim.hints p m (h.view p ▸ hm), ?_, ?_⟩, by rw [h.root, ht.root_eq], ?_⟩
  · intro p m hm hp
    rcases h.node p with h1 | ⟨-, h2⟩
    · exact ht.sim.clean p m (h1 ▸ hm) (h.dirty ▸ hp)
    · rw [← h2, hm]
      rfl
  · intro p hp
    rw [h.dirty] at hp
    rw [h.of_node (ht.sim.loaded p hp)]
    exact ht.sim.loaded p hp
  · intro hf p hp
    have := ht.full_of hf p hp
    rwa [h.of_node this]

/-- `add_node` of a page that is not loaded. -/
theorem loads_addNode (ht : Sim bg t S n) {p : Nat} {m : Node} (hp : p < n)
    (hnone : t.node p = none) (hbg : bg p = some m) : Loads bg t (t.addNode m p) ∧
    (t.addNode m p).node p = some m := by
  have hlen : t.growTo (p + 1) = t := by
    have := ht.len
    have hz : p + 1 - t.nodes.length = 0 := by omega
    rw [growTo, hz]
    simp
  have hdirty : p ∉ t.dirtyPages := fun hd => ht.loaded p hd hnone
  have hplen : p < t.nodes.length := by rw [ht.len]; exact hp
  rw [addNode, hlen]
  refine ⟨⟨rfl, erase_of_not_mem hdirty, rfl, by simp, fun q => ?_⟩, by simp [node, hplen]⟩
  by_cases hq : q = p
  · subst hq
    exact .inr ⟨hnone, by simp [node, hplen, hbg]⟩
  · exact .inl (by simp [node, List.getElem?_set_ne (Ne.symm hq)])

end Loads

end BTree

namespace StorageEngine

variable {dev : Device} {pmt : PMT} {k : Bytes} {S : Store Bytes Value} {n : Nat}

/-- **`prepare_mutation` loads the path**, whatever was loaded before. -/
theorem loadPath_loads : ∀ {fuel height : Nat} {lo : WithBot Bytes} {hi : WithTop Bytes} {p : Nat}
    {es : List (Bytes × Value)} {ps visited : List Nat} {t : BTree},
    BTree.Sim (stored dev pmt) t S n → Rep Node.layout S height lo hi p es ps → InRange lo hi k →
    ps.Nodup → (∀ a ∈ visited, a ∉ ps) → (∀ q ∈ ps, q ≤ u32Max) → height < fuel →
    ∃ t', loadPath dev pmt k fuel p visited t = .ok t' ∧ BTree.Loads (stored dev pmt) t t' ∧
      ∀ j q, OnPath S k height p j q → t'.node q ≠ none
  | 0, _, _, _, _, _, _, _, _, _, _, _, _, _, _, hlt => absurd hlt (Nat.not_lt_zero _)
  | fuel + 1, height, lo, hi, p, es, ps, visited, t, ht, hr, hk, hn, hv, hlim, hlt => by
    have hpv : p ∉ visited := fun hm => hv p hm hr.root_mem
    -- the page itself, from memory or from the file
    obtain ⟨m, t₁, hpage, hloads, hm⟩ : ∃ m t₁, loadPage dev pmt t p = .ok (m, t₁) ∧
        BTree.Loads (stored dev pmt) t t₁ ∧ t₁.node p = some m := by
      rw [loadPage]
      cases hm : t.node p with
      | some m => exact ⟨m, t, rfl, .refl t, hm⟩
      | none =>
        obtain ⟨b, hb⟩ := Option.ne_none_iff_exists'.mp (hr.page_ne_none p hr.root_mem)
        have hview := ht.shape p
        rw [BTree.view, hm, Option.none_or, hb] at hview
        obtain ⟨m, hst, -⟩ := Option.map_eq_some_iff.mp hview
        have hpn : p < n := by
          by_contra hge
          rw [ht.unused p (not_lt.mp hge)] at hb
          cases hb
        obtain ⟨hloads, hnode⟩ := BTree.loads_addNode ht hpn hm hst
        exact ⟨m, t.addNode m p, by rw [stored_eq_some.mp hst], hloads, hnode⟩
    have hbody : S p = some m.body := by
      rw [← ht.shape p, ← hloads.view, BTree.view_of_node hm]
      rfl
    have htracks : BTree.Tracks (stored dev pmt) False t S n t.root := ⟨ht, rfl, False.elim⟩
    have hsim := (hloads.tracks htracks).sim
    rw [loadPath, if_neg hpv, hpage]
    simp only
    cases height with
    | zero =>
      rw [hr.1] at hbody
      rw [if_pos (Node.isLeaf_leaf (Option.some.inj hbody).symm)]
      refine ⟨t₁, rfl, hloads, fun j q hq => ?_⟩
      have hj : j = 0 := by have := hq.le; omega
      subst hj
      rw [← OnPath.root.unique hq, hm]
      simp
    | succ height =>
      obtain ⟨l, cs, q, h1, -, h3, rfl⟩ := hr
      rw [h1] at hbody
      have hb := (Option.some.inj hbody).symm
      obtain ⟨hpq, hnq⟩ := nodup_cons.mp hn
      obtain ⟨lo', hi', left, mid, right, pl, pm, pr, -, rfl, hc, H⟩ :=
        h3.route_spec (fun _ _ _ _ _ hp => Rep.bindings hp) hk
      have hmem : ∀ x ∈ pm, x ∈ pl ++ pm ++ pr := fun x hx => by simp [hx]
      have hlimc : ¬ route k l cs > u32Max := not_lt.mpr (hlim _ (.tail _ (hmem _ hc.root_mem)))
      have hnm : pm.Nodup :=
        hnq.sublist ((sublist_append_right _ _).trans (sublist_append_left _ _))
      have hvm : ∀ a ∈ p :: visited, a ∉ pm := by
        intro a ha hx
        rcases mem_cons.mp ha with rfl | ha
        · exact hpq (hmem a hx)
        · exact hv a ha (.tail _ (hmem a hx))
      obtain ⟨t₂, hok, hloads₂, hpath⟩ := loadPath_loads hsim hc H.range hnm hvm
        (fun x hx => hlim x (.tail _ (hmem x hx))) (show height < fuel by omega)
      refine ⟨t₂, ?_, hloads.trans hloads₂, fun j x hx => ?_⟩
      · simp only [Node.isLeaf_inner hb, Node.childForKey_eq hb h3.seps.1, Bool.false_eq_true,
          if_false, if_neg hlimc, hok]
      · rcases Nat.eq_or_lt_of_le hx.le with rfl | hjlt
        · rw [← OnPath.root.unique hx, hloads₂.of_node (by simp [hm]), hm]
          simp
        · exact hpath j x ((OnPath.child .root h1).onward hx (by omega))

/-! ## Engines -/

/-- The resident tree, over the file, is the page tree `T`. -/
structure Hosts (e : StorageEngine) (dev : Device) (T : Lib.Tree Bytes Value) : Prop where
  tracks : BTree.Tracks (stored dev e.pmt) (e.lazyRoot = none) e.btree T.store T.next T.root
  mapped : ∀ p, (e.pmt.get p).isSome → p < T.next

/-- What opening finds: nothing published yet, or a tree laid out in the file. -/
def Published (dev : Device) (pmt : PMT) (T : Lib.Tree Bytes Value) : Prop :=
  (pmt.mappings = [] ∧ T = BTree.emptyTree) ∨ Laid dev pmt T

variable {e : StorageEngine} {T : Lib.Tree Bytes Value} {es : List (Bytes × Value)}
  {held : List Nat}

theorem Hosts.prepareMutation (h : e.Hosts dev T) (hT : T.Holds Node.layout es) (k : Bytes) :
    ∃ t, e.prepareMutation dev k = .ok { e with btree := t } ∧
      BTree.Loads (stored dev e.pmt) e.btree t ∧ BTree.Loaded t T k := by
  rw [StorageEngine.prepareMutation]
  split
  · rename_i hl
    exact ⟨e.btree, rfl, .refl _, BTree.Full.loaded hT (h.tracks.full_of hl)⟩
  obtain ⟨ps, hrep, hn, hmem, -⟩ := hT.pages
  have hlim : ∀ q ∈ ps, q ≤ u32Max := by
    intro q hq
    have h1 := hmem.mp hq
    have h2 := h.tracks.sim.limit
    omega
  have hfuel : T.height < e.btree.nodes.length + e.pmt.searchFuel := by
    have h1 := hT.height_lt
    have h2 := h.tracks.sim.len
    omega
  obtain ⟨t, h1, h2, h3⟩ := loadPath_loads h.tracks.sim hrep (inRange_full k) hn
    (forall_mem_nil _) hlim hfuel
  rw [h.tracks.root_eq]
  exact ⟨t, by simp only [h1], h2, h3⟩

/-- An engine over more loaded pages. -/
theorem Hosts.loads {t : BTree} (h : e.Hosts dev T)
    (hl : BTree.Loads (stored dev e.pmt) e.btree t) :
    ({ e with btree := t } : StorageEngine).Hosts dev T :=
  ⟨hl.tracks h.tracks, h.mapped⟩

theorem published_slots (h : Published dev pmt T) :
    pmt.WF ∧ ∀ o ∈ pmt.offsets, InFile dev.size o := by
  rcases h with ⟨h, -⟩ | h
  · have hoff : pmt.offsets = [] := by rw [PMT.offsets, h]; rfl
    have hget : ∀ p, pmt.get p = none := fun p => by rw [PMT.get, h]; rfl
    refine ⟨⟨by rw [h]; exact sorted_nil, ?_, ?_⟩, by simp [hoff]⟩
    · intro p q m m' hp
      rw [hget] at hp
      cases hp
    · intro p m hp
      rw [hget] at hp
      cases hp
  · exact ⟨h.wf, h.inside⟩

/-- Only the mapped slots of the file matter to what is published. -/
theorem Published.congr {dev' : Device} (h : Published dev pmt T)
    (hpage : ∀ o ∈ pmt.offsets, InFile dev'.size o ∧ dev'.page o = dev.page o) :
    Published dev' pmt T ∧ ∀ p, stored dev' pmt p = stored dev pmt p := by
  obtain ⟨hwf, hin⟩ := published_slots h
  have heq := stored_congr hwf hin (fun o ho => (hpage o ho).1) fun o ho => (hpage o ho).2
  refine ⟨h.imp_right fun hl => ?_, heq⟩
  exact ⟨hwf, fun o ho => (hpage o ho).1, hl.domain, fun p => by rw [heq, hl.shape],
    fun p m hm => hl.hints p m (by rwa [← heq]), hl.limit⟩

theorem stored_of_empty (h : pmt.mappings = []) : stored dev pmt = fun _ => none := by
  funext p
  rw [stored, readNodeFromPmt, PMT.get, h]
  rfl

/-- **Opening**: the engine a published generation is loaded into. -/
theorem load_hosts (h : Published dev pmt T) (hT : T.Holds Node.layout es) (keep : List Nat)
    (ha : pageSize ∣ dev.size) (hheld : ∀ o ∈ held, InFile dev.size o ∧
      (o ∈ keep ∨ o ∈ pmt.offsets)) :
    ∃ e, (new pmt ⟨T.next, []⟩).loadFromManifest dev keep T.root = .ok e ∧ e.Hosts dev T ∧
      SlotInv e dev.size [] held ∧ e.pmt = pmt ∧ e.pendingReclaimedOffsets = [] ∧
      e.rebuildReservedOffsets = [] ∧ e.writeGeneration = 0 ∧
      ∀ r, e.lazyRoot = some r → r = T.root ∧ Laid dev pmt T := by
  obtain ⟨hwf, hin⟩ := published_slots h
  rcases h with ⟨hempty, rfl⟩ | h
  · have hmax : pmt.maxPageId = none := by rw [PMT.maxPageId, hempty]; rfl
    have hoff : pmt.offsets = [] := by rw [PMT.offsets, hempty]; rfl
    have hload : (new pmt ⟨1, []⟩).loadFromManifest dev keep 0 = .ok { new pmt ⟨1, []⟩ with
        nextOffset := dev.size } := by
      rw [loadFromManifest, show (new pmt ⟨1, []⟩).pmt.maxPageId = none from hmax]
      rfl
    refine ⟨_, hload, ⟨?_, fun p hp => ?_⟩, ⟨hwf, rfl, ha, hin, by simp [new], by simp [new],
      fun o ho => (hheld o ho).1, by simp [new], by simp [new], by simp [new], by simp [new]⟩,
      rfl, rfl, rfl, rfl, fun r hr => by cases hr⟩
    · have htr := BTree.tracks_new
      show BTree.Tracks (stored dev pmt) (none = none) BTree.new BTree.emptyStore 1 0
      rw [stored_of_empty hempty]
      exact ⟨htr.sim, htr.root_eq, fun _ => htr.full_of trivial⟩
    · have hget : (new pmt ⟨1, []⟩).pmt.get p = none := by
        show pmt.get p = none
        rw [PMT.get, hempty]
        rfl
      rw [show ({ new pmt ⟨1, []⟩ with nextOffset := dev.size } : StorageEngine).pmt.get p
        = none from hget] at hp
      cases hp
  · have hpos : 0 < T.next := (Nat.zero_le _).trans_lt hT.height_lt
    have hroot : T.root < T.next := hT.onPath_lt (k := []) .root
    have hlim := h.limit
    have hcont : pmt.contains T.root = true := (h.domain T.root).mpr hroot
    have hok : ¬ (T.root > u32Max ∨ T.root > T.next - 1 ∨
        ¬ (new pmt ⟨T.next, []⟩).pmt.contains T.root = true) := by
      rintro (h1 | h1 | h1)
      · omega
      · omega
      · exact h1 hcont
    have hload : (new pmt ⟨T.next, []⟩).loadFromManifest dev keep T.root =
      .ok { new pmt ⟨T.next, []⟩ with
        btree := .fromSparse T.next T.root ⟨T.next, []⟩
        nextOffset := dev.size
        freeOffsets := dev.slots.filter fun o => o ∉ pmt.offsets ∧ o ∉ keep
        lazyRoot := some T.root } := by
      have hsub : T.next - 1 + 1 = T.next := by omega
      rw [loadFromManifest, show (new pmt ⟨T.next, []⟩).pmt.maxPageId = some (T.next - 1) from
        h.maxPageId hpos]
      simp only
      rw [if_neg hok, hsub]
      rfl
    have hslots : SlotInv ((new pmt ⟨T.next, []⟩).refreshReclamation dev keep) dev.size [] _ :=
      .refreshed hwf ha hin (by simp [new]) rfl (fun o ho => (hheld o ho).1)
        (fun o ho => (hheld o ho).2.imp_right .inl)
    refine ⟨_, hload, ⟨?_, fun p hp => (h.domain p).mp hp⟩,
      hslots.congr rfl rfl ?_ rfl rfl, rfl, rfl,
      rfl, rfl, fun r hr => ⟨(Option.some.inj hr).symm, h⟩⟩
    · have htr := h.sparse hT
      exact ⟨htr.sim, htr.root_eq, fun hn => by cases hn⟩
    · simp [refreshReclamation, new]

/-- Reading everything in. -/
theorem Hosts.materialize (h : e.Hosts dev T) (hT : T.Holds Node.layout es)
    (hlazy : ∀ r, e.lazyRoot = some r → r = T.root ∧ Laid dev e.pmt T) :
    ∃ t, e.ensureMaterialized dev = .ok { e with btree := t, lazyRoot := none } ∧
      ({ e with btree := t, lazyRoot := none } : StorageEngine).Hosts dev T ∧
      ((e.lazyRoot = none ∧ t = e.btree) ∨ t.dirtyPages = []) := by
  rw [ensureMaterialized]
  split
  · rename_i hl
    have htr := h.tracks
    exact ⟨e.btree, by rw [← hl], ⟨⟨htr.sim, htr.root_eq, fun _ => htr.full_of hl⟩, h.mapped⟩,
      .inl ⟨hl, rfl⟩⟩
  rename_i r hl
  obtain ⟨rfl, hlaid⟩ := hlazy r hl
  obtain ⟨nodes, hread, htr⟩ := hlaid.materialized hT
  have hpos : 0 < T.next := (Nat.zero_le _).trans_lt hT.height_lt
  have halloc : e.btree.pageAllocator = ⟨T.next, []⟩ := by
    rw [← h.tracks.sim.next, ← h.tracks.sim.free]
  have hsub : T.next - 1 + 1 = T.next := by omega
  rw [hlaid.maxPageId hpos, halloc]
  simp only [hsub]
  rw [show e.readNode dev = readNodeFromPmt dev e.pmt from rfl, hread]
  exact ⟨_, rfl, ⟨⟨htr.sim, htr.root_eq, fun _ => htr.full_of trivial⟩, h.mapped⟩, .inr rfl⟩

end StorageEngine

/-! ## What a flush leaves -/

/-- The dirty pages are now behind the tree. -/
theorem BTree.Tracks.written {bg bg' : Nat → Option Node} {full : Prop} {t : BTree}
    {S : Store Bytes Value} {n root generation : Nat} (h : Tracks bg full t S n root)
    (hbg : ∀ p, bg' p = if p ∈ t.dirtyPages then
      (t.node p).map (StorageEngine.stamp generation) else bg p) :
    Tracks bg' full t.clearDirty S n root ∧ (∀ p, (bg' p).map Node.body = S p) ∧
      ∀ p m, bg' p = some m → m.parentId ≠ 0 → IsInner S m.parentId := by
  -- a loaded page is behind the tree, with its body and its hint
  have hclean : ∀ p m, t.node p = some m →
      (bg' p).map (fun b => (b.body, b.parentId)) = some (m.body, m.parentId) := by
    intro p m hm
    rw [hbg]
    split
    · rw [hm]
      rfl
    · rename_i hd
      exact h.sim.clean p m hm hd
  have hview : ∀ p, t.node p = none → bg' p = t.view bg p := by
    intro p hp
    have hd : p ∉ t.dirtyPages := fun hd => h.sim.loaded p hd hp
    rw [hbg, if_neg hd, BTree.view, hp, Option.none_or]
  have hshape : ∀ p, (bg' p).map Node.body = S p := by
    intro p
    cases hm : t.node p with
    | none => rw [hview p hm, h.sim.shape]
    | some m =>
      obtain ⟨b, hb, heq⟩ := Option.map_eq_some_iff.mp (hclean p m hm)
      rw [hb, h.sim.body hm, Option.map_some, (Prod.mk.inj heq).1]
  have hhints : ∀ p m, bg' p = some m → m.parentId ≠ 0 → IsInner S m.parentId := by
    intro p m hm hz
    cases hn : t.node p with
    | none => exact h.sim.hints p m (hview p hn ▸ hm) hz
    | some x =>
      have := hclean p x hn
      rw [hm] at this
      have hpar := (Prod.mk.inj (Option.some.inj this)).2
      rw [hpar] at hz ⊢
      exact h.sim.hints p x (view_of_node hn) hz
  refine ⟨⟨⟨fun p => ?_, h.sim.next, h.sim.free, h.sim.len, h.sim.limit, h.sim.unused,
    fun p m hm hz => ?_, fun p m hm _ => hclean p m hm, by simp [clearDirty]⟩,
      h.root_eq, h.full_of⟩,
    hshape, hhints⟩
  · show ((t.node p).or (bg' p)).map Node.body = S p
    cases hm : t.node p with
    | none => rw [Option.none_or, hshape]
    | some m => rw [Option.some_or, h.sim.body hm]; rfl
  · have hm' : (t.node p).or (bg' p) = some m := hm
    cases hn : t.node p with
    | none => exact hhints p m (by rwa [hn, Option.none_or] at hm') hz
    | some x =>
      rw [hn, Option.some_or] at hm'
      cases hm'
      exact h.sim.hints p m (view_of_node hn) hz

namespace StorageEngine

variable {dev dev' : Device} {e e' : StorageEngine} {T : Lib.Tree Bytes Value}
  {es : List (Bytes × Value)} {held out : List Nat}

/-- **After the last dirty page the tree is laid out under the new table.** -/
theorem Writing.flushed {ps : List PageId} (hw : Writing held e dev ps e' dev' out)
    (hps : ∀ p, p ∈ ps ↔ p ∈ e.btree.dirtyPages) (h : e.Hosts dev T) (hT : T.Holds Node.layout es) :
    Laid dev' e'.pmt T ∧ BTree.Tracks (stored dev' e'.pmt) (e.lazyRoot = none) e.btree.clearDirty
      T.store T.next T.root := by
  have hbg : ∀ p, stored dev' e'.pmt p = if p ∈ e.btree.dirtyPages then
      (e.btree.node p).map (stamp e.writeGeneration) else stored dev e.pmt p := by
    intro p
    rw [hw.stored_eq p]
    simp only [hps]
  obtain ⟨htr, hshape, hhints⟩ := h.tracks.written hbg
  refine ⟨⟨hw.slots.pmt, hw.slots.mapped, fun p => ?_, hshape, hhints, h.tracks.sim.limit⟩, htr⟩
  rw [hw.domain p, hps]
  constructor
  · rintro (hd | hm)
    · obtain ⟨m, hm⟩ := Option.ne_none_iff_exists'.mp (h.tracks.sim.loaded p hd)
      exact h.tracks.sim.lt hm
    · exact h.mapped p hm
  · intro hp
    rw [or_iff_not_imp_left]
    intro hd
    -- a page that is not dirty was behind the tree
    have hlive := hT.live hp
    rw [← hshape p, hbg p, if_neg hd, Ne, Option.map_eq_none_iff] at hlive
    obtain ⟨m, hm⟩ := Option.ne_none_iff_exists'.mp hlive
    rw [stored_eq_some, readNodeFromPmt] at hm
    cases hg : e.pmt.get p with
    | none => rw [hg] at hm; cases hm
    | some x => rfl

theorem mem_dirtyPageIds {t : BTree} {p : PageId} : p ∈ t.dirtyPageIds ↔ p ∈ t.dirtyPages :=
  (perm_insertionSort _ _).mem_iff

/-- What `flush` leaves: the tree in the file under a new table, every held slot as it was. -/
theorem Hosts.flush (h : e.Hosts dev T) (hT : T.Holds Node.layout es)
    (hs : SlotInv e dev.size [] held) :
    Laid (e.flush dev).1 (e.flush dev).2.pmt T ∧
      SlotInv (e.flush dev).2 (e.flush dev).1.size [] held ∧
      BTree.Tracks (stored (e.flush dev).1 (e.flush dev).2.pmt) (e.lazyRoot = none)
        (e.flush dev).2.btree.clearDirty T.store T.next T.root ∧
      (e.flush dev).2.rebuildReservedOffsets = e.rebuildReservedOffsets ∧
      (∀ o ∈ held, (e.flush dev).1.page o = dev.page o) ∧ dev.size ≤ (e.flush dev).1.size := by
  have hload : ∀ p ∈ e.btree.dirtyPageIds, e.btree.node p ≠ none := fun p hp =>
    h.tracks.sim.loaded p (mem_dirtyPageIds.mp hp)
  obtain ⟨e', dev', retired, out', heq, hw, hret, -⟩ := (Writing.start hs).pages _ hload
  obtain ⟨hlaid, htr⟩ := hw.flushed (fun p => by simp [mem_dirtyPageIds]) h hT
  have hflush : e.flush dev = (dev'.sync, { e' with pendingReclaimedOffsets := retired }) := by
    rw [StorageEngine.flush, heq]
  rw [hflush]
  refine ⟨⟨hlaid.wf, hlaid.inside, hlaid.domain, hlaid.shape, hlaid.hints, hlaid.limit⟩,
    hw.slots.retire hret, ?_, hw.rest.reserved, hw.kept, hw.size_le⟩
  show BTree.Tracks (stored dev' e'.pmt) _ e'.btree.clearDirty _ _ _
  rw [hw.rest.btree]
  exact htr

/-- A completed generation is served from its pages in the file. -/
theorem complete_hosts (hlaid : Laid dev e.pmt T) (hT : T.Holds Node.layout es) {full : Prop}
    (htr : BTree.Tracks (stored dev e.pmt) full e.btree.clearDirty T.store T.next T.root)
    (keep : List Nat) : (e.completeGeneration keep).Hosts dev T ∧
      (e.completeGeneration keep).lazyRoot = some T.root := by
  have hpos : 0 < T.next := (Nat.zero_le _).trans_lt hT.height_lt
  have hne : e.pmt.isEmpty = false := by
    by_contra hempty
    have := (hlaid.domain 0).mpr hpos
    rw [PMT.get_of_isEmpty (by simpa using hempty)] at this
    cases this
  have hroot : e.btree.root = T.root := htr.root_eq
  have hlazy : (e.completeGeneration keep).lazyRoot = some T.root := by
    rw [completeGeneration, hne, hroot]
    rfl
  refine ⟨⟨⟨htr.sim, htr.root_eq, fun hn => ?_⟩, fun p hp => (hlaid.domain p).mp hp⟩, hlazy⟩
  rw [hlazy] at hn
  cases hn

end StorageEngine

end SeerDb
