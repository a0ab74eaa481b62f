/-
# `SeerDb.Storage.Overlay` — reads of a partly loaded tree

After a lazy open a read has two sources: the pages that mutations loaded and
changed, and the published pages in the file.  A lookup goes through the loaded
tree and starts over in the published one when it misses a page; a scan lays the
entries of the dirty leaves over the published ones.

A leaf that is not dirty is a published page (`Tracks.published_leaf`), and a mutation
never unbinds a key, so a key whose leaf is published has the published binding
(`Overlaid.get_eq`).  Above a changed page every page is loaded (`Overlaid.covered`): a
lookup that misses a page was not on its way to a changed leaf.
-/
import SeerDb.Storage.Session
import SeerDb.Storage.LazySpec
import SeerDb.Btree.Resident
import SeerDb.Lib.TreeFrame

namespace SeerDb

open Lib List

/-! ## Descents that miss a page -/

namespace BTree

variable {bg : Nat → Option Node} {full : Prop} {t : BTree} {T : Lib.Tree Bytes Value}
  {es : List (Bytes × Value)} {k : Bytes}

/-- A lookup on a tree that is not too deep: the binding, or a page that is not loaded. -/
theorem lookup_partly (hT : T.Holds Node.layout es) (h : Tracks bg full t T.store T.next T.root)
    (hlt : T.height < maxRoutingDepth) :
    t.lookup k = .ok (reported (get k es)) ∨
      (∃ id, t.lookup k = .error (.missingPage id)) ∧ ¬ Loaded t T k := by
  rcases findLeaf_cases hT h with ⟨leaf, hleaf, -⟩ | ⟨j, q, hq, hnone, hmiss⟩ | ⟨hle, -⟩
  · exact .inl (lookup_ok hT h hleaf)
  · right
    exact ⟨⟨q, by rw [lookup, hmiss]⟩, fun hload => hload j q hq hnone⟩
  · exact absurd hlt (not_lt.mpr hle)

end BTree

/-! ## Published leaves -/

/-- Trees laid out in the file can be read there. -/
theorem Laid.legible {dev : Device} {pmt : PMT} {T : Lib.Tree Bytes Value}
    {es : List (Bytes × Value)} (h : Laid dev pmt T) (hT : T.Holds Node.layout es) :
    Legible (readNodeFromPmt dev pmt) T.store T.height T.root pmt.searchFuel ∧
      entriesUnder T.store T.height T.root = es := by
  obtain ⟨ps, hr, hnd, hmem, hcount⟩ := hT.pages
  obtain rfl := hr.pages_eq
  have hlen : pmt.mappings.length = T.next := by
    have := congrArg List.length h.keys
    simpa using this
  have hreads : Reads (readNodeFromPmt dev pmt) T.store := by
    refine ⟨fun p m hm => ?_, fun p b hb => h.read hb⟩
    rw [← h.shape, stored_eq_some.mpr hm]
    rfl
  have hleaves := (leavesUnder_sublist_pagesOf (S := T.store) T.height T.root).length_le
  refine ⟨⟨hr.bounded, ⟨hreads, hr.isTree.1, hnd, ?_, ?_, ?_⟩, ?_⟩, ?_⟩
  · intro q hq
    have h1 := hmem.mp hq
    have h2 := h.limit
    omega
  · intro q hq
    rw [hmem]
    by_contra hge
    exact hq (hT.unused q (not_lt.mp hge))
  · rw [PMT.searchFuel, hlen]
    exact hT.height_lt.trans (Nat.lt_succ_self _)
  · rw [PMT.searchFuel, hlen]
    omega
  · rw [entriesUnder, hr.isTree.2, ← hr.bindings_eq]

namespace StorageEngine

/-- A lazily opened engine after some calls: `T₀` is what is published, `T` what the calls
made of it. -/
structure Overlaid (dev : Device) (e : StorageEngine) (T : Lib.Tree Bytes Value)
    (es : List (Bytes × Value)) (T₀ : Lib.Tree Bytes Value)
    (es₀ : List (Bytes × Value)) : Prop where
  holds : T.Holds Node.layout es
  hosts : e.Hosts dev T
  holds₀ : T₀.Holds Node.layout es₀
  laid : Laid dev e.pmt T₀
  lazyRoot : e.lazyRoot = some T₀.root
  grows : ∀ k, get k es = none → get k es₀ = none
  covered : ∀ q p, Below T.store q p → T.store p ≠ T₀.store p → e.btree.node q ≠ none

section Overlaid

variable {dev : Device} {e : StorageEngine} {T T₀ : Lib.Tree Bytes Value}
  {es es₀ : List (Bytes × Value)} {r : Reply} {c : Call}

/-- A page that is not dirty is as published. -/
theorem Overlaid.published (h : Overlaid dev e T es T₀ es₀) {p : Nat}
    (hp : p ∉ e.btree.dirtyPages) : T.store p = T₀.store p := by
  rw [← h.hosts.tracks.sim.clean_shape hp, h.laid.shape]

/-- A key whose leaf is as published has the published binding. -/
theorem Overlaid.get_eq (h : Overlaid dev e T es T₀ es₀) {k : Bytes} {leaf : Nat}
    {mid : List (Bytes × Value)} (hl : BTree.LeafOf T es k leaf mid)
    (hpub : T.store leaf = T₀.store leaf) : get k es = get k es₀ := by
  cases hk : get k es with
  | none => exact (h.grows k hk).symm
  | some v =>
    obtain ⟨left, right, rfl, hleft, hright⟩ := hl.around
    have hmid : (k, v) ∈ mid := by
      rw [get_append_of_ne_right fun x hx => (hright x hx).ne',
        get_append_of_ne_left fun x hx => (hleft x hx).ne] at hk
      exact mem_of_get hk
    have hmem := h.holds₀.leaf_bindings (hpub ▸ hl.page) (k, v) hmid
    exact ((get_eq_some_iff h.holds₀.sorted).mpr hmem).symm

/-- The leaf of a key. -/
theorem Overlaid.leaf (h : Overlaid dev e T es T₀ es₀) (k : Bytes) :
    ∃ leaf mid, BTree.LeafOf T es k leaf mid := by
  obtain ⟨ps, hr, -⟩ := h.holds.rep
  obtain ⟨leaf, hpath⟩ := hr.exists_leaf k
  obtain ⟨mid, hl⟩ := BTree.leafOf h.holds hpath
  exact ⟨leaf, mid, hl⟩

/-! ## Lookups -/

/-- A lookup that misses a page was not on its way to a changed leaf. -/
theorem Overlaid.get_of_missing (h : Overlaid dev e T es T₀ es₀) {k : Bytes}
    (hmiss : ¬ BTree.Loaded e.btree T k) : get k es = get k es₀ := by
  obtain ⟨leaf, mid, hl⟩ := h.leaf k
  refine h.get_eq hl (by_contra fun hne => hmiss ?_)
  intro j q hq
  exact h.covered q leaf (below_of_onPath (hq.onward hl.path (Nat.zero_le j))) hne

theorem Overlaid.lazy_lookup (h : Overlaid dev e T es T₀ es₀) (k : Bytes) :
    Lazy.lookup (e.readNode dev) e.pmt.searchFuel T₀.root k = .ok (BTree.reported (get k es₀)) := by
  obtain ⟨hleg, hentries⟩ := h.laid.legible h.holds₀
  have := hleg.lookup_eq k
  rwa [hentries] at this

theorem Overlaid.lookup_eq (h : Overlaid dev e T es T₀ es₀) (hlt : T.height < maxRoutingDepth)
    (k : Bytes) : e.lookup dev k = .ok (BTree.reported (get k es)) := by
  rw [StorageEngine.lookup, h.lazyRoot]
  simp only [h.lazy_lookup k]
  split
  · -- nothing is dirty: the published tree answers
    rename_i hclean
    obtain ⟨leaf, mid, hl⟩ := h.leaf k
    have hno : leaf ∉ e.btree.dirtyPages := fun hm => by
      have := mem_dirtyPageIds.mpr hm
      rw [isEmpty_iff.mp hclean] at this
      cases this
    rw [h.get_eq hl (h.published hno)]
  · rcases BTree.lookup_partly h.holds h.hosts.tracks hlt with hok | ⟨⟨id, hmiss⟩, hload⟩
    · rw [hok]
    · rw [hmiss, h.get_of_missing hload]

/-! ## Scans -/

/-- A value that a scan shows. -/
def isLive : LookupResult → Bool
  | .found _ | .blob _ => true
  | .deleted | .notFound => false

theorem isLive_toLookup {v : Value} : isLive v.toLookup = true ↔ v ≠ .tombstone := by
  cases v <;> simp [isLive, Value.toLookup]

theorem overlayEntry_eq (merged : List (Bytes × LookupResult)) (k : Bytes) (r : LookupResult) :
    overlayEntry merged (k, r) = if isLive r then upsert k r merged else erase k merged := by
  cases r <;> rfl

/-- Entries laid over a list: where they mention a key they decide, and elsewhere the list
stays.  All entries of a key carry the same value. -/
theorem foldl_overlayEntry {F : Bytes → LookupResult} : ∀ {ds base : List (Bytes × LookupResult)},
    (∀ x ∈ ds, x.2 = F x.1) → Sorted base →
    Sorted (ds.foldl overlayEntry base) ∧ ∀ k r, (k, r) ∈ ds.foldl overlayEntry base ↔
      if k ∈ ds.map Prod.fst then r = F k ∧ isLive r = true else (k, r) ∈ base
  | [], base, _, hs => ⟨hs, fun k r => by simp⟩
  | (a, x) :: ds, base, hF, hs => by
    obtain ⟨hx, hF⟩ := forall_mem_cons.mp hF
    have hstep : Sorted (overlayEntry base (a, x)) ∧ ∀ k r, (k, r) ∈ overlayEntry base (a, x) ↔
        if k = a then r = F k ∧ isLive r = true else (k, r) ∈ base := by
      rw [overlayEntry_eq]
      cases hlive : isLive x with
      | true =>
        refine ⟨sorted_upsert hs, fun k r => ?_⟩
        rw [if_pos rfl, mem_upsert hs]
        by_cases hk : k = a
        · subst hk
          have hF' : x = F k := hx
          simp only [Prod.mk.injEq, true_and, ne_eq, not_true_eq_false, and_false, or_false,
            if_true, ← hF']
          exact ⟨fun hr => ⟨hr, hr ▸ hlive⟩, fun hr => hr.1⟩
        · simp [hk]
      | false =>
        refine ⟨sorted_erase hs, fun k r => ?_⟩
        rw [if_neg (by simp), mem_erase]
        by_cases hk : k = a
        · subst hk
          have hF' : x = F k := hx
          simp only [ne_eq, not_true_eq_false, and_false, if_true, ← hF', false_iff]
          rintro ⟨rfl, hr⟩
          rw [hlive] at hr
          cases hr
        · simp [hk]
    obtain ⟨hsorted, hmem⟩ := foldl_overlayEntry hF hstep.1
    refine ⟨hsorted, fun k r => ?_⟩
    rw [foldl_cons, hmem, hstep.2]
    by_cases hds : k ∈ ds.map Prod.fst
    · simp [hds]
    · by_cases hk : k = a <;> simp [hds, hk]

/-- The entries of the dirty leaves in the range. -/
theorem dirtyLeafLoop_ok {t : BTree} (start end_ : Bytes) : ∀ {ids : List PageId},
    (∀ p ∈ ids, t.node p ≠ none) → ∃ ds, t.dirtyLeafLoop start end_ ids = .ok ds ∧
      ∀ x, x ∈ ds ↔ ∃ p ∈ ids, ∃ m, t.node p = some m ∧ x ∈ BTree.leafEntriesIn m start end_
  | [], _ => ⟨[], rfl, by simp⟩
  | p :: ids, h => by
    obtain ⟨m, hm⟩ := Option.ne_none_iff_exists'.mp (h p (.head _))
    obtain ⟨ds, hds, hmem⟩ := dirtyLeafLoop_ok start end_ fun q hq => h q (.tail _ hq)
    refine ⟨BTree.leafEntriesIn m start end_ ++
      ds, by rw [BTree.dirtyLeafLoop, hm]; simp only [hds], ?_⟩
    intro x
    rw [mem_append, hmem]
    simp [hm]

theorem mem_leafEntriesIn {m : Node} {start end_ k : Bytes} {r : LookupResult} :
    (k, r) ∈ BTree.leafEntriesIn m start end_ ↔ ∃ mid v, m.body = .leaf mid ∧ (k, v) ∈ mid ∧
      start ≤ k ∧ k < end_ ∧ r = v.toLookup := by
  rw [BTree.leafEntriesIn]
  split
  · rename_i mid hb
    simp only [between, mem_map, mem_filter, decide_eq_true_eq, Prod.mk.injEq]
    constructor
    · rintro ⟨⟨k', v⟩, ⟨hmem, h1, h2⟩, rfl, rfl⟩
      exact ⟨mid, v, hb, hmem, h1, h2, rfl⟩
    · rintro ⟨mid', v, hb', hmem, h1, h2, rfl⟩
      rw [hb] at hb'
      cases hb'
      exact ⟨(k, v), ⟨hmem, h1, h2⟩, rfl, rfl⟩
  · rename_i hb
    simp [hb]

/-- What the dirty leaves say: for a key they mention, its binding; and they mention every
bound key of the range whose leaf is dirty. -/
theorem Overlaid.dirtyLeafEntries (h : Overlaid dev e T es T₀ es₀) (start end_ : Bytes) :
    ∃ ds, e.btree.dirtyLeafEntries start end_ = .ok ds ∧
      (∀ k r, (k, r) ∈ ds → start ≤ k ∧ k < end_ ∧ ∃ v, get k es = some v ∧ r = v.toLookup) ∧
      ∀ k leaf mid v, BTree.LeafOf T es k leaf mid → leaf ∈ e.btree.dirtyPages → start ≤ k →
        k < end_ → get k es = some v → (k, v.toLookup) ∈ ds := by
  have hsim := h.hosts.tracks.sim
  obtain ⟨ds, hds, hmem⟩ := @dirtyLeafLoop_ok e.btree start end_ e.btree.dirtyPageIds fun p hp =>
    hsim.loaded p (mem_dirtyPageIds.mp hp)
  refine ⟨ds, hds, ?_, ?_⟩
  · intro k r hkr
    obtain ⟨p, -, m, hm, hx⟩ := (hmem _).mp hkr
    obtain ⟨mid, v, hb, hv, h1, h2, rfl⟩ := mem_leafEntriesIn.mp hx
    have hpage : T.store p = some (.leaf mid) := by rw [hsim.body hm, hb]
    have hes := h.holds.leaf_bindings hpage (k, v) hv
    exact ⟨h1, h2, v, (get_eq_some_iff h.holds.sorted).mpr hes, rfl⟩
  · intro k leaf mid v hl hdirty h1 h2 hk
    obtain ⟨m, hm, hb⟩ := hsim.node_of_loaded (hsim.loaded leaf hdirty) hl.page
    obtain ⟨left, right, rfl, hleft, hright⟩ := hl.around
    rw [get_append_of_ne_right fun x hx => (hright x hx).ne',
      get_append_of_ne_left fun x hx => (hleft x hx).ne] at hk
    refine (hmem _).mpr ⟨leaf, mem_dirtyPageIds.mpr hdirty, m, hm, ?_⟩
    exact mem_leafEntriesIn.mpr ⟨mid, v, hb, mem_of_get hk, h1, h2, rfl⟩

theorem Overlaid.lazy_range (h : Overlaid dev e T es T₀ es₀) (start end_ : Bytes) :
    Lazy.range (e.readNode dev) e.pmt.searchFuel T₀.root start end_ =
      .ok (visible start end_ es₀) := by
  obtain ⟨hleg, hentries⟩ := h.laid.legible h.holds₀
  have := hleg.range_eq start end_
  rwa [hentries, Lazy.scanned_eq_visible h.holds₀.sorted (by simp)] at this

theorem Overlaid.range_eq (h : Overlaid dev e T es T₀ es₀) (start end_ : Bytes) :
    e.range dev start end_ = .ok (visible start end_ es) := by
  have hpub : ∀ k, (∀ leaf mid, BTree.LeafOf T es k leaf mid → leaf ∉ e.btree.dirtyPages) →
      get k es = get k es₀ := by
    intro k hk
    obtain ⟨leaf, mid, hl⟩ := h.leaf k
    exact h.get_eq hl (h.published (hk leaf mid hl))
  rw [StorageEngine.range, h.lazyRoot]
  simp only [h.lazy_range start end_]
  split
  · rename_i hclean
    have hno : ∀ p, p ∉ e.btree.dirtyPages := fun p hp => by
      have := mem_dirtyPageIds.mpr hp
      rw [isEmpty_iff.mp hclean] at this
      cases this
    rw [eq_of_get h.holds.sorted h.holds₀.sorted fun k => hpub k fun leaf _ _ => hno leaf]
  obtain ⟨ds, hds, hsound, hcomplete⟩ := h.dirtyLeafEntries start end_
  obtain ⟨hsorted, hmem⟩ := @foldl_overlayEntry (fun k => BTree.reported (get k es)) ds
    (visible start end_ es₀) (fun x hx => by
      obtain ⟨-, -, v, hv, hr⟩ := hsound x.1 x.2 hx
      rw [hv, hr]
      rfl) (BTree.visible_increasing h.holds₀.sorted start end_)
  simp only [hds, Except.ok.injEq]
  refine eq_of_get hsorted (BTree.visible_increasing h.holds.sorted start end_) fun k => ?_
  ext r
  rw [get_eq_some_iff hsorted, hmem,
    get_eq_some_iff (BTree.visible_increasing h.holds.sorted start end_),
    BTree.mem_visible h.holds.sorted]
  split
  · -- a dirty leaf has the key
    rename_i hk
    obtain ⟨⟨k', r'⟩, hx, rfl⟩ := mem_map.mp hk
    obtain ⟨h1, h2, v, hv, -⟩ := hsound _ _ hx
    simp only [hv, BTree.reported, Option.some.injEq]
    constructor
    · rintro ⟨rfl, hlive⟩
      exact ⟨h1, h2, v, rfl, isLive_toLookup.mp hlive, rfl⟩
    · rintro ⟨-, -, v', rfl, hne, rfl⟩
      exact ⟨rfl, isLive_toLookup.mpr hne⟩
  · rename_i hk
    rw [BTree.mem_visible h.holds₀.sorted]
    refine and_congr_right fun h1 => and_congr_right fun h2 => ?_
    have hget : get k es = get k es₀ := by
      cases hv : get k es with
      | none => exact (h.grows k hv).symm
      | some v =>
        rw [← hv]
        refine hpub k fun leaf mid hl hdirty => hk ?_
        exact mem_map_of_mem (hcomplete k leaf mid v hl hdirty h1 h2 hv)
    rw [hget]

/-! ## Calls -/

/-- A call binds keys and unbinds none. -/
theorem onTree_grows {T' : Lib.Tree Bytes Value} (hT : T.Holds Node.layout es)
    (h : c.onTree T es = some (r, T')) :
    ∃ es', T'.Holds Node.layout es' ∧ ∀ k, get k es' = none → get k es = none := by
  rcases BTree.onTree_put h with rfl | ⟨v, hput⟩
  · exact ⟨es, hT, fun _ hk => hk⟩
  refine ⟨_, Tree.put_holds hT hput, fun k' hk' => ?_⟩
  rw [get_upsert hT.sorted] at hk'
  split at hk'
  · cases hk'
  · exact hk'

/-- Only pages on the path of the call's key change. -/
theorem onTree_below {T' : Lib.Tree Bytes Value} (hT : T.Holds Node.layout es)
    (h : c.onTree T es = some (r, T')) {q p : Nat} (hqn : q < T.next)
    (hq : ∀ j, ¬ OnPath T.store c.key T.height T.root j q) (hp : Below T'.store q p) :
    Below T.store q p ∧ T'.store p = T.store p := by
  rcases BTree.onTree_put h with rfl | ⟨v, hput⟩
  · exact ⟨hp, rfl⟩
  · exact Tree.put_below hT hput hqn hq hp

/-- **One call** on a lazily opened engine. -/
theorem Overlaid.call (h : Overlaid dev e T es T₀ es₀) (hok : (e.call dev c).1 = .ok r) :
    ∃ T' es', Overlaid dev (e.call dev c).2 T' es' T₀ es₀ := by
  obtain ⟨t, -, hloads, hload, heq, hcalled⟩ := h.hosts.call h.holds c
  rw [heq] at hok ⊢
  cases hx : t.call c with
  | mk r' t' =>
    rw [hx] at hok hcalled
    cases r' with
    | error err => cases hok
    | ok a =>
      obtain ⟨-, T', hstep, htr⟩ := hcalled
      obtain ⟨es', hT', hgrows⟩ := onTree_grows h.holds hstep
      have hnext := BTree.onTree_next hstep
      refine ⟨T', es', hT', ⟨htr, fun p hp => (h.hosts.mapped p hp).trans_le hnext⟩, h.holds₀,
        h.laid, h.lazyRoot, fun k hk => h.grows k (hgrows k hk), ?_⟩
      intro q p hbelow hne hq
      -- a page that is not loaded is the published one, before and after
      have hretains : t.node q = none := by
        by_contra hno
        have := BTree.retains_call t c q hno
        rw [hx] at this
        exact this hq
      have hbefore : e.btree.node q = none := by
        by_contra hno
        rw [hloads.of_node hno] at hretains
        exact hno hretains
      have hstore' := htr.sim.shape q
      have hstore := h.hosts.tracks.sim.shape q
      rw [BTree.view, hq, Option.none_or] at hstore'
      rw [BTree.view, hbefore, Option.none_or] at hstore
      have hpub : T₀.store q = T'.store q := by rw [← h.laid.shape q, hstore']
      rcases Nat.lt_or_ge q T.next with hqn | hqn
      · have hoff : ∀ j, ¬ OnPath T.store c.key T.height T.root j q := fun j hj =>
          hload j q hj hretains
        obtain ⟨hbelow', heq'⟩ := onTree_below h.holds hstep hqn hoff hbelow
        exact h.covered q p hbelow' (heq' ▸ hne) hbefore
      -- there is no such page, so nothing lies below it
      have hnone : T'.store q = none := by
        rw [← hstore', hstore]
        exact h.holds.unused q hqn
      rcases hbelow.cases_head with rfl | ⟨c', hc', -⟩
      · exact hne hpub.symm
      · rw [Store.refs, hnone] at hc'
        cases hc'

end Overlaid

/-! ## Sequences of calls -/

/-- The calls of a list, one after the other. -/
def calls (e : StorageEngine) (dev : Device) (cs : List Call) : StorageEngine :=
  cs.foldl (fun e c => (e.call dev c).2) e

/-- Every call of the list is answered with `Ok`. -/
def Succeed (dev : Device) : List Call → StorageEngine → Prop
  | [], _ => True
  | c :: cs, e => (∃ r, (e.call dev c).1 = .ok r) ∧ Succeed dev cs (e.call dev c).2

instance Succeed.decidable (dev : Device) : ∀ cs e, Decidable (Succeed dev cs e)
  | [], _ => isTrue trivial
  | c :: cs, e =>
    have : Decidable (∃ r, (e.call dev c).1 = .ok r) := match (e.call dev c).1 with
      | .ok r => isTrue ⟨r, rfl⟩
      | .error _ => isFalse (by rintro ⟨r, ⟨⟩⟩)
    have : Decidable (Succeed dev cs (e.call dev c).2) := Succeed.decidable dev cs _
    inferInstanceAs (Decidable (_ ∧ _))

/-- The tree the engine stands for is not too deep to be routed through. -/
def Shallow (e : StorageEngine) (dev : Device) : Prop :=
  ∀ T es, T.Holds Node.layout es → e.Hosts dev T → T.height < maxRoutingDepth

section Calls

variable {dev : Device} {e f : StorageEngine} {T T₀ : Lib.Tree Bytes Value}
  {es es₀ : List (Bytes × Value)}

theorem shallow_of_length (h : e.btree.nodes.length ≤ maxRoutingDepth) : e.Shallow dev := by
  intro T es hT hhosts
  have h1 := hT.height_lt
  rw [← hhosts.tracks.sim.len] at h1
  exact h1.trans_le h

/-- Reads of a fully loaded engine. -/
theorem full_reads (hT : T.Holds Node.layout es) (h : f.Hosts dev T) (hl : f.lazyRoot = none)
    (hlt : T.height < maxRoutingDepth) :
    (∀ k, f.lookup dev k = .ok (BTree.reported (get k es))) ∧
      ∀ start end_, f.range dev start end_ = .ok (visible start end_ es) := by
  constructor
  · intro k
    obtain ⟨r, hr⟩ := BTree.lookup_full hT h.tracks hl hlt k
    rw [StorageEngine.lookup, hl]
    simp only [hr, liftBTree]
    rw [BTree.lookup_reported hT h.tracks hr]
  · intro start end_
    have hfind := BTree.findLeaf_full hT h.tracks hl start
    rw [if_pos hlt] at hfind
    obtain ⟨leaf, hleaf⟩ := hfind
    have hscan := BTree.rangeScan_eq hT h.tracks hl start end_
    rw [hleaf] at hscan
    rw [StorageEngine.range, hl]
    simp only [hscan, liftBTree]

/-- What successful calls keep, next to the fully loaded engine. -/
def Abreast (dev : Device) (e f : StorageEngine) : Prop :=
  ∃ T es, Paired dev e f T es ∧ (e.lazyRoot = none ∨ ∃ T₀ es₀, Overlaid dev e T es T₀ es₀)

theorem Abreast.call (h : Abreast dev e f) {c : Call} {r : Reply} (hok : (e.call dev c).1 = .ok r) :
    Abreast dev (e.call dev c).2 (f.call dev c).2 := by
  obtain ⟨T, es, hpair, hside⟩ := h
  obtain ⟨-, T', es', hpair'⟩ := hpair.call_ok hok
  obtain ⟨t, ht⟩ := call_rest e dev c
  rcases hside with hl | ⟨T₀, es₀, hover⟩
  · exact ⟨T', es', hpair', .inl (by rw [ht]; exact hl)⟩
  obtain ⟨T'', es'', hover'⟩ := hover.call hok
  -- the engine stands for one tree only
  obtain rfl := hover'.hosts.unique hpair'.sparse hover'.holds hpair'.holds
  exact ⟨T'', es'', ⟨hover'.holds, hpair'.sparse, hpair'.full, hpair'.loaded⟩,
    .inr ⟨T₀, es₀, hover'⟩⟩

theorem Abreast.calls : ∀ {cs : List Call} {e f : StorageEngine}, Abreast dev e f →
    Succeed dev cs e → Abreast dev (e.calls dev cs) (f.calls dev cs)
  | [], _, _, h, _ => h
  | _ :: _, _, _, h, ⟨⟨_, hok⟩, hrest⟩ => (h.call hok).calls hrest

/-- Both engines read the same. -/
theorem Abreast.reads (h : Abreast dev e f) (hshallow : e.Shallow dev) :
    (∀ k, ∃ r, e.lookup dev k = .ok r ∧ f.lookup dev k = .ok r) ∧
      ∀ start end_, ∃ items, e.range dev start end_ = .ok items ∧
        f.range dev start end_ = .ok items := by
  obtain ⟨T, es, hpair, hside⟩ := h
  have hlt := hshallow T es hpair.holds hpair.sparse
  obtain ⟨hlookup, hrange⟩ := full_reads hpair.holds hpair.full hpair.loaded hlt
  rcases hside with hl | ⟨T₀, es₀, hover⟩
  · obtain ⟨hlookup', hrange'⟩ := full_reads hpair.holds hpair.sparse hl hlt
    exact ⟨fun k => ⟨_, hlookup' k, hlookup k⟩,
      fun start end_ => ⟨_, hrange' start end_, hrange start end_⟩⟩
  · exact ⟨fun k => ⟨_, hover.lookup_eq hlt k, hlookup k⟩,
      fun start end_ => ⟨_, hover.range_eq start end_, hrange start end_⟩⟩

end Calls

end StorageEngine

namespace Session

/-- **Reads of a partly loaded tree are reads of the whole tree.**  Whatever sessions led to
the published tree: after any sequence of calls that succeed on the lazily opened engine,
every lookup and every scan answers there as on the engine that was read in as a whole
before the same calls, as long as the tree is not too deep to be routed through. -/
theorem overlay_reads {s : Session} (h : Reached s) (keep : List Nat) {dev : Device}
    (hd : s.Spares dev) : ∃ e f, { s with device := dev }.opened keep = .ok e ∧
      e.ensureMaterialized dev = .ok f ∧
      ∀ cs, StorageEngine.Succeed dev cs e → (e.calls dev cs).Shallow dev →
        (∀ key, ∃ r, (e.calls dev cs).lookup dev key = .ok r ∧
          (f.calls dev cs).lookup dev key = .ok r) ∧
        ∀ start end_, ∃ items, (e.calls dev cs).range dev start end_ = .ok items ∧
          (f.calls dev cs).range dev start end_ = .ok items := by
  obtain ⟨T, es, T₀, es₀, hinv⟩ := h.good
  obtain ⟨e, heq, hopen, hlaid⟩ := hinv.opened hd keep
  obtain ⟨t, hmat, hfull, -⟩ := hopen.hosts.materialize hopen.holds fun r hr =>
    ⟨hopen.lazyRoot r hr, hlaid r hr⟩
  refine ⟨e, _, heq, hmat, fun cs hcs hshallow => ?_⟩
  refine StorageEngine.Abreast.reads (StorageEngine.Abreast.calls ⟨T₀, es₀, ?_, ?_⟩ hcs) hshallow
  · exact ⟨hopen.holds, hopen.hosts, hfull, rfl⟩
  · cases hl : e.lazyRoot with
    | none => exact .inl rfl
    | some r =>
      obtain rfl := hopen.lazyRoot r hl
      refine .inr ⟨T₀, es₀, hopen.holds, hopen.hosts, hopen.holds, hlaid _ hl,
        hl, fun _ hk => hk, ?_⟩
      exact fun q p _ hne => absurd rfl hne

/-- A root over three leaves. -/
def threeLeaves : Session := (initial.calls (wideUpserts [10, 20, 30, 40])).publish []

/-- The calls succeed on the lazily opened engine and leave few pages. -/
def fewPages (s : Session) (cs : List Call) : Bool := match s.opened [] with
  | .error _ => false
  | .ok e => decide (StorageEngine.Succeed s.device cs e ∧
      (e.calls s.device cs).btree.nodes.length ≤ maxRoutingDepth)

theorem fewPages_spec {s : Session} {cs : List Call} {e : StorageEngine} (h : s.fewPages cs = true)
    (he : s.opened [] = .ok e) :
    StorageEngine.Succeed s.device cs e ∧ (e.calls s.device cs).Shallow s.device := by
  rw [fewPages, he] at h
  obtain ⟨hsucceed, hlength⟩ := of_decide_eq_true h
  exact ⟨hsucceed, StorageEngine.shallow_of_length hlength⟩

/-- Two keys bound next to the first leaf: it splits, and the other leaves are not loaded. -/
theorem overlay_reads_threeLeaves : ∃ e f, threeLeaves.opened [] = .ok e ∧
    e.ensureMaterialized threeLeaves.device = .ok f ∧
    (∀ key, ∃ r, (e.calls threeLeaves.device (wideUpserts [1, 2])).lookup threeLeaves.device key =
      .ok r ∧ (f.calls threeLeaves.device (wideUpserts [1, 2])).lookup threeLeaves.device key =
        .ok r) ∧
    ∀ start end_, ∃ items,
      (e.calls threeLeaves.device (wideUpserts [1, 2])).range threeLeaves.device start end_ =
      .ok items ∧
      (f.calls threeLeaves.device (wideUpserts [1, 2])).range threeLeaves.device start end_ =
        .ok items := by
  have hreached : Reached threeLeaves := .step (Reached.initial.calls _) (.publish _ [])
  have hfew : threeLeaves.fewPages (wideUpserts [1, 2]) = true := by decide +kernel
  generalize threeLeaves = s at hreached hfew ⊢
  obtain ⟨e, f, he, hf, hreads⟩ := overlay_reads hreached [] hreached.spares
  obtain ⟨hsucceed, hshallow⟩ := fewPages_spec hfew he
  exact ⟨e, f, he, hf, hreads _ hsucceed hshallow⟩

end Session

end SeerDb
