/-
# `SeerDb.Storage.Session` — sessions on one data file

What the database does to a storage engine between two opens, with the metadata
log reduced to what its newest frame names: calls, publications, compaction, the rebuild
of a vacuum, and lazy reopens after a crash, which is any change of the file that spares
the published pages.

Every published tree can be opened both ways, and the two engines agree exactly while
the way up is clear (`sparse_agrees_iff`).
-/
import SeerDb.Storage.Relocate
import SeerDb.Storage.Sparse

namespace SeerDb

open Lib

/-- What a publication frame names. -/
structure PublishedRoot where
  pmt : PMT
  rootPageId : PageId
  allocator : PageAllocator

structure Session where
  device : Device
  engine : StorageEngine
  published : PublishedRoot

namespace Session

/-- A new database. -/
def initial : Session := ⟨Device.empty, .new PMT.new .new, ⟨PMT.new, 0, .new⟩⟩

/-- The frame of the engine's tree is durable. -/
def complete (dev : Device) (e : StorageEngine) (keep : List Nat) : Session :=
  ⟨dev, e.completeGeneration keep, ⟨e.pmt, e.btree.root, e.btree.pageAllocator⟩⟩

def publish (s : Session) (keep : List Nat) : Session :=
  let flushed := (s.engine.refreshIfNeeded s.device keep).flush s.device
  complete flushed.1 flushed.2 keep

/-- Opened lazily from what is published. -/
def opened (s : Session) (keep : List Nat) : Except Error StorageEngine :=
  (StorageEngine.new s.published.pmt s.published.allocator).loadFromManifest s.device keep
    s.published.rootPageId

/-- Nothing is pending: the engine serves the published tree. -/
def Settled (s : Session) : Prop :=
  s.engine.btree.dirtyPages = [] ∧ s.engine.btree.root = s.published.rootPageId

/-- A file that a crash may leave. -/
def Spares (s : Session) (dev : Device) : Prop :=
  pageSize ∣ dev.size ∧ ∀ o ∈ s.published.pmt.offsets, InFile dev.size o ∧
    dev.page o = s.device.page o

/-- The pages that compaction moves. -/
def moves (s : Session) (keep : List Nat) (limit : Nat) : List StorageEngine.PageMove :=
  (s.engine.plannedMoves keep).take limit

inductive Step : Session → Session → Prop
  | call (s : Session) (c : Call) : Step s { s with engine := (s.engine.call s.device c).2 }
  | publish (s : Session) (keep : List Nat) : Step s (s.publish keep)
  | refresh (s : Session) (keep : List Nat) :
      Step s { s with engine := s.engine.refreshReclamation s.device keep }
  | materialize {s : Session} {e : StorageEngine} : s.Settled →
      s.engine.ensureMaterialized s.device = .ok e → Step s { s with engine := e }
  | rebuild {s : Session} {e : StorageEngine} (cs : List Call) (keep : List Nat) :
      s.engine.prepareLogicalRebuild s.device (session cs).1 = .ok e →
      Step s ({ s with engine := e }.publish keep)
  | relocate {s : Session} {nodes : List Node} (keep : List Nat) (limit : Nat) : s.Settled →
      StorageEngine.readNodes (s.engine.readNode s.device)
        ((s.moves keep limit).map StorageEngine.PageMove.pageId) = .ok nodes →
      Step s (complete (StorageEngine.copyPages s.device
        (((s.moves keep limit).map StorageEngine.PageMove.target).zip nodes)).sync
        (s.engine.relocated (s.moves keep limit)) keep)
  | truncate {s : Session} {before after : Nat} :
      s.engine.reclaimableTailRange s.device = (before, after) →
      Step s { s with
        device := s.device.truncate after
        engine := { s.engine with
          freeOffsets :=
            s.engine.freeOffsets.take (s.engine.freeOffsets.length - (before - after) / pageSize)
          nextOffset := after } }
  | reopen {s : Session} {dev : Device} {e : StorageEngine} (keep : List Nat) : s.Spares dev →
      { s with device := dev }.opened keep = .ok e → Step s { s with device := dev, engine := e }

/-- Any sequence of sessions. -/
inductive Reached : Session → Prop
  | initial : Reached initial
  | step {s s' : Session} : Reached s → Step s s' → Reached s'

/-! ## The invariant -/

/-- The engine stands for `T`, the published frame for `T₀`. -/
structure Inv (s : Session) (T : Lib.Tree Bytes Value) (es : List (Bytes × Value))
    (T₀ : Lib.Tree Bytes Value) (es₀ : List (Bytes × Value)) : Prop where
  holds : T.Holds Node.layout es
  hosts : s.engine.Hosts s.device T
  slots : s.engine.SlotInv s.device.size [] []
  pending : s.engine.pendingReclaimedOffsets = []
  reserved : s.engine.rebuildReservedOffsets = []
  pmt : s.engine.pmt = s.published.pmt
  lazyRoot : ∀ r, s.engine.lazyRoot = some r → r = T₀.root
  holds₀ : T₀.Holds Node.layout es₀
  published : StorageEngine.Published s.device s.published.pmt T₀
  root : s.published.rootPageId = T₀.root
  allocator : s.published.allocator = ⟨T₀.next, []⟩

def Good (s : Session) : Prop := ∃ T es T₀ es₀, s.Inv T es T₀ es₀

variable {s : Session} {T T₀ : Lib.Tree Bytes Value} {es es₀ : List (Bytes × Value)} {dev : Device}
  {e : StorageEngine} {keep : List Nat}

theorem good_initial : initial.Good := by
  have htr := BTree.tracks_new
  have hempty : (PMT.new).mappings = [] := rfl
  refine ⟨BTree.emptyTree, [], BTree.emptyTree, [], BTree.holds_new,
    ⟨?_, fun p hp => ?_⟩, ?_, rfl, rfl,
    rfl, (fun r hr => by cases hr), BTree.holds_new, .inl ⟨hempty, rfl⟩, rfl, rfl⟩
  · show BTree.Tracks (stored Device.empty PMT.new) (none = none) BTree.new BTree.emptyStore 1 0
    rw [StorageEngine.stored_of_empty hempty]
    exact ⟨htr.sim, htr.root_eq, fun _ => htr.full_of trivial⟩
  · cases hp
  · exact ⟨PMT.wf_new, rfl,
      Nat.dvd_zero _, by simp [initial, StorageEngine.new, PMT.new, PMT.offsets],
      by simp [initial, StorageEngine.new], by simp [initial, StorageEngine.new], by simp,
      by simp [initial, StorageEngine.new], by simp [initial, StorageEngine.new],
      by simp [initial, StorageEngine.new], by simp [initial, StorageEngine.new]⟩

/-- A complete generation, whatever was published before. -/
theorem complete_good {full : Prop}
    (hT : T.Holds Node.layout es) (hlaid : Laid dev e.pmt T) (hs : e.SlotInv dev.size [] [])
    (htr : BTree.Tracks (stored dev e.pmt) full e.btree.clearDirty T.store T.next T.root) :
    (complete dev e keep).Inv T es T es := by
  obtain ⟨hhosts, hlazy⟩ := StorageEngine.complete_hosts hlaid hT htr keep
  have halloc : e.btree.pageAllocator = ⟨T.next, []⟩ := by
    rw [← htr.sim.next, ← htr.sim.free]
    rfl
  refine ⟨hT, hhosts, hs.complete (by simp), rfl, rfl, rfl, fun r hr => ?_, hT, .inr hlaid,
    htr.root_eq, halloc⟩
  have hr' : (e.completeGeneration keep).lazyRoot = some r := hr
  rw [hlazy] at hr'
  exact (Option.some.inj hr').symm

/-- A publication of the engine's tree. -/
theorem publish_good {root : PublishedRoot}
    (hT : T.Holds Node.layout es) (h : e.Hosts dev T) (hs : e.SlotInv dev.size [] [])
    (hpend : e.pendingReclaimedOffsets = []) :
    (Session.publish ⟨dev, e, root⟩ keep).Inv T es T es := by
  have hfresh : (e.refreshIfNeeded dev keep).SlotInv dev.size [] [] :=
    hs.refreshIfNeeded hpend (by simp)
  have hhosts : (e.refreshIfNeeded dev keep).Hosts dev T := by
    rw [StorageEngine.refreshIfNeeded]
    split
    · exact ⟨h.tracks, h.mapped⟩
    · exact h
  obtain ⟨hlaid, hslots, htr, -, -, -⟩ := hhosts.flush hT hfresh
  exact complete_good hT hlaid hslots htr

/-- An engine with nothing pending stands for the published tree. -/
theorem Inv.settled (h : s.Inv T es T₀ es₀) (hs : s.Settled) :
    T = T₀ ∧ Laid s.device s.engine.pmt T := by
  have hview : ∀ p, (stored s.device s.engine.pmt p).map Node.body = T.store p := by
    exact fun p => h.hosts.tracks.sim.clean_shape (by simp [hs.1])
  have hlaid : Laid s.device s.published.pmt T₀ := by
    rcases h.published with ⟨hempty, -⟩ | hlaid
    · -- an empty table holds no root
      obtain ⟨ps, hrep, -⟩ := h.holds.rep
      have hroot := hrep.page_ne_none _ hrep.root_mem
      rw [← hview, h.pmt, StorageEngine.stored_of_empty hempty] at hroot
      exact absurd rfl hroot
    · exact hlaid
  have hstore : T.store = T₀.store := by
    funext p
    rw [← hview, h.pmt, hlaid.shape]
  have hroot : T.root = T₀.root := by
    rw [← h.root, ← hs.2, h.hosts.tracks.root_eq]
  have heq := h.holds.unique h.holds₀ hstore hroot
  exact ⟨heq, by rw [heq, h.pmt]; exact hlaid⟩

/-! ## Every step keeps the invariant -/

theorem Inv.call (h : s.Inv T es T₀ es₀) (c : Call) :
    Good { s with engine := (s.engine.call s.device c).2 } := by
  obtain ⟨T', es', hT', hhosts⟩ := h.hosts.call_hosts h.holds c
  obtain ⟨t, ht⟩ := StorageEngine.call_rest s.engine s.device c
  refine ⟨T', es', T₀, es₀, hT', hhosts, ?_, ?_, ?_, ?_, ?_, h.holds₀, h.published,
    h.root, h.allocator⟩
  all_goals rw [ht]
  · exact h.slots.congr rfl rfl rfl rfl rfl
  · exact h.pending
  · exact h.reserved
  · exact h.pmt
  · exact h.lazyRoot

theorem Inv.materialize (h : s.Inv T es T₀ es₀) (hs : s.Settled)
    (he : s.engine.ensureMaterialized s.device = .ok e) : Good { s with engine := e } := by
  obtain ⟨rfl, hlaid⟩ := h.settled hs
  obtain ⟨t, heq, hhosts, -⟩ := h.hosts.materialize h.holds fun r hr => ⟨h.lazyRoot r hr, hlaid⟩
  rw [he] at heq
  cases heq
  exact ⟨T, es, T, es₀, h.holds, hhosts, h.slots.congr rfl rfl rfl rfl rfl, h.pending, h.reserved,
    h.pmt, (fun r hr => by cases hr), h.holds₀, h.published, h.root, h.allocator⟩

theorem Inv.rebuild (h : s.Inv T es T₀ es₀) {cs : List Call}
    (he : s.engine.prepareLogicalRebuild s.device (session cs).1 = .ok e) :
    Good ({ s with engine := e }.publish keep) := by
  obtain ⟨hslots, -, hpend⟩ := h.slots.rebuild he
  obtain ⟨T', hT', htr⟩ := BTree.session_state cs
  rw [StorageEngine.prepareLogicalRebuild] at he
  split at he
  · cases he
  cases he
  refine ⟨_, _, _, _, publish_good hT' ⟨?_, fun p hp => by cases hp⟩ hslots hpend⟩
  show BTree.Tracks (stored s.device s.engine.pmt.clear) (none = none) _ T'.store T'.next T'.root
  rw [StorageEngine.stored_of_empty rfl]
  exact ⟨htr.sim, htr.root_eq, fun _ => htr.full_of trivial⟩

theorem Inv.relocate (h : s.Inv T es T₀ es₀) (hs : s.Settled) {nodes : List Node}
    {limit : Nat} (hn : StorageEngine.readNodes (s.engine.readNode s.device)
      ((s.moves keep limit).map StorageEngine.PageMove.pageId) = .ok nodes) :
    Good (complete (StorageEngine.copyPages s.device
        (((s.moves keep limit).map StorageEngine.PageMove.target).zip nodes)).sync
        (s.engine.relocated (s.moves keep limit)) keep) := by
  obtain ⟨-, hlaid⟩ := h.settled hs
  have hread := List.forall₂_map_left_iff.mp (readNodes_forall₂ hn)
  have hplan : StorageEngine.Plan s.engine (s.moves keep limit) := h.slots.plan keep limit
  have hmv := hplan.relocated h.slots (hread.imp fun m n hm => stored_eq_some.mpr hm)
  have hstored := funext hmv.stored_eq
  have hclear : s.engine.btree.clearDirty = s.engine.btree := by
    rw [BTree.clearDirty, ← hs.1]
  have htr : BTree.Tracks (stored s.device s.engine.pmt) (s.engine.lazyRoot = none)
      s.engine.btree.clearDirty T.store T.next T.root := by
    rw [hclear]
    exact h.hosts.tracks
  rw [← hstored] at htr
  refine ⟨T, es, T, es, complete_good h.holds ⟨hmv.slots.pmt, hmv.slots.mapped, ?_, ?_, ?_,
    hlaid.limit⟩ hmv.slots htr⟩
  · exact fun p => (hmv.domain p).trans (hlaid.domain p)
  · exact fun p => by rw [hmv.stored_eq, hlaid.shape]
  · exact fun p m hm => hlaid.hints p m (by rwa [← hmv.stored_eq])

theorem Inv.truncate (h : s.Inv T es T₀ es₀) {before after : Nat}
    (hr : s.engine.reclaimableTailRange s.device = (before, after)) :
    Good { s with
        device := s.device.truncate after
        engine := { s.engine with
          freeOffsets :=
            s.engine.freeOffsets.take (s.engine.freeOffsets.length - (before - after) / pageSize)
          nextOffset := after } } := by
  obtain ⟨hslots, -⟩ := h.slots.truncate hr
  have hpage : ∀ o ∈ s.published.pmt.offsets,
      InFile (s.device.truncate after).size o ∧ (s.device.truncate after).page o =
        s.device.page o := by
    intro o ho
    have hin := hslots.mapped o (by rw [← h.pmt] at ho; exact ho)
    exact ⟨hin, by simp [Device.truncate, hin.2]⟩
  obtain ⟨hpub, hst⟩ := h.published.congr hpage
  have hstored : stored (s.device.truncate after) s.engine.pmt = stored s.device s.engine.pmt := by
    rw [h.pmt]
    exact funext hst
  refine ⟨T, es, T₀, es₀, h.holds, ⟨?_, h.hosts.mapped⟩, hslots, h.pending, h.reserved, h.pmt,
    h.lazyRoot, h.holds₀, hpub, h.root, h.allocator⟩
  show BTree.Tracks (stored (s.device.truncate after) s.engine.pmt) _ _ _ _ _
  rw [hstored]
  exact h.hosts.tracks

/-- What is published can be opened. -/
theorem Inv.opened (h : s.Inv T es T₀ es₀) (hd : s.Spares dev) (keep : List Nat) :
    ∃ e, { s with device := dev }.opened keep = .ok e ∧
      { s with device := dev, engine := e }.Inv T₀ es₀ T₀ es₀ ∧
      ∀ r, e.lazyRoot = some r → Laid dev e.pmt T₀ := by
  obtain ⟨hpub, -⟩ := h.published.congr hd.2
  obtain ⟨e, heq, hhosts, hslots, hpmt, hpend, hres, -, hlazy⟩ :=
    StorageEngine.load_hosts hpub h.holds₀ keep hd.1 (List.forall_mem_nil _)
  refine ⟨e, ?_, ⟨h.holds₀, hhosts, hslots, hpend, hres, hpmt, fun r hr => (hlazy r hr).1, h.holds₀,
    hpub, h.root, h.allocator⟩, fun r hr => by rw [hpmt]; exact (hlazy r hr).2⟩
  rw [Session.opened, h.root, h.allocator]
  exact heq

/-- **One step.** -/
theorem Step.good {s s' : Session} (hs : Step s s') (h : s.Good) : s'.Good := by
  obtain ⟨T, es, T₀, es₀, h⟩ := h
  cases hs with
  | call c => exact h.call c
  | publish keep => exact ⟨_, _, _, _, publish_good h.holds h.hosts h.slots h.pending⟩
  | refresh keep =>
    exact ⟨T, es, T₀, es₀, { h with
      hosts := ⟨h.hosts.tracks, h.hosts.mapped⟩
      slots := h.slots.refreshReclamation h.pending (by simp) }⟩
  | materialize hset he => exact h.materialize hset he
  | rebuild cs keep he => exact h.rebuild he
  | relocate keep limit hset hn => exact h.relocate hset hn
  | truncate hr => exact h.truncate hr
  | reopen keep hd he =>
    obtain ⟨e', heq, hinv, -⟩ := h.opened hd keep
    rw [he] at heq
    cases heq
    exact ⟨_, _, _, _, hinv⟩

theorem Reached.good {s : Session} (h : Reached s) : s.Good := by
  induction h with
  | initial => exact good_initial
  | step _ hs ih => exact hs.good ih

/-- The file as it is. -/
theorem Reached.spares {s : Session} (h : Reached s) : s.Spares s.device := by
  obtain ⟨T, es, T₀, es₀, hinv⟩ := h.good
  exact ⟨hinv.slots.aligned, fun o ho => ⟨hinv.slots.mapped o (hinv.pmt ▸ ho), rfl⟩⟩

/-! ## Partly and fully loaded trees -/

/-- **A partly loaded tree against a fully loaded one.**  Whatever sessions led to the
published tree, it opens lazily and it can be read in as a whole; a sequence of calls
gets the same answers and leaves the same map on both exactly if before every call of
the sequence the way back up is clear on the partly loaded side. -/
theorem sparse_agrees_iff {s : Session} (h : Reached s) (keep : List Nat) {dev : Device}
    (hd : s.Spares dev) : ∃ e f, { s with device := dev }.opened keep = .ok e ∧
      e.ensureMaterialized dev = .ok f ∧
      ∀ cs, StorageEngine.Agree dev cs e f ↔ StorageEngine.AlwaysClear dev cs e := by
  obtain ⟨T, es, T₀, es₀, hinv⟩ := h.good
  obtain ⟨e, heq, hopen, hlaid⟩ := hinv.opened hd keep
  obtain ⟨t, hmat, hfull, -⟩ := hopen.hosts.materialize hopen.holds fun r hr =>
    ⟨hopen.lazyRoot r hr, hlaid r hr⟩
  refine ⟨e, _, heq, hmat, fun cs => ?_⟩
  exact StorageEngine.Paired.agree_iff ⟨hopen.holds, hopen.hosts, hfull, rfl⟩ cs

/-! ## A record that went stale -/

def calls (s : Session) (cs : List Call) : Session :=
  cs.foldl (fun s c => { s with engine := (s.engine.call s.device c).2 }) s

theorem Reached.calls {s : Session} (h : Reached s) (cs : List Call) : Reached (s.calls cs) := by
  induction cs generalizing s with
  | nil => exact h
  | cons c cs ih => exact ih (h.step (.call s c))

/-- Closed and opened again, with the file as it is. -/
def reopened (s : Session) : Session := match s.opened [] with
  | .ok e => { s with engine := e }
  | .error _ => s

theorem Reached.reopened {s : Session} (h : Reached s) : Reached s.reopened := by
  rw [Session.reopened]
  cases he : s.opened [] with
  | error err => exact h
  | ok e => exact h.step (.reopen [] h.spares he)

/-- A page holds two entries, or two separators, of this length. -/
def wideKey (b : UInt8) : Bytes := b :: List.replicate 1339 0

def wideUpserts (bs : List UInt8) : List Call := bs.map fun b => .upsert (wideKey b) []

/-- The first session leaves a root over three leaves.  The second splits the leftmost leaf and
the root with it; the rightmost leaf goes under a new page but is not loaded, so it still
records the old root. -/
def staleRecord : Session :=
  ((((initial.calls (wideUpserts [10, 20, 30, 40])).publish []).reopened.calls
    (wideUpserts [1, 2])).publish [])

/-- The answers of the partly and of the fully loaded tree to one call after a reopen. -/
def answers (s : Session) (c : Call) : Option (Option Reply × Option Reply) :=
  match s.opened [] with
  | .error _ => none
  | .ok e => match e.ensureMaterialized s.device with
    | .error _ => none
    | .ok f => some ((e.call s.device c).1.toOption, (f.call s.device c).1.toOption)

theorem staleRecord_reached : Reached staleRecord := by
  refine Reached.step (Reached.calls (Reached.reopened ?_) _) (.publish _ [])
  exact (Reached.initial.calls _).step (.publish _ [])

theorem staleRecord_answers : staleRecord.answers (.upsert (wideKey 50) []) =
    some (none, some .done) := by
  decide +kernel

/-- After a reopen the trees agree on deletions, and the way is not clear for a split of that
leaf. -/
theorem sparse_agrees_staleRecord : staleRecord.published.pmt.mappings.length = 7 ∧
    ∃ e f, staleRecord.opened [] = .ok e ∧ e.ensureMaterialized staleRecord.device = .ok f ∧
      StorageEngine.Agree staleRecord.device [.delete (wideKey 30), .delete (wideKey 1)] e f ∧
      ¬ StorageEngine.AlwaysClear staleRecord.device [.upsert (wideKey 50) []] e := by
  refine ⟨by decide +kernel, ?_⟩
  have hreached := staleRecord_reached
  have hanswers := staleRecord_answers
  generalize staleRecord = s at hreached hanswers ⊢
  obtain ⟨e, f, he, hf, hiff⟩ := sparse_agrees_iff hreached [] hreached.spares
  refine ⟨e, f, he, hf, (hiff _).mpr ?_, fun hclear => ?_⟩
  · -- a deletion binds nothing
    have hdelete : ∀ (e : StorageEngine) k, e.WayClear s.device (.delete k) := by
      intro e k e' T es k' v _ _ _ hb
      cases hb
    exact ⟨hdelete _ _, hdelete _ _, trivial⟩
  · obtain ⟨-, hsame, -⟩ := (hiff _).mpr hclear
    rw [answers, show s.opened [] = .ok e from he] at hanswers
    simp only [hf, hsame, Option.some.injEq, Prod.mk.injEq] at hanswers
    rw [hanswers.1] at hanswers
    cases hanswers.2

/-- Splitting that leaf fails on the partly loaded tree and succeeds on the full one. -/
theorem sparse_upsert_refused : Reached staleRecord ∧
    staleRecord.answers (.upsert (wideKey 50) []) = some (none, some .done) :=
  ⟨staleRecord_reached, staleRecord_answers⟩

end Session

end SeerDb
