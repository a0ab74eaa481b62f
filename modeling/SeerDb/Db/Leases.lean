/-
# `SeerDb.Db.Leases` — who holds a retained root

A client holds a root under the id that it was given: as a plain id, which
`releaseSnapshot` ends, or as a handle of its own, a retained snapshot or a transaction,
which ends with `releaseRoot`.  `retainCommit` returns the root that its commit already
has, whoever holds it, and so two holders may share one root.

A read through an id depends on its manifest, the table that the log selects for it, the
pages in the slots of the table and the blob image beside the database.  All of them are
as they were when the id was returned, in every run in which no handle is ended that
shares its root with a plain id.
-/
import SeerDb.Db.SnapshotIds
import SeerDb.Db.SlotSafety

namespace SeerDb

open Lib List

variable {es' : List Hold}

/-! ## Reading a registered root -/

namespace DB

variable {db db' : DB} {d d' : Disk} {id : SnapshotId} {m : Manifest} {t : PMT}

/-- `getAt` behind its check. -/
def readAt (db : DB) (d : Disk) (snapshotId : SnapshotId) (key : Bytes) :
    Except Error (Option Bytes) :=
  match db.retainedManifest snapshotId with
  | .error e => .error e
  | .ok manifest => match manifestPmt d manifest with
    | .error e => .error e
    | .ok pmt => match lookupAt d.device manifest.rootPageId pmt key with
      | .error e => .error e
      | .ok result => retainedValue d snapshotId result

/-- `rangeAt` behind its check. -/
def readRangeAt (db : DB) (d : Disk) (snapshotId : SnapshotId) (start end_ : Bytes) :
    Except Error (List (Bytes × Bytes)) :=
  match db.retainedManifest snapshotId with
  | .error e => .error e
  | .ok manifest => match manifestPmt d manifest with
    | .error e => .error e
    | .ok pmt => match retainedBlobs d snapshotId with
      | .error e => .error e
      | .ok blobs => match SeerDb.rangeAt d.device manifest.rootPageId pmt start end_ with
        | .error e => .error e
        | .ok entries => scanValues blobs.read (invalidRetainedPointer snapshotId) entries

theorem getAt_eq (h : db.checkReadable = .ok ()) (id : SnapshotId) (key : Bytes) :
    db.getAt d id key = db.readAt d id key := by
  rw [getAt, h]
  rfl

theorem rangeAt_eq (h : db.checkReadable = .ok ()) (id : SnapshotId) (start end_ : Bytes) :
    db.rangeAt d id start end_ = db.readRangeAt d id start end_ := by
  rw [DB.rangeAt, h]
  rfl

theorem retainedBlobs_congr (h : d'.retained.lookup id = d.retained.lookup id) :
    retainedBlobs d' id = retainedBlobs d id := by
  rw [retainedBlobs, retainedBlobs, h]

/-- Handle and directory give the same root, table, pages and image for the id. -/
structure SameRead (id : SnapshotId) (db : DB) (d : Disk) (db' : DB) (d' : Disk) : Prop where
  root : ∃ m t, db.retainedManifest id = .ok m ∧ db'.retainedManifest id = .ok m ∧
    manifestPmt d m = .ok t ∧ manifestPmt d' m = .ok t ∧ readNodeFromPmt d'.device t =
      readNodeFromPmt d.device t
  image : d'.retained.lookup id = d.retained.lookup id

theorem SameRead.readAt (h : SameRead id db d db' d') (key : Bytes) :
    db'.readAt d' id key = db.readAt d id key := by
  obtain ⟨m, t, hm, hm', ht, ht', hnodes⟩ := h.root
  simp only [DB.readAt, hm, hm', ht, ht', lookupAt_congr hnodes, retainedValue,
    retainedBlobs_congr h.image]

theorem SameRead.readRangeAt (h : SameRead id db d db' d') (start end_ : Bytes) :
    db'.readRangeAt d' id start end_ = db.readRangeAt d id start end_ := by
  obtain ⟨m, t, hm, hm', ht, ht', hnodes⟩ := h.root
  simp only [DB.readRangeAt, hm, hm', ht, ht', rangeAt_congr hnodes, retainedBlobs_congr h.image]

end DB

/-! ## Table and pages -/

/-- The durable frames select the table `t` for the manifest. -/
def Selects (m : Manifest) (t : PMT) (d : Disk) : Prop :=
  (m.pmtCheckpointId = 0 ∧ t = PMT.new) ∨
    (m.pmtCheckpointId ≠ 0 ∧ ∃ a n, Resolves (d.frames.take d.durable) m.pmtCheckpointId t a n)

/-- And its slots hold what they held in `dev`. -/
structure Backed (m : Manifest) (t : PMT) (dev : Device) (d : Disk) : Prop where
  selects : Selects m t d
  placed : ∀ o ∈ t.offsets, InFile dev.size o
  pages : Kept t.offsets dev d.device

section

variable {m : Manifest} {t : PMT} {dev : Device} {d d' : Disk}

theorem Selects.manifestPmt (h : Selects m t d) (hlog : LogWF d.frames) :
    DB.manifestPmt d m = .ok t := by
  rw [DB.manifestPmt]
  rcases h with ⟨h0, rfl⟩ | ⟨h0, a, n, hr⟩
  · rw [if_pos h0]
  rw [if_neg h0]
  have hwhole : Resolves d.frames m.pmtCheckpointId t a n := by
    have hlonger := hlog.resolves_longer (Nat.le_max_left d.durable d.frames.length) hr
    rwa [take_of_length_le (Nat.le_max_right _ _)] at hlonger
  cases hp : d.parsedMetaLog with
  | none =>
    obtain ⟨f, hf, -⟩ := hwhole.mem
    rw [Disk.frames_of_none hp] at hf
    cases hf
  | some parsed =>
    obtain ⟨frames, complete⟩ := parsed
    obtain rfl : frames = d.frames := Disk.parsedMetaLog_frames hp
    simp only [hwhole.resolve complete]

theorem Backed.nodes (h : Backed m t dev d) : readNodeFromPmt d.device t = readNodeFromPmt dev t :=
  readNodeFromPmt_congr fun o ho => ⟨h.placed o ho, (h.pages o ho).1, (h.pages o ho).2.2⟩

/-- A crash takes nothing of it. -/
theorem Backed.crash (h : Backed m t dev d) (hlog : LogWF d.frames) (hc : Disk.Crash d d') :
    Backed m t dev d' := by
  obtain ⟨k, hk, hk', hframes, hdurable⟩ := hc.frames
  have hdev := hc.device
  refine ⟨?_, h.placed, fun o ho => ?_⟩
  · rw [Selects, hdurable, take_length, hframes]
    exact h.selects.imp_right fun ⟨h0, a, n, hr⟩ => ⟨h0, a, n, hlog.resolves_longer hk hr⟩
  · obtain ⟨hin, hsynced, hpage⟩ := h.pages o ho
    refine ⟨⟨hin.1, hdev.extent o hsynced hin.2⟩, ?_, (hdev.kept o hsynced hin.2).trans hpage⟩
    rw [hdev.unsynced]
    exact not_mem_nil

theorem Backed.congr (h : Backed m t dev d) (hcore : d'.core = d.core) : Backed m t dev d' := by
  obtain ⟨-, -, hdev, hframes, hdurable⟩ := Disk.core_eq hcore
  refine ⟨?_, h.placed, hdev ▸ h.pages⟩
  rw [Selects, hframes, hdurable]
  exact h.selects

theorem Safe.selects {ctx : Ctx} {w : World DB Disk} (h : Safe ctx w) {r : RetainedRoot}
    (hr : r ∈ w.handle.retention.allRoots) : ∃ t, Selects r.manifest t w.disk := by
  have hrooted : ∃ views, Rooted views w.disk.frames r := by
    rcases mem_append.mp hr with hr | hr
    · exact ⟨_, h.steady.roots.named r hr⟩
    · exact ⟨_, h.steady.roots.ephemeral r hr⟩
  obtain ⟨views, hrooted⟩ := hrooted
  by_cases h0 : r.manifest.pmtCheckpointId = 0
  · exact ⟨_, .inl ⟨h0, rfl⟩⟩
  · obtain ⟨t, a, n, hres, -⟩ := hrooted.resolve_left h0
    refine ⟨t, .inr ⟨h0, a, n, ?_⟩⟩
    rwa [h.steady.durable, take_length]

end

namespace Client

variable {mark : GenerationId} {c : Client} {m : Manifest} {t : PMT} {dev : Device} {d d' : Disk}

/-- A registered root is backed by the file as it is. -/
theorem Inv.backed (h : Inv mark c d) {r : RetainedRoot} (hr : r ∈ c.db.retention.allRoots) :
    ∃ t, DB.manifestPmt d r.manifest = .ok t ∧ Backed r.manifest t d.device d := by
  rcases h with hs | ⟨hno, -, -⟩
  · obtain ⟨t, hsel⟩ := hs.selects hr
    have ht := hsel.manifestPmt hs.steady.disk.log
    have hin : ∀ o ∈ t.offsets, InFile d.device.size o := fun o ho =>
      hs.steady.slots.held_in o (hs.root_pinned hr ht o ho)
    refine ⟨t, ht, hsel, hin, fun o ho => ⟨hin o ho, ?_, rfl⟩⟩
    rw [hs.steady.synced]
    exact not_mem_nil
  · rw [hno] at hr
    cases hr

/-- What a command keeps of a registered root. -/
theorem Backed.kept {i : Command} (hm : m ∈ registered c d i) (h : Backed m t dev d)
    (hinv : Inv mark c d) (hheld : Held (keeping mark c d i) d') : Backed m t dev d' := by
  have ht := h.selects.manifestPmt hinv.diskInv.log
  refine ⟨?_, h.placed, fun o ho => ?_⟩
  · refine h.selects.imp_right fun ⟨h0, _⟩ => ⟨h0, ?_⟩
    refine hheld.2 (m.pmtCheckpointId, t) (mem_filterMap.mpr ⟨m, hm, ?_⟩)
    rw [tableOf, if_neg h0, ht]
  · obtain ⟨hin, hsynced, hpage⟩ := h.pages o ho
    have hpin : o ∈ pins c d i := by
      cases i with
      | reopen options =>
        obtain ⟨root, hroot, rfl⟩ := mem_map.mp hm
        refine mem_filter.mpr ⟨mem_flatMap.mpr ⟨root, hroot, ?_⟩, ?_⟩
        · rw [ht]
          exact ho
        · simpa only [InFile, decide_eq_true_eq] using hin
      | _ =>
        obtain ⟨r, hr, rfl⟩ := mem_map.mp hm
        rcases hinv with hs | ⟨hno, -, -⟩
        · exact hs.root_pinned hr ht o ho
        · simp only [hno] at hr
          cases hr
    obtain ⟨hin', hsynced', hpage'⟩ := hheld.1 o hpin
    exact ⟨hin', hsynced', hpage'.trans hpage⟩

end Client

/-! ## Holders -/

/-- An id that was returned to the client, with the state at that moment. -/
structure Hold where
  id : SnapshotId
  db : DB
  disk : Disk

/-- The id is that of a named root. -/
def Hold.durable (e : Hold) : Bool :=
  e.db.retention.namedRoots.any fun root => root.snapshotId = e.id

/-- Table and pages of a hold are as they were. -/
def Hold.Backed (e : Hold) (d : Disk) : Prop := ∃ m t, e.db.retainedManifest e.id = .ok m ∧
  DB.manifestPmt e.disk m = .ok t ∧ SeerDb.Backed m t e.disk.device d

def RetentionState.rootsOf (r : RetentionState) (named : Bool) : List RetainedRoot :=
  if named then r.namedRoots else r.ephemeralRoots

variable {r : RetentionState} {named : Bool} {root : RetainedRoot} {α : Type}

theorem RetentionState.mem_allRoots (h : root ∈ r.rootsOf named) : root ∈ r.allRoots := by
  cases named with
  | true => exact mem_append_left _ h
  | false => exact mem_append_right _ h

/-- Ids are given out from both ends. -/
def RetentionState.Issued (r : RetentionState) (id : SnapshotId) : Prop :=
  id < r.nextSnapshotId ∨ r.nextEphemeralSnapshotId < id

/-- A further registration does not use up the ids. -/
def RetentionState.IdsLeft (r : RetentionState) : Prop :=
  r.nextSnapshotId < r.nextEphemeralSnapshotId

instance : DecidablePred RetentionState.IdsLeft := fun _ => inferInstanceAs (Decidable (_ < _))

/-- The roots and images of the holds `es` are there; `vs` are the ids of the open views. -/
structure DB.Holds (es : List Hold) (vs : List SnapshotId) (w : World DB Disk) : Prop where
  file : w.disk.registry = w.handle.retention.registry
  apart : w.handle.retention.nextSnapshotId ≤ w.handle.retention.nextEphemeralSnapshotId
  bound : w.handle.retention.nextEphemeralSnapshotId ≤ u64Max
  ephemeral : ∀ root ∈ w.handle.retention.ephemeralRoots,
    w.handle.retention.nextEphemeralSnapshotId < root.snapshotId
  nodup : (w.handle.retention.ephemeralRoots.map RetainedRoot.snapshotId).Nodup
  views : ∀ v ∈ vs, w.handle.retention.nextEphemeralSnapshotId < v
  root : ∀ e ∈ es, ∃ root ∈ w.handle.retention.rootsOf e.durable, root.snapshotId = e.id ∧
    e.db.retainedManifest e.id = .ok root.manifest
  issued : ∀ e ∈ es, w.handle.retention.Issued e.id
  image : ∀ e ∈ es, w.disk.retained.lookup e.id = e.disk.retained.lookup e.id

/-- What is on file of the holds. -/
structure Disk.Holds (es : List Hold) (d : Disk) : Prop where
  bound : (d.registry.getD .new).nextSnapshotId ≤ u64Max
  root : ∀ e ∈ es, e.durable → ∃ m, e.db.retainedManifest e.id = .ok m ∧
    (e.id, m) ∈ (d.registry.getD .new).roots
  image : ∀ e ∈ es, e.durable → d.retained.lookup e.id = e.disk.retained.lookup e.id

section

variable {es : List Hold} {vs : List SnapshotId} {w w' : World DB Disk} {d d' : Disk}

theorem RetentionState.mem_registry (h : root ∈ r.namedRoots) :
    (root.snapshotId, root.manifest) ∈ (r.registry.getD .new).roots := by
  rw [RetentionState.registry, if_neg]
  · exact mem_map_of_mem (f := fun root : RetainedRoot => (root.snapshotId, root.manifest)) h
  · rw [List.isEmpty_iff]
    rintro hnil
    rw [hnil] at h
    cases h

theorem RetentionState.registry_next_le {n : Nat} (h : r.nextSnapshotId ≤ n) (hn : 1 ≤ n) :
    (r.registry.getD .new).nextSnapshotId ≤ n := by
  rw [RetentionState.registry]
  split
  · exact hn
  · exact h

theorem DB.Holds.onFile (h : DB.Holds es vs w) : w.disk.Holds es := by
  refine ⟨?_, fun e he hdur => ?_, fun e he _ => h.image e he⟩
  · rw [h.file]
    exact RetentionState.registry_next_le (h.apart.trans h.bound) (by decide)
  · obtain ⟨root, hroot, hid, hm⟩ := h.root e he
    rw [hdur] at hroot
    refine ⟨root.manifest, hm, ?_⟩
    rw [h.file, ← hid]
    exact RetentionState.mem_registry hroot

theorem Disk.Holds.congr (h : d.Holds es) (hpins : d'.pins = d.pins) : d'.Holds es := by
  have hreg : d'.registry = d.registry := congrArg Prod.fst hpins
  have hret : d'.retained = d.retained := congrArg Prod.snd hpins
  refine ⟨?_, ?_, ?_⟩
  · rw [hreg]
    exact h.bound
  · rw [hreg]
    exact h.root
  · rw [hret]
    exact h.image

theorem DB.Holds.congr (h : DB.Holds es vs w) (hret : w'.handle.retention = w.handle.retention)
    (hpins : w'.disk.pins = w.disk.pins) : DB.Holds es vs w' := by
  have hreg : w'.disk.registry = w.disk.registry := congrArg Prod.fst hpins
  have himg : w'.disk.retained = w.disk.retained := congrArg Prod.snd hpins
  refine ⟨?_, ?_, ?_, ?_, ?_, ?_, ?_, ?_, ?_⟩
  · rw [hreg, hret]
    exact h.file
  · exact hret ▸ h.apart
  · exact hret ▸ h.bound
  · exact hret ▸ h.ephemeral
  · exact hret ▸ h.nodup
  · exact hret ▸ h.views
  · exact hret ▸ h.root
  · exact hret ▸ h.issued
  · rw [himg]
    exact h.image

theorem DB.Holds.sub {vs' : List SnapshotId} (h : DB.Holds es vs w) (hes : ∀ e ∈ es', e ∈ es)
    (hvs : ∀ v ∈ vs', v ∈ vs) : DB.Holds es' vs' w :=
  { h with
    views := fun v hv => h.views v (hvs v hv)
    root := fun e he => h.root e (hes e he)
    issued := fun e he => h.issued e (hes e he)
    image := fun e he => h.image e (hes e he) }

theorem Disk.Holds.sub (h : d.Holds es) (hes : ∀ e ∈ es', e ∈ es) : d.Holds es' :=
  ⟨h.bound, fun e he => h.root e (hes e he), fun e he => h.image e (hes e he)⟩

theorem Apart.holds {p : DbM α} (hp : Apart p) (h : DB.Holds es vs w) :
    RunsTo (Disk.Holds es) p w (fun w' => DB.Holds es vs w' ∧ w'.handle.retention =
      w.handle.retention) := by
  refine Keeps.runs hp (fun d hd => h.onFile.congr hd) fun w' hw' => ?_
  have hret : w'.handle.retention = w.handle.retention := congrArg Pins.retention hw'.1
  exact ⟨h.congr hret hw'.2, hret⟩

end

/-! ## Registration and release -/

theorem lookup_erased {β : Type} [LinearOrder α] {k k' : α} (l : List (α × β)) (h : k' ≠ k) :
    (l.filter fun e => e.1 ≠ k).lookup k' = l.lookup k' := by
  have hget := Lib.get_erase l k k'
  rwa [if_neg h] at hget

theorem lookup_replaced {β : Type} [LinearOrder α] {k k' : α} (v : β)
    (l : List (α × β)) (h : k' ≠ k) :
    ((k, v) :: l.filter fun e => e.1 ≠ k).lookup k' = l.lookup k' := by
  have hne : (k' == k) = false := by simpa using h
  rw [lookup_cons, hne]
  exact lookup_erased l h

namespace DB

variable {es : List Hold} {vs : List SnapshotId} {w : World DB Disk}
  {m : Manifest} {id : SnapshotId}

/-- The next ids are nobody's. -/
theorem Holds.ne_next (h : Holds es vs w) {e : Hold} (he : e ∈ es) (ephemeral : Bool) :
    e.id ≠ if ephemeral then w.handle.retention.nextEphemeralSnapshotId else
      w.handle.retention.nextSnapshotId := by
  have hapart := h.apart
  rcases h.issued e he with hlt | hlt <;> cases ephemeral
  · exact hlt.ne
  · exact (hlt.trans_le hapart).ne
  · exact (hapart.trans_lt hlt).ne'
  · exact hlt.ne'

/-- Other roots may come and go. -/
theorem Holds.rooted (h : Holds es vs w) {ret : RetentionState}
    (hkeep : ∀ named, ∀ root ∈ w.handle.retention.rootsOf named,
      (∃ e ∈ es, root.snapshotId = e.id) → root ∈ ret.rootsOf named) :
    ∀ e ∈ es, ∃ root ∈ ret.rootsOf e.durable, root.snapshotId = e.id ∧
      e.db.retainedManifest e.id = .ok root.manifest := by
  intro e he
  obtain ⟨root, hroot, heq, hm⟩ := h.root e he
  exact ⟨root, hkeep _ root hroot ⟨e, he, heq⟩, heq, hm⟩

/-- Images under ids that nobody holds come and go. -/
theorem Holds.withImages (h : Holds es vs w) {images : List (SnapshotId × BlobImage)}
    (trace : List Disk) (himg : ∀ e ∈ es, images.lookup e.id = w.disk.retained.lookup e.id) :
    Holds es vs ⟨w.handle, { w.disk with retained := images }, trace⟩ :=
  { h with image := fun e he => (himg e he).trans (h.image e he) }

theorem dropSidecar_holds (h : Holds es vs w) (hid : ∀ e ∈ es, e.id ≠ id) :
    RunsTo (Disk.Holds es) (dropSidecar id) w
      (fun w' => Holds es vs w' ∧ w'.handle = w.handle) := by
  have hwith := fun trace => h.withImages trace fun e he => lookup_erased w.disk.retained (hid e he)
  exact .of_write (hwith []).onFile ⟨hwith _, rfl⟩

theorem insertEphemeral_holds (h : Holds es vs w) (hleft : w.handle.retention.IdsLeft)
    (m : Manifest) (offsets : List Nat) :
    Runs (Disk.Holds es) (insertEphemeral m offsets) w (fun _ w' => Holds es vs w' ∧
        w'.handle.retention.nextEphemeralSnapshotId < w.handle.retention.nextEphemeralSnapshotId ∧
        (⟨w.handle.retention.nextEphemeralSnapshotId, m, offsets⟩ : RetainedRoot) ∈
        w'.handle.retention.ephemeralRoots)
      (fun _ w' => w' = w) := by
  refine .handle (.check (fun _ => rfl) fun _ => .of_modifyHandle ⟨?_, ?_, ?_⟩)
  · have hless : w.handle.retention.nextEphemeralSnapshotId - 1 ≤
      w.handle.retention.nextEphemeralSnapshotId :=
      Nat.sub_le _ _
    refine ⟨h.file, ?_, hless.trans h.bound, fun root hroot => ?_, ?_,
      fun v hv => hless.trans_lt (h.views v hv),
      h.rooted fun named root hroot _ => ?_, fun e he =>
        (h.issued e he).imp_right hless.trans_lt, h.image⟩
    · exact Nat.le_sub_one_of_lt (show _ < _ from hleft)
    · rcases mem_append.mp hroot with hroot | hroot
      · exact hless.trans_lt (h.ephemeral root hroot)
      · rw [mem_singleton.mp hroot]
        exact Nat.sub_one_lt (Nat.ne_of_gt (Nat.zero_lt_of_lt (show _ < _ from hleft)))
    · rw [map_append, nodup_append]
      refine ⟨h.nodup, nodup_singleton _, fun id hid id' hid' heq => ?_⟩
      obtain ⟨root, hroot, rfl⟩ := mem_map.mp hid
      have hnext : root.snapshotId = w.handle.retention.nextEphemeralSnapshotId :=
        heq.trans (mem_singleton.mp hid')
      exact absurd (h.ephemeral root hroot) (hnext ▸ Nat.lt_irrefl _)
    · cases named with
      | true => exact hroot
      | false => exact mem_append_left _ hroot
  · exact Nat.sub_one_lt (Nat.ne_of_gt (Nat.zero_lt_of_lt (show _ < _ from hleft)))
  · exact mem_concat_self

theorem insertNamed_holds (h : Holds es vs w) (hleft : w.handle.retention.IdsLeft) (m : Manifest)
    (offsets : List Nat) :
    Runs (Disk.Holds es) (insertNamed m offsets) w (fun _ w' => Holds es vs w' ∧
        (⟨w.handle.retention.nextSnapshotId, m, offsets⟩ : RetainedRoot) ∈
        w'.handle.retention.namedRoots)
      (fun _ w' => w' = w) := by
  have hnew : ∀ trace, Holds es vs ⟨{ w.handle with retention := { w.handle.retention with
      namedRoots := w.handle.retention.namedRoots ++
        [⟨w.handle.retention.nextSnapshotId, m, offsets⟩]
      nextSnapshotId := w.handle.retention.nextSnapshotId + 1 } },
        { w.disk with registry := RetentionState.registry { w.handle.retention with
        namedRoots := w.handle.retention.namedRoots ++
          [⟨w.handle.retention.nextSnapshotId, m, offsets⟩]
        nextSnapshotId := w.handle.retention.nextSnapshotId + 1 } }, trace⟩ := by
    intro trace
    refine { h with
      file := rfl
      apart := hleft
      root := h.rooted fun named root hroot _ => ?_
      issued := fun e he => (h.issued e he).imp_left Nat.lt_succ_of_lt }
    cases named with
    | true => exact mem_append_left _ hroot
    | false => exact hroot
  refine .handle (.write (hnew []).onFile (.of_modifyHandle ⟨hnew _, ?_⟩))
  exact mem_concat_self

/-- An id was given out: that of a named root, or one that no view has. -/
structure Given (es : List Hold) (vs : List SnapshotId) (named : Bool) (id : SnapshotId)
    (w : World DB Disk) :
    Prop where
  holds : Holds es vs w
  root : ∃ root ∈ w.handle.retention.rootsOf named, root.snapshotId = id
  apart : named = false → id ∉ vs

theorem Given.found (h : Holds es vs w) {commitId : CommitId}
    (hfound : w.handle.retainedSnapshotId commitId = some id) :
    Given es vs true id w := by
  rw [retainedSnapshotId, Option.map_eq_some_iff] at hfound
  obtain ⟨root, hroot, rfl⟩ := hfound
  exact ⟨h, ⟨root, mem_of_find?_eq_some hroot, rfl⟩, fun hno => by cases hno⟩

theorem registerManifest_holds (h : Holds es vs w) (hleft : w.handle.retention.IdsLeft)
    (m : Manifest) (deduplicate ephemeral walk : Bool)
    (hd : ephemeral = true → deduplicate = false) :
    Runs (Disk.Holds es) (registerManifest m deduplicate ephemeral walk) w
      (Given es vs (!ephemeral)) (fun _ => Holds es vs) := by
  refine .handle ?_
  cases hdedup : (if deduplicate then w.handle.retainedSnapshotId m.commitId else none) with
  | some found =>
    split at hdedup
    · rename_i hdup
      cases ephemeral with
      | true => exact absurd hdup (by rw [hd rfl]; exact Bool.false_ne_true)
      | false => exact .pure (.found h hdedup)
    · cases hdedup
  | none =>
    have h₁ := fun trace => h.withImages trace fun e he =>
      lookup_replaced w.handle.blobs.clearDeletionMetadata.toImage
      w.disk.retained (h.ne_next he ephemeral)
    refine .write (h₁ []).onFile (.disk ?_)
    refine .bind (R := fun _ => Given es vs (!ephemeral) (if ephemeral then
      w.handle.retention.nextEphemeralSnapshotId else w.handle.retention.nextSnapshotId))
      (.onError (R := fun _ w' => Holds es vs w' ∧ w'.handle = w.handle)
      (.lift (fun _ _ => ⟨h₁ _, rfl⟩) fun offsets _ => ?_) fun _ w' he => ?_) fun _ w₂ hw₂ => ?_
    · cases ephemeral with
      | true =>
        refine (insertEphemeral_holds (h₁ _) hleft m offsets).conseq (fun _ w' hq => ?_)
          fun _ w' he => ?_
        · refine ⟨hq.1, ⟨_, hq.2.2, rfl⟩, fun _ hv => absurd (h.views _ hv) (Nat.lt_irrefl _)⟩
        · rw [he]
          exact ⟨h₁ _, rfl⟩
      | false =>
        refine (insertNamed_holds (h₁ _) hleft m offsets).conseq (fun _ w' hq => ?_)
          fun _ w' he => ?_
        · exact ⟨hq.1, ⟨_, hq.2, rfl⟩, nofun⟩
        · rw [he]
          exact ⟨h₁ _, rfl⟩
    · exact (dropSidecar_holds he.1 fun e hmem => h.ne_next hmem ephemeral).both
        (fun _ hd => hd) fun _ hq => hq.1
    · refine .bind (R := fun _ => Given es vs (!ephemeral) _) (.disk (.of_modifyHandle ?_))
        fun _ _ hq => .pure hq
      exact ⟨hw₂.holds.congr rfl rfl, hw₂.root, hw₂.apart⟩

/-- Every registration flushes first. -/
theorem flushed_holds {k : DbM α} {Q : α → World DB Disk → Prop} (h : Holds es vs w)
    (hleft : w.handle.retention.IdsLeft)
    (hk : ∀ w', Holds es vs w' → w'.handle.retention.IdsLeft →
      Runs (Disk.Holds es) k w' Q (fun _ => Holds es vs)) :
    Runs (Disk.Holds es) (do checkWritable; flush; k) w Q (fun _ => Holds es vs) := by
  refine .bind ((Apart.holds keeps_checkWritable h).imp_error fun _ _ he => he.1) fun _ w₁ h₁ => ?_
  refine .bind ((Apart.holds apart_flush h₁.1).imp_error fun _ _ he => he.1) fun _ w₂ h₂ => ?_
  refine hk w₂ h₂.1 ?_
  rw [h₂.2, h₁.2]
  exact hleft

theorem retainCommit_holds (h : Holds es vs w) (hleft : w.handle.retention.IdsLeft)
    (commitId : CommitId) :
    Runs (Disk.Holds es) (retainCommit commitId) w (Given es vs true) (fun _ => Holds es vs) := by
  refine flushed_holds h hleft fun w₂ h₂ hleft₂ => .handle ?_
  cases hfound : w₂.handle.retainedSnapshotId commitId with
  | some id => exact .pure (.found h₂ hfound)
  | none =>
    cases w₂.handle.manifestHistory.findCommit commitId with
    | none => exact .throw h₂
    | some m => exact registerManifest_holds h₂ hleft₂ m true false true nofun

theorem retainCurrent_holds (h : Holds es vs w) (hleft : w.handle.retention.IdsLeft)
    (copied : Bool) :
    Runs (Disk.Holds es) (retainCurrent copied) w (Given es vs true) (fun _ => Holds es vs) := by
  refine flushed_holds h hleft fun w₂ h₂ hleft₂ => .check (fun _ => h₂) fun _ => .handle ?_
  cases w₂.handle.manifestHistory.latest with
  | none => exact .throw h₂
  | some m => exact registerManifest_holds h₂ hleft₂ m false false true nofun

theorem retainCurrentCommit_holds (h : Holds es vs w) (hleft : w.handle.retention.IdsLeft) :
    Runs (Disk.Holds es) retainCurrentCommit w (Given es vs false) (fun _ => Holds es vs) := by
  refine flushed_holds h hleft fun w₂ h₂ hleft₂ => .handle (.lift (fun _ _ => h₂) fun m _ => ?_)
  exact registerManifest_holds h₂ hleft₂ m false true false fun _ => rfl

theorem beginBatchTransaction_holds (h : Holds es vs w) (hleft : w.handle.retention.IdsLeft) :
    Runs (Disk.Holds es) beginBatchTransaction w (fun t => Given es vs false t.snapshotId)
      (fun _ => Holds es vs) := by
  refine flushed_holds h hleft fun w₂ h₂ hleft₂ => .handle ?_
  cases w₂.handle.manifestHistory.latest with
  | none => exact .throw h₂
  | some m =>
    exact .bind (registerManifest_holds h₂ hleft₂ m false true true fun _ => rfl)
      fun _ _ hq => .pure hq

theorem removeRoot_holds (h : Holds es vs w) (hid : ∀ e ∈ es, e.id ≠ id) :
    RunsTo (Disk.Holds es) (removeRoot id) w (Holds es vs) := by
  have hdrop : ∀ {w' : World DB Disk}, Holds es vs w' →
      RunsTo (Disk.Holds es) (dropSidecar id) w' (Holds es vs) := fun h' =>
    (dropSidecar_holds h' hid).both (fun _ hd => hd) fun _ hq => hq.1
  -- a root that somebody holds has another id
  have hstay : ∀ {roots : List RetainedRoot}, ∀ root ∈ roots, (∃ e ∈ es, root.snapshotId = e.id) →
      root ∈ roots.filter fun root => root.snapshotId ≠ id := by
    rintro roots root hroot ⟨e, he, heq⟩
    exact mem_filter.mpr ⟨hroot, by simpa [heq] using hid e he⟩
  refine .handle (.ite (fun _ => .modifyHandle (hdrop ?_)) fun _ => .check (fun _ => h) fun _ => ?_)
  · refine { h with
      ephemeral := fun root hroot => h.ephemeral root (mem_filter.mp hroot).1
      nodup := h.nodup.sublist (filter_sublist.map _)
      root := h.rooted fun named root hroot hheld => ?_ }
    cases named with
    | true => exact hroot
    | false => exact hstay root hroot hheld
  · have hless : ∀ trace, Holds es vs ⟨{ w.handle with retention := { w.handle.retention with
        namedRoots := w.handle.retention.namedRoots.filter fun root => root.snapshotId ≠ id } },
        { w.disk with registry := RetentionState.registry { w.handle.retention with
          namedRoots := w.handle.retention.namedRoots.filter fun root => root.snapshotId ≠ id } },
            trace⟩ := by
      intro trace
      refine { h with file := rfl, root := h.rooted fun named root hroot hheld => ?_ }
      cases named with
      | true => exact hstay root hroot hheld
      | false => exact hroot
    exact .write (hless []).onFile (.modifyHandle (hdrop (hless _)))

theorem releaseRoot_holds (h : Holds es vs w) (hid : ∀ e ∈ es, e.id ≠ id) :
    RunsTo (Disk.Holds es) (releaseRoot id) w (Holds es vs) :=
  .bind (removeRoot_holds h hid) fun _ _ hq => .of_modifyHandle (hq.congr rfl rfl)

theorem releaseSnapshot_holds (h : Holds es vs w) (hid : ∀ e ∈ es, e.id ≠ id) :
    RunsTo (Disk.Holds es) (releaseSnapshot id) w (Holds es vs) :=
  .bind ((Apart.holds keeps_checkWritable h).both (fun _ hd => hd) fun _ hq => hq.1) fun _ _ hq =>
    releaseRoot_holds hq hid

theorem dropTable_holds (h : Holds es vs w) (pmt : PMT) :
    RunsTo (Disk.Holds es) (dropTable pmt) w (Holds es vs) := by
  refine .of_modifyHandle ?_
  split
  · exact h.congr rfl rfl
  · exact h

theorem dropReadView_holds (h : Holds es vs w) {v : ReadView}
    (hid : ∀ e ∈ es, e.id ≠ v.snapshotId) :
    RunsTo (Disk.Holds es) (dropReadView v) w (Holds es vs) :=
  .bind (.onError (R := fun _ => Holds es vs) (.runIf (fun _ => releaseRoot_holds h hid) fun _ => h)
    fun _ _ he => dropTable_holds he _) fun _ _ hq => dropTable_holds hq _

theorem beginReadView_holds (h : Holds es vs w) (hleft : w.handle.retention.IdsLeft) :
    Runs (Disk.Holds es) beginReadView w
      (fun v w' => Holds es (v.snapshotId :: vs) w' ∧ ∀ e ∈ es, e.id ≠ v.snapshotId)
      (fun _ => Holds es vs) := by
  have hne : ∀ e ∈ es, e.id ≠ w.handle.retention.nextEphemeralSnapshotId :=
    fun e he => h.ne_next he true
  refine .handle (.lift (fun _ _ => h) fun _ _ => ?_)
  refine .bind ((Apart.holds keeps_checkMaintenanceIdle h).imp_error fun _ _ he => he.1)
    fun _ w₁ h₁ => .lift (fun _ _ => h₁.1) fun m _ => ?_
  rw [← h₁.2] at hne hleft ⊢
  have hnew : ∀ {w' : World DB Disk}, Holds es vs w' →
      w'.handle.retention.nextEphemeralSnapshotId < w₁.handle.retention.nextEphemeralSnapshotId →
      Holds es (w₁.handle.retention.nextEphemeralSnapshotId :: vs) w' := fun h' hlt =>
    { h' with views := forall_mem_cons.mpr ⟨hlt, h'.views⟩ }
  refine .bind ((insertEphemeral_holds h₁.1 hleft m []).conseq (fun _ _ hq => hnew hq.1 hq.2.1)
    fun _ w' he => ?_) fun _ w₂ h₂ => ?_
  · rw [he]
    exact h₁.1
  refine .bind (R := fun _ => Holds es (w₁.handle.retention.nextEphemeralSnapshotId :: vs))
    (.disk (.of_modifyHandle (h₂.congr rfl rfl))) fun _ w₃ h₃ => ?_
  refine .modifyHandle (.disk (.bind (R := fun _ =>
    Holds es (w₁.handle.retention.nextEphemeralSnapshotId :: vs)) ?_ fun _ _ hq => .pure ⟨hq, hne⟩))
  have h₄ : Holds es (w₁.handle.retention.nextEphemeralSnapshotId :: vs)
    { w₃ with handle := { w₃.handle with
      leases := w.handle.engine.pmt :: w₃.handle.leases
      engine := { w₃.handle.engine with reclamationDirty := true } } } := h₃.congr rfl rfl
  refine .onError (R := fun _ => Holds es (w₁.handle.retention.nextEphemeralSnapshotId :: vs))
    (.of_lift (fun _ _ => h₄) fun _ _ => h₄) fun _ _ he => ?_
  refine .bind (releaseRoot_holds (he.sub (fun _ hmem => hmem) fun _ hv => .tail _ hv) hne)
    fun _ _ hq => ?_
  exact dropTable_holds hq _

/-- The id selects its root: no two registered roots have the same one. -/
theorem retainedManifest_eq {l : Ledger} (hc : Counts l w) (h : Holds es vs w) {r : RetainedRoot}
    (hr : r ∈ w.handle.retention.allRoots) :
    w.handle.retainedManifest r.snapshotId = .ok r.manifest := by
  have hnamed : (w.handle.retention.namedRoots.map RetainedRoot.snapshotId).Nodup := by
    have hnodup := hc.counted.nodup
    rwa [RetentionState.commits, map_map] at hnodup
  have hnodup : (w.handle.retention.allRoots.map RetainedRoot.snapshotId).Nodup := by
    rw [RetentionState.allRoots, map_append, nodup_append]
    refine ⟨hnamed, h.nodup, fun id hid id' hid' heq => ?_⟩
    obtain ⟨root, hroot, rfl⟩ := mem_map.mp hid
    obtain ⟨root', hroot', rfl⟩ := mem_map.mp hid'
    exact (((hc.named_lt hroot).trans_le h.apart).trans (h.ephemeral root' hroot')).ne heq
  rw [retainedManifest, find?_of_nodup hnodup hr]

/-- The holds and the views have ids of their own. -/
def Upheld (es : List Hold) (vs : List SnapshotId) (w : World DB Disk) : Prop :=
  Holds es vs w ∧ ∀ e ∈ es, e.id ∉ vs

/-- An id that was given out is held from then on. -/
theorem Given.upheld {l : Ledger} (hc : Counts l w) (h : Given es vs named id w)
    (hes : ∀ e ∈ es, e.id ∉ vs) : Upheld (⟨id, w.handle, w.disk⟩ :: es) vs w := by
  have hapart := h.holds.apart
  obtain ⟨root, hroot, rfl⟩ := h.root
  have hdurable : (⟨root.snapshotId, w.handle, w.disk⟩ : Hold).durable = named := by
    cases named with
    | true => exact any_eq_true.mpr ⟨root, hroot, by simp⟩
    | false =>
      refine any_eq_false.mpr fun root' hroot' => ?_
      have hlt := ((hc.named_lt hroot').trans_le hapart).trans (h.holds.ephemeral root hroot)
      simpa using hlt.ne
  refine ⟨{ h.holds with
    root := forall_mem_cons.mpr ⟨⟨root, ?_, rfl, retainedManifest_eq hc h.holds
      (RetentionState.mem_allRoots hroot)⟩, h.holds.root⟩
    issued := forall_mem_cons.mpr ⟨?_, h.holds.issued⟩
    image := forall_mem_cons.mpr ⟨rfl, h.holds.image⟩ }, forall_mem_cons.mpr ⟨?_, hes⟩⟩
  · rw [hdurable]
    exact hroot
  · cases named with
    | true => exact .inl (hc.named_lt hroot)
    | false => exact .inr (h.holds.ephemeral root hroot)
  · cases named with
    | true =>
      intro hv
      exact Nat.lt_irrefl _ (((hc.named_lt hroot).trans_le hapart).trans (h.holds.views _ hv))
    | false => exact h.apart rfl

theorem Upheld.sub {vs' : List SnapshotId} (h : Upheld es vs w) (hes : ∀ e ∈ es', e ∈ es)
    (hvs : ∀ v ∈ vs', v ∈ vs) : Upheld es' vs' w :=
  ⟨h.1.sub hes hvs, fun e he hv => h.2 e (hes e he) (hvs _ hv)⟩

end DB

/-! ## Runs -/

namespace Client

/-- What the client holds: ids that end with `releaseSnapshot`, and retained snapshots and
transactions. -/
structure Holdings where
  free : List Hold
  owned : List Hold

namespace Holdings

def all (g : Holdings) : List Hold := g.free ++ g.owned

def without (g : Holdings) (id : SnapshotId) : Holdings :=
  ⟨g.free.filter fun e => e.id ≠ id, g.owned.filter fun e => e.id ≠ id⟩

/-- What outlives the handle. -/
def lasting (g : Holdings) : Holdings := ⟨g.free.filter Hold.durable, []⟩

/-- A registration was tried: the id it returned is held, by a handle of its own if `owned` says
so. -/
def returned {α : Type} (g : Holdings) (owned : Bool) (idOf : α → SnapshotId) (p : DbM α)
    (c : Client) (d : Disk) :
    Holdings :=
  match p ⟨c.db, d, []⟩ with
  | .ok a w =>
    if owned then { g with owned := ⟨idOf a, w.handle, w.disk⟩ :: g.owned }
    else { g with free := ⟨idOf a, w.handle, w.disk⟩ :: g.free }
  | .error _ _ => g

/-- The holdings after a command. -/
def note (g : Holdings) (i : Command) (c : Client) (d : Disk) : Holdings := match i with
  | .call (.retainCommit commitId) => g.returned false id (DB.retainCommit commitId) c d
  | .call .retainCurrentCommit => g.returned false id DB.retainCurrentCommit c d
  | .call (.retainCurrent copied) => g.returned true id (DB.retainCurrent copied) c d
  | .call .beginBatchTransaction =>
      g.returned true Transaction.snapshotId DB.beginBatchTransaction c d
  | .call (.releaseSnapshot id) => g.without id
  | .call (.releaseRoot id) => { g with owned := g.owned.filter fun e => e.id ≠ id }
  | .reopen _ => g.lasting
  | _ => g

/-- The holdings after a command that a crash cut short. -/
def cut (g : Holdings) (i : Command) (_ : Client) (_ : Disk) : Holdings := match i with
  | .call (.releaseSnapshot id) => (g.without id).lasting
  | _ => g.lasting

def recorder : Recorder Client Disk Command Holdings := ⟨⟨[], []⟩, note, cut⟩

/-- Nobody's root is dropped for another holder: a snapshot handle that ends shares its root with no
plain id, a view of an earlier handle has an id that nobody holds now, and no snapshot handle and no
transaction outlives its database.  The two counters have not met. -/
def apart (g : Holdings) (i : Command) (c : Client) (_ : Disk) : Prop :=
  c.db.retention.IdsLeft ∧ match i with
  | .call (.releaseRoot id) => ∀ e ∈ g.free, e.id ≠ id
  | .dropStaleView index => ∀ v ∈ c.stale[index]?, ∀ e ∈ g.all, e.id ≠ v.snapshotId
  | .reopen _ => g.owned = []
  | _ => True

end Holdings

variable {g : Holdings} {c : Client} {d : Disk} {vs : List SnapshotId} {e : Hold}

theorem Holdings.cut_sub (i : Command) : ∀ e ∈ (g.cut i c d).free, e ∈ g.all := by
  intro e he
  unfold Holdings.cut at he
  split at he
  · exact mem_append_left _ (mem_filter.mp (mem_filter.mp he).1).1
  · exact mem_append_left _ (mem_filter.mp he).1

theorem Holdings.without_sub (id : SnapshotId) :
    ∀ e ∈ (g.without id).all, e ∈ g.all ∧ e.id ≠ id := by
  intro e he
  rw [Holdings.all, Holdings.without, ← filter_append] at he
  obtain ⟨hmem, hne⟩ := mem_filter.mp he
  exact ⟨hmem, by simpa using hne⟩

/-- The holds `g'` are there, and those that are not among `g` were taken in this state. -/
structure Carried (g g' : Holdings) (vs : List SnapshotId) (w : World DB Disk) : Prop where
  upheld : DB.Upheld g'.all vs w
  since : ∀ e ∈ g'.all, e ∈ g.all ∨ (e.db = w.handle ∧ e.disk = w.disk)

theorem Carried.of_sub {g' : Holdings} {w : World DB Disk} (h : DB.Upheld g'.all vs w)
    (hsub : ∀ e ∈ g'.all, e ∈ g.all) :
    Carried g g' vs w := ⟨h, fun e he => .inl (hsub e he)⟩

/-- What a registration returns is held from then on. -/
theorem returned_carried {p : DbM α} {C : Disk → Prop} (hC : ∀ d', Disk.Holds g.all d' → C d')
    (owned : Bool) (idOf : α → SnapshotId) {l : Ledger} (hes : ∀ e ∈ g.all, e.id ∉ vs)
    (hcounts : Runs (Disk.Filed l) p ⟨c.db, d, []⟩ (fun _ w' => ∃ l', DB.Counts l' w')
      (fun _ => DB.Counts l))
    (hholds : Runs (Disk.Holds g.all) p ⟨c.db, d, []⟩ (fun a => DB.Given g.all vs named (idOf a))
      (fun _ => DB.Holds g.all vs)) :
    RunsTo C (discard p) ⟨c.db, d, []⟩ (Carried g (g.returned owned idOf p c d) vs) := by
  refine .bind ((hcounts.and hholds).result.mono (fun _ hd => hC _ hd.2)
    (fun _ _ hq => hq) fun e w' he => ?_) fun a w' hq => .pure ?_
  · rw [Holdings.returned, he.1]
    exact .of_sub ⟨he.2.2, hes⟩ fun _ he => he
  · obtain ⟨hrun, ⟨l', hc⟩, hgiven⟩ := hq
    have hmem : ∀ e ∈ (g.returned owned idOf p c d).all,
      e ∈ (⟨idOf a, w'.handle, w'.disk⟩ : Hold) :: g.all := by
      rw [Holdings.returned, hrun]
      cases owned with
      | true => exact fun _ he => perm_middle.mem_iff.mp he
      | false => exact fun _ he => he
    refine ⟨(hgiven.upheld hc hes).sub hmem fun _ hv => hv, fun e he => ?_⟩
    rcases mem_cons.mp (hmem e he) with rfl | he
    · exact .inr ⟨rfl, rfl⟩
    · exact .inl he

/-- A release takes the holds of its id with it. -/
theorem released_carried {g' : Holdings} {p : DbM Unit} {C : Disk → Prop}
    {w : World DB Disk} {id : SnapshotId}
    (hC : ∀ d', Disk.Holds g'.all d' → C d') (hsub : ∀ e ∈ g'.all, e ∈ g.all ∧ e.id ≠ id)
    (h : DB.Upheld g.all vs w)
    (hp : DB.Holds g'.all vs w → (∀ e ∈ g'.all, e.id ≠ id) →
      RunsTo (Disk.Holds g'.all) p w (DB.Holds g'.all vs)) :
    RunsTo C p w (Carried g g' vs) := by
  have hless := h.sub (fun e he => (hsub e he).1) fun _ hv => hv
  exact (hp hless.1 fun e he => (hsub e he).2).both hC fun _ hw =>
    .of_sub ⟨hw, hless.2⟩ fun e he => (hsub e he).1

/-- **Every call leaves alone what somebody else holds.** -/
theorem call_carried (call : DbCall) (hi : g.apart (.call call) c d)
    (hc : DB.Counts ⟨[], []⟩ ⟨c.db, d, []⟩) (h : DB.Upheld g.all vs ⟨c.db, d, []⟩) :
    RunsTo (Disk.Holds (g.cut (.call call) c d).free) call.run ⟨c.db, d, []⟩
      (Carried g (g.note (.call call) c d) vs) := by
  have hcut : ∀ d', Disk.Holds g.all d' → Disk.Holds (g.cut (.call call) c d).free d' :=
    fun d' hd =>
    hd.sub (Holdings.cut_sub _)
  cases call with
  | retainCommit commitId =>
    exact returned_carried hcut false id h.2 ((DB.retainCommit_counts hc commitId).imp
      fun _ _ hq => ⟨_, hq⟩) (DB.retainCommit_holds h.1 hi.1 commitId)
  | retainCurrentCommit =>
    exact returned_carried hcut false id h.2 ((DB.retainCurrentCommit_counts hc).imp
      fun _ _ hq => ⟨_, hq⟩) (DB.retainCurrentCommit_holds h.1 hi.1)
  | retainCurrent copied =>
    exact returned_carried hcut true id h.2 ((DB.retainCurrent_counts hc copied).imp
      fun _ _ ⟨_, _, hq⟩ => ⟨_, hq⟩) (DB.retainCurrent_holds h.1 hi.1 copied)
  | beginBatchTransaction =>
    exact returned_carried hcut true Transaction.snapshotId h.2
      ((DB.beginBatchTransaction_counts hc).imp fun _ _ hq => ⟨_, hq⟩)
      (DB.beginBatchTransaction_holds h.1 hi.1)
  | releaseSnapshot id =>
    refine released_carried (fun d' hd => hd.sub fun e he => ?_)
      (Holdings.without_sub id) h DB.releaseSnapshot_holds
    exact mem_append_left _ (mem_filter.mp he).1
  | releaseRoot id =>
    refine released_carried (fun d' hd => hd.sub fun e he => ?_)
      (fun e he => ?_) h DB.releaseRoot_holds
    · exact mem_append_left _ (mem_filter.mp he).1
    rcases mem_append.mp he with he | he
    · exact ⟨mem_append_left _ he, hi.2 e he⟩
    · exact ⟨mem_append_right _ (mem_filter.mp he).1, by simpa using (mem_filter.mp he).2⟩
  | _ =>
    exact (Apart.holds (DbCall.apart _ rfl) h.1).both hcut fun _ hq =>
      .of_sub ⟨hq.1, h.2⟩ fun _ he => he

/-- The roots of the holds are those of the handle, or those on file. -/
def Stands (g : Holdings) (c : Client) (d : Disk) : Prop :=
  DB.Upheld g.all (c.views.map ReadView.snapshotId) ⟨c.db, d, []⟩ ∨
    (c.db = noHandle ∧ c.views = [] ∧ g.owned = [] ∧ (∀ e ∈ g.free, e.durable) ∧ d.Holds g.free)

theorem Stands.onFile (h : Stands g c d) : d.Holds g.all := by
  rcases h with hu | ⟨-, -, howned, -, hd⟩
  · exact hu.1.onFile
  · rw [Holdings.all, howned, append_nil]
    exact hd

theorem Stands.of_upheld {w : World DB Disk} {views stale : List ReadView}
    (h : DB.Upheld g.all (views.map ReadView.snapshotId) w) :
    Stands g ⟨w.handle, views, stale⟩ w.disk :=
  .inl ⟨h.1.congr rfl rfl, h.2⟩

/-- Without a handle nothing is returned. -/
theorem returned_noHandle {k : DbM α} (owned : Bool) (idOf : α → SnapshotId)
    (hno : c.db = noHandle) :
    g.returned owned idOf (do DB.checkWritable; k) c d = g := by
  obtain ⟨e, w', he⟩ := noHandle_error (w := ⟨c.db, d, []⟩) (k := k) hno
  rw [Holdings.returned, he]

theorem Holdings.note_noHandle (hno : c.db = noHandle) (call : DbCall) :
    (∀ e ∈ (g.note (.call call) c d).free, e ∈ g.free) ∧ ∀ e ∈ (g.note (.call call) c d).owned,
    e ∈ g.owned := by
  have hsame : ∀ {g' : Holdings}, g' = g → (∀ e ∈ g'.free, e ∈ g.free) ∧
    ∀ e ∈ g'.owned, e ∈ g.owned := by
    rintro _ rfl
    exact ⟨fun _ he => he, fun _ he => he⟩
  cases call with
  | releaseSnapshot id => exact ⟨fun _ he => (mem_filter.mp he).1, fun _ he => (mem_filter.mp he).1⟩
  | releaseRoot id => exact ⟨fun _ he => he, fun _ he => (mem_filter.mp he).1⟩
  | retainCommit commitId => exact hsame (returned_noHandle false id hno)
  | retainCurrentCommit => exact hsame (returned_noHandle false id hno)
  | retainCurrent copied => exact hsame (returned_noHandle true id hno)
  | beginBatchTransaction => exact hsame (returned_noHandle true Transaction.snapshotId hno)
  | _ => exact hsame rfl

/-- An open finds the roots of the ids that outlive a handle. -/
theorem upheld_of_loaded {w : World DB Disk} (hd : d.Holds g.all) (hc : DB.Counts ⟨[], []⟩ w)
    (hsame : d.SameRoots w.disk) (hr : w.handle.retention.LoadedFrom d.registry) :
    DB.Upheld g.lasting.all [] w := by
  have hmem : ∀ e ∈ g.lasting.all, e ∈ g.all ∧ e.durable = true := by
    intro e he
    rw [Holdings.all, Holdings.lasting, append_nil] at he
    exact ⟨mem_append_left _ (mem_filter.mp he).1, (mem_filter.mp he).2⟩
  have hroot : ∀ e ∈ g.lasting.all, ∃ root ∈ w.handle.retention.namedRoots, root.snapshotId = e.id ∧
      e.db.retainedManifest e.id = .ok root.manifest := by
    intro e he
    obtain ⟨m, hm, hin⟩ := hd.root e (hmem e he).1 (hmem e he).2
    rw [← hr.roots] at hin
    obtain ⟨root, hroot, heq⟩ := mem_map.mp hin
    have hmanifest : root.manifest = m := congrArg Prod.snd heq
    exact ⟨root, hroot, congrArg Prod.fst heq, hmanifest ▸ hm⟩
  refine ⟨⟨hc.file, ?_, hr.nextEphemeral.le, ?_, ?_, by simp, fun e he => ?_,
    fun e he => ?_, fun e he => ?_⟩, fun e he => not_mem_nil⟩
  · rw [hr.next, hr.nextEphemeral]
    exact hd.bound
  · rw [hr.ephemeral]
    simp
  · rw [hr.ephemeral]
    exact nodup_nil
  · rw [(hmem e he).2]
    exact hroot e he
  · obtain ⟨root, hroot, heq, -⟩ := hroot e he
    rw [← heq]
    exact .inl (hc.named_lt hroot)
  · obtain ⟨m, -, hin⟩ := hd.root e (hmem e he).1 (hmem e he).2
    exact (hsame.images _ hin).trans (hd.image e (hmem e he).1 (hmem e he).2)

/-- The state after a command: the holds stand, and the new ones among them were taken in it. -/
structure Stood (g g' : Holdings) (w : World Client Disk) : Prop where
  stands : Stands g' w.handle w.disk
  since : ∀ e ∈ g'.all, e ∈ g.all ∨ (e.db = w.handle.db ∧ e.disk = w.disk)

theorem Stood.same {w : World Client Disk} (h : Stands g w.handle w.disk) : Stood g g w :=
  ⟨h, fun _ he => .inl he⟩

/-- **Every command leaves alone what somebody else holds.** -/
theorem run_stands (i : Command) (hi : g.apart i c d) (hn : Numbered ⟨[], []⟩ c d)
    (h : Stands g c d) :
    RunsTo (Disk.Holds (g.cut i c d).free) (run i) ⟨c, d, []⟩ (Stood g (g.note i c d)) := by
  have hfile := h.onFile
  have hcut : ∀ d', Disk.Holds g.all d' → Disk.Holds (g.cut i c d).free d' := fun d' hd =>
    hd.sub (Holdings.cut_sub _)
  cases i with
  | call call =>
    refine onDb_runs ?_
    have hclosed : c.db = noHandle → RunsTo (Disk.Holds (g.cut (.call call) c d).free)
        call.run ⟨c.db, d, []⟩ (fun w' => Stood g (g.note (.call call) c d)
          ⟨⟨w'.handle, c.views, c.stale⟩, w'.disk, w'.trace⟩) := by
      intro hno
      obtain ⟨hfree, howned⟩ := Holdings.note_noHandle (g := g) (d := d) hno call
      have hall : ∀ e ∈ (g.note (.call call) c d).all, e ∈ g.all := fun e he =>
        (mem_append.mp he).elim (fun he => mem_append_left _ (hfree e he)) fun he =>
          mem_append_right _ (howned e he)
      have hstands : Stands (g.note (.call call) c d) c d := by
        refine h.imp (fun hu => hu.sub hall fun _ hv => hv) fun ⟨hno, hviews, hnone, hdur, hd⟩ =>
          ⟨hno, hviews, ?_, fun e he => hdur e (hfree e he), hd.sub hfree⟩
        rw [hnone] at howned
        exact eq_nil_iff_forall_not_mem.mpr fun e he => absurd (howned e he) not_mem_nil
      refine (run_noHandle call hno).both (fun _ hd => hd) fun w' hw' => ?_
      rw [hw']
      exact ⟨hstands, fun e he => .inl (hall e he)⟩
    rcases hn with hc | ⟨hno, -, -⟩
    · rcases h with hu | ⟨hno, -, -, -, -⟩
      · exact (call_carried call hi hc hu).both (fun _ hd => hd) fun _ hq =>
          ⟨.of_upheld hq.upheld, hq.since⟩
      · exact hclosed hno
    · exact hclosed hno
  | beginReadView =>
    rcases h with hu | hshut
    · refine .bind (R := fun v w => DB.Upheld g.all
        (v.snapshotId :: w.handle.views.map ReadView.snapshotId)
        ⟨w.handle.db, w.disk, []⟩) (onDb_runs ?_) fun v w₁ hw₁ =>
          .of_modifyHandle (.same (.inl hw₁))
      refine (DB.beginReadView_holds hu.1 hi.1).mono hcut
        (fun v w' hq => ⟨hq.1.congr rfl rfl, fun e he hv => ?_⟩)
        fun _ _ he => .same (.of_upheld ⟨he, hu.2⟩)
      rcases mem_cons.mp hv with heq | hv
      · exact hq.2 e he heq
      · exact hu.2 e he hv
    · exact beginReadView_refused (stopped_noHandle hshut.1) fun _ => .same (.inr hshut)
  | dropReadView index =>
    refine .handle ?_
    cases hv : c.views[index]? with
    | none => exact .pure (.same h)
    | some v =>
      refine .modifyHandle (onDb_runs ?_)
      rcases h with hu | ⟨-, hviews, -⟩
      · have hless : DB.Upheld g.all ((c.views.eraseIdx index).map ReadView.snapshotId)
          ⟨c.db, d, []⟩ :=
          hu.sub (fun _ he => he) fun _ hv => ((eraseIdx_sublist _ _).map _).subset hv
        have hid : ∀ e ∈ g.all, e.id ≠ v.snapshotId := fun e he heq =>
          hu.2 e he (heq ▸ mem_map_of_mem (mem_of_getElem? hv))
        exact (DB.dropReadView_holds hless.1 hid).both hcut fun _ hq =>
          .same (.of_upheld ⟨hq, hless.2⟩)
      · rw [hviews] at hv
        cases hv
  | dropStaleView index =>
    refine .handle ?_
    cases hv : c.stale[index]? with
    | none => exact .pure (.same h)
    | some v =>
      refine .modifyHandle (onDb_runs ?_)
      have hid := hi.2 v hv
      rcases h with hu | ⟨hno, hviews, hnone, hdur, hd⟩
      · exact (DB.dropSidecar_holds hu.1 hid).both hcut fun _ hq => .same (.of_upheld ⟨hq.1, hu.2⟩)
      have hd' : Disk.Holds g.free { d with retained := d.retained.filter fun entry =>
          entry.1 ≠ v.snapshotId } :=
        ⟨hd.bound, hd.root, fun e he hdur => (lookup_erased _ (hid e (mem_append_left _ he))).trans
          (hd.image e he hdur)⟩
      exact .of_write (hd'.sub fun e he => (mem_filter.mp he).1)
        (.same (.inr ⟨hno, hviews, hnone, hdur, hd'⟩))
  | reopen options =>
    have hsub : ∀ e ∈ g.lasting.free, e ∈ g.all ∧ e.durable = true := fun e he =>
      ⟨mem_append_left _ (mem_filter.mp he).1, (mem_filter.mp he).2⟩
    have hlast : ∀ e ∈ g.lasting.all, e ∈ g.all := by
      intro e he
      rw [Holdings.all, Holdings.lasting, append_nil] at he
      exact mem_append_left _ (mem_filter.mp he).1
    have hkept : ∀ d', d.SameRoots d' → Disk.Holds g.lasting.free d' := by
      intro d' hsame
      refine ⟨hsame.registry ▸ hfile.bound, fun e he hdur => ?_, fun e he hdur => ?_⟩
      · rw [hsame.registry]
        exact hfile.root e (hsub e he).1 hdur
      · obtain ⟨m, -, hin⟩ := hfile.root e (hsub e he).1 hdur
        exact (hsame.images _ hin).trans (hfile.image e (hsub e he).1 hdur)
    refine .modifyHandle (.onError (R := fun _ w => w.handle.views = [] ∧
      Disk.Holds g.lasting.free w.disk) (onDb_runs ?_) fun _ w' hw' => ?_)
    · exact (DB.openDb_loads _ options).mono hkept
        (fun _ w' hq => ⟨.of_upheld (upheld_of_loaded hfile
          (counts_of_loaded hn.filed (.inr rfl) hq.1.registry hq.2) hq.1 hq.2), fun e he =>
            .inl (hlast e he)⟩)
        fun _ w' he => ⟨rfl, hkept _ he⟩
    · exact .of_modifyHandle ⟨.inr ⟨rfl, hw'.1, rfl, fun e he => (hsub e he).2, hw'.2⟩, fun e he =>
        .inl (hlast e he)⟩

/-- Without a handle only an open writes to the data file or the log. -/
theorem run_noHandle_core (i : Command) (hno : c.db = noHandle) (hviews : c.views = [])
    (hi : ∀ options, i ≠ .reopen options) :
    RunsTo (fun d' => d'.core = d.core) (run i) ⟨c, d, []⟩ (fun w => w.disk.core = d.core) := by
  cases i with
  | call call =>
    refine onDb_runs ((run_noHandle call hno).both (fun _ hd => hd) fun w' hw' => ?_)
    rw [hw']
  | beginReadView => exact beginReadView_refused (stopped_noHandle hno) fun _ => rfl
  | dropReadView index =>
    refine .handle ?_
    rw [hviews]
    exact .pure rfl
  | dropStaleView index =>
    refine .handle ?_
    cases c.stale[index]? with
    | none => exact .pure rfl
    | some v => exact .modifyHandle (onDb_runs (.of_write rfl rfl))
  | reopen options => exact absurd rfl (hi options)

/-- The holds whose tables and pages the command `i` keeps. -/
def Survives (i : Command) (e : Hold) : Prop := ∀ options, i = .reopen options → e.durable = true

/-- The root of a hold is one of those that the command keeps. -/
theorem upheld_registered (h : DB.Upheld g.all vs ⟨c.db, d, []⟩) (i : Command) (he : e ∈ g.all)
    (hi : Survives i e) {m : Manifest} (hm : e.db.retainedManifest e.id = .ok m) :
    m ∈ registered c d i := by
  cases i with
  | reopen options =>
    obtain ⟨m', hm', hin⟩ := h.1.onFile.root e he (hi options rfl)
    rw [hm] at hm'
    cases hm'
    exact mem_map_of_mem (f := Prod.snd) hin
  | _ =>
    obtain ⟨root, hroot, -, hm'⟩ := h.1.root e he
    rw [hm] at hm'
    cases hm'
    exact mem_map_of_mem (f := RetainedRoot.manifest) (RetentionState.mem_allRoots hroot)

theorem run_backs (i : Command) (hinv : Inv 0 c d) (h : Stands g c d) :
    RunsTo (fun d' => DiskInv .none 0 d' ∧ ∀ e ∈ g.all, Survives i e → e.Backed d → e.Backed d')
      (run i) ⟨c, d, []⟩ (fun w => Inv 0 w.handle w.disk ∧ ∀ e ∈ g.all, Survives i e → e.Backed d →
        e.Backed w.disk) := by
  have hcases : (∀ e ∈ g.all, Survives i e → ∀ m, e.db.retainedManifest e.id = .ok m →
      m ∈ registered c d i) ∨ (c.db = noHandle ∧ c.views = [] ∧ ∀ options,
        i ≠ .reopen options) := by
    rcases h with hu | ⟨hno, hviews, hnone, hdur, hd⟩
    · exact .inl fun e he hs m hm => upheld_registered hu i he hs hm
    by_cases hi : ∃ options, i = .reopen options
    · obtain ⟨options, rfl⟩ := hi
      refine .inl fun e he hs m hm => ?_
      have hfree : e ∈ g.free := by simpa [Holdings.all, hnone] using he
      obtain ⟨m', hm', hin⟩ := hd.root e hfree (hdur e hfree)
      rw [hm] at hm'
      cases hm'
      exact mem_map_of_mem (f := Prod.snd) hin
    · exact .inr ⟨hno, hviews, fun options heq => hi ⟨options, heq⟩⟩
  have hruns := run_inv i hinv
  rcases hcases with hreg | ⟨hno, hviews, hi⟩
  · have hkept : ∀ d', Held (keeping 0 c d i) d' → ∀ e ∈ g.all, Survives i e →
      e.Backed d → e.Backed d' := by
      rintro d' hheld e he hs ⟨m, t, hm, ht, hb⟩
      exact ⟨m, t, hm, ht, Backed.kept (hreg e he hs m hm) hb hinv hheld⟩
    exact hruns.both (fun d' hd' => ⟨hd'.1.weaken, hkept d' hd'.2⟩) fun w hq =>
      ⟨hq.inv, hkept _ hq.held⟩
  · have hcore : ∀ d' : Disk, d'.core = d.core → ∀ e ∈ g.all, Survives i e →
      e.Backed d → e.Backed d' :=
      fun d' hd' e _ _ ⟨m, t, hm, ht, hb⟩ => ⟨m, t, hm, ht, hb.congr hd'⟩
    exact (hruns.and (run_noHandle_core i hno hviews hi)).both
      (fun d' hd' => ⟨hd'.1.1.weaken, hcore d' hd'.2⟩) fun w hq => ⟨hq.1.inv, hcore _ hq.2⟩

/-- **The invariant of the holdings.** -/
structure Standing (g : Holdings) (c : Client) (d : Disk) : Prop where
  inv : Inv 0 c d
  numbered : Numbered ⟨[], []⟩ c d
  stands : Stands g c d
  backed : ∀ e ∈ g.all, e.Backed d

/-- What a crash finds. -/
structure Filed (g : Holdings) (d : Disk) : Prop where
  disk : DiskInv .none 0 d
  filed : d.Filed ⟨[], []⟩
  holds : d.Holds g.free
  owned : g.owned = []
  durable : ∀ e ∈ g.free, e.durable = true
  backed : ∀ e ∈ g.free, e.Backed d

theorem Holdings.cut_owned (i : Command) : (g.cut i c d).owned = [] := by
  unfold Holdings.cut
  split <;> rfl

theorem Holdings.cut_durable (i : Command) : ∀ e ∈ (g.cut i c d).free, e.durable = true := by
  intro e he
  unfold Holdings.cut at he
  split at he
  · exact (mem_filter.mp he).2
  · exact (mem_filter.mp he).2

/-- A hold of a root that the handle has is backed by the file as it is. -/
theorem Inv.hold_backed {db : DB} (h : Inv 0 c d) (hdb : c.db = db) (he : e.db = db ∧ e.disk = d)
    (hroot : root ∈ db.retention.rootsOf e.durable)
    (hm : e.db.retainedManifest e.id = .ok root.manifest) : e.Backed d := by
  obtain ⟨hedb, hedisk⟩ := he
  have hall : root ∈ c.db.retention.allRoots := by
    rw [hdb]
    exact RetentionState.mem_allRoots hroot
  obtain ⟨t, ht, hb⟩ := h.backed hall
  refine ⟨root.manifest, t, hm, ?_, ?_⟩
  · rw [hedisk]
    exact ht
  · rw [hedisk]
    exact hb

theorem run_standing (i : Command) (hi : g.apart i c d) (h : Standing g c d) :
    RunsTo (Filed (g.cut i c d)) (run i) ⟨c, d, []⟩
      (fun w => Standing (g.note i c d) w.handle w.disk) := by
  have hsurvives : ∀ e ∈ (g.note i c d).all, Survives i e := by
    rintro e he options rfl
    rw [Holdings.note, Holdings.all, Holdings.lasting, append_nil] at he
    exact (mem_filter.mp he).2
  have hpost : ∀ w : World Client Disk, Numbered (note ⟨[], []⟩ i c d) w.handle w.disk →
      Stood g (g.note i c d) w → (Inv 0 w.handle w.disk ∧ ∀ e ∈ g.all, Survives i e →
        e.Backed d → e.Backed w.disk) →
      Standing (g.note i c d) w.handle w.disk := by
    intro w hn hs hb
    refine ⟨hb.1, hn.forget, hs.stands, fun e he => ?_⟩
    rcases hs.since e he with hold | hnew
    · exact hb.2 e hold (hsurvives e he) (h.backed e hold)
    rcases hs.stands with hu | ⟨hno, -, howned, hdur, hd⟩
    · obtain ⟨root, hroot, -, hm⟩ := hu.1.root e he
      exact hb.1.hold_backed rfl hnew hroot hm
    -- without a handle there is no root to be taken
    have hfree : e ∈ (g.note i c d).free := by simpa [Holdings.all, howned] using he
    have hdurable := hdur e hfree
    rw [Hold.durable, hnew.1, hno] at hdurable
    cases hdurable
  refine ((run_numbered i (fun _ _ => .inr rfl) h.numbered).and
    ((run_stands i hi h.numbered h.stands).and
    (run_backs i h.inv h.stands))).both (fun d' hd' => ?_) fun w hq => hpost w hq.1 hq.2.1 hq.2.2
  obtain ⟨hf, hholds, hdisk, hb⟩ := hd'
  exact ⟨hdisk, hf, hholds, Holdings.cut_owned i, Holdings.cut_durable i, fun e he =>
    hb e (Holdings.cut_sub i e he) (fun _ _ => Holdings.cut_durable i e he)
      (h.backed e (Holdings.cut_sub i e he))⟩

theorem Standing.of_crash {d' : Disk} (h : Filed g d) (hc : Disk.Crash d d') :
    Standing g start d' := by
  have hpins : d'.pins = d.pins := by rw [Disk.pins, Disk.pins, hc.registry, hc.retained]
  refine ⟨Inv.of_crash h.disk hc, .inr ⟨rfl, rfl, h.filed.congr hc.registry⟩,
    .inr ⟨rfl, rfl, h.owned, h.durable, h.holds.congr hpins⟩, fun e he => ?_⟩
  have hfree : e ∈ g.free := by simpa [Holdings.all, h.owned] using he
  obtain ⟨m, t, hm, ht, hb⟩ := h.backed e hfree
  exact ⟨m, t, hm, ht, hb.crash h.disk.log hc⟩

theorem Standing.onFile (i : Command) (h : Standing g c d) : Filed (g.cut i c d) d :=
  ⟨h.inv.diskInv, h.numbered.filed, h.stands.onFile.sub (Holdings.cut_sub i), Holdings.cut_owned i,
    Holdings.cut_durable i, fun e he => h.backed e (Holdings.cut_sub i e he)⟩

theorem standing_of_recorded (h : (system anyCommand).Recorded Holdings.recorder
    Holdings.apart g c d) :
    Standing g c d := by
  refine h.invariant (D := Filed) ?_ (fun g i c d => run_standing i)
    (fun g i c d _ hs => hs.onFile i) fun g d d' hd hc => .of_crash hd hc
  rintro _ ⟨space, rfl⟩
  exact ⟨Inv.of_initial space, Numbered.of_initial space, Or.inr ⟨rfl, rfl, rfl, forall_mem_nil _,
    (by decide : 1 ≤ u64Max), forall_mem_nil _, forall_mem_nil _⟩,
    forall_mem_nil _⟩

/-- A held id reads as it did when it was returned. -/
theorem Standing.sameRead (h : Standing g c d) (hread : c.db.checkReadable = .ok ())
    (he : e ∈ g.all) :
    DB.SameRead e.id e.db e.disk c.db d := by
  have hopen : c.db ≠ noHandle := by
    intro hno
    have hopen := (DB.checkFence_ok hread).1
    rw [hno] at hopen
    cases hopen
  have hc := h.numbered.resolve_right fun hno => hopen hno.1
  have hu := h.stands.resolve_right fun hno => hopen hno.1
  obtain ⟨root, hroot, hid, hm⟩ := hu.1.root e he
  obtain ⟨m, t, hm', ht, hb⟩ := h.backed e he
  rw [hm] at hm'
  cases hm'
  refine ⟨⟨root.manifest, t, hm, ?_, ht, hb.selects.manifestPmt h.inv.diskInv.log, hb.nodes⟩,
    hu.1.image e he⟩
  rw [← hid]
  exact DB.retainedManifest_eq hc hu.1 (RetentionState.mem_allRoots hroot)

end Client

/-! ## What a view reads -/

def Disk.stores (d : Disk) : Option Device × Segments := (d.data, d.segments)

section

variable {d d' : Disk}

theorem ReadView.value_congr (v : ReadView) (h : d'.stores = d.stores) :
    v.value d' = v.value d := by
  have hseg : d'.segments = d.segments := congrArg Prod.snd h
  have hrecords : ∀ fileId, v.blobs.records d' fileId = v.blobs.records d fileId := by
    intro fileId
    cases v.blobs with
    | image files => rfl
    | segments fileIds => rw [BlobReadView.records, BlobReadView.records, hseg]
  funext result
  cases result with
  | blob pointer =>
    rw [ReadView.value, ReadView.value, BlobReadView.read, BlobReadView.read, hrecords]
  | _ => rfl

theorem Disk.device_of_stores (h : d'.stores = d.stores) : d'.device = d.device :=
  congrArg (fun s => s.1.getD Device.empty) h

theorem ReadView.get_congr (v : ReadView) (h : d'.stores = d.stores) (key : Bytes) :
    v.get d' key = v.get d key := by
  rw [ReadView.get, ReadView.get, Disk.device_of_stores h, v.value_congr h]

theorem ReadView.values_congr (v : ReadView) (h : v.value d' = v.value d)
    (entries : List (Bytes × LookupResult)) :
    v.values d' entries = v.values d entries := by
  induction entries with
  | nil => rfl
  | cons entry rest ih =>
    obtain ⟨key, result⟩ := entry
    rw [ReadView.values, ReadView.values, h, ih]

theorem ReadView.range_congr (v : ReadView) (h : d'.stores = d.stores) (start end_ : Bytes) :
    v.range d' start end_ = v.range d start end_ := by
  simp only [ReadView.range, Disk.device_of_stores h, v.values_congr (v.value_congr h)]

end

/-- The commands that only end something. -/
def Command.drops : Command → Bool
  | .call (.releaseSnapshot _) => true
  | .call (.releaseRoot _) => true
  | .dropReadView _ => true
  | .dropStaleView _ => true
  | _ => false

namespace Client

variable {g : Holdings} {c : Client} {d : Disk}

section

variable {γ κ : Type} {f : DB → γ} {k : Disk → κ}

theorem onDb_keeps {p : DbM α} (hp : Keeps f k p) {w : World Client Disk} :
    RunsTo (fun d' => k d' = k w.disk) (onDb p) w
    (fun w' => f w'.handle.db = f w.handle.db ∧ k w'.disk = k w.disk) :=
  onDb_runs (Keeps.runs hp (fun _ hd => hd) fun _ hw' => hw')

/-- They change pins and slots and nothing else. -/
theorem run_drops_keeps (h : Pinning f k) (he : ∀ db engine, f { db with engine := engine } = f db)
    {i : Command} (hi : i.drops = true) : RunsTo (fun d' => k d' = k d) (run i) ⟨c, d, []⟩
      (fun w => f w.handle.db = f c.db ∧ k w.disk = k d) := by
  cases i with
  | call call =>
    cases call with
    | releaseSnapshot id =>
      exact onDb_keeps (.bind (.bind .handle fun _ => .lift _) fun _ => h.releaseRoot he id)
    | releaseRoot id => exact onDb_keeps (h.releaseRoot he id)
    | _ => cases hi
  | dropReadView index =>
    refine .handle ?_
    cases c.views[index]? with
    | none => exact .pure ⟨rfl, rfl⟩
    | some v => exact .modifyHandle (onDb_keeps (h.dropReadView he v))
  | dropStaleView index =>
    refine .handle ?_
    cases c.stale[index]? with
    | none => exact .pure ⟨rfl, rfl⟩
    | some v => exact .modifyHandle (onDb_keeps (h.dropSidecar _))
  | _ => cases hi

end

theorem run_drops {i : Command} (hi : i.drops = true) : RunsTo (fun _ => True) (run i) ⟨c, d, []⟩
    (fun w => w.disk.stores = d.stores) := by
  have hpins : Pinning (fun _ : DB => ()) Disk.stores :=
    ⟨fun _ _ => rfl, fun _ _ => rfl, fun _ _ => rfl, fun _ _ => rfl⟩
  exact (run_drops_keeps hpins (fun _ _ => rfl) hi).both (fun _ _ => trivial) fun _ hw => hw.2

/-! ## Independence -/

/-- **Leases are independent**, in every run in which no root is dropped for another holder: every
id that is held reads as it did when it was returned, and ending a lease changes nothing that an
open view reads. -/
theorem leases_independent (h : (system anyCommand).Recorded Holdings.recorder
    Holdings.apart g c d) :
    (c.db.checkReadable = .ok () → ∀ e ∈ g.all,
      (∀ key, c.db.getAt d e.id key = e.db.readAt e.disk e.id key) ∧
      ∀ start end_, c.db.rangeAt d e.id start end_ = e.db.readRangeAt e.disk e.id start end_) ∧
    ∀ i : Command, i.drops = true → ∀ v : ReadView,
      (∀ key, v.get ((run i).final ⟨c, d, []⟩).disk key = v.get d key) ∧
      ∀ start end_, v.range ((run i).final ⟨c, d, []⟩).disk start end_ = v.range d start end_ := by
  refine ⟨fun hread e he => ?_, fun i hi v => ?_⟩
  · have hsame := (standing_of_recorded h).sameRead hread he
    refine ⟨fun key => ?_, fun start end_ => ?_⟩
    · rw [DB.getAt_eq hread, hsame.readAt]
    · rw [DB.rangeAt_eq hread, hsame.readRangeAt]
  · have hstores := (run_drops (c := c) (d := d) hi).final
      (Q := fun w : World Client Disk => w.disk.stores = d.stores)
    exact ⟨v.get_congr hstores, v.range_congr hstores⟩

/-- A commit is retained while a snapshot handle has a root of an earlier one; the handle ends
first. -/
def retainBeside : List Command := [.reopen Options.default, .call (.put [1] [1]), .call .flush,
  .call (.retainCurrent true), .call (.put [1] [2]), .call .flush, .call (.retainCommit 2),
  .call (.releaseRoot 1), .call (.put [1] [3]), .call .flush]

/-- What is held, and the state, after `retainBeside`. -/
def besideState : Holdings × Client × Disk :=
  (system anyCommand).recordAll Holdings.recorder retainBeside ⟨[], []⟩ start (Disk.empty [])

theorem recorded_retainBeside :
    (system anyCommand).Recorded Holdings.recorder Holdings.apart besideState.1
    besideState.2.1 besideState.2.2 := by
  refine .recordAll retainBeside (.initial ⟨[], rfl⟩) ?_
  refine ⟨⟨by decide +kernel, rfl⟩, ⟨by decide +kernel, trivial⟩, ⟨by decide +kernel, trivial⟩,
    ⟨by decide +kernel, trivial⟩, ⟨by decide +kernel, trivial⟩, ⟨by decide +kernel, trivial⟩,
    ⟨by decide +kernel, trivial⟩, ⟨by decide +kernel, by decide +kernel⟩,
    ⟨by decide +kernel, trivial⟩, ⟨by decide +kernel, trivial⟩, trivial⟩

theorem leases_independent_retainBeside :
    besideState.1.all.map Hold.id = [2] ∧ besideState.2.1.db.getAt besideState.2.2 2 [1] =
      .ok (some [2]) ∧ ∀ e ∈ besideState.1.all, ∀ key,
        besideState.2.1.db.getAt besideState.2.2 e.id key = e.db.readAt e.disk e.id key :=
  have hread : besideState.2.1.db.checkReadable = .ok () := by decide +kernel
  ⟨by decide +kernel, by decide +kernel,
    fun e he => ((leases_independent recorded_retainBeside).1 hread e he).1⟩

/-- A commit is retained while a snapshot handle has its root; the handle ends. -/
def retainShared : List Command := [.reopen Options.default, .call (.put [1] [1]), .call .flush,
  .call (.retainCurrent true), .call (.retainCommit 1), .call (.releaseRoot 1)]

/-- The id that `retainCommit` returned was readable, and is gone with the handle. -/
theorem lease_shared : ∃ g c d, (system anyCommand).Recorded Holdings.recorder
    (fun _ _ _ _ => True) g c d ∧ c.db.checkReadable = .ok () ∧ ∃ e ∈ g.free,
      e.db.getAt e.disk e.id [1] = .ok (some [1]) ∧
      c.db.getAt d e.id [1] = .error (.snapshotUnavailable "retained root 1 is not active") := by
  let s := (system anyCommand).recordAll Holdings.recorder retainShared
    ⟨[], []⟩ start (Disk.empty [])
  have hfound : s.1.free.any (fun e => decide (e.db.getAt e.disk e.id [1] = .ok (some [1]) ∧
      s.2.1.db.getAt s.2.2 e.id [1] = .error
        (.snapshotUnavailable "retained root 1 is not active"))) = true := by
    decide +kernel
  obtain ⟨e, he, hreads⟩ := any_eq_true.mp hfound
  exact ⟨s.1, s.2.1, s.2.2, .recordAll retainShared (.initial ⟨[], rfl⟩)
    (System.allowedAll_of_forall (fun _ _ _ _ =>
      trivial) _ _ _ _), by decide +kernel, e, he, of_decide_eq_true hreads⟩

end Client

end SeerDb
