/-
# `SeerDb.Db.OpenSpec` — opening a database

The last frame of the log is the authority, since every frame of the log resolves.
The engine is loaded over its table with the slots of the registered roots kept out
of the free list, before recovery publishes anything.  What the open leaves is a
sound handle without views; an open that fails leaves the directory as it may be
found after any other call.
-/
import SeerDb.Db.RetainSpec

namespace SeerDb

open Lib List

variable {ctx : Ctx} {w w' : World DB Disk} {d d' : Disk} {m : Manifest} {engine : StorageEngine}
  {ret : RetentionState} {databaseId historyId : Nat}

/-! ## What is selected -/

/-- What an open starts from: a new directory, or the manifest of the last frame. -/
def Selected (d : Disk) (catalog : DB.OpenCatalog) : Prop :=
  (catalog.currentManifest = none ∧ d.metaLog = none ∧ d.wal = none) ∨
    ∃ f, d.frames.getLast? = some f ∧ catalog.currentManifest = some f.manifest ∧ d.data.isSome ∧
      catalog.manifestHistory.latest = some f.manifest

theorem selectCatalog_ok {stamping : Stamping} {mark : GenerationId} (h : DiskInv stamping mark d)
    {catalog : DB.OpenCatalog} (hc : DB.selectCatalog d = .ok catalog) : Selected d catalog := by
  have hframes : (d.parsedMetaLog.getD ⟨[], true⟩).frames = d.frames := by
    cases hp : d.parsedMetaLog with
    | none => exact (Disk.frames_of_none hp).symm
    | some p => exact Disk.parsedMetaLog_frames hp
  rw [DB.selectCatalog] at hc
  generalize d.parsedMetaLog.getD ⟨[], true⟩ = parsed at hc hframes
  obtain ⟨frames, complete⟩ := parsed
  obtain rfl : frames = d.frames := hframes
  simp only [h.log.selectAuthorityManifest complete] at hc
  split at hc
  · cases hc
  split at hc
  · cases hc
  rename_i hdata
  cases hlast : d.frames.getLast? with
  | none =>
    have hnil := List.getLast?_eq_none_iff.mp hlast
    have hnone : d.data = none := by
      rw [hnil] at hdata
      simpa using hdata
    rw [hlast] at hc
    cases hc
    exact .inl ⟨rfl, (h.fresh hnone).2, (h.fresh hnone).1⟩
  | some f =>
    rw [hlast] at hc
    simp only [Option.map_some] at hc
    split at hc
    · cases hc
    rename_i hsome
    split at hc
    · cases hc
    rename_i history hhist
    cases hc
    refine .inr ⟨f, hlast, rfl, ?_, ManifestHistory.reconcileCurrent_latest hhist⟩
    exact Option.isSome_iff_ne_none.mpr fun hn => hsome (by rw [hn]; rfl)

/-- Recovery only takes over commits of later generations. -/
theorem recoverFromWal_ahead {current : Manifest} : ∀ (records : List WalRecord) (offset : Nat)
    (pending : List WalRecord) (last : Option (CommitRecord × Nat)) (c : DB.Candidate)
    {last' : Option (CommitRecord × Nat)} {c' : DB.Candidate},
    recoverFromWal (some current) records offset pending last c = .ok (last', c') →
    (∀ p, last = some p → current.generationId < p.1.generationId) →
    ∀ p, last' = some p → current.generationId < p.1.generationId
  | [], _, _, last, c, last', c', h, hl => by
    cases h
    exact hl
  | .mutation recordType payload :: rest, offset, pending, last, c, last', c', h, hl => by
    rw [recoverFromWal] at h
    exact recoverFromWal_ahead rest _ _ last c h hl
  | .commit commit :: rest, offset, pending, last, c, last', c', h, hl => by
    rw [recoverFromWal] at h
    split at h
    · cases h
    simp only at h
    split at h
    · cases h
    · exact recoverFromWal_ahead rest _ _ last c h hl
    rename_i hahead
    split at h
    · cases h
    · refine recoverFromWal_ahead rest _ _ _ _ h fun p hp => ?_
      cases hp
      exact (aheadOf_true hahead).2

/-- Replay changes the resident tree, and ends at a later generation. -/
theorem recoverWal_ok {current : Option Manifest} {engine' : StorageEngine}
    {blobs blobs' : BlobManager} {recovery : Option RecoverySummary}
    (h : DB.recoverWal d current engine blobs = .ok (engine', blobs', recovery)) :
    (∃ t root, engine' = { engine with btree := t, lazyRoot := root }) ∧
      (d.wal = none → recovery = none) ∧
      ∀ m, current = some m → ∀ r, recovery = some r → ∀ commit, r.lastCommit = some commit →
        m.generationId < commit.generationId := by
  rw [DB.recoverWal] at h
  split at h
  · cases h
    exact ⟨⟨engine.btree, engine.lazyRoot, rfl⟩, fun _ => rfl, fun m _ r hr => by cases hr⟩
  rename_i wal hwal
  split at h
  · cases h
  split at h
  · cases h
    exact ⟨⟨engine.btree, engine.lazyRoot, rfl⟩, fun _ => rfl, fun m _ r hr => by cases hr⟩
  split at h
  · cases h
  rename_i e he
  obtain ⟨t, root, rfl⟩ := StorageEngine.ensureMaterialized_rest he
  split at h
  · cases h
  rename_i last c hrec
  cases h
  refine ⟨⟨c.btree, root, rfl⟩, fun hn => ?_, ?_⟩
  · rw [hwal] at hn
    cases hn
  · rintro m rfl r ⟨⟩ commit hcommit
    obtain ⟨p, hp, rfl⟩ := Option.map_eq_some_iff.mp hcommit
    exact recoverFromWal_ahead _ _ _ _ _ hrec (fun p hp => by cases hp) p hp

/-- The engine an open starts with. -/
theorem loadEngine_slots {pmt : PMT} {allocator : PageAllocator} {current : Option Manifest}
    {keep : List Nat} (hwf : pmt.WF) (ha : pageSize ∣ d.device.size)
    (hmapped : ∀ o ∈ pmt.offsets, InFile d.device.size o)
    (hkeep : ∀ o ∈ keep, InFile d.device.size o)
    (h : DB.loadEngine d pmt allocator current keep = .ok engine) :
    engine.SlotInv d.device.size [] (keep ++ pmt.offsets) ∧ engine.pmt = pmt ∧
      engine.pendingReclaimedOffsets = [] ∧ engine.rebuildReservedOffsets = [] := by
  have hslots : StorageEngine.SlotInv
      ((StorageEngine.new pmt allocator).refreshReclamation d.device keep)
      d.device.size [] (keep ++ pmt.offsets) := by
    refine StorageEngine.SlotInv.refreshed hwf ha hmapped (forall_mem_nil _) rfl
      (fun o ho => ?_) fun o ho => (mem_append.mp ho).imp_right .inl
    exact (mem_append.mp ho).elim (hkeep o) (hmapped o)
  cases current with
  | none =>
    cases h
    exact ⟨hslots, rfl, rfl, rfl⟩
  | some current =>
    have hload : StorageEngine.loadFromManifest _ _ _ _ = .ok engine := h
    rw [StorageEngine.loadFromManifest] at hload
    split at hload
    · split at hload
      · cases hload
      cases hload
      refine ⟨?_, rfl, rfl, rfl⟩
      exact { hslots with
        free_in := by simp
        sorted := .nil
        free := by simp
        free_retired := fun o _ => not_mem_nil }
    · split at hload
      · cases hload
      · cases hload
        refine ⟨hslots.congr rfl rfl ?_ rfl rfl, rfl, rfl, rfl⟩
        simp [StorageEngine.refreshReclamation, StorageEngine.new]

/-! ## The directory without a handle -/

/-- Between two handles: nothing of the data file or the log is still to be synced. -/
structure Shut (ctx : Ctx) (d : Disk) : Prop where
  disk : DiskInv ctx.stamping ctx.mark d
  kept : Kept ctx.kept ctx.start d.device
  synced : d.device.unsynced = []
  durable : d.durable = d.frames.length
  tabled : Tabled ctx.tables d

theorem Shut.lasting (h : Shut ctx d) : Lasting ctx d := ⟨h.disk, h.kept, h.tabled⟩

theorem Steady.shut (h : Steady ctx w) : Shut ctx w.disk := { h with }

theorem Shut.congr (h : Shut ctx d) (hcore : d'.core = d.core)
    (hwal : d.data = none → d'.wal = none) :
    Shut ctx d' := by
  obtain ⟨-, hlog, hdev, hframes, hdurable⟩ := Disk.core_eq hcore
  refine ⟨h.disk.congr_fresh hcore hwal, hdev ▸ h.kept, hdev ▸ h.synced, ?_, h.tabled.congr hlog⟩
  rw [hdurable, hframes]
  exact h.durable

/-- The slots and tables to be kept are those of roots in the registry. -/
structure Listed (ctx : Ctx) (d : Disk) : Prop where
  slots : ∀ o ∈ ctx.kept, ∃ root ∈ (d.registry.getD .new).roots, ∃ t, DB.manifestPmt d root.2 =
    .ok t ∧ o ∈ t.offsets
  tables : ∀ e ∈ ctx.tables, e.1 ≠ 0 ∧ ∃ root ∈ (d.registry.getD .new).roots,
    root.2.pmtCheckpointId = e.1

/-- The roots of the registry are loaded. -/
structure Loaded (ctx : Ctx) (ret : RetentionState) (d : Disk) : Prop extends Shut ctx d where
  named : ∀ r ∈ ret.namedRoots, Rooted [] d.frames r ∧ ∀ o ∈ r.offsets, InFile d.device.size o
  ephemeral : ret.ephemeralRoots = []
  covers : ∀ o ∈ ctx.kept, ∃ r ∈ ret.namedRoots, o ∈ r.offsets
  tables : ∀ e ∈ ctx.tables, e.1 ≠ 0 ∧ ∃ r ∈ ret.namedRoots, r.manifest.pmtCheckpointId = e.1

theorem Loaded.congr (h : Loaded ctx ret d) (hcore : d'.core = d.core)
    (hwal : d.data = none → d'.wal = none) : Loaded ctx ret d' := by
  obtain ⟨-, -, hdev, hframes, -⟩ := Disk.core_eq hcore
  refine ⟨h.toShut.congr hcore hwal, ?_, h.ephemeral, h.covers, h.tables⟩
  rw [hframes, hdev]
  exact h.named

/-! ## Retained roots -/

theorem DB.loadManifestOffsets_covers {id : SnapshotId} {offsets : List Nat} {t : PMT}
    (h : DB.loadManifestOffsets d m id = .ok offsets) (ht : DB.manifestPmt d m = .ok t) :
    ∀ o ∈ t.offsets, o ∈ offsets := by
  rw [DB.loadManifestOffsets] at h
  split at h
  · rename_i h0
    rw [DB.manifestPmt, if_pos h0] at ht
    cases ht
    exact forall_mem_nil _
  rw [ht] at h
  simp only at h
  split at h
  · cases h
  obtain ⟨rfl, -⟩ := DB.mappedOffsets_ok _ h
  intro o ho
  rw [PMT.offsets] at ho
  rw [map_map]
  exact ho

theorem DB.loadRetainedRoot_ok {root : SnapshotId × Manifest} {r : RetainedRoot}
    (h : DB.loadRetainedRoot d databaseId historyId root = .ok r) : ∃ offsets,
      r = ⟨root.1, root.2, offsets⟩ ∧ DB.loadManifestOffsets d root.2 root.1 = .ok offsets := by
  rw [DB.loadRetainedRoot] at h
  split at h
  · cases h
  split at h
  · cases h
  split at h
  · cases h
  split at h
  · cases h
  split at h
  · cases h
  · rename_i offsets hoff
    cases h
    exact ⟨offsets, rfl, hoff⟩

theorem DB.loadRetainedRoots_ok (hlog : LogWF d.frames) :
    ∀ (roots : List (SnapshotId × Manifest)) {rs : List RetainedRoot},
    DB.loadRetainedRoots d databaseId historyId roots = .ok rs →
    (∀ r ∈ rs, Rooted [] d.frames r ∧ ∀ o ∈ r.offsets, InFile d.device.size o) ∧
      ∀ root ∈ roots, ∀ t, DB.manifestPmt d root.2 = .ok t → ∀ o ∈ t.offsets,
        ∃ r ∈ rs, o ∈ r.offsets
  | [], rs, h => by
    cases h
    exact ⟨by simp, by simp⟩
  | root :: roots, rs, h => by
    rw [DB.loadRetainedRoots] at h
    split at h
    · cases h
    rename_i r hroot
    split at h
    · cases h
    rename_i found hrest
    cases h
    obtain ⟨offsets, rfl, hoff⟩ := DB.loadRetainedRoot_ok hroot
    obtain ⟨hfound, hcover⟩ := DB.loadRetainedRoots_ok hlog roots hrest
    refine ⟨fun r' hr' => ?_, fun root' hr' t ht o ho => ?_⟩
    · rcases mem_cons.mp hr' with rfl | hr'
      · exact DB.loadManifestOffsets_ok hlog hoff _
      · exact hfound r' hr'
    · rcases mem_cons.mp hr' with rfl | hr'
      · exact ⟨_, .head _, DB.loadManifestOffsets_covers hoff ht o ho⟩
      · obtain ⟨r', hr', hor⟩ := hcover root' hr' t ht o ho
        exact ⟨r', .tail _ hr', hor⟩

theorem DB.loadRetainedRoots_map (roots : List (SnapshotId × Manifest)) :
    ∀ {found : List RetainedRoot}, DB.loadRetainedRoots d databaseId historyId roots = .ok found →
      found.map (fun root => (root.snapshotId, root.manifest)) = roots := by
  induction roots with
  | nil =>
    intro found h
    cases h
    rfl
  | cons root roots ih =>
    intro found h
    rw [DB.loadRetainedRoots] at h
    split at h
    · cases h
    rename_i r hroot
    split at h
    · cases h
    rename_i rest hrest
    cases h
    obtain ⟨offsets, rfl, -⟩ := DB.loadRetainedRoot_ok hroot
    rw [map_cons, ih hrest]

theorem DB.loadRetention_runs (h : Shut ctx w.disk) (hlisted : Listed ctx w.disk)
    (current : Option Manifest) :
    Runs (Lasting ctx) (DB.loadRetention current) w
      (fun ret w' => Loaded ctx ret w'.disk ∧ w'.disk.core = w.disk.core ∧ w'.disk.wal = w.disk.wal)
      (fun _ w' => Shut ctx w'.disk) := by
  refine .disk (.bind (R := fun _ w₁ => Shut ctx w₁.disk ∧ w₁.disk.core = w.disk.core ∧
    w₁.disk.wal = w.disk.wal) (.runIf (fun _ => ?_) fun _ => ⟨h, rfl, rfl⟩) fun _ w₁ hw₁ => ?_)
  · have hs : ∀ retained, Shut ctx { w.disk with retained := retained } := fun _ =>
      h.congr rfl fun hn => (h.disk.fresh hn).1
    exact .of_write (hs _).lasting ⟨hs _, rfl, rfl⟩
  · obtain ⟨h₁, hcore, hwal⟩ := hw₁
    have hpmt : ∀ m, DB.manifestPmt w₁.disk m = DB.manifestPmt w.disk m := by
      intro m
      have hlog : w₁.disk.metaLog = w.disk.metaLog := congrArg Prod.snd hcore
      rw [DB.manifestPmt, DB.manifestPmt, Disk.parsedMetaLog, Disk.parsedMetaLog, hlog]
    refine .disk (.lift (fun _ _ => h₁) fun roots hroots => .pure ⟨?_, hcore, hwal⟩)
    obtain ⟨hnamed, hcover⟩ := DB.loadRetainedRoots_ok h₁.disk.log _ hroots
    refine ⟨h₁, hnamed, rfl, fun o ho => ?_, fun e he => ?_⟩
    · obtain ⟨root, hroot, t, ht, hot⟩ := hlisted.slots o ho
      exact hcover root hroot t (by rw [hpmt, ht]) o hot
    · obtain ⟨h0, root, hroot, hid⟩ := hlisted.tables e he
      rw [← DB.loadRetainedRoots_map _ hroots] at hroot
      obtain ⟨r, hr, rfl⟩ := mem_map.mp hroot
      exact ⟨h0, r, hr, hid⟩

/-! ## The handle -/

/-- The engine is loaded over the table of the last frame, and the log has no tail. -/
structure Ready (ctx : Ctx) (ret : RetentionState) (engine : StorageEngine) (d : Disk) : Prop
    extends Loaded ctx ret d where
  data : d.data.isSome
  whole : ∀ log, d.metaLog = some log → log.synced = log.records.length ∧ log.torn = 0
  newest : Newest d.frames engine.pmt.mappings
  slots : engine.SlotInv d.device.size []
    (ret.namedRoots.flatMap RetainedRoot.offsets ++ engine.pmt.offsets)
  pending : engine.pendingReclaimedOffsets = []
  reserved : engine.rebuildReservedOffsets = []

theorem Ready.congr (h : Ready ctx ret engine d)
    (hcore : d'.core = d.core) : Ready ctx ret engine d' := by
  obtain ⟨hdata, hlog, hdev, hframes, -⟩ := Disk.core_eq hcore
  refine ⟨h.toLoaded.congr hcore fun hn => ?_, hdata ▸ h.data, hlog ▸ h.whole, hframes ▸ h.newest,
    hdev ▸ h.slots, h.pending, h.reserved⟩
  have hsome := h.data
  rw [hn] at hsome
  cases hsome

/-- The handle that an open puts together. -/
theorem Ready.resting (h : Ready ctx ret engine d)
    (hviews : ctx.views = []) {db : DB} (he : db.engine = engine) (hret : db.retention = ret)
    (hlease : db.leases = []) (trace : List Disk) : Resting ctx engine.pmt ⟨db, d, trace⟩ := by
  have hprot : db.protectedOffsets = ret.namedRoots.flatMap RetainedRoot.offsets := by
    rw [DB.protectedOffsets, hret, hlease, RetentionState.allRoots, h.ephemeral]
    simp
  refine ⟨⟨h.disk, h.kept, h.data, h.synced, fun o ho => ?_, ⟨?_, ?_, fun e he => ?_⟩,
    h.tabled, ?_⟩, h.whole, h.newest, h.slots.pmt, ?_⟩
  · show o ∈ db.protectedOffsets
    rw [hprot]
    exact mem_flatMap.mpr (h.covers o ho)
  · show ∀ r ∈ db.retention.namedRoots, _
    rw [hret]
    exact fun r hr => (h.named r hr).1
  · show ∀ r ∈ db.retention.ephemeralRoots, _
    rw [hret, h.ephemeral]
    simp
  · obtain ⟨h0, r, hr, hid⟩ := h.tables e he
    exact ⟨h0, r, mem_append_left _ (hret ▸ hr), hid⟩
  · show db.leases.Perm _
    rw [hlease, hviews]
    exact List.Perm.nil
  · show db.engine.SlotInv d.device.size [] (db.protectedOffsets ++ engine.pmt.offsets)
    rw [hprot, he]
    exact h.slots

theorem DiskInv.newest_anchored {stamping : Stamping} {mark : GenerationId}
    (h : DiskInv stamping mark d) {ms : List (PageId × PageMapping)} (hnew : Newest d.frames ms)
    {t : PMT} (ht : t.mappings = ms) :
    t.WF ∧ ∀ o ∈ t.offsets, InFile d.device.size o := by
  obtain ⟨t', hnew', hwf, hin⟩ := h.anchored d.frames.length h.durable_le le_rfl
  rw [take_length] at hnew'
  have hms : t.mappings = t'.mappings := ht.trans (hnew.unique hnew')
  refine ⟨hwf.congr hms, fun o ho => (hin o ?_).1⟩
  rw [PMT.offsets_congr hms] at ho
  exact ho

/-- The log may become durable at any time. -/
theorem Loaded.log_synced (h : Loaded ctx ret d) (hsome : d.data.isSome)
    (hdata : d'.data = d.data) (hframes : d'.frames = d.frames)
    (hdurable : d'.durable = d'.frames.length) :
    Loaded ctx ret d' := by
  have hdev : d'.device = d.device := by rw [Disk.device, Disk.device, hdata]
  refine ⟨⟨⟨hframes ▸ h.disk.log, hdev ▸ h.disk.aligned, hdurable.le,
    fun k hk hk' => ?_, fun hn => ?_, Stamped.of_synced (hdev ▸ h.synced),
      h.disk.marked.mono fun f hf => ?_⟩, hdev ▸ h.kept, hdev ▸ h.synced,
    hdurable, fun e he => ?_⟩, ?_, h.ephemeral, h.covers, h.tables⟩
  · rw [hdurable, hframes] at hk
    rw [hframes] at hk' ⊢
    rw [hdev]
    exact h.disk.anchored k (h.disk.durable_le.trans hk) hk'
  · rw [hdata] at hn
    rw [hn] at hsome
    cases hsome
  · rw [hdurable, take_length, hframes]
    exact mem_of_mem_take hf
  · rw [hdurable, hframes, ← h.durable]
    exact h.tabled e he
  · rw [hframes, hdev]
    exact h.named

namespace DB

/-- A torn tail of the log is cut. -/
theorem cutTail_runs (h : Loaded ctx ret w.disk) (hsome : w.disk.data.isSome)
    {E : Error → World DB Disk → Prop} :
    Runs (Lasting ctx) cutMetaLog w
      (fun _ w' => Loaded ctx ret w'.disk ∧ w'.disk.data = w.disk.data ∧ w'.disk.wal = w.disk.wal ∧
        w'.disk.frames = w.disk.frames ∧
        ∀ log, w'.disk.metaLog = some log → log.synced = log.records.length ∧ log.torn = 0) E := by
  refine .disk (.runIf (fun _ => ?_) fun hclean => ?_)
  · let d₁ : Disk := { w.disk with metaLog := w.disk.metaLog.map fun log => { log with
      torn := 0 }.sync }
    have hframes : d₁.frames = w.disk.frames := by
      show ((w.disk.metaLog.map _).map LogFile.records).getD [] = _
      rw [Disk.frames]
      cases w.disk.metaLog with
      | none => rfl
      | some log => rfl
    have hwhole : ∀ log, d₁.metaLog = some log → log.synced = log.records.length ∧
      log.torn = 0 := by
      intro log hlog
      obtain ⟨log₀, -, rfl⟩ := Option.map_eq_some_iff.mp hlog
      exact ⟨rfl, rfl⟩
    have h₁ : Loaded ctx ret d₁ := h.log_synced hsome rfl hframes (durable_of_whole hwhole)
    exact .of_write h₁.toShut.lasting ⟨h₁, rfl, rfl, hframes, hwhole⟩
  · refine ⟨h, rfl, rfl, rfl, fun log hlog => ⟨?_, ?_⟩⟩
    · have hdurable := h.durable
      rw [Disk.durable, Disk.frames, hlog] at hdurable
      exact hdurable
    · rw [hlog] at hclean
      simpa using hclean

/-- The table of the authority. -/
theorem loadMetadata_runs {catalog : OpenCatalog} (h : Loaded ctx ret w.disk)
    (hdata : w.disk.data.isSome) (hsel : Selected w.disk catalog) :
    Runs (Lasting ctx) (loadMetadata catalog.currentManifest) w
      (fun found w' => Loaded ctx ret w'.disk ∧ w'.disk.data = w.disk.data ∧
        w'.disk.wal = w.disk.wal ∧ w'.disk.frames = w.disk.frames ∧
        (∀ log, w'.disk.metaLog = some log → log.synced = log.records.length ∧ log.torn = 0) ∧
        Newest w.disk.frames found.1.mappings)
      (fun _ w' => Shut ctx w'.disk) := by
  rcases hsel with ⟨hcur, hlog, hwal⟩ | ⟨f, hf, hcur, -, -⟩
  · rw [hcur]
    refine .pure ⟨h, rfl, rfl, rfl, fun log hl => ?_, ?_⟩
    · rw [hlog] at hl
      cases hl
    · rw [Disk.frames, hlog]
      exact Newest.nil
  rw [hcur]
  refine .disk (.lift (fun _ _ => h.toShut) fun found hfound => ?_)
  obtain ⟨pmt, allocator, n⟩ := found
  have hparsed : ∃ complete, w.disk.parsedMetaLog.getD ⟨[], true⟩ = ⟨w.disk.frames, complete⟩ := by
    cases hp : w.disk.parsedMetaLog with
    | none => exact ⟨true, by rw [Disk.frames_of_none hp]; rfl⟩
    | some p => exact ⟨p.complete, by rw [← Disk.parsedMetaLog_frames hp]; rfl⟩
  obtain ⟨complete, hparsed⟩ := hparsed
  rw [hparsed, (h.disk.log.named f (mem_of_getLast? hf)).2] at hfound
  have hres := (h.disk.log.resolves_of_ok hfound).1
  refine .bind (cutTail_runs h hdata) fun _ w₁ hw₁ => ?_
  obtain ⟨h₁, hd, hw, hfr, hwhole⟩ := hw₁
  exact .pure ⟨h₁, hd, hw, hfr, hwhole, .inr ⟨f, pmt, allocator, n, hf, hres, rfl⟩⟩

end DB

theorem Selected.congr {catalog : DB.OpenCatalog} (h : Selected d catalog)
    (hframes : d'.frames = d.frames) (hlog : d.metaLog = none → d'.metaLog = none)
    (hwal : d.wal = none → d'.wal = none)
    (hdata : d.data.isSome → d'.data.isSome) : Selected d' catalog := by
  rcases h with ⟨hcur, hl, hw⟩ | ⟨f, hf, hcur, hd, hlatest⟩
  · exact .inl ⟨hcur, hlog hl, hwal hw⟩
  · exact .inr ⟨f, hframes ▸ hf, hcur, hdata hd, hlatest⟩

/-- The data file is created if there is none. -/
theorem Loaded.created (h : Loaded ctx ret d) :
    Loaded ctx ret { d with data := some d.device } :=
  { h with disk := { h.disk with fresh := fun hn => (by cases hn) } }

/-- Replay touches the resident tree only. -/
theorem Ready.replayed {engine' : StorageEngine} (h : Ready ctx ret engine d)
    (he : ∃ t root, engine' = { engine with btree := t, lazyRoot := root }) :
    Ready ctx ret engine' d := by
  obtain ⟨t, root, rfl⟩ := he
  exact { h with slots := h.slots.congr rfl rfl rfl rfl rfl }

namespace DB

/-- The backup of a blob rewrite is none of the database proper. -/
theorem recoverBlobRewriteBackup_keeps (current : Option Manifest) :
    Keeps (fun _ : DB => ()) (fun d : Disk => (d.core, d.wal)) (recoverBlobRewriteBackup current) :=
  Filing.recoverBlobRewriteBackup
    ⟨fun _ _ => rfl, fun _ => rfl, fun _ => rfl, fun _ _ => rfl, fun _ _ => rfl, fun _ _ => rfl,
      fun _ _ => rfl⟩ current

theorem reconcileWal_runs (h : Ready ctx ret engine w.disk) (current : Option Manifest) :
    Runs (Lasting ctx) (reconcileWal current) w
      (fun _ w' => Ready ctx ret engine w'.disk ∧ w'.disk.core = w.disk.core ∧
        (w.disk.wal = none → w'.disk.wal = none))
      (fun _ w' => Shut ctx w'.disk) := by
  refine .disk ?_
  cases hwal : w.disk.wal with
  | none => exact .pure ⟨h, rfl, fun _ => hwal⟩
  | some wal =>
    refine .lift (fun _ _ => h.toShut) fun analysis _ => .runIf (fun _ => ?_) fun _ =>
      ⟨h, rfl, fun hn => by cases hn⟩
    have h₁ : ∀ wal', Ready ctx ret engine { w.disk with wal := wal' } := fun _ => h.congr rfl
    exact .of_write (h₁ _).toShut.lasting ⟨h₁ _, rfl, fun hn => by cases hn⟩

theorem publishRecovered_runs (h : Sound ctx w) {recovery : Option RecoverySummary}
    (hcommit : ∀ r, recovery = some r → ∀ commit, r.lastCommit = some commit →
      0 < commit.generationId ∧ ∀ f ∈ w.disk.frames, f.checkpointId < commit.generationId) :
    Runs (Lasting ctx) (publishRecovered recovery) w (fun _ => Sound ctx)
      (fun _ => Steady ctx) := by
  cases recovery with
  | none => exact .pure h
  | some r =>
    rw [publishRecovered]
    cases hc : r.lastCommit with
    | none =>
      have hstill : Still (Prog.write fun d => { d with wal := none }) := .write fun _ => rfl
      exact (hstill.sound h).imp_error fun _ _ he => he.steady
    | some commit =>
      obtain ⟨hpos, hbound⟩ := hcommit r rfl commit hc
      exact (alwaysFenced_runs ((publishGeneration_runs h hpos hbound _ _).imp_error
        fun _ _ he => he.steady)).imp_error fun _ _ he => he.steady

/-- The first frame of a new database. -/
theorem appendBootstrapFrame_runs (h : Resting ctx w.handle.engine.pmt w)
    (hfresh : w.disk.frames = []) (hpend : w.handle.engine.pendingReclaimedOffsets = [])
    (hres : w.handle.engine.rebuildReservedOffsets = [])
    (hnext : 0 < w.handle.nextGenerationId) {E : Error → World DB Disk → Prop} :
    Runs (Lasting ctx) appendBootstrapFrame w (fun _ => Sound ctx) E := by
  have hempty : w.handle.engine.pmt.mappings = [] := by
    have hnew := h.newest
    rw [hfresh] at hnew
    exact hnew.unique Newest.nil
  have hfl : Flushed ctx w.handle.engine.pmt 0 w := by
    refine ⟨h, ?_⟩
    rw [hfresh]
    simp
  refine .handle (.bind (appendGenerationMeta_runs hfl ⟨rfl, rfl⟩ (.inl rfl) fun _ => ⟨rfl, hempty⟩)
    fun _ w₁ hw₁ => .of_modifyHandle ?_)
  obtain ⟨h₁, hhandle⟩ := hw₁
  have hman : w₁.handle.bootstrapManifest = w.handle.bootstrapManifest := by rw [hhandle]
  refine Current.sound (m := w.handle.bootstrapManifest) ⟨⟨⟨h₁.toBase.of_pins rfl rfl rfl, h₁.whole,
    h₁.newest, h₁.oldWF, h₁.held⟩, h₁.last, h₁.bound⟩, ?_⟩ ?_ ?_ ?_
  · show (ManifestHistory.reset w₁.handle.bootstrapManifest).latest = _
    rw [hman]
    rfl
  · show w₁.handle.engine.pendingReclaimedOffsets = []
    rw [hhandle]
    exact hpend
  · show w₁.handle.engine.rebuildReservedOffsets = []
    rw [hhandle]
    exact hres
  · show 0 < w₁.handle.nextGenerationId
    rw [hhandle]
    exact hnext

/-- **Opening a database.** -/
theorem openDb_runs (h : Shut ctx w.disk) (hviews : ctx.views = []) (hlisted : Listed ctx w.disk)
    (options : Options) :
    Runs (Lasting ctx) (openDb options) w (fun _ => Sound ctx) (fun _ w' => Shut ctx w'.disk) := by
  refine .lift (fun _ _ => h) fun _ _ => .disk (.lift (fun _ _ => h) fun catalog hcat => ?_)
  refine .bind (loadRetention_runs h hlisted _) fun ret w₁ hw₁ => ?_
  obtain ⟨h₁, hcore₁, hwal₁⟩ := hw₁
  obtain ⟨hdata₁, hlog₁, -, hframes₁, -⟩ := Disk.core_eq hcore₁
  have hsel₁ : Selected w₁.disk catalog := (selectCatalog_ok h.disk hcat).congr hframes₁
    (fun hn => hlog₁.trans hn) (fun hn => hwal₁.trans hn) fun hs => by rw [hdata₁]; exact hs
  refine .bind (R := fun _ w₂ => Loaded ctx ret w₂.disk ∧ w₂.disk.data.isSome ∧
    Selected w₂.disk catalog) (.of_write h₁.created.toShut.lasting ⟨h₁.created, rfl,
      hsel₁.congr rfl (fun hn => hn) (fun hn => hn) fun _ => rfl⟩) fun _ w₂ hw₂ => ?_
  obtain ⟨h₂, hdata₂, hsel₂⟩ := hw₂
  have hfresh₂ : w₂.disk.data = none → False := fun hn => by
    rw [hn] at hdata₂
    cases hdata₂
  refine .bind (R := fun _ w₃ => Loaded ctx ret w₃.disk ∧ w₃.disk.data.isSome ∧
    Selected w₃.disk catalog) ?_ fun _ w₃ hw₃ => ?_
  · have hkeep : ∀ d : Disk, (d.core, d.wal) = (w₂.disk.core, w₂.disk.wal) →
        Loaded ctx ret d ∧ d.data.isSome ∧ Selected d catalog := by
      intro d hd
      have hcore : d.core = w₂.disk.core := congrArg Prod.fst hd
      have hwal : d.wal = w₂.disk.wal := congrArg Prod.snd hd
      obtain ⟨hdata, hlog, -, hframes, -⟩ := Disk.core_eq hcore
      exact ⟨h₂.congr hcore fun hn => (hfresh₂ hn).elim, hdata ▸ hdata₂, hsel₂.congr hframes
        (fun hn => hlog.trans hn) (fun hn => hwal.trans hn) fun hs => by rw [hdata]; exact hs⟩
    exact (Keeps.runs (recoverBlobRewriteBackup_keeps _) (fun d hd => (hkeep d hd).1.toShut.lasting)
      fun w' hw' => hkeep w'.disk hw'.2).imp_error fun _ _ he => he.1.toShut
  obtain ⟨h₃, hdata₃, hsel₃⟩ := hw₃
  refine .disk (.lift (fun _ _ => h₃.toShut) fun blobs _ => ?_)
  refine .bind (loadMetadata_runs h₃ hdata₃ hsel₃) fun found w₄ hw₄ => ?_
  obtain ⟨pmt, allocator⟩ := found
  obtain ⟨h₄, hdata₄, hwal₄, hframes₄, hwhole₄, hnew₄⟩ := hw₄
  have hdev₄ : w₄.disk.device = w₃.disk.device := by rw [Disk.device, Disk.device, hdata₄]
  refine .lift (fun _ _ => h₄.toShut) fun engine hengine => ?_
  obtain ⟨hwf, hin⟩ := h₃.disk.newest_anchored hnew₄ rfl
  obtain ⟨hslots, rfl, hpend, hres⟩ := loadEngine_slots hwf h₃.disk.aligned hin (fun o ho => by
    obtain ⟨r, hr, hor⟩ := mem_flatMap.mp ho
    exact (h₃.named r hr).2 o hor) hengine
  have hready₄ : Ready ctx ret engine w₄.disk := ⟨h₄, by rw [hdata₄]; exact hdata₃, hwhole₄,
    by rw [hframes₄]; exact hnew₄, by rw [hdev₄]; exact hslots, hpend, hres⟩
  refine .bind (reconcileWal_runs hready₄ _) fun _ w₅ hw₅ => ?_
  obtain ⟨hready₅, hcore₅, hwal₅⟩ := hw₅
  have hframes₅ : w₅.disk.frames = w₃.disk.frames := by
    rw [← hframes₄, (Disk.core_eq hcore₅).2.2.2.1]
  refine .disk (.lift (fun _ _ => hready₅.toShut) fun recovered hrecovered => ?_)
  obtain ⟨engine', blobs', recovery⟩ := recovered
  obtain ⟨hengine', hnone, hahead⟩ := recoverWal_ok hrecovered
  have hready := hready₅.replayed hengine'
  have hrest : Resting ctx engine'.pmt
      ⟨assemble options catalog ret engine' blobs' recovery, w₅.disk, w₅.trace⟩ :=
    hready.resting hviews rfl rfl rfl _
  rcases hsel₃ with ⟨hcur, hlog, hwal⟩ | ⟨f, hf, hcur, -, hlatest⟩
  · -- a new database: the bootstrap frame, and nothing to recover
    have hw : w₅.disk.wal = none := hwal₅ (hwal₄.trans hwal)
    have hfresh : w₅.disk.frames = [] := by
      rw [hframes₅, Disk.frames, hlog]
      rfl
    rw [hnone hw] at hrest ⊢
    refine .modifyHandle (.bind (.runIf (fun _ => ?_) fun hno => ?_) fun _ _ h₆ => .pure h₆)
    · refine appendBootstrapFrame_runs ?_ ?_ ?_ ?_ ?_
      · exact hrest
      · exact hfresh
      · exact hready.pending
      · exact hready.reserved
      · exact Nat.succ_pos _
    · rw [hcur, hw] at hno
      cases hno
  · obtain ⟨hgen, -⟩ := h₃.disk.log.named f (mem_of_getLast? hf)
    have hlast : ∀ x ∈ w₅.disk.frames, x.checkpointId ≤ f.manifest.generationId := by
      rw [hframes₅, hgen]
      exact fun x hx => h₃.disk.log.le_last hf hx
    have hsound : Sound ctx ⟨assemble options catalog ret engine' blobs' recovery,
      w₅.disk, w₅.trace⟩ := by
      refine ⟨hrest, hready.pending, hready.reserved, fun x hx => ?_, Nat.succ_pos _, f.manifest,
        hlatest, .inr ⟨f, ?_, rfl⟩⟩
      · show x.checkpointId < (catalog.currentManifest.map Manifest.generationId).getD 0 + 1
        rw [hcur]
        exact Nat.lt_succ_of_le (hlast x hx)
      · show w₅.disk.frames.getLast? = some f
        rw [hframes₅]
        exact hf
    refine .modifyHandle (.bind (R := fun _ w₆ => w₆ =
      ⟨assemble options catalog ret engine' blobs' recovery, w₅.disk, w₅.trace⟩)
      (.runIf (fun hyes => ?_) fun _ => rfl) fun _ w₆ hw₆ => ?_)
    · rw [hcur] at hyes
      cases hyes
    · rw [hw₆]
      refine (publishRecovered_runs hsound fun r hr commit hcommit => ?_).imp_error
        fun _ _ he => he.shut
      have hlt := hahead f.manifest hcur r hr commit hcommit
      exact ⟨lt_of_le_of_lt (Nat.zero_le _) hlt, fun x hx => lt_of_le_of_lt (hlast x hx) hlt⟩

end DB

end SeerDb
