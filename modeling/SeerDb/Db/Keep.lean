/-
# `SeerDb.Db.Keep` — what the database functions leave alone

Most functions touch one corner of the handle and the directory: the journal and the
counters of the pending group, the pages, the pins, the blob artifacts, or the frames.
Each of the structures below says of a part of both that it does not see such a
corner; every function that stays within that corner then keeps the part, whatever it
is.
-/
import SeerDb.Db.Client

namespace SeerDb

open Lib

variable {γ κ : Type} {f : DB → γ} {g : Disk → κ}

/-- The parts do not see the WAL and its buffer. -/
structure Logging (f : DB → γ) (g : Disk → κ) : Prop where
  wal : ∀ d wal, g { d with wal := wal } = g d
  buffer : ∀ db buffer, f { db with walBuffer := buffer } = f db

/-- Nor do they see the counters of the pending group and of the reserved extent. -/
structure Counting (f : DB → γ) (g : Disk → κ) : Prop extends Logging f g where
  space : ∀ d space, g { d with space := space } = g d
  reserved : ∀ db extent, f { db with walReservedExtent := extent } = f db
  pending : ∀ db mutations bytes digest, f { db with
    pendingMutations := mutations, pendingWalBytes := bytes, pendingDigest := digest } = f db

/-- The parts do not see the pages. -/
structure Paging (f : DB → γ) (g : Disk → κ) : Prop where
  data : ∀ d data, g { d with data := data } = g d
  engine : ∀ db engine, f { db with engine := engine } = f db

/-- The parts do not see the pins. -/
structure Pinning (f : DB → γ) (g : Disk → κ) : Prop where
  registry : ∀ d registry, g { d with registry := registry } = g d
  retained : ∀ d retained, g { d with retained := retained } = g d
  retention : ∀ db retention, f { db with retention := retention } = f db
  leases : ∀ db leases, f { db with leases := leases } = f db

/-- The parts do not see the blob artifacts, nor what the blob manager keeps of them. -/
structure Filing (f : DB → γ) (g : Disk → κ) : Prop where
  stamp : ∀ db generation, f { db with blobs := db.blobs.setGeneration generation } = f db
  consolidated : ∀ db, f { db with blobs := db.blobs.markSegmentCatalogConsolidated } = f db
  persisted : ∀ db, f { db with blobs := db.blobs.markSegmentDeltaPersisted } = f db
  blob : ∀ d blob, g { d with blob := blob } = g d
  backup : ∀ d backup, g { d with blobBackup := backup } = g d
  delta : ∀ d delta, g { d with blobDelta := delta } = g d
  segments : ∀ d segments, g { d with segments := segments } = g d

/-- The parts do not see the blob manager and its artifacts. -/
structure Storing (f : DB → γ) (g : Disk → κ) : Prop extends Filing f g where
  blobs : ∀ db blobs, f { db with blobs := blobs } = f db

/-- The parts do not see the metadata log and the history kept of it. -/
structure Recording (f : DB → γ) (g : Disk → κ) : Prop where
  metaLog : ∀ d log, g { d with metaLog := log } = g d
  history : ∀ db history, f { db with manifestHistory := history } = f db

/-! ## Checks -/

namespace DB

variable {C : Disk → Prop}

theorem checkFence_ok {db : DB} {text : String} (h : db.checkFence text = .ok ()) :
    db.isOpen = true ∧ db.writeFenced = false := by
  rw [checkFence, checkOpen] at h
  cases hopen : db.isOpen with
  | false =>
    rw [hopen] at h
    cases h
  | true =>
    rw [hopen] at h
    simp only [if_true] at h
    split at h
    · cases h
    split at h
    · cases h
    · rename_i hf
      exact ⟨rfl, by simpa using hf⟩

theorem checkWritable_runs (w : World DB Disk) :
    Runs C checkWritable w (fun _ w' => w' = w ∧ w.handle.isOpen = true ∧
      w.handle.writeFenced = false) (fun _ w' => w' = w) :=
  .handle (.of_lift (fun _ _ => rfl) fun _ h => ⟨rfl, checkFence_ok h⟩)

theorem checkMaintenanceIdle_runs (w : World DB Disk) :
    RunsTo C checkMaintenanceIdle w (fun w' => w' = w) := by
  refine .handle ?_
  rw [Prog.check]
  exact .ite (fun _ => .pure rfl) fun _ => .throw rfl

theorem checkExpectedCommit_runs (expected : CommitId) (w : World DB Disk) :
    RunsTo C (checkExpectedCommit expected) w (fun w' => w' = w) := by
  refine .handle ?_
  rw [Prog.check]
  exact .ite (fun _ => .pure rfl) fun _ => .throw rfl

theorem keeps_checkWritable : Keeps f g checkWritable := .bind .handle fun _ => .lift _

theorem keeps_checkMaintenanceIdle : Keeps f g checkMaintenanceIdle :=
  .bind .handle fun _ => .check _ _

theorem keeps_checkExpectedCommit (expected : CommitId) :
    Keeps f g (checkExpectedCommit expected) :=
  .bind .handle fun _ => .check _ _

theorem keeps_admitWalBytes (bytes : Nat) : Keeps f g (admitWalBytes bytes) :=
  .bind .handle fun _ => .check _ _

theorem keeps_checkCapacity (h : ∀ d space, g { d with space := space } = g d) (refusal : Error) :
    Keeps f g (checkCapacity refusal) := by
  intro w
  rw [RunsTo, Runs, checkCapacity]
  cases w.disk.space with
  | nil => exact ⟨⟨rfl, rfl⟩, Passed.refl _ w⟩
  | cons answer rest =>
    cases answer with
    | false => exact ⟨⟨rfl, h _ _⟩, [], rfl, by simp⟩
    | true => exact ⟨⟨rfl, h _ _⟩, [], rfl, by simp⟩

theorem keeps_latestManifest : Keeps f g latestManifest := by
  refine .bind .handle fun db => ?_
  cases db.manifestHistory.latest with
  | none => exact .throw _
  | some m => exact .pure m

end DB

/-! ## The journal -/

namespace Logging

open DB

variable (h : Logging f g)

include h

theorem syncWal : Keeps f g syncWal := .write fun _ => h.wal _ _

theorem appendWal : Keeps f g appendWal :=
  .bind .handle fun _ => .runIf (.bind (.modifyHandle fun _ => h.buffer _ _) fun _ =>
    .write fun _ => h.wal _ _)

theorem writeWalToDisk (forceSync : Bool) : Keeps f g (writeWalToDisk forceSync) :=
  .bind h.appendWal fun _ => .bind .handle fun _ => .runIf h.syncWal

theorem appendCommitRecord (commit : CommitRecord) : Keeps f g (DB.appendCommitRecord commit) :=
  .bind .disk fun _ => .bind (.modifyHandle fun _ => h.buffer _ _) fun _ =>
    .bind (h.writeWalToDisk _) fun _ => .pure _

end Logging

namespace Counting

open DB

variable (h : Counting f g)

include h

theorem ensureWalReservation : Keeps f g ensureWalReservation :=
  .bind .handle fun _ => .bind (.runIf (.bind (.write fun _ => h.wal _ _) fun _ => .bind .disk
    fun _ => .runIf (.bind (keeps_checkCapacity h.space _) fun _ => h.syncWal))) fun _ =>
    .modifyHandle fun _ => h.reserved _ _

theorem reclaimWal : Keeps f g reclaimWal :=
  .bind .disk fun _ => .runIf (.bind (.write fun _ => h.wal _ _) fun _ => .modifyHandle
    fun _ => h.reserved _ _)

theorem journalMutation (record : WalRecord) : Keeps f g (journalMutation record) :=
  .bind (.modifyHandle fun _ => h.buffer _ _) fun _ => .bind .handle fun _ =>
    .bind (h.writeWalToDisk _) fun _ => .modifyHandle fun _ => h.pending _ _ _ _

end Counting

theorem keeps_admitBlobImage (h : ∀ d space, g { d with space := space } = g d) :
    Keeps f g DB.admitBlobImage :=
  .bind (DB.keeps_checkCapacity h _) fun _ => .bind .handle fun _ =>
    .runIf (DB.keeps_checkCapacity h _)

/-- Writes, apart from the pages they load and change. -/
theorem Counting.writeOne (h : Counting f g) (hprepare : ∀ key, Keeps f g (DB.prepareMutation key))
    (happly : ∀ mutation, Keeps f g (DB.applyLive mutation))
    (hblobs : ∀ db changes frame, f { db with
      pendingBlobChanges := changes, pendingBlobFrame := frame } = f db)
    (mutation : Mutation) (context : String) : Keeps f g (DB.writeOne mutation context) :=
  .bind DB.keeps_checkWritable fun _ => .bind DB.keeps_checkMaintenanceIdle fun _ =>
    .bind (.lift _) fun _ =>
    .bind (.bind (DB.keeps_admitWalBytes _) fun _ => h.ensureWalReservation) fun _ =>
      .bind (hprepare _) fun _ =>
    .bind .handle fun _ => .bind .disk fun _ => .bind (.lift _) fun _ =>
    .bind (.runIf (keeps_admitBlobImage h.space)) fun _ => .bind (happly _) fun _ =>
    .bind (.lift _) fun _ => .bind (h.journalMutation _) fun _ =>
    .bind (.modifyHandle fun _ => hblobs _ _ _) fun _ => .pure _

theorem Counting.prepareBatch (h : Counting f g)
    (hprepare : ∀ key, Keeps f g (DB.prepareMutation key))
    (mutations : List Mutation) : Keeps f g (DB.prepareBatch mutations) :=
  .bind (.lift _) fun _ => .bind (DB.keeps_admitWalBytes _) fun _ =>
    .bind (.forEach (fun _ => hprepare _) _) fun _ => .bind .handle fun _ =>
    .bind (.lift _) fun _ => .bind (.runIf (DB.keeps_checkCapacity h.space _)) fun _ =>
    .bind h.ensureWalReservation fun _ => .bind (.runIf (DB.keeps_checkCapacity h.space _)) fun _ =>
      .pure _

theorem Counting.admitBatch (h : Counting f g)
    (hprepare : ∀ key, Keeps f g (DB.prepareMutation key))
    (hbatch : ∀ db prepared changes, f (DB.withBatch db prepared changes) = f db)
    (henvelope : ∀ db next envelopes, f { db with
      nextEnvelopeId := next, pendingEnvelopes := envelopes } = f db)
    (expected : CommitId) (mutations : List Mutation) :
      Keeps f g (DB.admitBatch expected mutations) :=
  .bind DB.keeps_checkWritable fun _ => .bind DB.keeps_checkMaintenanceIdle fun _ =>
    .bind (DB.keeps_checkExpectedCommit _) fun _ => .bind (.check _ _) fun _ =>
    .bind (h.prepareBatch hprepare _) fun _ => .bind (.modifyHandle fun _ => h.buffer _ _) fun _ =>
    .bind (.modifyHandle fun _ => hbatch _ _ _) fun _ => .bind .handle fun _ =>
    .bind (.modifyHandle fun _ => henvelope _ _ _) fun _ => .pure _

theorem keeps_preflightVacuum (hspace : ∀ d space, g { d with space := space } = g d)
    (hvacuum : ∀ db vacuum, f { db with vacuumState := vacuum } = f db) (state : VacuumState) :
    Keeps f g (DB.preflightVacuum state) :=
  have hcheck := fun refusal => DB.keeps_checkCapacity hspace refusal
  .onError (.bind (hcheck _) fun _ => .bind (hcheck _) fun _ => .bind (.runIf (hcheck _))
    fun _ => hcheck _) fun _ => .modifyHandle fun _ => hvacuum _ _

/-! ## The pages -/

namespace Paging

open DB

variable (h : Paging f g)

include h

theorem modifyEngine (u : StorageEngine → StorageEngine) : Keeps f g (modifyEngine u) :=
  .modifyHandle fun _ => h.engine _ _

theorem prepareMutation (key : Bytes) : Keeps f g (DB.prepareMutation key) :=
  .bind .handle fun _ => .bind .disk fun _ => .bind (.lift _) fun _ => h.modifyEngine _

theorem materialize : Keeps f g materialize :=
  .bind .handle fun _ => .bind .disk fun _ => .bind (.lift _) fun _ => h.modifyEngine _

theorem writeData (u : Device → Device) : Keeps f g (writeData u) := .write fun _ => h.data _ _

theorem writeDirtyPages (pageIds : List PageId) : Keeps f g (writeDirtyPages pageIds) := by
  induction pageIds with
  | nil => exact .pure _
  | cons pageId rest ih =>
    refine .bind (.bind .handle fun db => ?_) fun _ => .bind ih fun _ => .pure _
    cases db.engine.btree.node pageId with
    | none => exact .pure _
    | some node => exact .bind (h.writeData _) fun _ => .bind (h.modifyEngine _) fun _ => .pure _

theorem refreshIfNeeded : Keeps f g refreshIfNeeded :=
  .bind .handle fun _ => .bind .disk fun _ => h.modifyEngine _

theorem completeGeneration : Keeps f g completeGeneration := .bind .handle fun _ => h.modifyEngine _

theorem refreshProtection : Keeps f g refreshProtection :=
  .bind .disk fun _ => .modifyHandle fun _ => h.engine _ _

theorem relocateInteriorPages (limit : Option Nat) : Keeps f g (relocateInteriorPages limit) :=
  .bind .handle fun _ => .bind .disk fun _ => .bind (.check _ _) fun _ => .bind (.lift _) fun _ =>
    .bind (.runIf (.bind (.forEach (fun _ => h.writeData _) _) fun _ =>
      .bind (h.writeData _) fun _ => h.modifyEngine _)) fun _ => .pure _

theorem truncateReclaimableTail : Keeps f g truncateReclaimableTail := by
  refine .bind .handle fun db => .bind .disk fun d => .bind (.check _ _) fun _ => ?_
  cases db.engine.reclaimableTailRange d.device with
  | mk before after => exact .runIf (.bind (h.writeData _) fun _ => h.modifyEngine _)

end Paging

/-- Capacity is asked for before the pages are written. -/
theorem Paging.flushPages (h : Paging f g) (hspace : ∀ d space, g { d with space := space } = g d) :
    Keeps f g DB.flushPages :=
  .bind (DB.keeps_checkCapacity hspace _) fun _ => .bind .handle fun _ =>
    .bind (h.writeDirtyPages _) fun _ =>
    .bind (h.writeData _) fun _ => h.modifyEngine _

/-! ## The pins -/

namespace Pinning

open DB

variable (h : Pinning f g)

include h

theorem dropSidecar (snapshotId : SnapshotId) : Keeps f g (dropSidecar snapshotId) :=
  .write fun _ => h.retained _ _

theorem insertEphemeral (manifest : Manifest) (offsets : List Nat) :
    Keeps f g (insertEphemeral manifest offsets) :=
  .bind .handle fun _ => .bind (.check _ _) fun _ => .modifyHandle fun _ => h.retention _ _

theorem insertNamed (manifest : Manifest) (offsets : List Nat) :
    Keeps f g (insertNamed manifest offsets) :=
  .bind .handle fun _ => .bind (.write fun _ => h.registry _ _) fun _ =>
    .modifyHandle fun _ => h.retention _ _

theorem removeRoot (snapshotId : SnapshotId) : Keeps f g (removeRoot snapshotId) :=
  .bind .handle fun _ => .ite (.bind (.modifyHandle fun _ => h.retention _ _)
    fun _ => h.dropSidecar _) <| .bind (.check _ _) fun _ =>
      .bind (.write fun _ => h.registry _ _) fun _ =>
    .bind (.modifyHandle fun _ => h.retention _ _) fun _ => h.dropSidecar _

section

variable (he : ∀ db engine, f { db with engine := engine } = f db)

include he

theorem releaseRoot (snapshotId : SnapshotId) : Keeps f g (releaseRoot snapshotId) :=
  .bind (h.removeRoot _) fun _ => .modifyHandle fun _ => he _ _

theorem dropTable (pmt : PMT) : Keeps f g (dropTable pmt) := by
  refine .modifyHandle fun db => ?_
  split
  · exact (he { db with leases := db.leases.erase pmt } _).trans (h.leases db _)
  · rfl

theorem dropReadView (v : ReadView) : Keeps f g (dropReadView v) :=
  .bind (.onError (.runIf (h.releaseRoot he _)) fun _ => h.dropTable he _) fun _ => h.dropTable he _

end

theorem registerManifest (hp : Paging f g) (manifest : Manifest)
    (deduplicate ephemeral walk : Bool) :
    Keeps f g (registerManifest manifest deduplicate ephemeral walk) := by
  refine .bind .handle fun db => ?_
  cases (if deduplicate then db.retainedSnapshotId manifest.commitId else none) with
  | some snapshotId => exact .pure _
  | none =>
    refine .bind (.write fun _ => h.retained _ _) fun _ => .bind .disk fun _ =>
      .bind (.onError ?_ fun _ =>
      h.dropSidecar _) fun _ => .bind hp.refreshProtection fun _ => .pure _
    exact .bind (.lift _) fun _ => .ite (h.insertEphemeral _ _) (h.insertNamed _ _)

end Pinning

/-! ## The blob artifacts -/

namespace Filing

open DB

variable (h : Filing f g)

include h

theorem writeBlobImage : Keeps f g writeBlobImage :=
  .bind .handle fun _ => .write fun _ => h.blob _ _

theorem setSegment (fileId : Nat) (u : LogFile BlobRecord → LogFile BlobRecord) :
    Keeps f g (setSegment fileId u) :=
  .write fun _ => h.segments _ _

theorem writeSegmentSuffix (file : BlobFile) : Keeps f g (writeSegmentSuffix file) :=
  .bind .handle fun _ => .bind .disk fun _ => .bind (.check _ _) fun _ => .runIf
    (.bind (.check _ _) fun _ => .bind (h.setSegment _ _) fun _ => .bind (h.setSegment _ _)
      fun _ => h.setSegment _ _)

theorem prepareSegmentCatalogBackup (consolidate : Bool) :
    Keeps f g (prepareSegmentCatalogBackup consolidate) := by
  refine .bind .handle fun _ => .bind .disk fun _ => .runIf (.write fun d => ?_)
  split
  · exact (h.backup { d with blob := none } _).trans (h.blob d none)
  · exact h.backup d _

theorem publishSegmentCatalog (consolidate : Bool) :
    Keeps f g (publishSegmentCatalog consolidate) :=
  .bind .handle fun _ => .ite (.bind (.write fun _ => h.blob _ _) fun _ => .modifyHandle
    fun _ => h.consolidated _)
      (.bind (.bind .handle fun _ => .bind (.write fun _ => h.delta _ _) fun _ =>
      .bind (.write fun _ => h.delta _ _) fun _ => .write fun _ => h.delta _ _) fun _ =>
      .modifyHandle fun _ => h.persisted _)

theorem writeBlobSegments : Keeps f g writeBlobSegments :=
  .bind .handle fun _ => .bind .disk fun _ => .bind (h.prepareSegmentCatalogBackup _) fun _ =>
    .bind (.bind .handle fun _ => .forEach h.writeSegmentSuffix _) fun _ =>
      h.publishSegmentCatalog _

theorem writeBlobArtifacts (generation : GenerationId) :
    Keeps f g (writeBlobArtifacts generation) :=
  .bind (.modifyHandle fun _ => h.stamp _ _) fun _ => .bind .handle fun _ =>
    .ite h.writeBlobSegments h.writeBlobImage

theorem writeGroupBlobArtifacts (generation : GenerationId) :
    Keeps f g (writeGroupBlobArtifacts generation) :=
  .bind .handle fun _ => .runIf (h.writeBlobArtifacts _)

theorem finishSegmentedBlobPublicationCleanup : Keeps f g finishSegmentedBlobPublicationCleanup :=
  .bind .handle fun _ => .runIf <| .bind (.bind .handle fun _ => .bind .disk fun _ => .forEach
      (fun _ => .write fun _ => h.segments _ _) _) fun _ =>
    .bind .disk fun _ => .runIf <| .bind (.write fun _ => h.backup _ _) fun _ =>
      .bind .disk fun _ =>
      .runIf (.write fun _ => h.delta _ _)

/-! The steps of a rewrite around its artifacts. -/

theorem dropBackup (c : Bool) :
    Keeps f g (Prog.runIf c (Prog.write fun d => { d with blobBackup := none }) : DbM Unit) :=
  .runIf (.write fun _ => h.backup _ _)

theorem setAside (c : Bool) :
    Keeps f g (Prog.runIf c (Prog.write fun d => { d with blob := none, blobBackup := d.blob }) :
      DbM Unit) :=
  .runIf (.write fun d => (h.backup { d with blob := none } _).trans (h.blob d _))

theorem stampSegments : Keeps f g (do
      Prog.modifyHandle fun db => { db with blobs := db.blobs.setGeneration db.nextGenerationId }
      DB.writeBlobSegments : DbM Unit) :=
  .bind (.modifyHandle fun _ => h.stamp _ _) fun _ => h.writeBlobSegments

theorem recoverBlobRewriteBackup (current : Option Manifest) :
    Keeps f g (recoverBlobRewriteBackup current) := by
  refine .bind .disk fun d => ?_
  cases d.blobBackup with
  | none => exact .pure _
  | some backup =>
    refine .bind (.lift _) fun action => ?_
    cases action with
    | discard withDeltaLog =>
      exact .bind (.write fun _ => h.backup _ _) fun _ => .runIf (.write fun _ => h.delta _ _)
    | restore =>
      exact .bind (.write fun _ => h.blob _ _) fun _ => .write fun d =>
        (h.backup { d with blob := some backup } none).trans (h.blob d _)

end Filing

theorem Storing.applyLive (h : Storing f g) (hp : Paging f g) (mutation : Mutation) :
    Keeps f g (DB.applyLive mutation) := by
  refine .bind .handle fun db => ?_
  rcases applyMutation mutation db.engine.btree db.blobs with ⟨result, btree, blobs⟩
  exact .bind (.modifyHandle fun db =>
    (h.blobs { db with engine := { db.engine with btree := btree } } blobs).trans (hp.engine db _))
      fun _ => .lift _

/-! ## The frames -/

namespace Recording

open DB

variable (h : Recording f g)

include h

theorem cutMetaLog : Keeps f g cutMetaLog :=
  .bind .disk fun _ => .runIf (.write fun _ => h.metaLog _ _)

theorem appendGenerationMeta (checkpointId parent : Nat) (m : Manifest) :
    Keeps f g (DB.appendGenerationMeta checkpointId parent m) :=
  .bind h.cutMetaLog fun _ => .bind .handle fun _ => .bind .disk fun _ => .bind (.lift _) fun _ =>
    .bind (.write fun _ => h.metaLog _ _) fun _ => .write fun _ => h.metaLog _ _

theorem pushHistory (m : Manifest) : Keeps f g (pushHistory m) := by
  refine .bind .handle fun db => ?_
  cases db.manifestHistory.push m with
  | error message => exact .throw _
  | ok history => exact .modifyHandle fun _ => h.history _ _

theorem appendEnvelopeFrame (commit : CommitRecord) (walOffset : Nat) (parent : Manifest) :
    Keeps f g (appendEnvelopeFrame commit walOffset parent) :=
  .bind .handle fun _ => .bind (h.appendGenerationMeta _ _ _) fun _ => h.pushHistory _

theorem publishAuthorityFrame (m : Manifest) : Keeps f g (publishAuthorityFrame m) := by
  refine .bind .handle fun db => ?_
  cases db.manifestHistory.latest with
  | none => exact .throw _
  | some parent => exact .bind (h.appendGenerationMeta _ _ _) fun _ => h.pushHistory _

theorem appendBootstrapFrame : Keeps f g appendBootstrapFrame :=
  .bind .handle fun _ => .bind (h.appendGenerationMeta _ _ _) fun _ =>
    .modifyHandle fun _ => h.history _ _

theorem loadMetadata (current : Option Manifest) : Keeps f g (DB.loadMetadata current) := by
  cases current with
  | none => exact .pure _
  | some current =>
    exact .bind .disk fun _ => .bind (.lift _) fun _ => .bind h.cutMetaLog fun _ => .pure _

theorem compactMetadataLog (retained : List Nat) : Keeps f g (DB.compactMetadataLog retained) := by
  refine .bind .disk fun d => ?_
  cases d.metaLog with
  | none => exact .pure _
  | some log => exact .runIf (.write fun _ => h.metaLog _ _)

end Recording

/-! ## Errors

After the pages are written, only the checks of the segment files and of the metadata log
can fail. -/

namespace DB

variable {e : Error}

theorem appendWal_infallible : Infallible appendWal :=
  .bind .handle fun _ => .runIf (.bind (.modifyHandle _) fun _ => .write _)

theorem writeWalToDisk_infallible (forceSync : Bool) : Infallible (writeWalToDisk forceSync) :=
  .bind appendWal_infallible fun _ => .bind .handle fun _ => .runIf (.write _)

theorem appendCommitRecord_infallible (commit : CommitRecord) :
    Infallible (appendCommitRecord commit) :=
  .bind .disk fun _ => .bind (.modifyHandle _) fun _ =>
    .bind (writeWalToDisk_infallible _) fun _ => .pure _

theorem reclaimWal_infallible : Infallible reclaimWal :=
  .bind .disk fun _ => .runIf (.bind (.write _) fun _ => .modifyHandle _)

theorem finishSegmentedBlobPublicationCleanup_infallible :
    Infallible finishSegmentedBlobPublicationCleanup :=
  .bind .handle fun _ => .runIf <| .bind
    (.bind .handle fun _ => .bind .disk fun _ => .forEach (fun _ => .write _) _)
    fun _ => .bind .disk fun _ => .runIf <| .bind (.write _) fun _ =>
      .bind .disk fun _ => .runIf (.write _)

/-- A corruption is not a refused capacity check. -/
def IsCorruption (e : Error) : Prop := ∃ message, e = .corruption message

theorem writeBlobImage_infallible : Infallible writeBlobImage := .bind .handle fun _ => .write _

theorem writeSegmentSuffix_raises (f : BlobFile) : Raises IsCorruption (writeSegmentSuffix f) :=
  .bind .handle fun _ => .bind .disk fun _ => .bind (.check _ ⟨_, rfl⟩) fun _ => .runIf
    (.bind (.check _ ⟨_, rfl⟩) fun _ => .bind (.write _) fun _ =>
      .bind (.write _) fun _ => .write _)

theorem writeBlobSegments_raises : Raises IsCorruption writeBlobSegments :=
  .bind .handle fun _ => .bind .disk fun _ => .bind
    (.bind .handle fun _ => .bind .disk fun _ => .runIf (.write _)) fun _ =>
    .bind (.bind .handle fun _ => .forEach writeSegmentSuffix_raises _) fun _ =>
    .bind .handle fun _ => .ite (.bind (.write _) fun _ => .modifyHandle _)
      (.bind (.bind .handle fun _ => .bind (.write _) fun _ => .bind (.write _) fun _ => .write _)
        fun _ =>
        .modifyHandle _)

theorem writeBlobArtifacts_raises (generation : GenerationId) :
    Raises IsCorruption (writeBlobArtifacts generation) :=
  .bind (.modifyHandle _) fun _ => .bind .handle fun _ =>
    .ite writeBlobSegments_raises (.bind .handle fun _ => .write _)

theorem writeGroupBlobArtifacts_raises (generation : GenerationId) :
    Raises IsCorruption (writeGroupBlobArtifacts generation) :=
  .bind .handle fun _ => .runIf (writeBlobArtifacts_raises _)

theorem collect_error {p : ParsedMetaLog} (fuel : Nat) : ∀ {current : Nat} {visited : List Nat}
    {deltas : List MetaDelta} {e : Error}, p.collect fuel current visited deltas = .error e →
    IsCorruption e := by
  induction fuel with
  | zero =>
    intro current visited deltas e h
    cases h
    exact ⟨_, rfl⟩
  | succ fuel ih =>
    intro current visited deltas e h
    rw [ParsedMetaLog.collect] at h
    split at h
    · cases h
      exact ⟨_, rfl⟩
    · cases h
    split at h
    · cases h
      exact ⟨_, rfl⟩
    split at h
    · cases h
      exact ⟨_, rfl⟩
    split at h
    · cases h
      exact ⟨_, rfl⟩
    · exact ih h

theorem removeAll_error : ∀ {pageIds : List PageId} {pmt : PMT},
    removeAll pageIds pmt = .error e → IsCorruption e
  | [], _, h => by cases h
  | pageId :: rest, pmt, h => by
    rw [removeAll] at h
    split at h
    · exact removeAll_error h
    · cases h
      exact ⟨_, rfl⟩

theorem applyDeltas_error : ∀ {deltas : List MetaDelta} {state : PMT × PageAllocator},
    applyDeltas deltas state = .error e → IsCorruption e
  | [], _, h => by cases h
  | d :: ds, (pmt, _), h => by
    rw [applyDeltas] at h
    split at h
    · rename_i hd
      cases h
      rw [MetaDelta.apply] at hd
      split at hd
      · rename_i hr
        cases hd
        exact removeAll_error hr
      · cases hd
    · exact applyDeltas_error h

theorem resolve_error {p : ParsedMetaLog} {checkpointId : Nat}
    (h : p.resolve checkpointId = .error e) : IsCorruption e := by
  rw [ParsedMetaLog.resolve] at h
  split at h
  · rename_i hc
    cases h
    exact collect_error _ hc
  · split at h
    · rename_i ha
      cases h
      exact applyDeltas_error ha
    · cases h

theorem generationEntry_error {log : Option ParsedMetaLog} {parent : Nat} {pmt : PMT}
    {allocator : PageAllocator} (h : generationEntry log parent pmt allocator = .error e) :
    IsCorruption e := by
  unfold generationEntry at h
  split at h
  · cases h
  split at h
  · cases h
    exact ⟨_, rfl⟩
  split at h
  · rename_i hr
    cases h
    exact resolve_error hr
  · split at h <;> cases h

theorem appendGenerationMeta_raises (checkpointId parent : Nat) (m : Manifest) :
    Raises IsCorruption (appendGenerationMeta checkpointId parent m) :=
  .bind (.bind .disk fun _ => .runIf (.write _)) fun _ => .bind .handle fun _ =>
    .bind .disk fun _ =>
    .bind (.lift fun _ he => generationEntry_error he) fun _ => .bind (.write _) fun _ => .write _

theorem pushHistory_raises (m : Manifest) : Raises IsCorruption (pushHistory m) := by
  refine .bind .handle fun db => ?_
  cases db.manifestHistory.push m with
  | error message => exact .throw ⟨_, rfl⟩
  | ok history => exact .modifyHandle _

theorem appendEnvelopeFrame_raises (commit : CommitRecord) (walOffset : Nat) (parent : Manifest) :
    Raises IsCorruption (appendEnvelopeFrame commit walOffset parent) :=
  .bind .handle fun _ => .bind (appendGenerationMeta_raises _ _ _) fun _ => pushHistory_raises _

theorem completeGeneration_infallible : Infallible completeGeneration :=
  .bind .handle fun _ => .modifyHandle _

theorem finishGenerationPublication_infallible (commit : CommitRecord) :
    Infallible (finishGenerationPublication commit) :=
  .bind finishSegmentedBlobPublicationCleanup_infallible fun _ =>
    .bind completeGeneration_infallible fun _ =>
    .bind reclaimWal_infallible fun _ => .modifyHandle _

end DB

end SeerDb
