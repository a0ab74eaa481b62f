/-
# `SeerDb.Db.Handle` — the directory, the handle and what a crash leaves

The files of a database directory as one `Disk`, the `DB` handle of `db.rs`, the
admission checks of `db/lifecycle.rs` and `db/invariants.rs`, and the reads of
`db/query.rs`.

Renames, unlinks, truncations and atomic replacements take effect at once and
are durable; appended bytes and page writes are durable from the next sync of
their file on.  Input and output never fail; whether a capacity check passes is
read from `space`, the answers the file system will give.
-/
import SeerDb.Lib.Crash
import SeerDb.Storage.Engine
import SeerDb.Storage.MetaLog
import SeerDb.Blob.Catalog
import SeerDb.Recovery.Record

namespace SeerDb

inductive BlobStorageMode where
  | wholeImage
  | segmented
deriving DecidableEq, Repr

structure Options where
  bufferPoolSize : Nat
  blobThreshold : Nat
  blobStorage : BlobStorageMode
  syncWrites : Bool
  maxWalBytes : Nat
  walFirstCommits : Bool
  walMaterializeBytes : Nat
deriving DecidableEq, Repr

def Options.default : Options where
  bufferPoolSize := 134217728
  blobThreshold := 1024
  blobStorage := .wholeImage
  syncWrites := false
  maxWalBytes := 67108864
  walFirstCommits := false
  walMaterializeBytes := 2097152

def Options.validate (o : Options) : Except Error Unit :=
  if o.bufferPoolSize < pageSize then
    .error (.invalidArgument "buffer_pool_size must be at least one page (4096 bytes)")
  else .ok ()

/-! ## The directory -/

abbrev WalFile := Lib.LogFile WalRecord

/-- The registry file of named roots. -/
structure RetentionRegistry where
  nextSnapshotId : SnapshotId
  roots : List (SnapshotId × Manifest)
deriving DecidableEq, Repr

def RetentionRegistry.new : RetentionRegistry := ⟨1, []⟩

/-- The WAL is the records as they were appended.  Their lengths are written in 32 bits, and the
check of a put bounds key and value one by one only: the two together are taken to leave room. -/
structure Disk where
  data : Option Device
  wal : Option WalFile
  metaLog : Option MetaLog
  blob : Option BlobArtifact
  blobBackup : Option BlobArtifact
  blobDelta : Option (Lib.LogFile SegmentCatalogDelta)
  segments : Segments
  registry : Option RetentionRegistry
  retained : List (SnapshotId × BlobImage)
  space : List Bool

namespace Disk

/-- A directory that does not exist yet. -/
def empty (space : List Bool) : Disk := ⟨none, none, none, none, none, none, [], none, [], space⟩

def device (d : Disk) : Device := d.data.getD Device.empty

def walFile (d : Disk) : WalFile := d.wal.getD Lib.LogFile.empty

/-- The readable frames of the catalog delta log. -/
def deltaFrames (d : Disk) : List SegmentCatalogDelta :=
  (d.blobDelta.map Lib.LogFile.records).getD []

/-- The frames of the metadata log. -/
def frames (d : Disk) : List MetaLogFrame := (d.metaLog.map Lib.LogFile.records).getD []

def parsedMetaLog (d : Disk) : Option ParsedMetaLog := d.metaLog.map MetaLog.parse

/-- `parse_blob_catalog` over this directory. -/
def parseBlob (d : Disk) (artifact : BlobArtifact) (target : Option GenerationId) :
    Option BlobManager :=
  parseBlobCatalog d.segments d.deltaFrames artifact target

/-- A file that may be missing, before and after a crash. -/
def CrashFile {α : Type} (crash : α → α → Prop) : Option α → Option α → Prop
  | none, none => True
  | some a, some a' => crash a a'
  | _, _ => False

/-- What a crash leaves of the directory.  The capacity answers after it are arbitrary. -/
structure Crash (d d' : Disk) : Prop where
  data : CrashFile Device.Crash d.data d'.data
  wal : CrashFile (Lib.LogFile.Crash WalRecord.size) d.wal d'.wal
  metaLog : CrashFile (Lib.LogFile.Crash MetaLogFrame.size) d.metaLog d'.metaLog
  blob : d'.blob = d.blob
  blobBackup : d'.blobBackup = d.blobBackup
  blobDelta : CrashFile (Lib.LogFile.Crash SegmentCatalogDelta.size) d.blobDelta d'.blobDelta
  segments : List.Forall₂ (fun s s' => s'.1 = s.1 ∧
    Lib.LogFile.Crash BlobRecord.serializedSize s.2 s'.2) d.segments d'.segments
  registry : d'.registry = d.registry
  retained : d'.retained = d.retained

end Disk

/-! ## The handle -/

structure RetainedRoot where
  snapshotId : SnapshotId
  manifest : Manifest
  offsets : List Nat
deriving DecidableEq, Repr

/-- The named roots, which are in the registry file, and the roots that transactions and
read views pin; the ids of the latter count down from the largest. -/
structure RetentionState where
  namedRoots : List RetainedRoot
  nextSnapshotId : SnapshotId
  ephemeralRoots : List RetainedRoot
  nextEphemeralSnapshotId : SnapshotId
deriving DecidableEq, Repr

namespace RetentionState

def allRoots (r : RetentionState) : List RetainedRoot := r.namedRoots ++ r.ephemeralRoots

/-- The registry as it is persisted; an empty one has no file. -/
def registry (r : RetentionState) : Option RetentionRegistry :=
  if r.namedRoots.isEmpty then none
  else some ⟨r.nextSnapshotId, r.namedRoots.map fun root => (root.snapshotId, root.manifest)⟩

end RetentionState

structure PendingEnvelope where
  envelopeId : Nat
deriving DecidableEq, Repr

structure VacuumState where
  sourceGeneration : GenerationId
  sourceCommit : CommitId
  cursor : RangeCursor
  candidateTree : BTree
  candidateBlobs : BlobManager
deriving DecidableEq, Repr

structure DB where
  options : Options
  engine : StorageEngine
  /-- Records appended to the WAL manager's buffer, not yet written. -/
  walBuffer : List WalRecord
  blobs : BlobManager
  vacuumState : Option VacuumState
  retention : RetentionState
  /-- The tables that open read views pin. -/
  leases : List PMT
  manifestHistory : ManifestHistory
  databaseId : Nat
  historyId : Nat
  generationId : GenerationId
  commitId : CommitId
  nextCommitId : CommitId
  nextGenerationId : GenerationId
  pendingMutations : Nat
  pendingWalBytes : Nat
  walReservedExtent : Nat
  pendingDigest : Nat
  pendingEnvelopes : List PendingEnvelope
  nextEnvelopeId : Nat
  pendingBlobChanges : Bool
  pendingBlobFrame : Bool
  unframedCommits : Bool
  unframedWalBytes : Nat
  isOpen : Bool
  writeFenced : Bool
deriving DecidableEq, Repr

/-- A database call: it may change the handle and the directory, and may fail. -/
abbrev DbM (α : Type) := Lib.Prog DB Disk Error α

namespace DB

open Lib.Prog (handle disk modifyHandle write lift check runIf onError forEach)

/-- `protected_offsets_snapshot`: the slots of the retained roots and of the leased tables. -/
def protectedOffsets (db : DB) : List Nat :=
  db.retention.allRoots.flatMap RetainedRoot.offsets ++ db.leases.flatMap PMT.offsets

def bootstrapManifest (db : DB) : Manifest :=
  ⟨db.databaseId, db.historyId, 0, 0, db.engine.btree.root, 0, 0, 0, 0⟩

/-- Change the engine only. -/
def modifyEngine (f : StorageEngine → StorageEngine) : DbM Unit :=
  modifyHandle fun db => { db with engine := f db.engine }

/-- The next answer of the file system to a capacity check. -/
def checkCapacity (refusal : Error) : DbM Unit := fun w =>
  match w.disk.space with
  | false :: rest => .error refusal { w with disk := { w.disk with space := rest } }
  | true :: rest => .ok () { w with disk := { w.disk with space := rest } }
  | [] => .ok () w

/-! ## Admission checks -/

def validatePublishedFrontier (db : DB) : Except Error Unit :=
  match db.manifestHistory.latest with
  | none =>
    if db.commitId = 0 ∧ db.generationId = 0 then .ok ()
    else .error (.corruption "published manifest history is empty")
  | some current =>
    if current.databaseId ≠ db.databaseId then .error (.corruption
      "published manifest database identity differs from the coordinator")
    else if current.historyId ≠ db.historyId then .error (.corruption
      "published manifest history identity differs from the coordinator")
    else if db.unframedCommits then
      if current.generationId > db.generationId ∨ current.commitId > db.commitId then
        .error (.corruption "published manifest frontier is ahead of the coordinator")
      else .ok ()
    else if current.generationId ≠ db.generationId then
      .error (.corruption "published manifest generation differs from the coordinator")
    else if current.commitId ≠ db.commitId then
      .error (.corruption "published manifest commit differs from the coordinator")
    else if db.pendingMutations = 0 ∧ current.rootPageId ≠ db.engine.btree.root then
      .error (.corruption "clean B-tree root differs from the published manifest")
    else .ok ()

def validatePending (db : DB) : Except Error Unit :=
  if db.pendingMutations = 0 then
    if db.pendingWalBytes ≠ 0 then
      .error (.corruption "pending WAL bytes exist without pending mutations")
    else if db.pendingDigest ≠ 0 then
      .error (.corruption "pending digest exists without pending mutations")
    else if db.pendingBlobChanges then
      .error (.corruption "pending blob changes exist without pending mutations")
    else .ok ()
  else if db.pendingWalBytes = 0 then
    .error (.corruption "pending mutations have no WAL bytes")
  else if db.pendingWalBytes > db.options.maxWalBytes then
    .error (.corruption "pending WAL bytes exceed the configured admission budget")
  else if db.walReservedExtent < db.pendingWalBytes then
    .error (.corruption "pending WAL bytes exceed the reserved WAL extent")
  else .ok ()

def validateRuntimeState (db : DB) : Except Error Unit :=
  if db.nextCommitId ≤ db.commitId then
    .error (.corruption "next commit identity is not ahead of the published commit")
  else if db.nextGenerationId ≤ db.generationId then
    .error (.corruption "next generation identity is not ahead of the published generation")
  else match (if db.writeFenced then .ok () else db.validatePublishedFrontier) with
    | .error e => .error e
    | .ok () =>
      if db.engine.nextOffset % pageSize ≠ 0 then
        .error (.corruption ("storage allocation frontier " ++ toString db.engine.nextOffset ++
          " is not page aligned"))
      else db.validatePending

def checkOpen (db : DB) : Except Error Unit :=
  if db.isOpen then db.validateRuntimeState
  else .error (.invalidArgument "database is closed")

/-- `check_readable` and `check_writable` differ in the text of the fence. -/
def checkFence (db : DB) (fenced : String) : Except Error Unit :=
  match db.checkOpen with
  | .error e => .error e
  | .ok () => if db.writeFenced then .error (.needsRecovery fenced) else .ok ()

def checkReadable (db : DB) : Except Error Unit :=
  db.checkFence "reads fenced after a failed durable publication; reopen required"

def checkWritable : DbM Unit := do
  let db ← handle
  lift (db.checkFence "writer fenced after a failed durable publication; reopen required")

def checkMaintenanceIdle : DbM Unit := do
  let db ← handle
  check db.vacuumState.isNone (.maintenanceInProgress "logical vacuum")

/-! ## Reads -/

/-- The user value of a lookup result. -/
def lookupValue (read : BlobPointer → Option Bytes) (invalid : Error) :
    LookupResult → Except Error (Option Bytes)
  | .found value => .ok (some value)
  | .blob pointer => match read pointer with
    | some value => .ok (some value)
    | none => .error invalid
  | .deleted => .ok none
  | .notFound => .ok none

def get (db : DB) (d : Disk) (key : Bytes) : Except Error (Option Bytes) :=
  match db.checkReadable with
  | .error e => .error e
  | .ok () => match db.engine.lookup d.device key with
    | .error e => .error e
    | .ok result => lookupValue db.blobs.read (.corruption "blob pointer invalid") result

def retainedManifest (db : DB) (snapshotId : SnapshotId) : Except Error Manifest :=
  match db.retention.allRoots.find? (fun root => root.snapshotId = snapshotId) with
  | some root => .ok root.manifest
  | none => .error (.snapshotUnavailable
      ("retained root " ++ toString snapshotId ++ " is not active"))

/-- The mapping table a manifest selects. -/
def manifestPmt (d : Disk) (manifest : Manifest) : Except Error PMT :=
  if manifest.pmtCheckpointId = 0 then .ok PMT.new
  else match d.parsedMetaLog with
    | none => .error (.corruption "metadata log is missing")
    | some parsed => match parsed.resolve manifest.pmtCheckpointId with
      | .error e => .error e
      | .ok (pmt, _, _) => .ok pmt

/-- The blob image kept beside a pinned root. -/
def retainedBlobs (d : Disk) (snapshotId : SnapshotId) : Except Error BlobManager :=
  let invalid := Error.corruption
    ("retained snapshot " ++ toString snapshotId ++ " has an invalid blob image")
  match d.retained.lookup snapshotId with
  | none => .error invalid
  | some image => match BlobManager.fromImage image with
    | none => .error invalid
    | some blobs => .ok blobs

def invalidRetainedPointer (snapshotId : SnapshotId) : Error := .corruption
  ("retained snapshot " ++ toString snapshotId ++ " has an invalid blob pointer")

/-- The image is read only for a blob pointer. -/
def retainedValue (d : Disk) (snapshotId : SnapshotId) (result : LookupResult) :
    Except Error (Option Bytes) :=
  match result with
  | .blob pointer => match retainedBlobs d snapshotId with
    | .error e => .error e
    | .ok blobs => lookupValue blobs.read (invalidRetainedPointer snapshotId) (.blob pointer)
  | result => lookupValue (fun _ => none) (invalidRetainedPointer snapshotId) result

def getAt (db : DB) (d : Disk) (snapshotId : SnapshotId) (key : Bytes) :
    Except Error (Option Bytes) :=
  match db.checkReadable with
  | .error e => .error e
  | .ok () => match db.retainedManifest snapshotId with
    | .error e => .error e
    | .ok manifest => match manifestPmt d manifest with
      | .error e => .error e
      | .ok pmt => match lookupAt d.device manifest.rootPageId pmt key with
        | .error e => .error e
        | .ok result => retainedValue d snapshotId result

/-- The user values of scanned entries, in order. -/
def scanValues (read : BlobPointer → Option Bytes) (invalid : Error) :
    List (Bytes × LookupResult) → Except Error (List (Bytes × Bytes))
  | [] => .ok []
  | (key, result) :: rest => match lookupValue read invalid result with
    | .error e => .error e
    | .ok value => match scanValues read invalid rest with
      | .error e => .error e
      | .ok entries => .ok (match value with
        | some value => (key, value) :: entries
        | none => entries)

def rangeAt (db : DB) (d : Disk) (snapshotId : SnapshotId) (start end_ : Bytes) :
    Except Error (List (Bytes × Bytes)) :=
  match db.checkReadable with
  | .error e => .error e
  | .ok () => match db.retainedManifest snapshotId with
    | .error e => .error e
    | .ok manifest => match manifestPmt d manifest with
      | .error e => .error e
      | .ok pmt => match retainedBlobs d snapshotId with
        | .error e => .error e
        | .ok blobs => match SeerDb.rangeAt d.device manifest.rootPageId pmt start end_ with
          | .error e => .error e
          | .ok entries =>
            scanValues blobs.read (invalidRetainedPointer snapshotId) entries

end DB

end SeerDb
