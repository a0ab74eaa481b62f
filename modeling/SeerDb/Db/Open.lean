/-
# `SeerDb.Db.Open` — opening a database

`db/open.rs`, `db/open_catalog.rs`, `db/open_components.rs`, `db/wal_recovery.rs`
and the backup recovery of `db/blob_publication.rs`.  The newest frame that
resolves is the authority; blob artifacts and WAL are reconciled with it, and the
commit groups ahead of it are replayed and published.

Archives, check-only opens and the metadata file of databases without a log are
left out.
-/
import SeerDb.Db.Retain

namespace SeerDb

/-! ## WAL analysis and replay -/

def decodeMutation : WalRecord → Except Error Mutation
  | .mutation .put payload => (decodePutPayload false payload).map fun kv => .put kv.1 kv.2
  | .mutation .putV2 payload => (decodePutPayload true payload).map fun kv => .put kv.1 kv.2
  | .mutation .delete payload => (decodeDeletePayload false payload).map .delete
  | .mutation .deleteV2 payload => (decodeDeletePayload true payload).map .delete
  | .commit _ => .error (.corruption "commit record appeared in WAL mutation prefix")

/-- A commit record must count and digest the mutations before it. -/
def checkGroup (commit : CommitRecord) (pending : List WalRecord) : Except Error Unit :=
  if commit.mutationCount ≠ pending.length ∨ commit.digest ≠ digestRecords pending then
    .error (.corruption "WAL commit does not match its mutation prefix")
  else .ok ()

/-- Whether a commit is ahead of the authority.  `idMismatch` is the error for a
commit of the authority's own generation under another commit id. -/
def aheadOf (idMismatch : Error) (current : Manifest) (commit : CommitRecord) : Except Error Bool :=
  if commit.generationId < current.generationId then
    if commit.commitId > current.commitId then
      .error (.corruption "WAL commit frontier is inconsistent with manifest")
    else .ok false
  else if commit.generationId = current.generationId then
    if commit.commitId ≠ current.commitId then .error idMismatch
    else if commit.rootPageId ≠ current.rootPageId ∨ commit.mutationCount ≠ current.mutationCount ∨
        commit.digest ≠ current.digest then
      .error (.corruption "WAL commit disagrees with authoritative manifest")
    else .ok false
  else if commit.commitId ≤ current.commitId then
    .error (.corruption "WAL commit frontier is inconsistent with manifest")
  else .ok true

theorem aheadOf_false {e : Error} {current : Manifest} {commit : CommitRecord}
    (h : aheadOf e current commit = .ok false) :
    commit.commitId ≤ current.commitId ∧ commit.generationId ≤ current.generationId := by
  rw [aheadOf] at h
  split at h
  · rename_i hlt
    split at h
    · cases h
    · rename_i hle
      exact ⟨not_lt.mp hle, hlt.le⟩
  split at h
  · rename_i heq
    split at h
    · cases h
    · rename_i hid
      exact ⟨(not_not.mp hid).le, heq.le⟩
  · split at h <;> cases h

theorem aheadOf_true {e : Error} {current : Manifest} {commit : CommitRecord}
    (h : aheadOf e current commit = .ok true) :
    current.commitId < commit.commitId ∧ current.generationId < commit.generationId := by
  rw [aheadOf] at h
  split at h
  · split at h <;> cases h
  rename_i hle
  split at h
  · split at h
    · cases h
    · split at h <;> cases h
  · rename_i hne
    split at h
    · cases h
    · rename_i hid
      exact ⟨not_le.mp hid, lt_of_le_of_ne (not_lt.mp hle) fun he => hne he.symm⟩

structure WalAnalysis where
  lastCommitEnd : Nat
  hasUnpublishedCommit : Bool
deriving DecidableEq, Repr

/-- `analyze_wal_bytes`, from `offset` on with the mutations `pending` not closed yet. -/
def analyzeWal (current : Option Manifest) :
    List WalRecord → Nat → List WalRecord → WalAnalysis → Except Error WalAnalysis
  | [], _, _, analysis => .ok analysis
  | .mutation recordType payload :: rest, offset, pending, analysis =>
    analyzeWal current rest (offset + (WalRecord.mutation recordType payload).size)
      (pending ++ [.mutation recordType payload]) analysis
  | .commit commit :: rest, offset, pending, analysis =>
    match checkGroup commit pending with
    | .error e => .error e
    | .ok () =>
      let ahead : Except Error Bool := match current with
        | none => .ok (commit.generationId > 0 || commit.commitId > 0)
        | some current => aheadOf
            (.corruption "WAL commit disagrees with authoritative manifest") current commit
      match ahead with
      | .error e => .error e
      | .ok ahead =>
        let offset := offset + (WalRecord.commit commit).size
        analyzeWal current rest offset [] ⟨offset, analysis.hasUnpublishedCommit || ahead⟩

def WalFile.analyze (wal : WalFile) (current : Option Manifest) : Except Error WalAnalysis :=
  analyzeWal current wal.records 0 [] ⟨0, false⟩

structure RecoverySummary where
  lastCommit : Option CommitRecord
  lastCommitOffset : Nat
  blobChanged : Bool
deriving DecidableEq, Repr

/-- Replay one closed group; a failed retirement of an old blob is ignored here. -/
def replayGroup : List WalRecord → DB.Candidate → Except Error DB.Candidate
  | [], c => .ok c
  | record :: rest, c => match decodeMutation record with
    | .error e => .error e
    | .ok m => match applyMutation m c.btree c.blobs with
      | (.error e, _, _) => .error e
      | (.ok outcome, btree, blobs) =>
        replayGroup rest ⟨btree, blobs, c.blobChanged || outcome.blobChanged⟩

/-- `recover_from_wal`: groups at or below the authority are skipped. -/
def recoverFromWal (current : Option Manifest) :
    List WalRecord → Nat → List WalRecord → Option (CommitRecord × Nat) → DB.Candidate →
      Except Error (Option (CommitRecord × Nat) × DB.Candidate)
  | [], _, _, last, c => .ok (last, c)
  | .mutation recordType payload :: rest, offset, pending, last, c =>
    recoverFromWal current rest (offset + (WalRecord.mutation recordType payload).size)
      (pending ++ [.mutation recordType payload]) last c
  | .commit commit :: rest, offset, pending, last, c =>
    match checkGroup commit pending with
    | .error e => .error e
    | .ok () =>
      let ahead : Except Error Bool := match current with
        | none => .ok true
        | some current => aheadOf
            (.corruption "WAL commit frontier is inconsistent with manifest") current commit
      match ahead with
      | .error e => .error e
      | .ok false =>
        recoverFromWal current rest (offset + (WalRecord.commit commit).size) [] last c
      | .ok true => match replayGroup pending c with
        | .error e => .error e
        | .ok c => recoverFromWal current rest (offset + (WalRecord.commit commit).size) []
            (some (commit, offset)) c

namespace DB

open Lib.Prog (handle disk modifyHandle write lift check runIf onError forEach)

/-! ## Blob artifacts -/

/-- What to do with a blob artifact that was kept aside. -/
inductive BackupAction where
  | discard (withDeltaLog : Bool)
  | restore
deriving DecidableEq, Repr

/-- The blob file, read at the authority's generation, if it is of that generation. -/
def currentBlobs (d : Disk) (generation : GenerationId) : Option BlobManager :=
  match d.blob with
  | none => none
  | some artifact => match d.parseBlob artifact (some generation) with
    | none => none
    | some blobs => if blobs.generationId = generation then some blobs else none

/-- The generation of the blob file by itself. -/
def blobGeneration (d : Disk) : Option GenerationId :=
  match d.blob with
  | none => none
  | some artifact => (d.parseBlob artifact none).map BlobManager.generationId

def backupAction (d : Disk) (backup : BlobArtifact) : Option Manifest → Except Error BackupAction
  | none => match d.parseBlob backup none with
    | none => .error (.corruption "interrupted blob rewrite backup is invalid")
    | some _ => .ok .restore
  | some manifest => match currentBlobs d manifest.generationId with
    | some blobs => .ok (.discard blobs.segmented)
    | none => match d.parseBlob backup (some manifest.generationId) with
      | none => .error (.corruption "interrupted blob rewrite backup is invalid")
      | some blobs =>
        if blobs.generationId > manifest.generationId then .error (.corruption
          ("blob rewrite backup generation " ++ toString blobs.generationId ++
            " is newer than manifest " ++ toString manifest.generationId))
        else if blobs.generationId < manifest.generationId then .ok (.discard false)
        else if blobGeneration d = some manifest.generationId then .ok (.discard false)
        else .ok .restore

def recoverBlobRewriteBackup (current : Option Manifest) : DbM Unit := do
  let d ← disk
  match d.blobBackup with
  | none => pure ()
  | some backup => do
    let action ← lift (backupAction d backup current)
    match action with
    | .discard withDeltaLog => do
      write fun d => { d with blobBackup := none }
      runIf withDeltaLog (write fun d => { d with blobDelta := none })
    | .restore => do
      write fun d => { d with blob := none }
      write fun d => { d with blob := some backup, blobBackup := none }

/-- The blob file, or a new manager; marks of another generation than the authority's are
dropped. -/
def loadBlobs (options : Options) (d : Disk) (current : Option Manifest) :
    Except Error BlobManager :=
  let loaded := match d.blob with
    | none => some (BlobManager.withThresholdAndMode options.blobThreshold
        (options.blobStorage = BlobStorageMode.segmented))
    | some artifact => d.parseBlob artifact (current.map Manifest.generationId)
  match loaded with
  | none => .error (.corruption "blob catalog or segment is invalid")
  | some blobs =>
    if current.any (fun m : Manifest => blobs.generationId ≠ m.generationId) then
      .ok blobs.clearDeletionMetadata
    else .ok blobs

/-! ## The catalog -/

/-- `let _ = history.push(manifest)`. -/
def pushAll (h : ManifestHistory) : List Manifest → ManifestHistory
  | [] => h
  | m :: ms => pushAll (match h.push m with
    | .ok h => h
    | .error _ => h) ms

structure OpenCatalog where
  currentManifest : Option Manifest
  manifestHistory : ManifestHistory
deriving DecidableEq, Repr

def selectCatalog (d : Disk) : Except Error OpenCatalog :=
  let parsed := d.parsedMetaLog.getD ⟨[], true⟩
  if parsed.frames.isEmpty && !parsed.complete then
    .error (.corruption "metadata log has no valid publication frames")
  else if d.data.isSome && parsed.frames.isEmpty then
    .error (.corruption "data file has no authoritative metadata log or WAL")
  else match parsed.selectAuthorityManifest with
    | .error e => .error e
    | .ok none => .ok ⟨none, pushAll .new parsed.publicationManifests⟩
    | .ok (some current) =>
      if d.data.isNone then .error (.corruption
        ("manifest generation " ++ toString current.generationId ++ " is missing the data file"))
      else match (pushAll .new parsed.publicationManifests).reconcileCurrent current with
        | .error message => .error (.corruption ("manifest history " ++ message))
        | .ok history => .ok ⟨some current, history⟩

/-! ## Retained roots -/

/-- The slots of one registered root, after the checks of its identity and its blob image. -/
def loadRetainedRoot (d : Disk) (databaseId historyId : Nat) (root : SnapshotId × Manifest) :
    Except Error RetainedRoot :=
  let retainedSnapshot := "retained snapshot " ++ toString root.1
  if root.2.databaseId ≠ databaseId then
    .error (.corruption (retainedSnapshot ++ " belongs to another database"))
  else if root.2.historyId ≠ historyId then
    .error (.corruption (retainedSnapshot ++ " belongs to another history"))
  else match d.retained.lookup root.1 with
    | none => .error (.corruption (retainedSnapshot ++ " is missing its blob image"))
    | some image => match BlobManager.fromImage image with
      | none => .error (.corruption (retainedSnapshot ++ " has an invalid blob image"))
      | some _ => match loadManifestOffsets d root.2 root.1 with
        | .error e => .error e
        | .ok offsets => .ok ⟨root.1, root.2, offsets⟩

def loadRetainedRoots (d : Disk) (databaseId historyId : Nat) :
    List (SnapshotId × Manifest) → Except Error (List RetainedRoot)
  | [] => .ok []
  | root :: rest => match loadRetainedRoot d databaseId historyId root with
    | .error e => .error e
    | .ok root => match loadRetainedRoots d databaseId historyId rest with
      | .error e => .error e
      | .ok roots => .ok (root :: roots)

/-- `load_retention`: sidecars that no registered root owns are removed first.  A new database
draws its identity from clock and path; one database is modelled, so the value does not matter. -/
def loadRetention (current : Option Manifest) : DbM RetentionState := do
  let d ← disk
  let registry := d.registry.getD .new
  runIf (d.retained.any fun entry => entry.1 ∉ registry.roots.map Prod.fst) (write fun d => { d with
    retained := d.retained.filter fun entry => entry.1 ∈ registry.roots.map Prod.fst })
  let d ← disk
  let roots ← lift (loadRetainedRoots d ((current.map Manifest.databaseId).getD 0)
    ((current.map Manifest.historyId).getD 1) registry.roots)
  pure ⟨roots, registry.nextSnapshotId, [], u64Max⟩

/-! ## The engine and the WAL -/

def loadMetadata (current : Option Manifest) : DbM (PMT × PageAllocator) := do
  match current with
  | none => pure (PMT.new, PageAllocator.new)
  | some current => do
    let d ← disk
    let (pmt, allocator, _) ← lift
      ((d.parsedMetaLog.getD ⟨[], true⟩).resolve current.pmtCheckpointId)
    cutMetaLog
    pure (pmt, allocator)

/-- The engine over the generation that the authority selects. -/
def loadEngine (d : Disk) (pmt : PMT) (allocator : PageAllocator) (current : Option Manifest)
    (protectedOffsets : List Nat) : Except Error StorageEngine :=
  let engine := (StorageEngine.new pmt allocator).refreshReclamation d.device protectedOffsets
  match current with
  | none => .ok engine
  | some current => engine.loadFromManifest d.device protectedOffsets current.rootPageId

/-- Cut the WAL behind its last commit record. -/
def reconcileWal (current : Option Manifest) : DbM Unit := do
  let d ← disk
  match d.wal with
  | none => pure ()
  | some wal => do
    let analysis ← lift (wal.analyze current)
    runIf (analysis.lastCommitEnd < wal.length WalRecord.size) do
      write fun d => { d with
        wal := some (wal.truncate WalRecord.size analysis.lastCommitEnd).sync }

/-- Replay the groups ahead of the authority; `none` when there are none. -/
def recoverWal (d : Disk) (current : Option Manifest) (engine : StorageEngine)
    (blobs : BlobManager) :
    Except Error (StorageEngine × BlobManager × Option RecoverySummary) :=
  match d.wal with
  | none => .ok (engine, blobs, none)
  | some wal => match wal.analyze current with
    | .error e => .error e
    | .ok analysis =>
      if !analysis.hasUnpublishedCommit then .ok (engine, blobs, none)
      else match engine.ensureMaterialized d.device with
        | .error e => .error e
        | .ok engine =>
          match recoverFromWal current wal.records 0 [] none ⟨engine.btree, blobs, false⟩ with
          | .error e => .error e
          | .ok (last, c) => .ok ({ engine with btree := c.btree }, c.blobs,
              some ⟨last.map Prod.fst, (last.map Prod.snd).getD 0, c.blobChanged⟩)

/-- The handle before recovery publishes anything. -/
def assemble (options : Options) (catalog : OpenCatalog) (retention : RetentionState)
    (engine : StorageEngine) (blobs : BlobManager) (recovery : Option RecoverySummary) : DB :=
  let current := catalog.currentManifest
  let generationId := (current.map Manifest.generationId).getD 0
  let commitId := (current.map Manifest.commitId).getD 0
  { options := options
    engine := engine
    walBuffer := []
    blobs := blobs
    vacuumState := none
    retention := retention
    leases := []
    manifestHistory := catalog.manifestHistory
    databaseId := (current.map Manifest.databaseId).getD 0
    historyId := (current.map Manifest.historyId).getD 1
    generationId := generationId
    commitId := commitId
    nextCommitId := commitId + 1
    nextGenerationId := generationId + 1
    pendingMutations := 0
    pendingWalBytes := 0
    walReservedExtent := 0
    pendingDigest := 0
    pendingEnvelopes := []
    nextEnvelopeId := 0
    pendingBlobChanges := recovery.any RecoverySummary.blobChanged
    pendingBlobFrame := false
    unframedCommits := false
    unframedWalBytes := 0
    isOpen := true
    writeFenced := false }

/-- The first frame of a new database. -/
def appendBootstrapFrame : DbM Unit := do
  let db ← handle
  appendGenerationMeta 0 0 db.bootstrapManifest
  modifyHandle fun db => { db with manifestHistory := .reset db.bootstrapManifest }

def publishRecovered : Option RecoverySummary → DbM Unit
  | none => pure ()
  | some recovery => match recovery.lastCommit with
    | some commit =>
      onError (publishGeneration commit false recovery.lastCommitOffset) fun _ => fence
    | none => write fun d => { d with wal := none }

/-- `DB::open`: the handle it returns replaces whatever handle the world had. -/
def openDb (options : Options) : DbM Unit := do
  lift options.validate
  let d ← disk
  let catalog ← lift (selectCatalog d)
  let retention ← loadRetention catalog.currentManifest
  write fun d => { d with data := some d.device }
  recoverBlobRewriteBackup catalog.currentManifest
  let d ← disk
  let blobs ← lift (loadBlobs options d catalog.currentManifest)
  let (pmt, allocator) ← loadMetadata catalog.currentManifest
  let engine ← lift (loadEngine d pmt allocator catalog.currentManifest
    (retention.namedRoots.flatMap RetainedRoot.offsets))
  reconcileWal catalog.currentManifest
  let d ← disk
  let (engine, blobs, recovery) ← lift (recoverWal d catalog.currentManifest engine blobs)
  modifyHandle fun _ => assemble options catalog retention engine blobs recovery
  runIf (catalog.currentManifest.isNone && d.wal.isNone) appendBootstrapFrame
  publishRecovered recovery

end DB

end SeerDb
