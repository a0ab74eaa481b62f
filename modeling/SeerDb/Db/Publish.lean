/-
# `SeerDb.Db.Publish` — publication of a generation

`db/publication.rs`, `db/blob_publication.rs`, `db/segmented_blob_publication.rs`,
`db/envelope.rs`, `db/durability.rs`, `DB::flush` and `DB::close`.  A full
publication writes the dirty pages and syncs them, writes the blob artifacts,
closes the group in the WAL, and appends the frame that makes all of it visible.
A WAL-first publication stops after a synced commit record.
-/
import SeerDb.Db.Write

namespace SeerDb

namespace DB

open Lib.Prog (handle disk modifyHandle write lift check runIf onError forEach)

/-! ## Pages -/

def writeData (f : Device → Device) : DbM Unit :=
  write fun d => { d with data := some (f d.device) }

/-- Write one dirty page out of place; the slot it had is retired. -/
def writeDirtyPage (pageId : PageId) : DbM (List Nat) := do
  let db ← handle
  match db.engine.btree.node pageId with
  | none => pure []
  | some node => do
    writeData fun dev => dev.writePage db.engine.nextSlot
      { node with writeGeneration := db.engine.writeGeneration }
    modifyEngine fun e => e.placed pageId
    pure ((db.engine.pmt.get pageId).map PageMapping.offset).toList

def writeDirtyPages : List PageId → DbM (List Nat)
  | [] => pure []
  | pageId :: rest => do
    let retired ← writeDirtyPage pageId
    let others ← writeDirtyPages rest
    pure (retired ++ others)

/-- `flush_after_reclamation_refresh`: capacity is asked for before the first write. -/
def flushPages : DbM Unit := do
  checkCapacity .capacityPreflight
  let db ← handle
  let retired ← writeDirtyPages db.engine.btree.dirtyPageIds
  writeData Device.sync
  modifyEngine fun e => { e with pendingReclaimedOffsets := retired }

def refreshIfNeeded : DbM Unit := do
  let db ← handle
  let d ← disk
  modifyEngine fun e => e.refreshIfNeeded d.device db.protectedOffsets

/-! ## Blob artifacts -/

def writeBlobImage : DbM Unit := do
  let db ← handle
  write fun d => { d with blob := some (.image db.blobs.toImage) }

/-- The empty catalog of the current generation, kept for a failed first publication. -/
def emptyCatalog (db : DB) : SegmentCatalog :=
  ⟨db.blobs.threshold, (db.manifestHistory.latest.map Manifest.generationId).getD 0, []⟩

def prepareSegmentCatalogBackup (consolidate : Bool) : DbM Unit := do
  let db ← handle
  let d ← disk
  runIf (consolidate && d.blobBackup.isNone) (write fun d => match d.blob with
    | some artifact => { d with blob := none, blobBackup := some artifact }
    | none => { d with blobBackup := some (.catalog db.emptyCatalog) })

def segmentFile (d : Disk) (fileId : Nat) : Lib.LogFile BlobRecord :=
  (Lib.get fileId d.segments).getD Lib.LogFile.empty

def setSegment (fileId : Nat) (f : Lib.LogFile BlobRecord → Lib.LogFile BlobRecord) : DbM Unit :=
  write fun d => { d with segments := Lib.upsert fileId (f (segmentFile d fileId)) d.segments }

/-- The records of a file behind the first `len` bytes. -/
def suffixRecords (f : BlobFile) (len : Nat) : List BlobRecord :=
  f.records.drop (Lib.LogFile.within BlobRecord.serializedSize len f.records).length

/-- Append what the catalog does not cover yet to one segment file. -/
def writeSegmentSuffix (f : BlobFile) : DbM Unit := do
  let db ← handle
  let d ← disk
  let persisted := db.blobs.persistedSegmentLength f.fileId
  check (persisted ≤ f.serializedSize)
    (.corruption "blob segment shrank below its catalog frontier")
  runIf (f.serializedSize ≠ persisted) do
    let physical := (segmentFile d f.fileId).length BlobRecord.serializedSize
    check (persisted ≤ physical) (.corruption "blob segment is shorter than its catalog frontier")
    setSegment f.fileId fun segment => segment.truncate BlobRecord.serializedSize persisted
    setSegment f.fileId fun segment =>
      segment.appendAll BlobRecord.serializedSize (suffixRecords f persisted)
    setSegment f.fileId Lib.LogFile.sync

def writeSegmentSuffixes : DbM Unit := do
  let db ← handle
  forEach writeSegmentSuffix db.blobs.files

def deltaFile (d : Disk) : Lib.LogFile SegmentCatalogDelta := d.blobDelta.getD Lib.LogFile.empty

/-- Frames ahead of the catalog frontier are cut before the new one is appended. -/
def appendSegmentCatalogDelta : DbM Unit := do
  let db ← handle
  write fun d =>
    let kept := (deltaFile d).records.takeWhile fun frame =>
      frame.generationId ≤ db.blobs.catalog.persistedGenerationId
    { d with
      blobDelta := some ((deltaFile d).truncate SegmentCatalogDelta.size
        (Lib.LogFile.bytes SegmentCatalogDelta.size kept)) }
  write fun d => { d with
    blobDelta := some ((deltaFile d).append SegmentCatalogDelta.size
      db.blobs.toSegmentCatalogDelta) }
  write fun d => { d with blobDelta := some (deltaFile d).sync }

def publishSegmentCatalog (consolidate : Bool) : DbM Unit := do
  let db ← handle
  if consolidate then do
    write fun d => { d with blob := some (.catalog db.blobs.toSegmentCatalog) }
    modifyHandle fun db => { db with blobs := db.blobs.markSegmentCatalogConsolidated }
  else do
    appendSegmentCatalogDelta
    modifyHandle fun db => { db with blobs := db.blobs.markSegmentDeltaPersisted }

def segmentedCatalogConsolidationNeeded (db : DB) (d : Disk) : Bool :=
  d.blob.isNone || db.blobs.catalogNeedsConsolidation

def writeBlobSegments : DbM Unit := do
  let db ← handle
  let d ← disk
  let consolidate := db.segmentedCatalogConsolidationNeeded d
  prepareSegmentCatalogBackup consolidate
  writeSegmentSuffixes
  publishSegmentCatalog consolidate

/-- The artifacts of one generation, in the layout of the store. -/
def writeBlobArtifacts (generation : GenerationId) : DbM Unit := do
  modifyHandle fun db => { db with blobs := db.blobs.setGeneration generation }
  let db ← handle
  if db.blobs.segmented then writeBlobSegments else writeBlobImage

/-- Segments that the live catalog does not name. -/
def pruneUnreferencedBlobSegments : DbM Unit := do
  let db ← handle
  let d ← disk
  forEach (fun fileId => write fun d => { d with segments := Lib.erase fileId d.segments })
    ((d.segments.map Prod.fst).filter fun fileId => fileId ∉ db.blobs.segmentFileIds)

def finishSegmentCatalogBackup : DbM Unit := do
  let d ← disk
  runIf d.blobBackup.isSome do
    write fun d => { d with blobBackup := none }
    let d ← disk
    runIf d.blobDelta.isSome (write fun d => { d with blobDelta := none })

def finishSegmentedBlobPublicationCleanup : DbM Unit := do
  let db ← handle
  runIf db.blobs.segmented do
    pruneUnreferencedBlobSegments
    finishSegmentCatalogBackup

/-! ## The authority frame -/

/-- The log as the next frame finds it: a torn tail is cut first. -/
def cutMetaLog : DbM Unit := do
  let d ← disk
  runIf (d.metaLog.any fun log => log.torn ≠ 0) (write fun d => { d with
    metaLog := d.metaLog.map fun log => { log with torn := 0 }.sync })

def appendGenerationMeta (checkpointId parentCheckpointId : Nat) (manifest : Manifest) :
    DbM Unit := do
  cutMetaLog
  let db ← handle
  let d ← disk
  let entry ← lift (generationEntry d.parsedMetaLog parentCheckpointId db.engine.pmt
    db.engine.btree.pageAllocator)
  write fun d => { d with
    metaLog := some ((d.metaLog.getD Lib.LogFile.empty).append MetaLogFrame.size
      ⟨checkpointId, manifest, entry⟩) }
  write fun d => { d with metaLog := some (d.metaLog.getD Lib.LogFile.empty).sync }

def pushHistory (manifest : Manifest) : DbM Unit := do
  let db ← handle
  match db.manifestHistory.push manifest with
  | .error message => throw (.corruption ("manifest history " ++ message))
  | .ok history => modifyHandle fun db => { db with manifestHistory := history }

def commitManifest (db : DB) (commit : CommitRecord) (walOffset : Nat) : Manifest where
  databaseId := db.databaseId
  historyId := db.historyId
  generationId := commit.generationId
  commitId := commit.commitId
  rootPageId := commit.rootPageId
  pmtCheckpointId := commit.generationId
  walOffset := walOffset
  mutationCount := commit.mutationCount
  digest := commit.digest

def appendEnvelopeFrame (commit : CommitRecord) (walOffset : Nat) (parent : Manifest) :
    DbM Unit := do
  let db ← handle
  appendGenerationMeta commit.generationId parent.pmtCheckpointId
    (db.commitManifest commit walOffset)
  pushHistory (db.commitManifest commit walOffset)

/-- `publish_authority_frame`, for a maintenance generation. -/
def publishAuthorityFrame (manifest : Manifest) : DbM Unit := do
  let db ← handle
  match db.manifestHistory.latest with
  | none => throw (.corruption "database has no valid manifest")
  | some parent => do
    appendGenerationMeta manifest.generationId parent.pmtCheckpointId manifest
    pushHistory manifest

/-- `WAL_RETENTION_RECLAIM_BYTES`. -/
def walRetentionReclaimBytes : Nat := 8388608

/-- A retained WAL that grew past the bound is removed. -/
def reclaimWal : DbM Unit := do
  let d ← disk
  runIf (d.wal.isSome && d.walFile.length WalRecord.size ≥ walRetentionReclaimBytes) do
    write fun d => { d with wal := none }
    modifyHandle fun db => { db with walReservedExtent := 0 }

def completeGeneration : DbM Unit := do
  let db ← handle
  modifyEngine fun e => e.completeGeneration db.protectedOffsets

/-- Nothing is pending any more. -/
def cleared (db : DB) : DB :=
  { db with
    pendingMutations := 0
    pendingWalBytes := 0
    pendingDigest := 0
    pendingBlobChanges := false }

def finishGenerationPublication (commit : CommitRecord) : DbM Unit := do
  finishSegmentedBlobPublicationCleanup
  completeGeneration
  reclaimWal
  modifyHandle fun db => { db.cleared with
    generationId := commit.generationId
    commitId := commit.commitId
    nextGenerationId := max db.nextGenerationId (commit.generationId + 1)
    nextCommitId := max db.nextCommitId (commit.commitId + 1)
    pendingBlobFrame := false
    unframedCommits := false
    unframedWalBytes := 0 }

/-! ## Publishing the pending group -/

def latestOrBootstrap (db : DB) : Manifest := db.manifestHistory.latest.getD db.bootstrapManifest

/-- `preflight_publication_capacity`. -/
def preflightPublicationCapacity : DbM Unit := checkCapacity .capacityPreflight

/-- Close the group in the WAL; the offset is the file length before the commit record. -/
def appendCommitRecord (commit : CommitRecord) : DbM Nat := do
  let d ← disk
  modifyHandle fun db => { db with walBuffer := db.walBuffer ++ [.commit commit] }
  writeWalToDisk false
  pure (d.walFile.length WalRecord.size)

/-- The commit that covers the pending mutations, under the next identities. -/
def nextCommit (db : DB) : CommitRecord :=
  ⟨db.nextCommitId, db.nextGenerationId, db.engine.btree.root,
    db.pendingMutations, db.pendingDigest⟩

/-- `publish_generation`; without `appendCommit` the group is already closed at
`recoveredWalOffset`. -/
def publishGeneration (commit : CommitRecord) (appendCommit : Bool) (recoveredWalOffset : Nat) :
    DbM Unit := do
  let db ← handle
  let parent := db.latestOrBootstrap
  refreshIfNeeded
  writeWalToDisk false
  preflightPublicationCapacity
  modifyEngine fun e => { e with writeGeneration := commit.generationId }
  flushPages
  let db ← handle
  runIf (db.blobs.segmented || db.pendingBlobChanges) (writeBlobArtifacts commit.generationId)
  let walOffset ← if appendCommit then appendCommitRecord commit else pure recoveredWalOffset
  appendEnvelopeFrame commit walOffset parent
  finishGenerationPublication commit

/-- `write_group_blob_artifacts`: unlike `publish_generation` it asks for changes no frame has
named. -/
def writeGroupBlobArtifacts (generation : GenerationId) : DbM Unit := do
  let db ← handle
  runIf (db.blobs.segmented || db.pendingBlobFrame) (writeBlobArtifacts generation)

/-- Take the next identities for a commit. -/
def reserveIdentities : DbM Unit := modifyHandle fun db => { db with
  nextCommitId := db.nextCommitId + 1
  nextGenerationId := db.nextGenerationId + 1 }

def publishEnvelopeGroup : DbM Unit := do
  let db ← handle
  let parent := db.latestOrBootstrap
  writeWalToDisk false
  preflightPublicationCapacity
  refreshIfNeeded
  modifyEngine fun e => { e with writeGeneration := db.nextGenerationId }
  flushPages
  writeGroupBlobArtifacts db.nextGenerationId
  let db ← handle
  let commit := db.nextCommit
  reserveIdentities
  let walOffset ← appendCommitRecord commit
  appendEnvelopeFrame commit walOffset parent
  finishGenerationPublication commit

def materializeBoundReached (db : DB) : Bool :=
  db.options.walMaterializeBytes ≠ 0 && db.unframedWalBytes ≥ db.options.walMaterializeBytes

/-- Acknowledge the group with a synced commit record; pages and frame follow later. -/
def acknowledgeGroup : DbM Unit := do
  let db ← handle
  writeGroupBlobArtifacts db.nextGenerationId
  let db ← handle
  let commit := db.nextCommit
  reserveIdentities
  modifyHandle fun db => { db with walBuffer := db.walBuffer ++ [.commit commit] }
  writeWalToDisk true
  modifyHandle fun db => { db.cleared with
    generationId := commit.generationId
    commitId := commit.commitId
    unframedWalBytes := db.unframedWalBytes + db.pendingWalBytes + WalRecord.commitRecordBytes
    unframedCommits := true }

def publishEnvelopeGroupWalFirst : DbM Unit := do
  let db ← handle
  let d ← disk
  -- a consolidation retires the delta log, which only a frame in the same publication makes safe
  if db.blobs.segmented && db.segmentedCatalogConsolidationNeeded d then publishEnvelopeGroup
  else acknowledgeGroup

/-! ## flush, publication_barrier, commit_batch, close -/

def fence : DbM Unit := modifyHandle fun db => { db with writeFenced := true }

/-- A refused capacity check has written nothing and can be retried; any other error fences. -/
def fenceUnlessPreflight (e : Error) : DbM Unit := runIf (e ≠ .capacityPreflight) fence

/-- The part of `flush` behind its checks, with no envelope staged. -/
def flushGeneration : DbM Unit := do
  let db ← handle
  if db.pendingMutations = 0 then
    runIf db.unframedCommits (onError publishEnvelopeGroup fenceUnlessPreflight)
  else onError (publishGeneration db.nextCommit true 0) fenceUnlessPreflight

def publicationBarrier : DbM (List PendingEnvelope) := do
  checkWritable
  let db ← handle
  if db.pendingEnvelopes.isEmpty then pure []
  else do
    modifyHandle fun db => { db with pendingEnvelopes := [] }
    onError (if db.options.walFirstCommits then publishEnvelopeGroupWalFirst else
      publishEnvelopeGroup) fun e => do
        modifyHandle fun handle => { handle with pendingEnvelopes := db.pendingEnvelopes }
        fenceUnlessPreflight e
    let published ← handle
    runIf (published.options.walFirstCommits && published.materializeBoundReached) do
      -- `flush`; the staged envelopes were taken above
      checkWritable
      checkMaintenanceIdle
      flushGeneration
    pure db.pendingEnvelopes

def flush : DbM Unit := do
  checkWritable
  checkMaintenanceIdle
  let db ← handle
  if db.pendingEnvelopes.isEmpty then flushGeneration
  else do
    let _ ← publicationBarrier

def installBatch (prepared : PreparedBatch) : DbM Unit := do
  modifyHandle fun db => { db with walBuffer := db.walBuffer ++ prepared.records }
  let db ← handle
  writeWalToDisk db.options.syncWrites
  modifyHandle fun db => db.withBatch prepared false
  if db.options.walFirstCommits then do
    onError publishEnvelopeGroupWalFirst fun _ => fence
    let published ← handle
    runIf published.materializeBoundReached flush
  else flush

def commitBatchAt (expectedCommit : CommitId) (mutations : List Mutation) : DbM Unit := do
  checkWritable
  checkMaintenanceIdle
  checkExpectedCommit expectedCommit
  runIf (!mutations.isEmpty) do
    let db ← handle
    check (db.pendingMutations = 0) (.invalidArgument
      "commit_batch requires a clean pending generation; flush or discard pending mutations first")
    let prepared ← prepareBatch mutations
    installBatch prepared

def commitBatch (mutations : List Mutation) : DbM Unit := do
  let db ← handle
  commitBatchAt db.commitId mutations

def close : DbM Unit := do
  let db ← handle
  runIf db.isOpen do
    flush
    let d ← disk
    runIf d.wal.isSome (write fun d => { d with wal := none })
    modifyHandle fun db => { db with isOpen := false }

end DB

end SeerDb
