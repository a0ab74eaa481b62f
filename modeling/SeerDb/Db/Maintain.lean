/-
# `SeerDb.Db.Maintain` — compaction, blob reclamation, vacuum, history pruning

`db/compaction.rs`, `db/blob_gc.rs`, `db/vacuum.rs` and `db/history_prune.rs`.
Each of them flushes first and publishes what it moved as a generation that
repeats the commit of the newest frame.  The counts that the calls report are
left out, apart from the reclaimed entries of `gc`.
-/
import SeerDb.Db.Publish

namespace SeerDb

namespace DB

open Lib.Prog (handle disk modifyHandle write lift check runIf onError forEach)

/-! ## The generation of a rewrite -/

/-- The newest frame, as a maintenance generation repeats it. -/
def maintenanceManifest (db : DB) (current : Manifest) : Manifest :=
  { current with
    generationId := db.nextGenerationId
    pmtCheckpointId := db.nextGenerationId
    rootPageId := db.engine.btree.root }

/-- The frame of a maintenance generation and what follows it. -/
def publishMaintenanceFrame (manifest : Manifest) : DbM Unit := do
  publishAuthorityFrame manifest
  finishSegmentedBlobPublicationCleanup
  completeGeneration
  modifyHandle fun db => { db with
    generationId := manifest.generationId
    nextGenerationId := manifest.generationId + 1 }

def latestManifest : DbM Manifest := do
  let db ← handle
  match db.manifestHistory.latest with
  | none => throw (.corruption "database has no valid manifest")
  | some current => pure current

/-- The blob file is kept aside under the backup name until the frame is durable. -/
def publishBlobRewriteGeneration : DbM Unit := do
  let current ← latestManifest
  let db ← handle
  let d ← disk
  modifyHandle fun db => { db with blobs := db.blobs.setGeneration db.nextGenerationId }
  runIf d.blobBackup.isSome (write fun d => { d with blobBackup := none })
  runIf d.blob.isSome (write fun d => { d with blob := none, blobBackup := d.blob })
  if db.blobs.segmented then writeBlobSegments else writeBlobImage
  publishMaintenanceFrame (db.maintenanceManifest current)
  runIf (!db.blobs.segmented && d.blob.isSome) (write fun d => { d with blobBackup := none })

/-- `StorageEngine::flush`. -/
def flushEngine : DbM Unit := do
  refreshIfNeeded
  flushPages

/-! ## Compaction -/

def readMoves (db : DB) (d : Disk) (moves : List StorageEngine.PageMove) :
    Except Error (List Node) :=
  StorageEngine.readNodes (db.engine.readNode d.device) (moves.map StorageEngine.PageMove.pageId)

/-- Copy active pages into lower holes; the number of moved pages. -/
def relocateInteriorPages (limit : Option Nat) : DbM Nat := do
  let db ← handle
  let d ← disk
  check (db.engine.pendingReclaimedOffsets = [])
    (.needsRecovery "cannot relocate pages before generation publication")
  let planned := db.engine.plannedMoves db.protectedOffsets
  let moves := planned.take (limit.getD planned.length)
  let nodes ← lift (readMoves db d moves)
  runIf (!moves.isEmpty) do
    forEach (fun move => writeData fun dev => dev.writePage move.1 move.2)
      ((moves.map StorageEngine.PageMove.target).zip nodes)
    writeData Device.sync
    modifyEngine fun e => e.relocated moves
  pure moves.length

def publishCompactionGeneration : DbM Unit := do
  let current ← latestManifest
  let db ← handle
  runIf db.blobs.segmented do
    modifyHandle fun db => { db with blobs := db.blobs.setGeneration db.nextGenerationId }
    writeBlobSegments
  publishMaintenanceFrame (db.maintenanceManifest current)

def truncateReclaimableTail : DbM Unit := do
  let db ← handle
  let d ← disk
  check (db.engine.pendingReclaimedOffsets = [])
    (.needsRecovery "cannot truncate pages before generation publication")
  let (before, after) := db.engine.reclaimableTailRange d.device
  runIf (after ≠ before) do
    writeData fun dev => dev.truncate after
    modifyEngine fun e => { e with
      freeOffsets := e.freeOffsets.take (e.freeOffsets.length - (before - after) / pageSize)
      nextOffset := after }

def compactInner (limit : Option Nat) : DbM Unit := do
  flush
  let d ← disk
  modifyHandle fun db => { db with
    engine := db.engine.refreshReclamation d.device db.protectedOffsets }
  let db ← handle
  runIf (!db.engine.freeOffsets.isEmpty) do
    runIf (limit ≠ some 0) do
      check (db.engine.pendingReclaimedOffsets = [])
        (.needsRecovery "cannot plan relocation before generation publication")
      runIf (!(db.engine.plannedMoves db.protectedOffsets).isEmpty)
        (checkCapacity .capacityPreflight)
    let relocated ← relocateInteriorPages limit
    runIf (relocated > 0) publishCompactionGeneration
  truncateReclaimableTail

/-- `compact` is `compactWithLimit none`. -/
def compactWithLimit (limit : Option Nat) : DbM Unit := do
  checkWritable
  checkMaintenanceIdle
  onError (compactInner limit) fenceUnlessPreflight

def compact : DbM Unit := compactWithLimit none

/-! ## Blob reclamation -/

/-- The end of a scan over all keys. -/
def scanEnd : Bytes := List.replicate (maxKeySize + 1) 255

def unavailablePointer (pointer : BlobPointer) : Error := .corruption
  ("active B-tree blob pointer " ++ toString pointer.fileId ++ ":" ++ toString pointer.offset ++
    ":" ++ toString pointer.length ++ " is unavailable")

/-- Append a value to the candidate's blobs and bind the key to its new place. -/
def rewriteBlob (key value : Bytes) (c : Candidate) : Except Error Candidate :=
  match c.blobs.append value with
  | .error e => .error (.blob e)
  | .ok (pointer, blobs) => match c.btree.upsertBlob key pointer with
    | (.error e, _) => .error (.ofBTreeError e)
    | (.ok (), btree) => .ok ⟨btree, blobs, true⟩

/-- Rewrite every separated value of a scan; `blobChanged` says whether there was one. -/
def rewriteBlobs (read : BlobPointer → Option Bytes) :
    List (Bytes × LookupResult) → Candidate → Except Error Candidate
  | [], c => .ok c
  | (key, .blob pointer) :: rest, c => match read pointer with
    | none => .error (unavailablePointer pointer)
    | some value => match rewriteBlob key value c with
      | .error e => .error e
      | .ok c => rewriteBlobs read rest c
  | _ :: rest, c => rewriteBlobs read rest c

/-- The tree and blobs of a rewrite: all old records are marked, the live ones copied. -/
def rewriteCandidate (btree : BTree) (blobs : BlobManager) : Except Error Candidate :=
  match btree.rangeScan [] scanEnd with
  | .error e => .error (.ofBTreeError e)
  | .ok scan => match blobs.beginCompactionFile with
    | none => .error .diskFull
    | some compacted => rewriteBlobs blobs.read scan ⟨btree, compacted.markAllDeleted, false⟩

/-- Drop the files that are dead as a whole and publish what is left; a refused
admission changes nothing. -/
def sweepBlobs (onFailure : Error → DbM Unit) : DbM Nat := do
  let db ← handle
  runIf db.blobs.hasReclaimableFiles admitBlobImage
  let (reclaimed, blobs) := db.blobs.gc
  modifyHandle fun db => { db with blobs := blobs }
  runIf (reclaimed > 0) (onError
    (if db.blobs.segmented then publishBlobRewriteGeneration else writeBlobImage) onFailure)
  pure reclaimed

def materialize : DbM Unit := do
  let db ← handle
  let d ← disk
  let engine ← lift (db.engine.ensureMaterialized d.device)
  modifyEngine fun _ => engine

def rewriteMixedBlobFiles : DbM Nat := do
  materialize
  let db ← handle
  let candidate ← lift (rewriteCandidate db.engine.btree db.blobs)
  if !candidate.blobChanged then pure 0
  else do
    -- maintenance, artifact and rebuild capacity
    checkCapacity .capacityPreflight
    checkCapacity .capacityPreflight
    checkCapacity .capacityPreflight
    runIf (!candidate.blobs.segmented) reserveBlobImage
    modifyHandle fun db => { db with
      engine := { db.engine with btree := candidate.btree }
      blobs := candidate.blobs }
    flushEngine
    publishBlobRewriteGeneration
    sweepBlobs fun _ => pure ()

def gc : DbM Nat := do
  checkWritable
  checkMaintenanceIdle
  flush
  let db ← handle
  if !db.retention.allRoots.isEmpty then pure 0
  else do
    let reclaimed ← sweepBlobs fun _ => fence
    let db ← handle
    if !db.blobs.filesNeedingGc.isEmpty || segmentedCatalogNeedsConsolidation db.blobs then do
      let rewritten ← onError rewriteMixedBlobFiles fenceUnlessPreflight
      pure (reclaimed + rewritten)
    else pure reclaimed

/-! ## Vacuum -/

def startVacuum : DbM Unit := do
  flush
  materialize
  let db ← handle
  match db.engine.btree.rangeCursor [] scanEnd with
  | .error e => throw (.ofBTreeError e)
  | .ok cursor => modifyHandle fun db => { db with
    vacuumState := some {
      sourceGeneration := db.generationId
      sourceCommit := db.commitId
      cursor := cursor
      candidateTree := BTree.new
      candidateBlobs := .withThresholdAndMode db.blobs.threshold db.blobs.segmented } }

/-- Bind one live entry in the candidate. -/
def rebuildEntry (read : BlobPointer → Option Bytes) (key : Bytes) (result : LookupResult)
    (state : VacuumState) : Except Error VacuumState :=
  match lookupValue read (match result with
      | .blob pointer => unavailablePointer pointer
      | _ => .corruption "") result with
  | .error e => .error e
  | .ok none => .ok state
  | .ok (some value) =>
    if state.candidateBlobs.shouldSeparate value.length then
      match rewriteBlob key value ⟨state.candidateTree, state.candidateBlobs, false⟩ with
      | .error e => .error e
      | .ok c => .ok { state with candidateTree := c.btree, candidateBlobs := c.blobs }
    else match state.candidateTree.upsert key value with
      | (.error e, _) => .error (.ofBTreeError e)
      | (.ok (), btree) => .ok { state with candidateTree := btree }

/-- At most `entries` turns of the cursor; the flag says whether it reached the end. -/
def scanEntries (btree : BTree) (read : BlobPointer → Option Bytes) :
    Nat → VacuumState → Except Error (VacuumState × Bool)
  | 0, state => .ok (state, false)
  | entries + 1, state => match state.cursor.next btree with
    | (none, cursor) => .ok ({ state with cursor := cursor }, true)
    | (some (.error e), _) => .error (.ofBTreeError e)
    | (some (.ok (key, result)), cursor) =>
      match rebuildEntry read key result { state with cursor := cursor } with
      | .error e => .error e
      | .ok state => scanEntries btree read entries state

def restoreVacuum (state : VacuumState) : DbM Unit :=
  modifyHandle fun db => { db with vacuumState := some state }

/-- Maintenance, artifact, image and rebuild capacity; a refusal keeps the candidate. -/
def preflightVacuum (state : VacuumState) : DbM Unit := onError
  (do
    checkCapacity .capacityPreflight
    checkCapacity .diskFull
    runIf (!state.candidateBlobs.segmented) reserveBlobImage
    checkCapacity .capacityPreflight)
  fun _ => restoreVacuum state

def finishVacuum (state : VacuumState) : DbM Unit := do
  let db ← handle
  let d ← disk
  let engine ← lift (db.engine.prepareLogicalRebuild d.device state.candidateTree)
  modifyHandle fun db => { db with engine := engine, blobs := state.candidateBlobs }
  flushEngine
  publishBlobRewriteGeneration

/-- What `vacuum_step` does behind its checks; `entries` bounds the turns for a tree. -/
def advanceVacuum (entries : BTree → Nat) : DbM Bool := do
  let db ← handle
  runIf db.vacuumState.isNone startVacuum
  let db ← handle
  match db.vacuumState with
  | none => throw (.corruption "vacuum state disappeared after initialization")
  | some state => do
    modifyHandle fun db => { db with vacuumState := none }
    check (state.sourceGeneration = db.generationId ∧ state.sourceCommit = db.commitId)
      (.needsRecovery "vacuum source generation changed before publication")
    let (state, complete) ← lift
      (scanEntries db.engine.btree db.blobs.read (entries db.engine.btree) state)
    if complete then do
      preflightVacuum state
      onError (finishVacuum state) fun _ => fence
    else restoreVacuum state
    pure complete

def vacuumStep (maxEntries : Nat) : DbM Bool := do
  checkWritable
  check (maxEntries ≠ 0) (.invalidArgument "vacuum step must process at least one entry")
  advanceVacuum fun _ => maxEntries

/-- `vacuum` asks for `usize::MAX` entries, which is more than any tree has, so its loop
ends with the first step; here the bound is the one that the tree itself gives. -/
def vacuum : DbM Unit := do
  checkWritable
  let _ ← advanceVacuum RangeCursor.loopFuel

def cancelVacuum : DbM Bool := do
  checkWritable
  let db ← handle
  modifyHandle fun db => { db with vacuumState := none }
  pure db.vacuumState.isSome

/-! ## History pruning -/

/-- The checkpoints that the manifests are resolved from. -/
def retainedCheckpoints (d : Disk) : List Manifest → Except Error (List Nat)
  | [] => .ok []
  | m :: ms => match retainedCheckpoints d ms with
    | .error e => .error e
    | .ok found =>
      if m.pmtCheckpointId = 0 then .ok found
      else match d.parsedMetaLog with
        | none => .error (.corruption "metadata log is missing")
        | some parsed => match parsed.ancestors (maxMetaDeltaChain + 1) m.pmtCheckpointId [] with
          | .error e => .error e
          | .ok ancestors => .ok (ancestors ++ found)

/-- `compact_metadata_log`: an atomic replacement, when there is a frame to drop. -/
def compactMetadataLog (retained : List Nat) : DbM Unit := do
  let d ← disk
  match d.metaLog with
  | none => pure ()
  | some log => runIf (log.records.any fun frame => frame.checkpointId ∉ retained) (write fun d =>
    { d with
      metaLog := some (Lib.LogFile.sync
        ⟨log.records.filter (fun frame => frame.checkpointId ∈ retained), 0, 0⟩) })

def pruneHistory : DbM Unit := do
  checkWritable
  flush
  let db ← handle
  let d ← disk
  let recovery := db.manifestHistory.manifests.reverse.take 2
  check (!recovery.isEmpty) (.corruption "database has no valid manifest")
  let roots := db.retention.allRoots.map RetainedRoot.manifest
  let retained := (recovery ++ roots).map Manifest.generationId
  let protectedManifests := recovery ++ roots ++
    db.manifestHistory.manifests.filter fun m => m.generationId ∈ retained
  let checkpoints ← lift (retainedCheckpoints d protectedManifests)
  modifyHandle fun db => { db with
    manifestHistory := db.manifestHistory.pruneToGenerations retained }
  compactMetadataLog checkpoints

end DB

end SeerDb
