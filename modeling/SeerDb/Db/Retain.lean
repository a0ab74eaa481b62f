/-
# `SeerDb.Db.Retain` — retained roots

`db/retention.rs`, `db/retention_state.rs` and the offset map of
`db/retention_artifacts.rs`.  A published root is registered under a snapshot id,
with a copy of the blob image beside the database, after checks that its page slots
were not reused; its slots are protected until the id is released.  Named roots
survive in the registry file, the roots of transactions and read views do not.
-/
import SeerDb.Db.Publish
import SeerDb.Storage.Verify

namespace SeerDb

namespace DB

open Lib.Prog (handle disk modifyHandle write lift check runIf onError forEach)

/-! ## The checks of a root -/

/-- No slot of the target may have been written by a later generation. -/
def slotsUnwritten (dev : Device) (target : Manifest) : List PageMapping → Except Error Unit
  | [] => .ok ()
  | mapping :: rest =>
    if mapping.fileId ≠ 0 then slotsUnwritten dev target rest
    else match pageRewrittenAfter dev mapping.offset target.generationId with
      | .error e => .error e
      | .ok true => .error (.snapshotUnavailable ("commit " ++ toString target.commitId ++
          " has physical pages reused by a later generation"))
      | .ok false => slotsUnwritten dev target rest

/-- No later generation may map a slot of the target differently. -/
def slotsUnclaimed (d : Disk) (target : Manifest) (pmt : PMT) : List Manifest → Except Error Unit
  | [] => .ok ()
  | later :: rest =>
    if later.generationId ≤ target.generationId ∨ later.pmtCheckpointId = 0 then
      slotsUnclaimed d target pmt rest
    else match manifestPmt d later with
      | .error e => .error (.snapshotUnavailable ("commit " ++ toString target.commitId ++
          " cannot establish page liveness through generation " ++ toString later.generationId ++
          ": " ++ e.display))
      | .ok laterPmt =>
        if laterPmt.mappings.any (fun entry => pmt.mappings.any fun mine =>
            mine.2.offset = entry.2.offset && mine.2 ≠ entry.2) then
          .error (.snapshotUnavailable ("commit " ++ toString target.commitId ++
            " has physical pages reused by a later generation"))
        else slotsUnclaimed d target pmt rest

def validateHistoricalPageLiveness (db : DB) (d : Disk) (target : Manifest) (pmt : PMT) :
    Except Error Unit :=
  match slotsUnwritten d.device target (pmt.mappings.map Prod.snd) with
  | .error e => .error e
  | .ok () => slotsUnclaimed d target pmt db.manifestHistory.manifests

/-- The slots of a root's pages, each a whole slot of the data file. -/
def mappedOffsets (d : Disk) (snapshotId : SnapshotId) :
    List PageMapping → Except Error (List Nat)
  | [] => .ok []
  | mapping :: rest =>
    if mapping.fileId ≠ 0 ∨ mapping.offset % pageSize ≠ 0 then .error (.corruption
      ("retained snapshot " ++ toString snapshotId ++ " names an invalid page mapping"))
    else if mapping.offset + pageSize > d.device.size then .error (.snapshotUnavailable
      ("retained snapshot " ++ toString snapshotId ++ " names pages beyond the data file"))
    else match mappedOffsets d snapshotId rest with
      | .error e => .error e
      | .ok offsets => .ok (mapping.offset :: offsets)

def loadManifestOffsets (d : Disk) (manifest : Manifest) (snapshotId : SnapshotId) :
    Except Error (List Nat) :=
  if manifest.pmtCheckpointId = 0 then
    if manifest.rootPageId ≠ 0 then .error (.corruption
      ("retained snapshot " ++ toString snapshotId ++ " has a root without a checkpoint"))
    else .ok []
  else match manifestPmt d manifest with
    | .error e => .error e
    | .ok pmt =>
      if ¬ pmt.contains manifest.rootPageId then .error (.corruption
        ("retained snapshot " ++ toString snapshotId ++
          " names a root missing from its checkpoint"))
      else mappedOffsets d snapshotId (pmt.mappings.map Prod.snd)

/-- Every page of the tree checks, and every blob it points to is in the image. -/
def validateTree (d : Disk) (manifest : Manifest) (pmt : PMT) (blobs : BlobManager) :
    Except Error Unit :=
  match verifyTreeAt d.device manifest.rootPageId pmt with
  | .error e => .error e
  | .ok pointers =>
    if pointers.any (fun pointer => (blobs.read pointer).isNone) then
      .error (.snapshotUnavailable ("commit " ++ toString manifest.commitId ++
        " has no complete historical blob image"))
    else .ok ()

/-- The checks of a root before it is registered, and the slots it uses; the walk over its
tree only if `walk` says so. -/
def validateRoot (db : DB) (d : Disk) (manifest : Manifest) (snapshotId : SnapshotId)
    (blobs : BlobManager) (walk : Bool) : Except Error (List Nat) :=
  if manifest.pmtCheckpointId = 0 then loadManifestOffsets d manifest snapshotId
  else match manifestPmt d manifest with
    | .error e => .error e
    | .ok pmt => match db.validateHistoricalPageLiveness d manifest pmt with
      | .error e => .error e
      | .ok () => match (if walk then validateTree d manifest pmt blobs else .ok ()) with
        | .error e => .error e
        | .ok () => loadManifestOffsets d manifest snapshotId

/-! ## Registration -/

/-- The named root of a commit. -/
def retainedSnapshotId (db : DB) (commitId : CommitId) : Option SnapshotId :=
  (db.retention.namedRoots.find? fun root => root.manifest.commitId = commitId).map
    RetainedRoot.snapshotId

def dropSidecar (snapshotId : SnapshotId) : DbM Unit :=
  write fun d => { d with retained := d.retained.filter fun entry => entry.1 ≠ snapshotId }

/-- `set_protected_offsets`: the free list is rebuilt from the file. -/
def refreshProtection : DbM Unit := do
  let d ← disk
  modifyHandle fun db => { db with
    engine := db.engine.refreshReclamation d.device db.protectedOffsets }

/-- `insert_ephemeral`. -/
def insertEphemeral (manifest : Manifest) (offsets : List Nat) : DbM Unit := do
  let db ← handle
  let snapshotId := db.retention.nextEphemeralSnapshotId
  check (snapshotId ≠ 0 ∧ db.retention.namedRoots.all fun root => root.snapshotId ≠ snapshotId)
    (.wal "ephemeral snapshot ID overflow")
  modifyHandle fun db => { db with
    retention := { db.retention with
      ephemeralRoots := db.retention.ephemeralRoots ++ [⟨snapshotId, manifest, offsets⟩]
      nextEphemeralSnapshotId := snapshotId - 1 } }

/-- `insert`: the registry is persisted before the root counts. -/
def insertNamed (manifest : Manifest) (offsets : List Nat) : DbM Unit := do
  let db ← handle
  let retention := { db.retention with
    namedRoots := db.retention.namedRoots ++ [⟨db.retention.nextSnapshotId, manifest, offsets⟩]
    nextSnapshotId := db.retention.nextSnapshotId + 1 }
  write fun d => { d with registry := retention.registry }
  modifyHandle fun db => { db with retention := retention }

/-- `register_manifest`: the blob image goes beside the database first and is dropped again if
the root does not check. -/
def registerManifest (manifest : Manifest)
    (deduplicate ephemeral walk : Bool) : DbM SnapshotId := do
  let db ← handle
  match (if deduplicate then db.retainedSnapshotId manifest.commitId else none) with
  | some snapshotId => pure snapshotId
  | none => do
    let snapshotId := if ephemeral then db.retention.nextEphemeralSnapshotId
      else db.retention.nextSnapshotId
    let blobs := db.blobs.clearDeletionMetadata
    write fun d => { d with retained :=
      (snapshotId, blobs.toImage) :: d.retained.filter fun entry => entry.1 ≠ snapshotId }
    let d ← disk
    onError (do
        let offsets ← lift (db.validateRoot d manifest snapshotId blobs walk)
        if ephemeral then insertEphemeral manifest offsets else insertNamed manifest offsets)
      fun _ => dropSidecar snapshotId
    refreshProtection
    pure snapshotId

/-- `RetentionState::remove`: a pinned root first, else a named one, which leaves the registry. -/
def removeRoot (snapshotId : SnapshotId) : DbM Unit := do
  let db ← handle
  if db.retention.ephemeralRoots.any fun root => root.snapshotId = snapshotId then do
    modifyHandle fun db => { db with
      retention := { db.retention with
        ephemeralRoots := db.retention.ephemeralRoots.filter fun root =>
          root.snapshotId ≠ snapshotId } }
    dropSidecar snapshotId
  else do
    check (db.retention.namedRoots.any fun root => root.snapshotId = snapshotId)
      (.invalidArgument ("unknown retained snapshot " ++ toString snapshotId))
    let retention := { db.retention with
      namedRoots := db.retention.namedRoots.filter fun root => root.snapshotId ≠ snapshotId }
    write fun d => { d with registry := retention.registry }
    modifyHandle fun db => { db with retention := retention }
    dropSidecar snapshotId

/-- `RetentionLease::release`. -/
def releaseRoot (snapshotId : SnapshotId) : DbM Unit := do
  removeRoot snapshotId
  modifyEngine fun e => { e with reclamationDirty := true }

/-! ## Named roots -/

def retainCommit (commitId : CommitId) : DbM SnapshotId := do
  checkWritable
  flush
  let db ← handle
  match db.retainedSnapshotId commitId with
  | some snapshotId => pure snapshotId
  | none => match db.manifestHistory.findCommit commitId with
    | none => throw (.snapshotUnavailable ("commit " ++ toString commitId ++ " is not retained"))
    | some manifest => registerManifest manifest true false true

/-- The newest manifest, if it is the one the coordinator stands at. -/
def activeManifest (db : DB) : Except Error Manifest :=
  match db.manifestHistory.latest with
  | none => .error (.corruption "database has no valid manifest generation")
  | some manifest =>
    if manifest.commitId ≠ db.commitId ∨ manifest.generationId ≠ db.generationId then
      .error (.corruption "active manifest does not match the database frontier")
    else .ok manifest

def retainCurrentCommit : DbM SnapshotId := do
  checkWritable
  flush
  let db ← handle
  let manifest ← lift db.activeManifest
  registerManifest manifest false true false

/-- `retain_current` of `db/snapshot.rs`: a named root of its own for the newest manifest, whatever
roots its commit has.  `copied` says whether the copy of the directory could be made and verified;
the handle that is returned is kept as its id, and its end is `releaseRoot`. -/
def retainCurrent (copied : Bool) : DbM SnapshotId := do
  checkWritable
  flush
  check copied (.corruption "snapshot verification does not match source durability state")
  let db ← handle
  match db.manifestHistory.latest with
  | none => throw (.corruption "database has no valid manifest generation")
  | some manifest => registerManifest manifest false false true

def releaseSnapshot (snapshotId : SnapshotId) : DbM Unit := do
  checkWritable
  releaseRoot snapshotId

end DB

end SeerDb
