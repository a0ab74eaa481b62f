/-
# `SeerDb.Db.Write` — mutations and their admission

`db/mutation.rs`, `db/wal_admission.rs`, `db/single_write.rs` and the
preparation half of `db/batch.rs`.  A single write changes the live tree and blob
manager and is journaled; a batch is applied to copies of both, which are
installed once all of it succeeded.
-/
import SeerDb.Db.Handle

namespace SeerDb

/-- `BatchMutation`, and the `Mutation` that the live and the recovery path share. -/
inductive Mutation where
  | put (key value : Bytes)
  | delete (key : Bytes)
deriving DecidableEq, Repr

namespace Mutation

def key : Mutation → Bytes
  | .put key _ => key
  | .delete key => key

def record : Mutation → WalRecord
  | .put key value => .put key value
  | .delete key => .delete key

def validate : Mutation → Except Error Unit
  | .put key value => validateWalPutLengths key value
  | .delete key => validateWalKeyLength key

end Mutation

structure MutationOutcome where
  changed : Bool
  blobChanged : Bool
  blobDeletionSucceeded : Bool
deriving DecidableEq, Repr

/-- The blob pointer a key is bound to. -/
def previousBlob : LookupResult → Option BlobPointer
  | .blob pointer => some pointer
  | _ => none

/-- Mark the record of a replaced pointer; the flag says whether that succeeded. -/
def retireBlob (blobs : BlobManager) : Option BlobPointer → Bool × BlobManager
  | none => (true, blobs)
  | some pointer => match blobs.markDeleted pointer with
    | none => (false, blobs)
    | some blobs => (true, blobs)

/-- Bind `key` in tree and blob manager, without retiring what it was bound to. -/
def storeValue (key value : Bytes) (btree : BTree) (blobs : BlobManager) :
    Except Error Unit × BTree × BlobManager :=
  if blobs.shouldSeparate value.length then
    match blobs.append value with
    | .error e => (.error (.blob e), btree, blobs)
    | .ok (pointer, appended) => match btree.upsertBlob key pointer with
      | (.error e, btree) => (.error (.ofBTreeError e), btree, appended.rollbackAppend pointer)
      | (.ok (), btree) => (.ok (), btree, appended)
  else match btree.upsert key value with
    | (.error e, btree) => (.error (.ofBTreeError e), btree, blobs)
    | (.ok (), btree) => (.ok (), btree, blobs)

def applyPut (key value : Bytes) (btree : BTree) (blobs : BlobManager) :
    Except Error MutationOutcome × BTree × BlobManager :=
  match btree.lookup key with
  | .error e => (.error (.ofBTreeError e), btree, blobs)
  | .ok result => match storeValue key value btree blobs with
    | (.error e, btree, blobs) => (.error e, btree, blobs)
    | (.ok (), btree, stored) =>
      let (succeeded, blobs) := retireBlob stored (previousBlob result)
      (.ok ⟨true, stored.shouldSeparate value.length || (previousBlob result).isSome, succeeded⟩,
        btree, blobs)

def applyDelete (key : Bytes) (btree : BTree) (blobs : BlobManager) :
    Except Error MutationOutcome × BTree × BlobManager :=
  match btree.lookup key with
  | .error e => (.error (.ofBTreeError e), btree, blobs)
  | .ok result => match btree.delete key with
    | (.error e, btree) => (.error (.ofBTreeError e), btree, blobs)
    | (.ok false, btree) => (.ok ⟨false, false, true⟩, btree, blobs)
    | (.ok true, btree) =>
      let (succeeded, blobs) := retireBlob blobs (previousBlob result)
      (.ok ⟨true, (previousBlob result).isSome, succeeded⟩, btree, blobs)

/-- `apply`: tree and blob manager are returned in both cases. -/
def applyMutation : Mutation → BTree → BlobManager →
    Except Error MutationOutcome × BTree × BlobManager
  | .put key value => applyPut key value
  | .delete key => applyDelete key

def requireBlobDeletion (outcome : MutationOutcome) (context : String) : Except Error Unit :=
  if outcome.blobDeletionSucceeded then .ok ()
  else .error (.corruption (context ++ " references a missing or already-deleted blob"))

namespace DB

open Lib.Prog (handle disk modifyHandle write lift check runIf onError forEach)

/-! ## The WAL file -/

/-- Write the buffered records. -/
def appendWal : DbM Unit := do
  let db ← handle
  runIf (!db.walBuffer.isEmpty) do
    modifyHandle fun db => { db with walBuffer := [] }
    write fun d => { d with
      wal := some (d.walFile.appendAll WalRecord.size db.walBuffer) }

def syncWal : DbM Unit := write fun d => { d with wal := some d.walFile.sync }

def writeWalToDisk (forceSync : Bool) : DbM Unit := do
  appendWal
  let db ← handle
  runIf (forceSync || db.options.syncWrites) syncWal

def journalMutation (record : WalRecord) : DbM Unit := do
  modifyHandle fun db => { db with walBuffer := db.walBuffer ++ [record] }
  let db ← handle
  writeWalToDisk db.options.syncWrites
  modifyHandle fun db => { db with
    pendingMutations := db.pendingMutations + 1
    pendingWalBytes := db.pendingWalBytes + record.size
    pendingDigest := extendDigest db.pendingDigest record }

/-- `WAL_RESERVATION_SEGMENT_BYTES`. -/
def walReservationSegmentBytes : Nat := 1048576

def walReservationTarget (o : Options) : Nat :=
  if o.maxWalBytes = 0 then 0
  else o.maxWalBytes + (walReservationSegmentBytes - o.maxWalBytes % walReservationSegmentBytes) %
      walReservationSegmentBytes

/-- The file is created, its extent reserved without changing its length, and synced. -/
def ensureWalReservation : DbM Unit := do
  let db ← handle
  let target := walReservationTarget db.options
  runIf (db.walReservedExtent < target) do
    write fun d => { d with wal := some d.walFile }
    let d ← disk
    runIf (d.walFile.length WalRecord.size < target) do
      checkCapacity .diskFull
      syncWal
  modifyHandle fun db => { db with
    walReservedExtent := if target = 0 then 0 else max db.walReservedExtent target }

/-- The budget of the pending generation must cover `bytes` more and the closing commit record. -/
def admitWalBytes (bytes : Nat) : DbM Unit := do
  let db ← handle
  let required := bytes + WalRecord.commitRecordBytes
  let available := db.options.maxWalBytes - db.pendingWalBytes
  check (required ≤ available) (.backpressure required available)

def admitWalRecord (record : WalRecord) : DbM Unit := do
  admitWalBytes record.size
  ensureWalReservation

/-! ## Single writes -/

def reserveBlobImage : DbM Unit := checkCapacity .diskFull

def admitBlobImage : DbM Unit := do
  checkCapacity .diskFull
  let db ← handle
  runIf (!db.blobs.segmented) reserveBlobImage

def prepareMutation (key : Bytes) : DbM Unit := do
  let db ← handle
  let d ← disk
  let engine ← lift (db.engine.prepareMutation d.device key)
  modifyEngine fun _ => engine

/-- Apply a mutation to the live tree and blob manager. -/
def applyLive (mutation : Mutation) : DbM MutationOutcome := do
  let db ← handle
  let (result, btree, blobs) := applyMutation mutation db.engine.btree db.blobs
  modifyHandle fun db => { db with engine := { db.engine with btree := btree }, blobs := blobs }
  lift result

/-- Whether the mutation would change the blob image: it replaces a separated
value or appends one. -/
def touchesBlobs (blobs : BlobManager) (result : LookupResult) : Mutation → Bool
  | .put _ value => (previousBlob result).isSome || blobs.shouldSeparate value.length
  | .delete _ => (previousBlob result).isSome

/-- What `put` and `delete` share. -/
def writeOne (mutation : Mutation) (context : String) : DbM MutationOutcome := do
  checkWritable
  checkMaintenanceIdle
  lift mutation.validate
  admitWalRecord mutation.record
  prepareMutation mutation.key
  let db ← handle
  let d ← disk
  let result ← lift (db.engine.lookup d.device mutation.key)
  runIf (touchesBlobs db.blobs result mutation) admitBlobImage
  let outcome ← applyLive mutation
  lift (requireBlobDeletion outcome context)
  journalMutation mutation.record
  modifyHandle fun db => { db with
    pendingBlobChanges := db.pendingBlobChanges || outcome.blobChanged
    pendingBlobFrame := db.pendingBlobFrame || outcome.blobChanged }
  pure outcome

def put (key value : Bytes) : DbM Unit := do
  let _ ← writeOne (.put key value) "put"

def delete (key : Bytes) : DbM Bool := do
  let outcome ← writeOne (.delete key) "delete"
  pure outcome.changed

/-! ## Batches -/

structure PreparedBatch where
  records : List WalRecord
  candidateTree : BTree
  candidateBlobs : BlobManager
  blobChanged : Bool
  nextPendingMutations : Nat
  nextPendingBytes : Nat
  nextDigest : Nat
deriving DecidableEq, Repr

def validateAll : List Mutation → Except Error Unit
  | [] => .ok ()
  | m :: ms => match m.validate with
    | .error e => .error e
    | .ok () => validateAll ms

/-- The candidate of a batch: tree, blobs, and whether the blobs changed. -/
structure Candidate where
  btree : BTree
  blobs : BlobManager
  blobChanged : Bool
deriving DecidableEq, Repr

def applyBatch : List Mutation → Candidate → Except Error Candidate
  | [], c => .ok c
  | m :: ms, c => match applyMutation m c.btree c.blobs with
    | (.error e, _, _) => .error e
    | (.ok outcome, btree, blobs) => match requireBlobDeletion outcome "batch mutation" with
      | .error e => .error e
      | .ok () => applyBatch ms ⟨btree, blobs, c.blobChanged || outcome.blobChanged⟩

def prepareBatch (mutations : List Mutation) : DbM PreparedBatch := do
  lift (validateAll mutations)
  let records := mutations.map Mutation.record
  let bytes := Lib.LogFile.bytes WalRecord.size records
  admitWalBytes bytes
  forEach (fun m => prepareMutation m.key) mutations
  let db ← handle
  let candidate ← lift (applyBatch mutations ⟨db.engine.btree, db.blobs, false⟩)
  runIf candidate.blobChanged (checkCapacity .diskFull)
  ensureWalReservation
  runIf (candidate.blobChanged && !candidate.blobs.segmented) reserveBlobImage
  pure {
    records := records
    candidateTree := candidate.btree
    candidateBlobs := candidate.blobs
    blobChanged := candidate.blobChanged
    nextPendingMutations := db.pendingMutations + mutations.length
    nextPendingBytes := db.pendingWalBytes + bytes
    nextDigest := records.foldl extendDigest db.pendingDigest }

/-- The handle with a prepared batch installed; `blobChanges` is the flag it starts from. -/
def withBatch (db : DB) (prepared : PreparedBatch) (blobChanges : Bool) : DB :=
  { db with
    engine := { db.engine with btree := prepared.candidateTree }
    blobs := prepared.candidateBlobs
    pendingBlobChanges := blobChanges || prepared.blobChanged
    pendingBlobFrame := db.pendingBlobFrame || prepared.blobChanged
    pendingMutations := prepared.nextPendingMutations
    pendingWalBytes := prepared.nextPendingBytes
    pendingDigest := prepared.nextDigest }

/-- The caller's base must be the published commit. -/
def checkExpectedCommit (expectedCommit : CommitId) : DbM Unit := do
  let db ← handle
  check (db.commitId = expectedCommit) (.serializationConflict expectedCommit db.commitId)

/-- Stage a batch: install it, buffer its records, write nothing. -/
def admitBatch (expectedCommit : CommitId) (mutations : List Mutation) : DbM PendingEnvelope := do
  checkWritable
  checkMaintenanceIdle
  checkExpectedCommit expectedCommit
  check (!mutations.isEmpty) (.invalidArgument "admit_batch requires at least one mutation")
  let prepared ← prepareBatch mutations
  modifyHandle fun db => { db with walBuffer := db.walBuffer ++ prepared.records }
  modifyHandle fun db => db.withBatch prepared db.pendingBlobChanges
  let db ← handle
  modifyHandle fun db => { db with
    nextEnvelopeId := db.nextEnvelopeId + 1
    pendingEnvelopes := db.pendingEnvelopes ++ [⟨db.nextEnvelopeId⟩] }
  pure ⟨db.nextEnvelopeId⟩

end DB

end SeerDb
