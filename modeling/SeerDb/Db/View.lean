/-
# `SeerDb.Db.View` — read views

`db/read_view.rs`, `db/blob_read_view.rs` and the read handle of
`storage/read_path.rs`.  A view pins the mapping table of the active generation and
keeps the blob files open: the whole image under its own descriptor, which a later
replacement of the file does not reach, or the segment files, which are extended in
place.

A segment file that is unlinked while a view has it open is read as missing here.
-/
import SeerDb.Db.Retain

namespace SeerDb

/-- `BlobReadView`: the files of the captured image, or the ids of the open segment files. -/
inductive BlobReadView where
  | image (files : List BlobFile)
  | segments (fileIds : List Nat)
deriving DecidableEq, Repr

namespace BlobReadView

/-- `BlobReadView::open`. -/
def «open» (d : Disk) (blobs : BlobManager) : Except Error BlobReadView :=
  if blobs.segmented then
    if blobs.segmentFileIds.all fun fileId => (Lib.get fileId d.segments).isSome then
      .ok (.segments blobs.segmentFileIds)
    else .error (.corruption "blob segment is missing")
  else if blobs.segmentFileIds.isEmpty then .ok (.image [])
  else match d.blob with
    | some (.image whole) =>
      if (whole.files.map BlobFile.fileId).any fun fileId => fileId = 0 then
        .error (.corruption "invalid blob image descriptor")
      else match blobs.segmentFileIds.find? fun fileId =>
        fileId ∉ whole.files.map BlobFile.fileId with
        | some fileId => .error (.corruption ("blob image is missing file " ++ toString fileId))
        | none => .ok (.image whole.files)
    | _ => .error (.corruption "blob image is missing")

/-- The record stream of an open file. -/
def records (d : Disk) (fileId : Nat) : BlobReadView → Option (List BlobRecord)
  | .image files => (files.find? fun f => f.fileId = fileId).map BlobFile.records
  | .segments fileIds =>
    if fileId ∈ fileIds then (Lib.get fileId d.segments).map Lib.LogFile.records else none

def read (v : BlobReadView) (d : Disk) (pointer : BlobPointer) : Except Error Bytes :=
  match v.records d pointer.fileId with
  | none => .error (.corruption ("blob pointer names missing file " ++ toString pointer.fileId))
  | some records => match recordAt pointer.offset 0 records with
    | none => .error (.corruption "blob record checksum mismatch")
    | some record =>
      if record.value.length ≠ pointer.length then
        .error (.corruption "blob pointer length does not match record")
      else .ok record.value

end BlobReadView

/-- `leased` says whether the view still holds its root. -/
structure ReadView where
  pmt : PMT
  rootPageId : PageId
  blobs : BlobReadView
  snapshotId : SnapshotId
  leased : Bool
deriving DecidableEq, Repr

namespace ReadView

def value (v : ReadView) (d : Disk) : LookupResult → Except Error (Option Bytes)
  | .found value => .ok (some value)
  | .blob pointer => (v.blobs.read d pointer).map some
  | .deleted => .ok none
  | .notFound => .ok none

def get (v : ReadView) (d : Disk) (key : Bytes) : Except Error (Option Bytes) :=
  match lookupAt d.device v.rootPageId v.pmt key with
  | .error e => .error e
  | .ok result => v.value d result

/-- The values of scanned entries, in order. -/
def values (v : ReadView) (d : Disk) : List (Bytes × LookupResult) →
    Except Error (List (Bytes × Bytes))
  | [] => .ok []
  | (key, result) :: rest => match v.value d result with
    | .error e => .error e
    | .ok value => match v.values d rest with
      | .error e => .error e
      | .ok entries => .ok (match value with
        | some value => (key, value) :: entries
        | none => entries)

def range (v : ReadView) (d : Disk) (start end_ : Bytes) : Except Error (List (Bytes × Bytes)) :=
  match rangeAt d.device v.rootPageId v.pmt start end_ with
  | .error e => .error e
  | .ok entries => v.values d entries

end ReadView

namespace DB

open Lib.Prog (handle disk modifyHandle write lift check runIf onError forEach)

/-- The table of a view is pinned; the free list is rebuilt before the next flush. -/
def leaseTable (pmt : PMT) : DbM Unit := modifyHandle fun db => { db with
  leases := pmt :: db.leases
  engine := { db.engine with reclamationDirty := true } }

/-- The view's handle on the pages is dropped. -/
def dropTable (pmt : PMT) : DbM Unit := modifyHandle fun db =>
  if pmt ∈ db.leases then { db with
    leases := db.leases.erase pmt
    engine := { db.engine with reclamationDirty := true } }
  else db

/-- `begin_read_view`; a view that cannot open its blob files gives its pins back. -/
def beginReadView : DbM ReadView := do
  let db ← handle
  lift db.checkReadable
  checkMaintenanceIdle
  let manifest ← lift db.activeManifest
  let snapshotId := db.retention.nextEphemeralSnapshotId
  insertEphemeral manifest []
  refreshProtection
  leaseTable db.engine.pmt
  let d ← disk
  let blobs ← onError (lift (BlobReadView.open d db.blobs)) fun _ => do
    releaseRoot snapshotId
    dropTable db.engine.pmt
  pure ⟨db.engine.pmt, manifest.rootPageId, blobs, snapshotId, true⟩

/-- `ReadView::release` and the drop of a view: an error of the release is only reported. -/
def dropReadView (v : ReadView) : DbM Unit := do
  onError (runIf v.leased (releaseRoot v.snapshotId)) fun _ => dropTable v.pmt
  dropTable v.pmt

end DB

end SeerDb
