/-
# `SeerDb.Blob.Manager` — blob files and their manager

`blob/file.rs` and `blob/manager.rs`.  A blob file is its record stream and the
offsets of the records marked deleted; the offsets, the write position and the
counters that the source caches beside them are functions of these two.  The key
prefix of a record is stored for diagnostics only and left out.
-/
import SeerDb.Format

namespace SeerDb

/-- `BlobRecord::OVERHEAD_SIZE`. -/
def blobOverheadSize : Nat := 16

structure BlobRecord where
  value : Bytes
deriving DecidableEq, Repr

def BlobRecord.serializedSize (r : BlobRecord) : Nat := blobOverheadSize + r.value.length

/-! ## Files -/

structure BlobFile where
  fileId : Nat
  records : List BlobRecord
  deletedOffsets : List Nat
deriving DecidableEq, Repr

/-- Bytes of a record stream. -/
def streamSize (records : List BlobRecord) : Nat := (records.map BlobRecord.serializedSize).sum

/-- The offsets of the records of a stream that starts at `start`. -/
def recordOffsetsFrom : Nat → List BlobRecord → List Nat
  | _, [] => []
  | start, r :: rs => start :: recordOffsetsFrom (start + r.serializedSize) rs

/-- The record that begins at `offset`, in a stream that starts at `start`. -/
def recordAt (offset : Nat) : Nat → List BlobRecord → Option BlobRecord
  | _, [] => none
  | start, r :: rs =>
    if start = offset then some r else recordAt offset (start + r.serializedSize) rs

namespace BlobFile

def new (fileId : Nat) : BlobFile := ⟨fileId, [], []⟩

def serializedSize (f : BlobFile) : Nat := streamSize f.records

def recordOffsets (f : BlobFile) : List Nat := recordOffsetsFrom 0 f.records

def recordCount (f : BlobFile) : Nat := f.records.length

def deletedCount (f : BlobFile) : Nat := f.deletedOffsets.length

def validCount (f : BlobFile) : Nat := f.recordCount - f.deletedCount

def needsGc (f : BlobFile) : Bool :=
  f.validCount + f.deletedCount > 0 && f.deletedCount > (f.validCount + f.deletedCount) / 2

/-- Append a value; it begins at the current end. -/
def append (f : BlobFile) (value : Bytes) : BlobFile := { f with records := f.records ++ [⟨value⟩] }

def rollbackAppend (f : BlobFile) (offset length : Nat) : Option BlobFile :=
  match f.records.getLast? with
  | none => none
  | some r =>
    if f.serializedSize - r.serializedSize ≠ offset ∨ r.value.length ≠ length ∨
        offset ∈ f.deletedOffsets then none
    else some { f with records := f.records.dropLast }

def hasRecordAt (f : BlobFile) (offset : Nat) : Bool := (recordAt offset 0 f.records).isSome

def canMarkDeleted (f : BlobFile) (offset : Nat) : Bool :=
  f.hasRecordAt offset && offset ∉ f.deletedOffsets

def read (f : BlobFile) (offset length : Nat) : Option Bytes :=
  match recordAt offset 0 f.records with
  | none => none
  | some r => if r.value.length = length then some r.value else none

def markDeleted (f : BlobFile) (offset : Nat) : Option BlobFile :=
  if f.canMarkDeleted offset then
    some { f with deletedOffsets := f.deletedOffsets.orderedInsert (· ≤ ·) offset }
  else none

def restoreDeleted : List Nat → BlobFile → Option BlobFile
  | [], f => some f
  | offset :: rest, f => match f.markDeleted offset with
    | none => none
    | some f => restoreDeleted rest f

def clearDeletionMetadata (f : BlobFile) : BlobFile := { f with deletedOffsets := [] }

def markAllDeleted (f : BlobFile) : BlobFile := { f with deletedOffsets := f.recordOffsets }

end BlobFile

/-! ## The manager -/

/-- The segmented catalog frontier: what of each segment the durable catalog covers. -/
structure SegmentCatalogState where
  persistedLengths : List (Nat × Nat)
  persistedDeletedOffsets : List (Nat × List Nat)
  persistedGenerationId : GenerationId
  catalogDeltaCount : Nat
  catalogPersisted : Bool
deriving DecidableEq, Repr

def SegmentCatalogState.default : SegmentCatalogState := ⟨[], [], 0, 0, false⟩

/-- `DEFAULT_SEGMENT_TARGET_SIZE`. -/
def segmentTargetSize : Nat := 67108864

/-- Files in increasing id order. -/
structure BlobManager where
  files : List BlobFile
  nextFileId : Nat
  threshold : Nat
  generationId : GenerationId
  segmented : Bool
  catalog : SegmentCatalogState
deriving DecidableEq, Repr

namespace BlobManager

def withThresholdAndMode (threshold : Nat) (segmented : Bool) : BlobManager :=
  ⟨[], 1, threshold, 0, segmented, .default⟩

def fileById (b : BlobManager) (fileId : Nat) : Option BlobFile :=
  b.files.find? (fun f => f.fileId = fileId)

def setGeneration (b : BlobManager) (generationId : GenerationId) : BlobManager :=
  { b with generationId := generationId }

def clearDeletionMetadata (b : BlobManager) : BlobManager :=
  { b with files := b.files.map BlobFile.clearDeletionMetadata }

def markAllDeleted (b : BlobManager) : BlobManager :=
  { b with files := b.files.map BlobFile.markAllDeleted }

def shouldSeparate (b : BlobManager) (valueLen : Nat) : Bool := valueLen > b.threshold

/-- Start a fresh file; `none` when no id is left. -/
def beginCompactionFile (b : BlobManager) : Option BlobManager :=
  if b.nextFileId = 0 ∨ b.nextFileId = u32Max then none
  else some { b with
    files := b.files ++ [BlobFile.new b.nextFileId]
    nextFileId := b.nextFileId + 1
    catalog := { b.catalog with
      persistedLengths := match Lib.get b.nextFileId b.catalog.persistedLengths with
        | some _ => b.catalog.persistedLengths
        | none => Lib.upsert b.nextFileId 0 b.catalog.persistedLengths } }

def shouldRollover (b : BlobManager) (valueLen : Nat) : Bool :=
  b.segmented && match b.files.getLast? with
    | none => false
    | some f => f.serializedSize > 0 &&
        f.serializedSize + (blobOverheadSize + valueLen) > segmentTargetSize

/-- The manager whose last file takes the next append. -/
def activeFile (b : BlobManager) (valueLen : Nat) : Option BlobManager :=
  if b.files.isEmpty || b.shouldRollover valueLen then b.beginCompactionFile else some b

def append (b : BlobManager) (value : Bytes) :
    Except BlobManagerError (BlobPointer × BlobManager) :=
  match b.activeFile value.length with
  | none => .error .fileIdExhausted
  | some b => match b.files.getLast? with
    | none => .error .fileIdExhausted
    | some f => .ok
        -- the length of a pointer is cut to 32 bits
        (⟨f.fileId, f.serializedSize, value.length % 2 ^ 32⟩,
          { b with files := b.files.dropLast ++ [f.append value] })

/-- Undo the last append; a file left empty goes too. -/
def rollbackAppend (b : BlobManager) (pointer : BlobPointer) : BlobManager :=
  match b.files.getLast? with
  | none => b
  | some f =>
    if f.fileId ≠ pointer.fileId then b
    else match f.rollbackAppend pointer.offset pointer.length with
      | none => b
      | some f =>
        if f.recordCount = 0 then { b with files := b.files.dropLast }
        else { b with files := b.files.dropLast ++ [f] }

def read (b : BlobManager) (pointer : BlobPointer) : Option Bytes :=
  match b.fileById pointer.fileId with
  | none => none
  | some f => f.read pointer.offset pointer.length

/-- Replace the file with the id of `f`. -/
def setFile (b : BlobManager) (f : BlobFile) : BlobManager :=
  { b with files := b.files.map fun g => if g.fileId = f.fileId then f else g }

/-- Mark a record; `none` when it is missing or marked already. -/
def markDeleted (b : BlobManager) (pointer : BlobPointer) : Option BlobManager :=
  match b.fileById pointer.fileId with
  | none => none
  | some f => match f.markDeleted pointer.offset with
    | none => none
    | some f => some (b.setFile f)

def filesNeedingGc (b : BlobManager) : List Nat :=
  (b.files.filter BlobFile.needsGc).map BlobFile.fileId

/-- A file the sweep may drop. -/
def reclaimable (f : BlobFile) : Bool := f.needsGc && f.validCount = 0

def hasReclaimableFiles (b : BlobManager) : Bool := b.files.any reclaimable

/-- Drop the fully dead files; the count is the records dropped. -/
def gc (b : BlobManager) : Nat × BlobManager :=
  ((b.files.filter reclaimable).map (fun f => f.recordCount - f.validCount) |>.sum,
    { b with files := b.files.filter fun f => !reclaimable f })

def totalDeletedEntries (b : BlobManager) : Nat := (b.files.map BlobFile.deletedCount).sum

end BlobManager

end SeerDb
