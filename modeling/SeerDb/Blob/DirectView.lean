/-
# `SeerDb.Blob.DirectView` — blob files as the publication writes them and a view reads them

`db/blob_read_view.rs`, and `write_segment_suffixes` of `db/segmented_blob_publication.rs`
at the level of bytes.  A view never decodes the image: it walks the descriptors to find
where the records of each file begin, and reads a record straight from there.

`BlobStore` is a manager with the directory it publishes to.
-/
import SeerDb.Blob.Wire

namespace SeerDb

open Lib

inductive ReadError where
  | notFound
  | unexpectedEof
  | corruption (message : String)
deriving DecidableEq, Repr

/-- `read_exact_at`. -/
def readExactAt (data : Bytes) (offset len : Nat) : Except ReadError Bytes :=
  if offset + len ≤ data.length then .ok (slice data offset len) else .error .unexpectedEof

/-- `checked_add` on `u64`. -/
def checkedAdd (message : String) (a b : Nat) : Except ReadError Nat :=
  if a + b ≤ u64Max then .ok (a + b) else .error (.corruption message)

/-- An open file for each id, and where in it the records of the id begin. -/
structure DirectView where
  files : List (Nat × Bytes)
  bases : List (Nat × Nat)
deriving DecidableEq, Repr

/-! ## Finding the files of an image -/

/-- Record one descriptor: the data begins at `base` and has `dataLen` bytes. -/
def addBase (message : String) (data : Bytes) (bases : List (Nat × Nat))
    (fileId base dataEnd : Nat) :
    Except ReadError (List (Nat × Nat)) :=
  if fileId = 0 ∨ dataEnd > data.length ∨
    fileId ∈ bases.map Prod.fst then .error (.corruption message)
  else .ok (bases ++ [(fileId, base)])

/-- One turn per file of the image, over its descriptor, its data and its marks. -/
def walkImage (data : Bytes) : Nat → Nat → List (Nat × Nat) → Except ReadError (List (Nat × Nat))
  | 0, _, bases => .ok bases
  | count + 1, cursor, bases => do
    let descriptor ← readExactAt data cursor 12
    let base ← checkedAdd "blob image offset overflow" cursor 12
    let dataEnd ← checkedAdd "blob image length overflow" base (leAt descriptor 4 8)
    let bases ← addBase "invalid blob image descriptor" data bases
      (leAt descriptor 0 4) base dataEnd
    let deletedCount ← readExactAt data dataEnd 4
    let cursor ← checkedAdd "blob image offset overflow" dataEnd 4
    let cursor ← checkedAdd "blob image offset overflow" cursor (8 * leAt deletedCount 0 4)
    walkImage data count cursor bases

/-- The same without marks, and with a shorter length field. -/
def walkLegacyImage (data : Bytes) : Nat → Nat → List (Nat × Nat) →
    Except ReadError (List (Nat × Nat))
  | 0, _, bases => .ok bases
  | count + 1, cursor, bases => do
    let descriptor ← readExactAt data cursor 8
    let base ← checkedAdd "blob image offset overflow" cursor 8
    let dataEnd ← checkedAdd "blob image length overflow" base (leAt descriptor 4 4)
    let bases ← addBase "invalid legacy blob descriptor" data bases
      (leAt descriptor 0 4) base dataEnd
    walkLegacyImage data count dataEnd bases

/-- The bases of an image file. -/
def imageBases (data : Bytes) : Except ReadError (List (Nat × Nat)) := do
  let header ← if data.length ≥ 32 then readExactAt data 0 32 else .ok (List.replicate 32 0)
  if slice header 0 8 = blobFormatMagic then
    if leAt header 8 4 ≠ 1 then .error (.corruption "unsupported blob image version")
    else walkImage data (leAt header 28 4) 32 []
  else do
    let count ← readExactAt data 0 4
    walkLegacyImage data (leAt count 0 4) 4 []

/-! ## The store -/

/-- A manager, the key prefixes of its records, and the blob files of its directory. -/
structure BlobStore where
  blobs : BlobManager
  prefixes : KeyPrefixes
  image : Option Bytes
  segments : List (Nat × Bytes)

/-- Open the segment file of every id. -/
def openSegments (segments : List (Nat × Bytes)) : List Nat → Except ReadError (List (Nat × Bytes))
  | [] => .ok []
  | fileId :: rest => match get fileId segments with
    | none => .error .notFound
    | some data => do
      let files ← openSegments segments rest
      .ok ((fileId, data) :: files)

namespace DirectView

/-- `BlobReadView::open` in the directory of the store. -/
def «open» (s : BlobStore) : Except ReadError DirectView :=
  if s.blobs.segmented then do
    let files ← openSegments s.segments s.blobs.segmentFileIds
    .ok ⟨files, s.blobs.segmentFileIds.map fun fileId => (fileId, 0)⟩
  else if s.blobs.segmentFileIds = [] then .ok ⟨[], []⟩
  else match s.image with
    | none => .error .notFound
    | some data => do
      let bases ← imageBases data
      match s.blobs.segmentFileIds.find? fun fileId => fileId ∉ bases.map Prod.fst with
      | some fileId => .error (.corruption ("blob image is missing file " ++ toString fileId))
      | none => .ok ⟨bases.map fun entry => (entry.1, data), bases⟩

/-- `BlobReadView::read`. -/
def read (v : DirectView) (pointer : BlobPointer) : Except ReadError Bytes :=
  match get pointer.fileId v.files, get pointer.fileId v.bases with
  | none, _ => .error (.corruption ("blob pointer names missing file " ++ toString pointer.fileId))
  | some _, none => .error (.corruption ("blob pointer has no base for file " ++
      toString pointer.fileId))
  | some file, some base => do
    let offset ← checkedAdd "blob pointer offset overflow" base pointer.offset
    let header ← readExactAt file offset 12
    let length := leAt header 8 4
    if length ≠ pointer.length then
      .error (.corruption "blob pointer length does not match record")
    else
      let record ← readExactAt file offset (12 + length)
      let footer ← checkedAdd "blob record offset overflow" offset (12 + length)
      let crc ← readExactAt file footer 4
      if ofLe crc ≠ crc32c record then .error (.corruption "blob record checksum mismatch")
      else .ok (record.drop 12)

end DirectView

/-! ## What changes a store -/

/-- A byte vector that cannot be allocated, or an artifact behind the catalog frontier. -/
inductive PublishError where
  | capacityOverflow
  | corruption (message : String)
deriving DecidableEq, Repr

/-- The longest byte vector. -/
def isizeMax : Nat := 2 ^ 63 - 1

/-- Cut the segment at the frontier and append the rest of the data. -/
def writeSuffix (data : Bytes) (persisted : Nat) (segment : Option Bytes) :
    Except PublishError (Option Bytes) :=
  if data.length > isizeMax then .error .capacityOverflow
  else if data.length < persisted then
    .error (.corruption "blob segment shrank below its catalog frontier")
  else if data.length = persisted then .ok segment
  else if (segment.getD []).length < persisted then
    .error (.corruption "blob segment is shorter than its catalog frontier")
  else .ok (some ((segment.getD []).take persisted ++ data.drop persisted))

/-- `write_segment_suffixes`. -/
def writeSuffixes (b : BlobManager) (prefixes : KeyPrefixes) :
    List BlobFile → List (Nat × Bytes) → Except PublishError (List (Nat × Bytes))
  | [], segments => .ok segments
  | f :: files, segments => do
    let segment ← writeSuffix (f.toBytes prefixes) (b.persistedSegmentLength f.fileId)
      (get f.fileId segments)
    writeSuffixes b prefixes files (match segment with
      | none => segments
      | some data => upsert f.fileId data segments)

namespace BlobStore

/-- The blob artifacts of a generation. -/
def publish (s : BlobStore) (generationId : GenerationId) : Except PublishError BlobStore :=
  let blobs := s.blobs.setGeneration generationId
  if blobs.segmented then do
    let segments ← writeSuffixes blobs s.prefixes blobs.files s.segments
    .ok { s with
      -- a consolidated catalog and a delta leave the same frontier
      blobs := blobs.markSegmentDeltaPersisted
      segments := segments }
  else if (blobs.toBytes s.prefixes).length > isizeMax then .error .capacityOverflow
  else .ok { s with blobs := blobs, image := some (blobs.toBytes s.prefixes) }

/-- Append a value under a key; a longer value is refused before it gets here. -/
def append (s : BlobStore) (key value : Bytes) : Option (BlobPointer × BlobStore) :=
  if value.length > u32Max then none
  else match s.blobs.append value with
    | .error _ => none
    | .ok (pointer, blobs) =>
      let position := ((blobs.fileById pointer.fileId).map BlobFile.recordCount).getD 0 - 1
      some (pointer, { s with
        blobs := blobs
        prefixes := fun fileId i =>
          if fileId = pointer.fileId ∧ i = position then makeKeyPrefix key else
            s.prefixes fileId i })

def appendAll : List (Bytes × Bytes) → BlobStore → Option BlobStore
  | [], s => some s
  | (key, value) :: entries, s => match s.append key value with
    | none => none
    | some (_, s) => appendAll entries s

inductive Command where
  | append (key value : Bytes)
  /-- an append whose pointer the tree refuses -/
  | refused (key value : Bytes)
  | markDeleted (pointer : BlobPointer)
  /-- the live values move to a new file -/
  | rewrite (entries : List (Bytes × Bytes))
  | gc
  | clearDeletionMetadata
  | publish (generationId : GenerationId)
  | pruneSegments

/-- What fails leaves the store as it was. -/
def step (s : BlobStore) : Command → BlobStore
  | .append key value => match s.append key value with
    | none => s
    | some (_, s) => s
  | .refused key value => match s.append key value with
    | none => s
    | some (pointer, s) => { s with blobs := s.blobs.rollbackAppend pointer }
  | .markDeleted pointer => match s.blobs.markDeleted pointer with
    | none => s
    | some blobs => { s with blobs := blobs }
  | .rewrite entries =>
    if entries = [] then s
    else match s.blobs.beginCompactionFile with
      | none => s
      | some blobs => match appendAll entries { s with blobs := blobs.markAllDeleted } with
        | none => s
        | some s => s
  | .gc => { s with blobs := s.blobs.gc.2 }
  | .clearDeletionMetadata => { s with blobs := s.blobs.clearDeletionMetadata }
  | .publish generationId => match s.publish generationId with
    | .error _ => s
    | .ok s => s
  | .pruneSegments =>
    { s with segments := s.segments.filter fun entry => entry.1 ∈ s.blobs.segmentFileIds }

/-- The files of a catalog: for each its id, the bytes of the segment it covers, and its marks. -/
def loadSegments (segments : List (Nat × Bytes)) : List CatalogEntry → Option (List StoredFile)
  | [] => some []
  | e :: entries => match get e.fileId segments with
    | none => none
    | some data =>
      if e.dataLen > data.length then none
      else do
        let file ← parseFile e.fileId (data.take e.dataLen) e.deletedOffsets
        let files ← loadSegments segments entries
        some (file :: files)

/-- The store of a catalog; `nextFileId` may lie above the ids of files that are gone. -/
def ofCatalog (files : List StoredFile) (nextFileId threshold generationId deltaCount : Nat)
    (image : Option Bytes) (segments : List (Nat × Bytes)) : BlobStore :=
  let blobs := { (managerOfFiles files threshold generationId).1 with
    nextFileId := nextFileId, segmented := true }
  { blobs := { blobs.capturePersistedState with
      catalog := { blobs.capturePersistedState.catalog with catalogDeltaCount := deltaCount } }
    prefixes := storedPrefixes files
    image := image
    segments := segments }

/-- What a run can reach: a new manager over any directory, or one loaded from whatever image
or catalog a decoder accepts, and from there any commands. -/
inductive Reached : BlobStore → Prop
  | new (threshold : Nat) (segmented : Bool) (prefixes : KeyPrefixes) (image : Option Bytes)
      {segments : List (Nat × Bytes)} (hs : Sorted segments) :
      Reached ⟨BlobManager.withThresholdAndMode threshold segmented, prefixes, image, segments⟩
  | image {data : Bytes} {blobs : BlobManager} {prefixes : KeyPrefixes}
      (h : BlobManager.fromBytes data = some (blobs, prefixes)) (image : Option Bytes)
      {segments : List (Nat × Bytes)} (hs : Sorted segments) :
      Reached ⟨blobs, prefixes, image, segments⟩
  | catalog {entries : List CatalogEntry} {files : List StoredFile} {segments : List (Nat × Bytes)}
      (h : loadSegments segments entries = some files)
      (hids : (entries.map CatalogEntry.fileId).Nodup)
      {nextFileId : Nat} (hnext : ∀ e ∈ entries, 0 < e.fileId ∧ e.fileId < nextFileId)
      (hpos : 0 < nextFileId)
      (hmax : nextFileId ≤ u32Max) (threshold generationId deltaCount : Nat) (image : Option Bytes)
      (hs : Sorted segments) :
      Reached (ofCatalog files nextFileId threshold generationId deltaCount image segments)
  | step {s : BlobStore} (h : Reached s) (c : Command) : Reached (s.step c)

end BlobStore

end SeerDb
