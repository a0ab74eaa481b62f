/-
# `SeerDb.Blob.Catalog` — the durable forms of a blob manager

`blob/image_format.rs`, `blob/segment_catalog.rs`, `blob/segment_catalog_format.rs`
and `db/blob_layout.rs`.  A whole image holds every record; a segment catalog
names a prefix of each segment file, and the delta log moves the catalog from one
generation to the next.  Loading checks what the decoders check: file ids, prefixes,
deletion marks, and the parent chain from the generation asked for to the catalog's own.
-/
import SeerDb.Blob.Manager
import SeerDb.Lib.Log

namespace SeerDb

/-! ## The whole image -/

structure BlobImage where
  threshold : Nat
  generationId : GenerationId
  files : List BlobFile
deriving DecidableEq, Repr

def BlobManager.toImage (b : BlobManager) : BlobImage := ⟨b.threshold, b.generationId, b.files⟩

def validFileId (fileId : Nat) : Bool := fileId ≠ 0 && fileId ≠ u32Max

/-- A decoded record stream with its deletion marks restored. -/
def loadFile (fileId : Nat) (records : List BlobRecord) (deletedOffsets : List Nat) :
    Option BlobFile :=
  BlobFile.restoreDeleted deletedOffsets ⟨fileId, records, []⟩

/-- One turn per stored file; `seen` are the ids already read. -/
def loadFiles : List Nat → List BlobFile → Option (List BlobFile)
  | _, [] => some []
  | seen, f :: fs =>
    if !validFileId f.fileId || f.fileId ∈ seen then none
    else match loadFile f.fileId f.records f.deletedOffsets with
      | none => none
      | some file => match loadFiles (f.fileId :: seen) fs with
        | none => none
        | some files => some (file :: files)

def sortFiles (files : List BlobFile) : List BlobFile :=
  files.insertionSort fun f g => f.fileId ≤ g.fileId

/-- One above the largest id. -/
def nextFileIdAfter (files : List BlobFile) : Nat :=
  files.foldl (fun next f => max next (f.fileId + 1)) 1

def BlobManager.fromImage (image : BlobImage) : Option BlobManager :=
  match loadFiles [] image.files with
  | none => none
  | some files => some
      ⟨sortFiles files, nextFileIdAfter files, image.threshold, image.generationId, false, .default⟩

/-! ## The segment catalog and its deltas -/

structure CatalogEntry where
  fileId : Nat
  dataLen : Nat
  deletedOffsets : List Nat
deriving DecidableEq, Repr

structure SegmentCatalog where
  threshold : Nat
  generationId : GenerationId
  entries : List CatalogEntry
deriving DecidableEq, Repr

inductive SegmentCatalogDeltaEntry where
  | upsert (fileId dataLen : Nat) (deletedOffsets : List Nat)
  | remove (fileId : Nat)
deriving DecidableEq, Repr

structure SegmentCatalogDelta where
  generationId : GenerationId
  parentGenerationId : GenerationId
  entries : List SegmentCatalogDeltaEntry
deriving DecidableEq, Repr

def SegmentCatalogDeltaEntry.size : SegmentCatalogDeltaEntry → Nat
  | .upsert _ _ deletedOffsets => 20 + 8 * deletedOffsets.length
  | .remove _ => 8

def SegmentCatalogDelta.size (d : SegmentCatalogDelta) : Nat :=
  44 + (d.entries.map SegmentCatalogDeltaEntry.size).sum

/-- `MAX_SEGMENT_CATALOG_DELTAS`. -/
def maxSegmentCatalogDeltas : Nat := 64

/-- The segment files of the directory, by id. -/
abbrev Segments := List (Nat × Lib.LogFile BlobRecord)

/-- The records of the first `len` bytes, if these are whole records.  A record is read back as it
was appended, which asks of its length that it keeps the 32 bits it is written with. -/
def readPrefix (segment : Lib.LogFile BlobRecord) (len : Nat) : Option (List BlobRecord) :=
  let records := Lib.LogFile.within BlobRecord.serializedSize len segment.records
  if streamSize records = len then some records else none

namespace BlobManager

def toSegmentCatalog (b : BlobManager) : SegmentCatalog :=
  ⟨b.threshold, b.generationId, b.files.map fun f => ⟨f.fileId, f.serializedSize, f.deletedOffsets⟩⟩

/-- The delta entry of one file id, `none` when the catalog already says it. -/
def deltaEntry (b : BlobManager) (fileId : Nat) : Option SegmentCatalogDeltaEntry :=
  match b.fileById fileId with
  | none => some (.remove fileId)
  | some f =>
    let previousDeleted := Lib.get fileId b.catalog.persistedDeletedOffsets
    let deletedOffsets := f.deletedOffsets.filter fun o => o ∉ previousDeleted.getD []
    if Lib.get fileId b.catalog.persistedLengths ≠ some f.serializedSize ∨
        previousDeleted.isNone ∨ deletedOffsets ≠ [] then
      some (.upsert fileId f.serializedSize deletedOffsets)
    else none

/-- The ids of the live files and of the files the catalog names, in increasing order. -/
def deltaFileIds (b : BlobManager) : List Nat :=
  ((b.files.map BlobFile.fileId ++ b.catalog.persistedLengths.map Prod.fst).insertionSort
    (· ≤ ·)).dedup

def toSegmentCatalogDelta (b : BlobManager) : SegmentCatalogDelta :=
  ⟨b.generationId, b.catalog.persistedGenerationId, b.deltaFileIds.filterMap b.deltaEntry⟩

def persistedSegmentLength (b : BlobManager) (fileId : Nat) : Nat :=
  (Lib.get fileId b.catalog.persistedLengths).getD 0

def capturePersistedState (b : BlobManager) : BlobManager :=
  { b with catalog := { b.catalog with
      persistedLengths := b.files.map fun f => (f.fileId, f.serializedSize)
      persistedDeletedOffsets := b.files.map fun f => (f.fileId, f.deletedOffsets)
      persistedGenerationId := b.generationId
      catalogPersisted := true } }

def markSegmentDeltaPersisted (b : BlobManager) : BlobManager :=
  let b := b.capturePersistedState
  { b with catalog := { b.catalog with catalogDeltaCount := b.catalog.catalogDeltaCount + 1 } }

def markSegmentCatalogConsolidated (b : BlobManager) : BlobManager :=
  let b := b.capturePersistedState
  { b with catalog := { b.catalog with catalogDeltaCount := 0 } }

def segmentFileIds (b : BlobManager) : List Nat := b.files.map BlobFile.fileId

def catalogNeedsConsolidation (b : BlobManager) : Bool :=
  b.catalog.catalogPersisted && b.catalog.catalogDeltaCount ≥ maxSegmentCatalogDeltas

/-- The file a catalog entry describes. -/
def loadSegment (segments : Segments) (fileId dataLen : Nat) (deletedOffsets : List Nat) :
    Option BlobFile :=
  match Lib.get fileId segments with
  | none => none
  | some segment => match readPrefix segment dataLen with
    | none => none
    | some records => loadFile fileId records deletedOffsets

def loadCatalogEntries (segments : Segments) : List Nat → List CatalogEntry → Option (List BlobFile)
  | _, [] => some []
  | seen, e :: es =>
    if !validFileId e.fileId || e.fileId ∈ seen then none
    else match loadSegment segments e.fileId e.dataLen e.deletedOffsets with
      | none => none
      | some file => match loadCatalogEntries segments (e.fileId :: seen) es with
        | none => none
        | some files => some (file :: files)

def fromSegmentCatalogBase (catalog : SegmentCatalog) (segments : Segments) : Option BlobManager :=
  match loadCatalogEntries segments [] catalog.entries with
  | none => none
  | some files => some
      ⟨sortFiles files, nextFileIdAfter files, catalog.threshold, catalog.generationId, true,
        { persistedLengths := (sortFiles files).map fun f => (f.fileId, f.serializedSize)
          persistedDeletedOffsets := (sortFiles files).map fun f => (f.fileId, f.deletedOffsets)
          persistedGenerationId := catalog.generationId
          catalogDeltaCount := 0
          catalogPersisted := true }⟩

/-- `all_deleted.insert(offset)` for each offset, `none` when one is there already. -/
def addDeleted : List Nat → List Nat → Option (List Nat)
  | [], deleted => some deleted
  | offset :: rest, deleted =>
    if offset ∈ deleted then none
    else addDeleted rest (deleted.orderedInsert (· ≤ ·) offset)

/-- Put a file at its place in id order, replacing one of the same id. -/
def upsertFile (file : BlobFile) : List BlobFile → List BlobFile
  | [] => [file]
  | f :: fs =>
    if file.fileId < f.fileId then file :: f :: fs
    else if file.fileId = f.fileId then file :: fs
    else f :: upsertFile file fs

def applyDeltaEntry (segments : Segments) (b : BlobManager) :
    SegmentCatalogDeltaEntry → Option BlobManager
  | .upsert fileId dataLen deletedOffsets =>
    if (Lib.get fileId b.catalog.persistedLengths).any
      (fun previous => dataLen < previous) then none
    else match addDeleted deletedOffsets
        ((Lib.get fileId b.catalog.persistedDeletedOffsets).getD []) with
      | none => none
      | some allDeleted => match loadSegment segments fileId dataLen allDeleted with
        | none => none
        | some file => some { b with
          files := upsertFile file b.files
          nextFileId := max b.nextFileId (fileId + 1)
          catalog := { b.catalog with
            persistedLengths := Lib.upsert fileId dataLen b.catalog.persistedLengths
            persistedDeletedOffsets :=
              Lib.upsert fileId allDeleted b.catalog.persistedDeletedOffsets } }
  | .remove fileId => match b.fileById fileId with
    | none => none
    | some _ => some { b with
      files := b.files.filter fun f => f.fileId ≠ fileId
      catalog := { b.catalog with
        persistedLengths := Lib.erase fileId b.catalog.persistedLengths
        persistedDeletedOffsets := Lib.erase fileId b.catalog.persistedDeletedOffsets } }

def applyDeltaEntries (segments : Segments) :
    List SegmentCatalogDeltaEntry → BlobManager → Option BlobManager
  | [], b => some b
  | e :: es, b => match applyDeltaEntry segments b e with
    | none => none
    | some b => applyDeltaEntries segments es b

def applySegmentCatalogDelta (segments : Segments) (delta : SegmentCatalogDelta)
    (b : BlobManager) : Option BlobManager :=
  if b.generationId ≠ delta.parentGenerationId then none
  else match applyDeltaEntries segments delta.entries b with
    | none => none
    | some b => some { b with
      generationId := delta.generationId
      catalog := { b.catalog with
        persistedGenerationId := delta.generationId
        catalogDeltaCount := b.catalog.catalogDeltaCount + 1
        catalogPersisted := true } }

def applySegmentCatalogDeltas (segments : Segments) :
    List SegmentCatalogDelta → BlobManager → Option BlobManager
  | [], b => some b
  | d :: ds, b => match applySegmentCatalogDelta segments d b with
    | none => none
    | some b => applySegmentCatalogDeltas segments ds b

end BlobManager

/-- The leading frames up to a generation; `none` when there are more than a log may hold. -/
def parseDeltaLogThroughGeneration (target : GenerationId) (frames : List SegmentCatalogDelta) :
    Option (List SegmentCatalogDelta) :=
  let deltas := frames.takeWhile fun d => d.generationId ≤ target
  if deltas.length > maxSegmentCatalogDeltas then none else some deltas

/-- The path from `current` back to the anchor's generation, oldest first. -/
def deltaPath (deltas : List SegmentCatalogDelta) (anchor : GenerationId) :
    Nat → GenerationId → List SegmentCatalogDelta → Option (List SegmentCatalogDelta)
  | fuel, current, path =>
    if current = anchor then some path
    else match fuel with
      | 0 => none
      | fuel + 1 => match deltas.filter fun d => d.generationId = current with
        | [delta] =>
          if delta.parentGenerationId ≥ delta.generationId ∨
              delta.parentGenerationId < anchor then none
          else deltaPath deltas anchor fuel delta.parentGenerationId (delta :: path)
        | _ => none

def BlobManager.fromSegmentCatalogWithDeltaLog (catalog : SegmentCatalog) (segments : Segments)
    (deltaLog : List SegmentCatalogDelta) (targetGeneration : Option GenerationId) :
    Option BlobManager :=
  match fromSegmentCatalogBase catalog segments with
  | none => none
  | some b =>
    let target := targetGeneration.getD b.generationId
    if target < b.generationId then none
    else match parseDeltaLogThroughGeneration target deltaLog with
      | none => none
      | some deltas =>
        match deltaPath deltas b.generationId maxSegmentCatalogDeltas target [] with
        | none => none
        | some path => applySegmentCatalogDeltas segments path b

/-! ## What the blob file of a directory can be -/

inductive BlobArtifact where
  | image (image : BlobImage)
  | catalog (catalog : SegmentCatalog)
deriving DecidableEq, Repr

def parseBlobCatalog (segments : Segments) (deltaLog : List SegmentCatalogDelta) :
    BlobArtifact → Option GenerationId → Option BlobManager
  | .image image, _ => BlobManager.fromImage image
  | .catalog catalog, target =>
    BlobManager.fromSegmentCatalogWithDeltaLog catalog segments deltaLog target

/-- `MAX_SEGMENTED_CATALOG_DELETED_ENTRIES`. -/
def maxSegmentedCatalogDeletedEntries : Nat := 4096

def segmentedCatalogNeedsConsolidation (b : BlobManager) : Bool :=
  b.segmented && (b.totalDeletedEntries > maxSegmentedCatalogDeletedEntries ||
    b.catalogNeedsConsolidation)

end SeerDb
