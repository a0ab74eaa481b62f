/-
# `SeerDb.Storage.LogCodec` — the bytes of the metadata log

`db/metadata_codec.rs`, with the byte layouts it is built from: manifests
(`storage/format.rs`), mapping tables (`mvcc/pmt.rs`) and allocators (`allocator.rs`).
A frame holds its length, a checksum, a checkpoint id and a payload; the payload of a
publication is a manifest followed by a checkpoint or a delta, which has a checksum of
its own.

Lengths stay below `2^64`, so the checked additions of the source never fail here.
-/
import SeerDb.Storage.MetaLog
import SeerDb.Recovery.Record
import SeerDb.Lib.Framing

namespace SeerDb

open Lib

/-- `SEERMET1`. -/
def metaMagic : Bytes := [83, 69, 69, 82, 77, 69, 84, 49]

/-- `SEERMDL1`. -/
def metaDeltaMagic : Bytes := [83, 69, 69, 82, 77, 68, 76, 49]

/-- `SEERMPB1`. -/
def metaPubMagic : Bytes := [83, 69, 69, 82, 77, 80, 66, 49]

/-- `SEERMLG1`. -/
def metaLogMagic : Bytes := [83, 69, 69, 82, 77, 76, 71, 49]

/-- `SEERMNF1`. -/
def manifestMagic : Bytes := [83, 69, 69, 82, 77, 78, 70, 49]

def formatVersion : Nat := 2

def metaDeltaVersion : Nat := 1

def metaPubVersion : Nat := 1

def metaLogHeaderSize : Nat := 12

def metaLogFrameHeaderSize : Nat := 16

/-! ## Manifests -/

def validPageSize (n : Nat) : Bool := 512 ≤ n && n &&& (n - 1) = 0

def manifestSlotSize : Nat := 256

/-- The unused bytes of a slot. -/
def manifestPadding : Bytes := List.replicate 152 0

/-- A manifest slot up to its checksum; the WAL segment is always 0. -/
def Manifest.image (m : Manifest) : Bytes :=
  manifestMagic ++ (toLe 4 formatVersion ++ (toLe 4 pageSize ++ (toLe 16 m.databaseId ++
    (toLe 8 m.historyId ++ (toLe 8 m.generationId ++ (toLe 8 m.commitId ++ (toLe 8 m.rootPageId ++
    (toLe 8 m.pmtCheckpointId ++ (toLe 8 0 ++ (toLe 8 m.walOffset ++ (toLe 8 m.mutationCount ++
    (toLe 4 m.digest ++ manifestPadding))))))))))))

def Manifest.toBytes (m : Manifest) : Bytes := withChecksum m.image

/-- A slot of zeros holds no manifest. -/
def Manifest.fromBytes (bytes : Bytes) : Except String (Option Manifest) :=
  if bytes.all (· = 0) then .ok none
  else if slice bytes 0 8 ≠ manifestMagic then .error "invalid manifest magic"
  else if leAt bytes 252 4 ≠ crc32c (bytes.take 252) then .error "manifest checksum mismatch"
  else if leAt bytes 8 4 ≠ formatVersion ∨ validPageSize (leAt bytes 12 4) = false then
    .error "unsupported manifest format"
  else .ok (some
    { databaseId := leAt bytes 16 16
      historyId := leAt bytes 32 8
      generationId := leAt bytes 40 8
      commitId := leAt bytes 48 8
      rootPageId := leAt bytes 56 8
      pmtCheckpointId := leAt bytes 64 8
      walOffset := leAt bytes 80 8
      mutationCount := leAt bytes 88 8
      digest := leAt bytes 96 4 })

/-! ## Mapping tables and allocators -/

def PageMapping.toBytes (m : PageMapping) : Bytes :=
  toLe 4 m.fileId ++ (toLe 8 m.offset ++ toLe 8 m.version)

def PageMapping.fromBytes (buf : Bytes) : PageMapping := ⟨leAt buf 0 4, leAt buf 4 8, leAt buf 12 8⟩

/-- A page id and its mapping. -/
def mappingBytes (entry : PageId × PageMapping) : Bytes := toLe 8 entry.1 ++ entry.2.toBytes

def pmtBytes (mappings : List (PageId × PageMapping)) : Bytes :=
  toLe 4 mappings.length ++ mappings.flatMap mappingBytes

/-- A later mapping of a page replaces an earlier one; the last version has no successor. -/
def readMappings : Nat → Bytes → List (PageId × PageMapping) → Option (List (PageId × PageMapping))
  | 0, _, found => some found
  | count + 1, data, found =>
    let mapping := PageMapping.fromBytes (slice data 8 20)
    if mapping.version = u64Max then none
    else readMappings count (data.drop 28) (Lib.upsert (leAt data 0 8) mapping found)

/-- `PMT::from_bytes`, as the mappings of the table. -/
def pmtFromBytes (buf : Bytes) : Option (List (PageId × PageMapping)) :=
  if buf.length < 4 then none
  else if buf.length ≠ 4 + leAt buf 0 4 * 28 then none
  else readMappings (leAt buf 0 4) (buf.drop 4) []

def PageAllocator.toBytes (a : PageAllocator) : Bytes :=
  toLe 8 a.nextId ++ (toLe 4 a.freeList.length ++ a.freeList.flatMap (toLe 8))

def readFreeList (nextId : Nat) : Nat → Bytes → List Nat → Option (List Nat)
  | 0, _, found => some found
  | count + 1, data, found =>
    let id := leAt data 0 8
    if id = 0 ∨ nextId ≤ id ∨ id ∈ found then none
    else readFreeList nextId count (data.drop 8) (found ++ [id])

def PageAllocator.fromBytes (buf : Bytes) : Option PageAllocator :=
  if buf.length < 12 then none
  else
    let nextId := leAt buf 0 8
    if nextId = 0 then none
    else if buf.length ≠ 12 + leAt buf 8 4 * 8 then none
    else (readFreeList nextId (leAt buf 8 4) (buf.drop 12) []).map fun freeList =>
      ⟨nextId, freeList⟩

/-! ## Checkpoints -/

def checkpointBytes (mappings : List (PageId × PageMapping)) (a : PageAllocator) : Bytes :=
  withChecksum (metaMagic ++ (toLe 4 formatVersion ++ (toLe 4 (pmtBytes mappings).length ++
    (pmtBytes mappings ++ (toLe 4 a.toBytes.length ++ a.toBytes)))))

def decodeLegacyCheckpoint (data : Bytes) : Except Error MetaLogEntry :=
  if data.length < 4 then .error (.corruption "meta file too small")
  else
    let pmtEnd := 4 + leAt data 0 4
    if data.length < pmtEnd + 4 then .error (.corruption "meta file truncated")
    else match pmtFromBytes (slice data 4 (leAt data 0 4)) with
      | none => .error (.corruption "invalid PMT data")
      | some mappings =>
        let allocEnd := pmtEnd + 4 + leAt data pmtEnd 4
        if data.length < allocEnd then .error (.corruption "meta allocator data is truncated")
        else if data.length ≠ allocEnd then .error (.corruption "meta file has trailing bytes")
        else match PageAllocator.fromBytes (slice data (pmtEnd + 4) (leAt data pmtEnd 4)) with
          | none => .error (.corruption "invalid allocator data")
          | some allocator => .ok (.checkpoint mappings allocator)

def decodeCheckpoint (data : Bytes) : Except Error MetaLogEntry :=
  if data.length < 16 then .error (.corruption "meta file is truncated")
  else if leAt data 8 4 ≠ formatVersion then .error (.corruption
    ("unsupported meta format version " ++ toString (leAt data 8 4)))
  else if leAt data (data.length - 4) 4 ≠ crc32c (data.take (data.length - 4)) then
    .error (.corruption "meta checksum mismatch")
  else decodeLegacyCheckpoint (slice data 12 (data.length - 4 - 12))

/-! ## Deltas -/

def deltaHeader (d : MetaDelta) : Bytes :=
  metaDeltaMagic ++ (toLe 4 metaDeltaVersion ++ (toLe 8 d.parentCheckpointId ++
    (toLe 4 d.updates.length ++ (toLe 4 d.removals.length ++ toLe 4 d.allocator.toBytes.length))))

def deltaBytes (d : MetaDelta) : Bytes :=
  withChecksum (deltaHeader d ++ (d.updates.flatMap mappingBytes ++
    (d.removals.flatMap (toLe 8) ++ d.allocator.toBytes)))

def readUpdates : Nat → Bytes → Option PageId → Except Error (List (PageId × PageMapping))
  | 0, _, _ => .ok []
  | count + 1, data, previous =>
    let pageId := leAt data 0 8
    let mapping := PageMapping.fromBytes (slice data 8 20)
    if previous.any (pageId ≤ ·) then
      .error (.corruption "metadata delta updates are not strictly sorted")
    else if mapping.version = u64Max then
      .error (.corruption "metadata delta mapping version is exhausted")
    else match readUpdates count (data.drop 28) (some pageId) with
      | .error e => .error e
      | .ok updates => .ok ((pageId, mapping) :: updates)

def readRemovals : Nat → Bytes → Option PageId → Except Error (List PageId)
  | 0, _, _ => .ok []
  | count + 1, data, previous =>
    let pageId := leAt data 0 8
    if previous.any (pageId ≤ ·) then
      .error (.corruption "metadata delta removals are not strictly sorted")
    else match readRemovals count (data.drop 8) (some pageId) with
      | .error e => .error e
      | .ok removals => .ok (pageId :: removals)

def decodeDelta (data : Bytes) : Except Error MetaLogEntry :=
  if data.length < 36 then .error (.corruption "metadata delta is truncated")
  else if leAt data 8 4 ≠ metaDeltaVersion then .error (.corruption
    ("unsupported metadata delta version " ++ toString (leAt data 8 4)))
  else if leAt data (data.length - 4) 4 ≠ crc32c (data.take (data.length - 4)) then
    .error (.corruption "metadata delta checksum mismatch")
  else
    let updateCount := leAt data 20 4
    let removalCount := leAt data 24 4
    let allocatorLen := leAt data 28 4
    let allocatorStart := 32 + updateCount * 28 + removalCount * 8
    if allocatorStart + allocatorLen + 4 ≠ data.length then
      .error (.corruption "metadata delta has trailing or truncated bytes")
    else match readUpdates updateCount (data.drop 32) none with
      | .error e => .error e
      | .ok updates => match readRemovals removalCount (data.drop (32 + updateCount * 28)) none with
        | .error e => .error e
        | .ok removals =>
          if updates.any fun update => update.1 ∈ removals then
            .error (.corruption "metadata delta updates and removals overlap")
          else match PageAllocator.fromBytes (slice data allocatorStart allocatorLen) with
            | none => .error (.corruption "metadata delta allocator is invalid")
            | some allocator => .ok (.delta
                { parentCheckpointId := leAt data 12 8, updates, removals, allocator })

/-! ## Frames -/

/-- Publications are the authority; the format also admits bare checkpoints and deltas. -/
inductive LoggedEntry where
  | publication (manifest : Manifest) (entry : MetaLogEntry)
  | bare (entry : MetaLogEntry)
deriving DecidableEq, Repr

/-- A frame of the file with its bytes. -/
structure LoggedFrame where
  checkpointId : Nat
  entry : LoggedEntry
  raw : Bytes
deriving DecidableEq, Repr

def metaLogHeaderBytes : Bytes := metaLogMagic ++ toLe 4 formatVersion

def MetaLogEntry.bytes : MetaLogEntry → Bytes
  | .checkpoint mappings allocator => checkpointBytes mappings allocator
  | .delta d => deltaBytes d

def publicationPayload (manifestBytes entryPayload : Bytes) : Bytes :=
  metaPubMagic ++ (toLe 4 metaPubVersion ++ (toLe 4 manifestBytes.length ++
    (manifestBytes ++ entryPayload)))

def metaLogFrameBytes (checkpointId : Nat) (payload : Bytes) : Bytes :=
  toLe 4 payload.length ++ (toLe 4 (crc32c (toLe 8 checkpointId ++ payload)) ++
    (toLe 8 checkpointId ++ payload))

namespace MetaLogFrame

def payload (f : MetaLogFrame) : Bytes := publicationPayload f.manifest.toBytes f.entry.bytes

def bytes (f : MetaLogFrame) : Bytes := metaLogFrameBytes f.checkpointId f.payload

/-- A publication frame as the parser returns it. -/
def logged (f : MetaLogFrame) : LoggedFrame :=
  ⟨f.checkpointId, .publication f.manifest f.entry, f.bytes⟩

end MetaLogFrame

/-- The lengths that the format stores in four bytes. -/
def MetaLogEntry.checkLengths : MetaLogEntry → Except Error Unit
  | .checkpoint mappings allocator =>
    if (pmtBytes mappings).length > u32Max then
      .error (.invalidArgument "PMT checkpoint is too large")
    else if allocator.toBytes.length > u32Max then
      .error (.invalidArgument "allocator checkpoint is too large")
    else .ok ()
  | .delta d =>
    if d.updates.length > u32Max then
      .error (.invalidArgument "metadata delta has too many updates")
    else if d.removals.length > u32Max then
      .error (.invalidArgument "metadata delta has too many removals")
    else if d.allocator.toBytes.length > u32Max then
      .error (.invalidArgument "metadata delta allocator is too large")
    else .ok ()

/-- `encode_checkpoint` and `encode_delta`. -/
def MetaLogEntry.encode (e : MetaLogEntry) : Except Error Bytes :=
  e.checkLengths.map fun _ => e.bytes

/-- `encode_checkpoint` or `encode_delta`, `encode_publication_payload` and
`encode_meta_log_frame`. -/
def encodeMetaLogFrame (f : MetaLogFrame) : Except Error Bytes :=
  match f.entry.checkLengths with
  | .error e => .error e
  | .ok () =>
    if f.payload.length > u32Max then
      .error (.invalidArgument "metadata log frame is too large")
    else .ok f.bytes

/-- The entry of a payload by its magic; `none` where no magic is known. -/
def decodeEntry (payload : Bytes) : Except Error (Option MetaLogEntry) :=
  if payload.take 8 = metaDeltaMagic then (decodeDelta payload).map some
  else if payload.take 8 = metaMagic then (decodeCheckpoint payload).map some
  else .ok none

/-- The payload of a publication behind its magic; `none` ends the valid prefix. -/
def decodePublication (payload : Bytes) : Except Error (Option LoggedEntry) :=
  if payload.length < 16 then .ok none
  else if leAt payload 8 4 ≠ metaPubVersion then .ok none
  else
    let manifestLen := leAt payload 12 4
    if payload.length < 16 + manifestLen then .ok none
    else if manifestLen ≠ manifestSlotSize then .ok none
    else match Manifest.fromBytes (slice payload 16 manifestLen) with
      | .error _ => .error (.corruption "metadata publication manifest is invalid")
      | .ok none => .error (.corruption "metadata publication has an empty manifest")
      | .ok (some manifest) => match decodeEntry (payload.drop (16 + manifestLen)) with
        | .error e => .error e
        | .ok entry => .ok (entry.map (LoggedEntry.publication manifest))

def decodePayload (payload : Bytes) : Except Error (Option LoggedEntry) :=
  if payload.take 8 = metaPubMagic then decodePublication payload
  else match decodeEntry payload with
    | .error e => .error e
    | .ok entry => .ok (entry.map LoggedEntry.bare)

/-- The frame at the head of what is left of the file. -/
def parseFrame (data : Bytes) : Except Error (Option (LoggedFrame × Nat)) :=
  if data.length < metaLogFrameHeaderSize then .ok none
  else
    let payloadEnd := metaLogFrameHeaderSize + leAt data 0 4
    if data.length < payloadEnd then .ok none
    else
      let payload := slice data metaLogFrameHeaderSize (leAt data 0 4)
      if crc32c (slice data 8 8 ++ payload) ≠ leAt data 4 4 then .ok none
      else match decodePayload payload with
        | .error e => .error e
        | .ok none => .ok none
        | .ok (some entry) => .ok (some (⟨leAt data 8 8, entry, data.take payloadEnd⟩, payloadEnd))

/-- The valid prefix of a log file. -/
structure ParsedLogFile where
  frames : List LoggedFrame
  validLen : Nat
  complete : Bool
deriving DecidableEq, Repr

def parseMetaLog (bytes : Bytes) : Except Error ParsedLogFile :=
  if bytes.length < metaLogHeaderSize then .error (.corruption "metadata log is truncated")
  else if bytes.take 8 ≠ metaLogMagic then .error (.corruption "invalid metadata log magic")
  else if leAt bytes 8 4 ≠ formatVersion then .error (.corruption
    ("unsupported metadata log format version " ++ toString (leAt bytes 8 4)))
  else match scan parseFrame (bytes.length + 1) (bytes.drop metaLogHeaderSize) with
    | .error e => .error e
    | .ok (frames, len) =>
      .ok ⟨frames, metaLogHeaderSize + len, metaLogHeaderSize + len = bytes.length⟩

end SeerDb
