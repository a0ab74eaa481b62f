/-
# `SeerDb.Blob.Wire` — the bytes of blob records and blob images

`blob/record.rs`, the codecs of `blob/file.rs`, and the whole image of
`blob/image_format.rs` with its cursor.  A record is stored with the first bytes of its
key.  The manager never looks at them and the records of `Blob.Manager` go without; the
codecs take them beside the records, by file id and position in the file.
-/
import SeerDb.Blob.Catalog
import SeerDb.Encoding

namespace SeerDb

open Lib

abbrev KeyPrefix := { bytes : Bytes // bytes.length = 8 }

/-- The first eight bytes of a key, zeros behind a shorter one. -/
def makeKeyPrefix (key : Bytes) : KeyPrefix :=
  ⟨key.take 8 ++ List.replicate (8 - key.length) 0, by simp; omega⟩

/-- The key prefixes of the records of every file. -/
abbrev KeyPrefixes := Nat → Nat → KeyPrefix

/-! ## Records -/

def BlobRecord.toBytes (keyPrefix : KeyPrefix) (r : BlobRecord) : Bytes :=
  withChecksum (keyPrefix.1 ++ (toLe 4 r.value.length ++ r.value))

/-- The first complete record of a buffer. -/
def BlobRecord.fromBytes (buf : Bytes) : Option (KeyPrefix × BlobRecord) :=
  if h : buf.length < 16 then none
  else
    let total := blobOverheadSize + leAt buf 8 4
    if buf.length < total then none
    else if leAt buf (total - 4) 4 ≠ crc32c (buf.take (total - 4)) then none
    else some (⟨buf.take 8, by simp; omega⟩, ⟨slice buf 12 (leAt buf 8 4)⟩)

/-- `BlobFile::to_bytes`. -/
def streamBytes : (Nat → KeyPrefix) → List BlobRecord → Bytes
  | _, [] => []
  | prefixes, r :: rs => r.toBytes (prefixes 0) ++ streamBytes (fun i => prefixes (i + 1)) rs

/-- `BlobFile::from_bytes`; every turn takes a record off, so the length bounds the turns. -/
def parseRecords : Nat → Bytes → Option (List (KeyPrefix × BlobRecord))
  | _, [] => some []
  | 0, _ :: _ => none
  | fuel + 1, b :: buf => match BlobRecord.fromBytes (b :: buf) with
    | none => none
    | some (keyPrefix, r) =>
      (parseRecords fuel ((b :: buf).drop r.serializedSize)).map fun records =>
        (keyPrefix, r) :: records

def BlobFile.toBytes (prefixes : KeyPrefixes) (f : BlobFile) : Bytes :=
  streamBytes (prefixes f.fileId) f.records

/-! ## The whole image -/

/-- `SEERBLB1`. -/
def blobFormatMagic : Bytes := [83, 69, 69, 82, 66, 76, 66, 49]

def blobFormatVersion : Nat := 1

/-- A file in the image: its descriptor, its records and its deletion marks.  The number
of marks is cut to 32 bits. -/
def BlobFile.imageSection (prefixes : KeyPrefixes) (f : BlobFile) : Bytes :=
  toLe 4 f.fileId ++ (toLe 8 (f.toBytes prefixes).length ++ (f.toBytes prefixes ++
    (toLe 4 f.deletedCount ++ f.deletedOffsets.flatMap (toLe 8))))

def BlobManager.imageHeader (b : BlobManager) : Bytes :=
  blobFormatMagic ++ (toLe 4 blobFormatVersion ++ (toLe 8 b.threshold ++ (toLe 8 b.generationId ++
    toLe 4 b.files.length)))

def BlobManager.payload (prefixes : KeyPrefixes) (b : BlobManager) : Bytes :=
  b.imageHeader ++ b.files.flatMap (BlobFile.imageSection prefixes)

def BlobManager.toBytes (prefixes : KeyPrefixes) (b : BlobManager) : Bytes :=
  withChecksum (b.payload prefixes ++ toLe 8 ((b.payload prefixes).length + 12))

/-! ## Reading an image -/

/-- `Cursor::take`: what was taken and what is left. -/
def takeBytes (n : Nat) (buf : Bytes) : Option (Bytes × Bytes) :=
  if n ≤ buf.length then some (buf.take n, buf.drop n) else none

/-- `Cursor::u32` and `Cursor::u64`. -/
def takeLe (width : Nat) (buf : Bytes) : Option (Nat × Bytes) :=
  (takeBytes width buf).map fun (bytes, rest) => (ofLe bytes, rest)

def takeMarks : Nat → Bytes → Option (List Nat × Bytes)
  | 0, buf => some ([], buf)
  | count + 1, buf => do
    let (offset, buf) ← takeLe 8 buf
    let (offsets, buf) ← takeMarks count buf
    some (offset :: offsets, buf)

/-- A file with the key prefixes of its records. -/
structure StoredFile where
  file : BlobFile
  prefixes : Nat → KeyPrefix

/-- A record stream with its marks restored. -/
def parseFile (fileId : Nat) (data : Bytes) (deletedOffsets : List Nat) : Option StoredFile := do
  let records ← parseRecords data.length data
  let file ← loadFile fileId (records.map Prod.snd) deletedOffsets
  some ⟨file, fun i => (records[i]?.map Prod.fst).getD (makeKeyPrefix [])⟩

/-- The marks behind a record stream; a legacy image has none. -/
def takeDeleted (legacy : Bool) (recordCount : Nat) (buf : Bytes) : Option (List Nat × Bytes) :=
  if legacy then some ([], buf)
  else do
    let (count, buf) ← takeLe 4 buf
    if count > recordCount ∨ count > buf.length / 8 then none else takeMarks count buf

/-- One turn per file of the image; `seen` are the ids already read. -/
def decodeFiles (legacy : Bool) : Nat → List Nat → Bytes → Option (List StoredFile × Bytes)
  | 0, _, buf => some ([], buf)
  | count + 1, seen, buf => do
    let (fileId, buf) ← takeLe 4 buf
    if !validFileId fileId || fileId ∈ seen then none
    else
      let (dataLen, buf) ← takeLe (if legacy then 4 else 8) buf
      let (data, buf) ← takeBytes dataLen buf
      let records ← parseRecords data.length data
      let (deletedOffsets, buf) ← takeDeleted legacy records.length buf
      let file ← parseFile fileId data deletedOffsets
      let (files, buf) ← decodeFiles legacy count (fileId :: seen) buf
      some (file :: files, buf)

/-- The prefixes of the files read, by file id. -/
def storedPrefixes (files : List StoredFile) : KeyPrefixes := fun fileId =>
  match files.find? fun s => s.file.fileId = fileId with
  | some s => s.prefixes
  | none => fun _ => makeKeyPrefix []

/-- The manager of the files read. -/
def managerOfFiles (files : List StoredFile) (threshold : Nat) (generationId : GenerationId) :
    BlobManager × KeyPrefixes :=
  (⟨sortFiles (files.map StoredFile.file), nextFileIdAfter (files.map StoredFile.file), threshold,
    generationId, false, .default⟩, storedPrefixes files)

namespace BlobManager

def fromVersionedBytes (buf : Bytes) : Option (BlobManager × KeyPrefixes) :=
  if buf.length < 12 then none
  else if leAt buf (buf.length - 12) 8 ≠ buf.length then none
  else if leAt buf (buf.length - 4) 4 ≠ crc32c (buf.take (buf.length - 4)) then none
  else do
    let (magic, rest) ← takeBytes 8 (buf.take (buf.length - 12))
    let (version, rest) ← takeLe 4 rest
    let (threshold, rest) ← takeLe 8 rest
    let (generationId, rest) ← takeLe 8 rest
    let (count, rest) ← takeLe 4 rest
    if magic ≠ blobFormatMagic ∨ version ≠ blobFormatVersion ∨ count > rest.length / 16 then none
    else
      let (files, rest) ← decodeFiles false count [] rest
      if rest ≠ [] then none else some (managerOfFiles files threshold generationId)

/-- `DEFAULT_BLOB_THRESHOLD`. -/
def defaultBlobThreshold : Nat := 1024

def fromLegacyBytes (buf : Bytes) : Option (BlobManager × KeyPrefixes) := do
  let (count, rest) ← takeLe 4 buf
  if count > rest.length / 8 then none
  else
    let (files, rest) ← decodeFiles true count [] rest
    if rest ≠ [] then none else some (managerOfFiles files defaultBlobThreshold 0)

def fromBytes (buf : Bytes) : Option (BlobManager × KeyPrefixes) :=
  if buf.take 8 = blobFormatMagic then fromVersionedBytes buf else fromLegacyBytes buf

end BlobManager

end SeerDb
