/-
# `SeerDb.Recovery.Record` — WAL records, their bytes and the group digest

`recovery/record.rs`, and the digest and payload decoders of
`db/wal_recovery.rs`.  A record is kept as its type and payload; its bytes are
needed for two things only, its length and the running digest that a commit
record carries over the mutations it closes.
-/
import SeerDb.Encoding
import SeerDb.Format

namespace SeerDb

/-! ## Records -/

/-- The record types that carry a mutation; `put` and `delete` are the layouts of older files. -/
inductive MutationType where
  | put | delete | putV2 | deleteV2
deriving DecidableEq, Repr

def MutationType.code : MutationType → UInt8
  | .put => 8
  | .delete => 9
  | .putV2 => 11
  | .deleteV2 => 12

/-- A record of the WAL.  Commit envelopes are kept decoded; the remaining record
types of the format are never written and skipped by every reader. -/
inductive WalRecord where
  | mutation (recordType : MutationType) (payload : Bytes)
  | commit (commit : CommitRecord)
deriving DecidableEq, Repr

namespace WalRecord

def put (key value : Bytes) : WalRecord :=
  .mutation .putV2 (toLe 4 key.length ++ key ++ toLe 4 value.length ++ value)

def delete (key : Bytes) : WalRecord := .mutation .deleteV2 (toLe 4 key.length ++ key)

/-- `to_bytes` of a mutation: length, type, payload, checksum. -/
def mutationBytes (recordType : MutationType) (payload : Bytes) : Bytes :=
  let body := recordType.code :: payload
  toLe 4 (1 + payload.length + 4) ++ body ++ toLe 4 (crc32c body)

/-- `WAL_COMMIT_RECORD_BYTES`: a commit payload is forty bytes. -/
def commitRecordBytes : Nat := 49

/-- `to_bytes().len()`. -/
def size : WalRecord → Nat
  | .mutation _ payload => payload.length + 9
  | .commit _ => commitRecordBytes

theorem size_pos (r : WalRecord) : 0 < r.size := by
  cases r <;> simp [size, commitRecordBytes]

end WalRecord

/-- Only mutations enter a digest. -/
def extendDigest (current : Nat) : WalRecord → Nat
  | .mutation recordType payload =>
    crc32c (toLe 4 current ++ WalRecord.mutationBytes recordType payload)
  | .commit _ => current

def digestRecords (records : List WalRecord) : Nat := records.foldl extendDigest 0

/-! ## Payload decoders -/

/-- A length-prefixed field at the head of a payload: the field and what follows. -/
def splitField (width : Nat) (payload : Bytes) : Bytes × Bytes :=
  let len := ofLe (payload.take width)
  ((payload.drop width).take len, (payload.drop width).drop len)

/-- The put layouts differ in the width of their length fields and in the texts of their errors. -/
def decodePutLayout (width : Nat) (tooSmall keyCut valueCut : String) (payload : Bytes) :
    Except Error (Bytes × Bytes) :=
  if payload.length < width + width then .error (.corruption tooSmall)
  else
    let keyLen := ofLe (payload.take width)
    if payload.length < width + keyLen + width then .error (.corruption keyCut)
    else
      let (key, rest) := splitField width payload
      let valueLen := ofLe (rest.take width)
      if payload.length ≠ width + keyLen + width + valueLen then .error (.corruption valueCut)
      else .ok (key, rest.drop width)

def decodePutPayload (v2 : Bool) (payload : Bytes) : Except Error (Bytes × Bytes) :=
  if v2 then decodePutLayout 4 "WAL v2 put record too small" "WAL v2 put key is truncated"
    "WAL v2 put value is truncated" payload
  else decodePutLayout 2 "WAL put record too small" "WAL put key is truncated"
    "WAL put value is truncated" payload

def decodeDeleteLayout (width : Nat) (tooSmall keyCut : String) (payload : Bytes) :
    Except Error Bytes :=
  if payload.length < width then .error (.corruption tooSmall)
  else if payload.length ≠ width + ofLe (payload.take width) then .error (.corruption keyCut)
  else .ok (payload.drop width)

def decodeDeletePayload (v2 : Bool) (payload : Bytes) : Except Error Bytes :=
  if v2 then decodeDeleteLayout 4 "WAL v2 delete record too small" "WAL v2 delete key is truncated"
    payload
  else decodeDeleteLayout 2 "WAL delete record too small" "WAL delete key is truncated" payload

def validateWalKeyLength (key : Bytes) : Except Error Unit :=
  if key.length > maxKeySize then
    .error (.invalidArgument "key exceeds the maximum B-tree page key size")
  else if key.length > u32Max then
    .error (.invalidArgument "key exceeds the durable WAL length limit")
  else .ok ()

def validateWalPutLengths (key value : Bytes) : Except Error Unit :=
  match validateWalKeyLength key with
  | .error e => .error e
  | .ok () =>
    if value.length > u32Max then
      .error (.invalidArgument "value exceeds the durable WAL length limit")
    else .ok ()

end SeerDb
