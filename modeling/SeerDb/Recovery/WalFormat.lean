/-
# `SeerDb.Recovery.WalFormat` — the bytes of the WAL

`recovery/record.rs` and the commit envelope of `storage/format.rs`, with every record
type of the format.  A file is read up to the first bytes that are no record, and the
reader says what stopped it: the end of the file, a record that is not all there, or
bytes that no writer left.
-/
import SeerDb.Storage.LogCodec

namespace SeerDb

open Lib List

inductive RecordType where
  | pmtUpdate | pageAlloc | pageDealloc | blobAppend | txnCommit | txnAbort | checkpoint
  | mutation (mutationType : MutationType)
  | commit
deriving DecidableEq, Repr

def RecordType.code : RecordType → UInt8
  | .pmtUpdate => 1
  | .pageAlloc => 2
  | .pageDealloc => 3
  | .blobAppend => 4
  | .txnCommit => 5
  | .txnAbort => 6
  | .checkpoint => 7
  | .mutation mutationType => mutationType.code
  | .commit => 10

def RecordType.ofCode : UInt8 → Option RecordType
  | 1 => some .pmtUpdate
  | 2 => some .pageAlloc
  | 3 => some .pageDealloc
  | 4 => some .blobAppend
  | 5 => some .txnCommit
  | 6 => some .txnAbort
  | 7 => some .checkpoint
  | 8 => some (.mutation .put)
  | 9 => some (.mutation .delete)
  | 10 => some .commit
  | 11 => some (.mutation .putV2)
  | 12 => some (.mutation .deleteV2)
  | _ => none

/-- A record as the file has it. -/
structure StoredRecord where
  recordType : RecordType
  payload : Bytes
deriving DecidableEq, Repr

inductive ParseStatus where
  | complete | incomplete | corrupt
deriving DecidableEq, Repr

namespace StoredRecord

/-- `to_bytes().len()`. -/
def size (r : StoredRecord) : Nat := r.payload.length + 9

def toBytes (r : StoredRecord) : Bytes :=
  let body := r.recordType.code :: r.payload
  toLe 4 (1 + r.payload.length + 4) ++ (body ++ toLe 4 (crc32c body))

/-- The record at the head of a buffer, and how many bytes it takes. -/
def fromBytes (buf : Bytes) : Option (StoredRecord × Nat) :=
  if buf.length < 4 then none
  else
    let length := leAt buf 0 4
    if length < 5 then none
    else if buf.length < 4 + length then none
    else match RecordType.ofCode (buf.getD 4 0) with
      | none => none
      | some recordType =>
        if leAt buf length 4 ≠ crc32c (slice buf 4 (length - 4)) then none
        else some (⟨recordType, slice buf 5 (length - 5)⟩, 4 + length)

end StoredRecord

/-- The records of a buffer of at most `fuel` bytes. -/
def parseRecordsFrom : Nat → Bytes → List StoredRecord × ParseStatus
  | 0, _ => ([], .complete)
  | fuel + 1, buf =>
    if buf = [] then ([], .complete)
    else if buf.length < 4 then ([], .incomplete)
    else
      let length := leAt buf 0 4
      -- an extended file has zeros behind its last record
      if length = 0 then ([], if buf.all (· == 0) then .incomplete else .corrupt)
      else if length < 5 then ([], .corrupt)
      else if buf.length < 4 + length then ([], .incomplete)
      else match StoredRecord.fromBytes buf with
        | none => ([], .corrupt)
        | some (record, consumed) =>
          let rest := parseRecordsFrom fuel (buf.drop consumed)
          (record :: rest.1, rest.2)

def parseRecordsWithStatus (buf : Bytes) : List StoredRecord × ParseStatus :=
  parseRecordsFrom buf.length buf

/-! ## Commit envelopes -/

namespace CommitRecord

def toBytes (c : CommitRecord) : Bytes :=
  toLe 4 formatVersion ++ (toLe 8 c.commitId ++ (toLe 8 c.generationId ++ (toLe 8 c.rootPageId ++
    (toLe 8 c.mutationCount ++ toLe 4 c.digest))))

def fromBytes (bytes : Bytes) : Option CommitRecord :=
  if bytes.length ≠ 40 then none
  else if leAt bytes 0 4 ≠ formatVersion then none
  else some ⟨leAt bytes 4 8, leAt bytes 12 8, leAt bytes 20 8, leAt bytes 28 8, leAt bytes 36 4⟩

end CommitRecord

/-- A record of the log as it is written. -/
def WalRecord.stored : WalRecord → StoredRecord
  | .mutation mutationType payload => ⟨.mutation mutationType, payload⟩
  | .commit c => ⟨.commit, c.toBytes⟩

/-! ## Reading a file -/

section

variable {buf : Bytes} {r : StoredRecord} {n m fuel : Nat}

theorem slice_take {start len : Nat} (h : start + len ≤ m) :
    slice (buf.take m) start len = slice buf start len := by
  rw [slice, slice, drop_take, take_take, min_eq_left (by omega)]

theorem leAt_take {start width : Nat} (h : start + width ≤ m) :
    leAt (buf.take m) start width = leAt buf start width := by
  rw [leAt, slice_take h, leAt]

theorem StoredRecord.size_pos (r : StoredRecord) : 0 < r.size := Nat.succ_pos _

/-- What is read at the head of a buffer has the size it is written with. -/
theorem StoredRecord.fromBytes_size (h : fromBytes buf = some (r, n)) :
    n = r.size ∧ n ≤ buf.length := by
  rw [fromBytes] at h
  split at h
  · cases h
  simp only at h
  split at h
  · cases h
  split at h
  · cases h
  split at h
  · cases h
  split at h
  · cases h
  cases h
  refine ⟨?_, by omega⟩
  rw [size, slice, length_take, length_drop]
  omega

/-- Reading a record does not look behind it. -/
theorem StoredRecord.fromBytes_take (h : fromBytes buf = some (r, n)) (hm : n ≤ m) :
    fromBytes (buf.take m) = some (r, n) := by
  have hlen := (fromBytes_size h).2
  rw [fromBytes] at h ⊢
  split at h
  · cases h
  simp only at h
  split at h
  · cases h
  split at h
  · cases h
  rename_i h4 h5 hend
  have hn : n = 4 + leAt buf 0 4 := by
    split at h
    · cases h
    split at h
    · cases h
    · cases h
      rfl
  have htake : (buf.take m).length = min m buf.length := length_take
  have hcode : (buf.take m).getD 4 0 = buf.getD 4 0 := by
    rw [getD_eq_getElem?_getD, getD_eq_getElem?_getD, List.getElem?_take_of_lt (by omega)]
  rw [if_neg (by omega)]
  simp only
  rw [leAt_take (by omega), if_neg h5, if_neg (by omega), hcode, leAt_take (by omega),
    slice_take (by omega), slice_take (by omega)]
  exact h

theorem parseRecordsFrom_cons (h : StoredRecord.fromBytes buf = some (r, n)) :
    parseRecordsFrom (fuel + 1) buf = (r :: (parseRecordsFrom fuel (buf.drop n)).1,
      (parseRecordsFrom fuel (buf.drop n)).2) := by
  have hf := h
  rw [StoredRecord.fromBytes] at hf
  split at hf
  · cases hf
  simp only at hf
  split at hf
  · cases hf
  split at hf
  · cases hf
  rename_i h4 h5 hend
  have hne : buf ≠ [] := by
    rintro rfl
    exact h4 (by decide)
  rw [parseRecordsFrom, if_neg hne, if_neg h4]
  simp only
  rw [if_neg (by omega), if_neg h5, if_neg hend, h]

theorem parseRecordsFrom_none (h : StoredRecord.fromBytes buf = none) :
    (parseRecordsFrom fuel buf).1 = [] := by
  cases fuel with
  | zero => rfl
  | succ fuel =>
    rw [parseRecordsFrom]
    split
    · rfl
    split
    · rfl
    simp only
    split
    · rfl
    split
    · rfl
    split
    · rfl
    rw [h]

/-- Fuel for every byte is enough. -/
theorem parseRecordsFrom_fuel : ∀ {fuel fuel' : Nat} {buf : Bytes}, buf.length ≤ fuel →
    buf.length ≤ fuel' → parseRecordsFrom fuel buf = parseRecordsFrom fuel' buf := by
  intro fuel
  induction fuel with
  | zero =>
    intro fuel' buf h _
    obtain rfl := length_eq_zero_iff.mp (Nat.le_zero.mp h)
    cases fuel' with
    | zero => rfl
    | succ fuel' => rfl
  | succ fuel ih =>
    intro fuel' buf h h'
    cases fuel' with
    | zero =>
      obtain rfl := length_eq_zero_iff.mp (Nat.le_zero.mp h')
      rfl
    | succ fuel' =>
      cases hf : StoredRecord.fromBytes buf with
      | none => rw [parseRecordsFrom, parseRecordsFrom, hf]
      | some entry =>
        obtain ⟨r, n⟩ := entry
        obtain ⟨hn, hle⟩ := StoredRecord.fromBytes_size hf
        have hpos := r.size_pos
        rw [parseRecordsFrom_cons hf, parseRecordsFrom_cons hf,
          @ih fuel' (buf.drop n) (by rw [length_drop]; omega) (by rw [length_drop]; omega)]

theorem parseRecords_cons (h : StoredRecord.fromBytes buf = some (r, n)) :
    parseRecordsWithStatus buf = (r :: (parseRecordsWithStatus (buf.drop n)).1,
      (parseRecordsWithStatus (buf.drop n)).2) := by
  obtain ⟨hn, hle⟩ := StoredRecord.fromBytes_size h
  have hpos := r.size_pos
  rw [parseRecordsWithStatus, parseRecordsWithStatus]
  cases hl : buf.length with
  | zero => omega
  | succ k =>
    rw [parseRecordsFrom_cons h,
      @parseRecordsFrom_fuel k (buf.drop n).length (buf.drop n) (by rw [length_drop]; omega) le_rfl]

/-- A file cut behind one of its records has the records before the cut, and nothing else. -/
theorem parseRecords_take : ∀ {pre post : List StoredRecord} {buf : Bytes},
    (parseRecordsWithStatus buf).1 = pre ++ post →
      parseRecordsWithStatus (buf.take (LogFile.bytes StoredRecord.size pre)) =
        (pre, .complete) := by
  intro pre
  induction pre with
  | nil =>
    intro post buf _
    rw [LogFile.bytes_nil, take_zero]
    rfl
  | cons r pre ih =>
    intro post buf h
    cases hf : StoredRecord.fromBytes buf with
    | none =>
      rw [parseRecordsWithStatus, parseRecordsFrom_none hf] at h
      cases h
    | some entry =>
      obtain ⟨r', n⟩ := entry
      obtain ⟨hn, hle⟩ := StoredRecord.fromBytes_size hf
      rw [parseRecords_cons hf, cons_append, List.cons.injEq] at h
      obtain ⟨rfl, h⟩ := h
      have hdrop : (buf.take (LogFile.bytes StoredRecord.size (r' :: pre))).drop n
          = (buf.drop n).take (LogFile.bytes StoredRecord.size pre) := by
        rw [LogFile.bytes_cons, drop_take, hn, Nat.add_sub_cancel_left]
      rw [parseRecords_cons (StoredRecord.fromBytes_take hf (by rw [LogFile.bytes_cons]; omega)),
        hdrop, ih h]

end

/-! ## The prefix law -/

section

variable {r : StoredRecord} {records : List StoredRecord} {k cut zeros : Nat}

theorem RecordType.ofCode_code (t : RecordType) : ofCode t.code = some t := by
  cases t with
  | mutation mutationType => cases mutationType <;> rfl
  | _ => rfl

/-- The length field has room for the record. -/
def StoredRecord.Fits (r : StoredRecord) : Prop := r.payload.length < 2 ^ 32 - 5

theorem StoredRecord.length_toBytes (r : StoredRecord) : r.toBytes.length = r.size := by
  simp [toBytes, size]
  omega

theorem StoredRecord.leAt_toBytes (h : r.Fits) (rest : Bytes) :
    leAt (r.toBytes ++ rest) 0 4 = r.payload.length + 5 := by
  have hlt : 1 + r.payload.length + 4 < 256 ^ 4 := by
    have : r.payload.length < 2 ^ 32 - 5 := h
    omega
  rw [toBytes, append_assoc, leAt_head hlt]
  omega

/-- A record that fits is read back, whatever follows it. -/
theorem StoredRecord.fromBytes_toBytes (h : r.Fits) (rest : Bytes) :
    fromBytes (r.toBytes ++ rest) = some (r, r.size) := by
  have hlen : (r.toBytes ++ rest).length = r.payload.length + 9 + rest.length := by
    rw [length_append, length_toBytes, size]
  have hbody : ∀ n, n = r.payload.length + 1 →
      slice (r.toBytes ++ rest) 4 n = r.recordType.code :: r.payload := by
    rintro n rfl
    rw [toBytes, append_assoc, slice_skip (by simp), length_toLe, Nat.sub_self, append_assoc]
    exact slice_head rfl
  have hcode : (r.toBytes ++ rest).getD 4 0 = r.recordType.code := rfl
  have hcrc : leAt (r.toBytes ++ rest) (r.payload.length + 5) 4 =
    crc32c (r.recordType.code :: r.payload) := by
    rw [toBytes, append_assoc, leAt_skip (by simp), length_toLe, append_assoc, leAt_skip (by simp),
      length_cons, show r.payload.length + 5 - 4 - (r.payload.length + 1) =
        0 by omega, leAt_head (crc32c_lt _)]
  have hpayload : ∀ n, n = r.payload.length → slice (r.toBytes ++ rest) 5 n = r.payload := by
    rintro n rfl
    rw [toBytes, append_assoc, slice_skip (by simp), length_toLe, append_assoc]
    exact slice_head rfl
  rw [fromBytes, leAt_toBytes h, hlen, hcode, RecordType.ofCode_code, if_neg (by omega)]
  simp only
  rw [if_neg (by omega), if_neg (by omega), hcrc, hbody _ (by omega), hpayload _ (by omega),
    if_neg (not_not.mpr rfl), size, show 4 + (r.payload.length + 5) = r.payload.length + 9 by omega]

/-- The records of a file, then whatever its end is read as. -/
theorem parseRecords_flatMap (h : ∀ r ∈ records, r.Fits) (tail : Bytes) :
    parseRecordsWithStatus (records.flatMap StoredRecord.toBytes ++ tail)
      = (records ++ (parseRecordsWithStatus tail).1, (parseRecordsWithStatus tail).2) := by
  induction records with
  | nil => rfl
  | cons r records ih =>
    have hr := h r (.head _)
    rw [flatMap_cons, append_assoc, parseRecords_cons (StoredRecord.fromBytes_toBytes hr _),
      drop_left' r.length_toBytes, ih fun x hx => h x (.tail _ hx)]
    rfl

/-- A cut record is too short for the length it names. -/
theorem parseRecords_torn (h : r.Fits) (hpos : 0 < k) (hk : k < r.size) :
    parseRecordsWithStatus (r.toBytes.take k) = ([], .incomplete) := by
  have hlen : (r.toBytes.take k).length = k := by
    rw [length_take, r.length_toBytes]
    omega
  obtain ⟨n, rfl⟩ := Nat.exists_eq_succ_of_ne_zero hpos.ne'
  have hne : r.toBytes.take (n + 1) ≠ [] := by
    intro hnil
    rw [hnil] at hlen
    cases hlen
  rw [parseRecordsWithStatus, hlen, parseRecordsFrom, if_neg hne, hlen]
  split
  · rfl
  have hle := StoredRecord.leAt_toBytes h []
  rw [append_nil] at hle
  rw [StoredRecord.size] at hk
  simp only
  rw [leAt_take (by omega), hle, if_neg (by omega), if_neg (by omega), if_pos (by omega)]

theorem parseRecords_zeros (h : 0 < zeros) : parseRecordsWithStatus (List.replicate zeros 0) =
    ([], .incomplete) := by
  obtain ⟨n, rfl⟩ := Nat.exists_eq_succ_of_ne_zero h.ne'
  rw [parseRecordsWithStatus, length_replicate, parseRecordsFrom,
    if_neg (by simp), length_replicate]
  split
  · rfl
  rename_i hge
  have hzero : leAt (List.replicate (n + 1) 0) 0 4 = 0 := by
    rw [leAt, slice, drop_zero, take_replicate, min_eq_left (by omega)]
    rfl
  simp only
  rw [if_pos hzero, if_pos (by simp)]

/-- `cut` is the end of one of the records. -/
def AtBoundary (records : List StoredRecord) (cut : Nat) : Prop :=
  ∃ pre, pre <+: records ∧ cut = LogFile.bytes StoredRecord.size pre

theorem length_flatMap_toBytes (records : List StoredRecord) :
    (records.flatMap StoredRecord.toBytes).length = LogFile.bytes StoredRecord.size records := by
  induction records with
  | nil => rfl
  | cons r records ih => rw [flatMap_cons, length_append, ih, r.length_toBytes, LogFile.bytes_cons]

/-- **The prefix law of the WAL.**  A file that is cut anywhere has the records before the cut, and
its end is complete exactly at the end of a record; zeros behind a record are an incomplete end. -/
theorem parseRecords_cut (h : ∀ r ∈ records, r.Fits)
    (hcut : cut ≤ (records.flatMap StoredRecord.toBytes).length) :
    (parseRecordsWithStatus ((records.flatMap StoredRecord.toBytes).take cut)).1
        = LogFile.within StoredRecord.size cut records ∧
      (AtBoundary records cut →
        (parseRecordsWithStatus ((records.flatMap StoredRecord.toBytes).take cut)).2 = .complete) ∧
      (¬ AtBoundary records cut →
        (parseRecordsWithStatus ((records.flatMap StoredRecord.toBytes).take cut)).2 =
        .incomplete) ∧
      ∀ pre zeros, pre <+: records → 0 < zeros →
        parseRecordsWithStatus (pre.flatMap StoredRecord.toBytes ++ List.replicate zeros 0) =
          (pre, .incomplete) := by
  have hfits : ∀ {pre : List StoredRecord}, pre <+: records → ∀ r ∈ pre, r.Fits := fun hpre r hr =>
    h r (hpre.subset hr)
  rw [length_flatMap_toBytes] at hcut
  obtain ⟨k, hk, hend⟩ := LogFile.take_flatMap (fun r _ => StoredRecord.length_toBytes r) hcut
  have hwithin : ∃ post, records = LogFile.within StoredRecord.size cut records ++ post :=
    LogFile.within_append cut records
  obtain ⟨post, hpost⟩ := hwithin
  have hpre : LogFile.within StoredRecord.size cut records <+: records := ⟨post, hpost.symm⟩
  have hzero : AtBoundary records cut ↔ k = 0 := by
    constructor
    · rintro ⟨pre, ⟨rest, rfl⟩, heq⟩
      rw [heq, LogFile.within_bytes_append StoredRecord.size_pos] at hk
      omega
    · rintro rfl
      exact ⟨_, hpre, hk⟩
  have hzeros : ∀ pre zeros, pre <+: records → 0 < zeros →
      parseRecordsWithStatus (pre.flatMap StoredRecord.toBytes ++ List.replicate zeros 0) =
        (pre, .incomplete) := by
    intro pre zeros hpre hpos
    rw [parseRecords_flatMap (hfits hpre), parseRecords_zeros hpos, append_nil]
  have hparse : parseRecordsWithStatus ((records.flatMap StoredRecord.toBytes).take cut)
      = (LogFile.within StoredRecord.size cut records,
        if k = 0 then .complete else .incomplete) := by
    rcases hend with ⟨rfl, htake⟩ | ⟨r, hr, hpos, hlt, htake⟩
    · have hwhole := parseRecords_flatMap (hfits hpre) []
      rw [append_nil] at hwhole
      rw [htake, hwhole, if_pos rfl]
      exact Prod.ext (append_nil _) rfl
    · rw [htake, parseRecords_flatMap (hfits hpre), parseRecords_torn (h r hr) hpos hlt, append_nil,
        if_neg hpos.ne']
  rw [hparse, hzero]
  exact ⟨rfl, fun hk0 => if_pos hk0, fun hk0 => if_neg hk0, hzeros⟩

/-- Cut within the second record. -/
theorem parseRecords_cut_put :
    let records : List StoredRecord := [⟨.mutation .put, [1, 2]⟩, ⟨.checkpoint, []⟩]
    (∀ r ∈ records, r.Fits) ∧ 13 ≤ (records.flatMap StoredRecord.toBytes).length ∧
      (parseRecordsWithStatus ((records.flatMap StoredRecord.toBytes).take 13)).1 =
      [⟨.mutation .put, [1, 2]⟩] := by
  intro records
  have hfits : ∀ r ∈ records, r.Fits := by simp [records, StoredRecord.Fits]
  have hcut : 13 ≤ (records.flatMap StoredRecord.toBytes).length := by decide
  exact ⟨hfits, hcut, (parseRecords_cut hfits hcut).1⟩

end

end SeerDb
