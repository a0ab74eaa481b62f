/-
# `SeerDb.Blob.ImageSpec` — whole images, written and read back

`to_bytes`, the size functions and `from_versioned_bytes` of `blob/image_format.rs`.  Each
field of an image is read where it was written, so the files come back one by one with
their records and marks.  The encoder cuts two numbers to 32 bits, the length of a value
and the count of a file's marks: a manager comes back exactly when both fit.
-/
import SeerDb.Blob.WriteSize

namespace SeerDb

open Lib List

/-! ## Fields -/

variable {rest : Bytes} {width n : Nat}

theorem takeBytes_append {l : Bytes} (h : l.length = n) :
    takeBytes n (l ++ rest) = some (l, rest) := by
  rw [takeBytes, if_pos (by rw [length_append]; omega), ← h, take_left, drop_left]

theorem takeLe_toLe (h : n < 256 ^ width) :
    takeLe width (toLe width n ++ rest) = some (n, rest) := by
  rw [takeLe, takeBytes_append (length_toLe width n)]
  simp only [Option.map_some, ofLe_toLe width n h]

theorem takeMarks_flatMap : ∀ {marks : List Nat}, (∀ o ∈ marks, o < 256 ^ 8) →
    takeMarks marks.length (marks.flatMap (toLe 8) ++ rest) = some (marks, rest)
  | [], _ => rfl
  | o :: marks, h => by
    obtain ⟨ho, hmarks⟩ := forall_mem_cons.mp h
    rw [flatMap_cons, append_assoc, length_cons, takeMarks, takeLe_toLe ho]
    simp only [Option.bind_eq_bind, Option.bind_some, takeMarks_flatMap hmarks]

/-! ## Records -/

theorem BlobRecord.fromBytes_toBytes {r : BlobRecord} (keyPrefix : KeyPrefix)
    (h : r.value.length ≤ u32Max) :
    fromBytes (r.toBytes keyPrefix ++ rest) = some (keyPrefix, r) := by
  have hlt : r.value.length < 256 ^ 4 := Nat.lt_succ_of_le h
  have hk : keyPrefix.1.length = 8 := keyPrefix.2
  set body : Bytes := keyPrefix.1 ++ (toLe 4 r.value.length ++ r.value) with hbody
  have hlen : body.length = 12 + r.value.length := by
    simp [body, hk]
    omega
  have hbuf : r.toBytes keyPrefix ++ rest = body ++ (toLe 4 (crc32c body) ++ rest) := by
    rw [toBytes, withChecksum, append_assoc]
  have hfield : leAt (body ++ (toLe 4 (crc32c body) ++ rest)) 8 4 = r.value.length := by
    rw [hbody, append_assoc, leAt_skip hk.le, hk, append_assoc]
    exact leAt_head hlt
  have htotal : blobOverheadSize + r.value.length - 4 = body.length := by
    rw [hlen, blobOverheadSize]
    omega
  have hcrc : leAt (body ++ (toLe 4 (crc32c body) ++ rest)) body.length 4 = crc32c body := by
    rw [leAt_skip le_rfl, Nat.sub_self]
    exact leAt_head (crc32c_lt body)
  have hvalue : slice (body ++ (toLe 4 (crc32c body) ++ rest)) 12 r.value.length = r.value := by
    rw [hbody, append_assoc, slice_skip (by omega), hk, append_assoc,
      slice_skip (by simp), length_toLe]
    exact slice_head rfl
  have hprefix : (body ++ (toLe 4 (crc32c body) ++ rest)).take 8 = keyPrefix.1 := by
    rw [hbody, append_assoc]
    exact take_left' hk
  have hsize : blobOverheadSize = 16 := rfl
  rw [hbuf, fromBytes, dif_neg (by simp [hlen]; omega), hfield]
  simp only [htotal, hcrc, hvalue, hprefix, take_left, ne_eq, not_true, if_false]
  exact if_neg (by simp [hlen, hsize]; omega)

theorem length_le_streamSize : ∀ rs : List BlobRecord, rs.length ≤ streamSize rs
  | [] => le_rfl
  | r :: rs => by
    have := length_le_streamSize rs
    have := r.serializedSize_pos
    rw [length_cons, streamSize_cons]
    omega

/-- The records of a stream with their prefixes. -/
theorem parseRecords_streamBytes :
    ∀ {rs : List BlobRecord} {prefixes : Nat → KeyPrefix} {fuel : Nat},
    (∀ r ∈ rs, r.value.length ≤ u32Max) → rs.length ≤ fuel →
    parseRecords fuel (streamBytes prefixes rs) = some (rs.mapIdx fun i r => (prefixes i, r))
  | [], _, _, _, _ => by rw [streamBytes, parseRecords, mapIdx_nil]
  | r :: rs, prefixes, 0, _, hfuel => by cases hfuel
  | r :: rs, prefixes, fuel + 1, hvalues, hfuel => by
    obtain ⟨hr, hrs⟩ := forall_mem_cons.mp hvalues
    have hrec := @BlobRecord.fromBytes_toBytes (streamBytes (fun i => prefixes (i + 1)) rs) r
      (prefixes 0) hr
    have hdrop : (streamBytes prefixes (r :: rs)).drop r.serializedSize =
      streamBytes (fun i => prefixes (i + 1)) rs := by
      rw [streamBytes, ← r.length_toBytes (prefixes 0), drop_left]
    rw [← streamBytes.eq_2] at hrec
    have hpos : streamBytes prefixes (r :: rs) ≠ [] := by
      intro hnil
      rw [hnil] at hrec
      cases hrec
    obtain ⟨byte, bytes, hcons⟩ := exists_cons_of_ne_nil hpos
    rw [hcons] at hrec hdrop ⊢
    rw [parseRecords, hrec]
    simp only
    rw [hdrop, parseRecords_streamBytes hrs (Nat.le_of_succ_le_succ hfuel), mapIdx_cons]
    rfl

/-! ## Files -/

/-- A file whose fields keep their width. -/
structure BlobFile.Writable (f : BlobFile) : Prop where
  id : validFileId f.fileId = true ∧ f.fileId ≤ u32Max
  values : ∀ r ∈ f.records, r.value.length ≤ u32Max
  size : f.serializedSize < 256 ^ 8
  marks_sorted : f.deletedOffsets.Pairwise (· < ·)
  marks : ∀ o ∈ f.deletedOffsets, f.hasRecordAt o
  count : f.deletedCount ≤ u32Max

/-- A file as it is read back. -/
def BlobFile.stored (prefixes : KeyPrefixes) (f : BlobFile) : StoredFile :=
  ⟨f, fun i => ((f.records.mapIdx fun i r => (prefixes f.fileId i, r))[i]?.map Prod.fst).getD
    (makeKeyPrefix [])⟩

namespace BlobFile

variable {f : BlobFile} {prefixes : KeyPrefixes}

theorem stored_prefix {i : Nat} (hi : i < f.records.length) :
    (f.stored prefixes).prefixes i = prefixes f.fileId i := by
  simp [stored, List.getElem?_mapIdx, List.getElem?_eq_getElem hi]

/-- Marks stand at different records. -/
theorem deletedCount_le (hs : f.deletedOffsets.Pairwise (· < ·))
    (hm : ∀ o ∈ f.deletedOffsets, f.hasRecordAt o) :
    f.deletedCount ≤ f.records.length := by
  have hsub : f.deletedOffsets ⊆ recordOffsetsFrom 0 f.records := fun o ho =>
    mem_recordOffsetsFrom.mpr (hm o ho)
  have hle := (subperm_of_subset (hs.imp Nat.ne_of_lt) hsub).length_le
  rwa [BlobStore.length_recordOffsetsFrom] at hle

theorem Writable.decodeFiles (h : f.Writable) {count : Nat} {seen : List Nat}
    (hnew : f.fileId ∉ seen) :
    decodeFiles false (count + 1) seen (f.imageSection prefixes ++ rest)
      = (SeerDb.decodeFiles false count (f.fileId :: seen) rest).map fun x =>
        (f.stored prefixes :: x.1, x.2) := by
  have hrecords : parseRecords (f.toBytes prefixes).length (f.toBytes prefixes)
      = some (f.records.mapIdx fun i r => (prefixes f.fileId i, r)) := by
    exact parseRecords_streamBytes h.values
      (length_toBytes prefixes f ▸ length_le_streamSize f.records)
  have hmarks : takeDeleted false f.records.length
      (toLe 4 f.deletedCount ++ (f.deletedOffsets.flatMap (toLe 8) ++ rest)) =
      some (f.deletedOffsets, rest) := by
    have hle := deletedCount_le h.marks_sorted h.marks
    rw [takeDeleted, if_neg Bool.false_ne_true, takeLe_toLe (Nat.lt_succ_of_le h.count)]
    simp only [Option.bind_eq_bind, Option.bind_some]
    rw [if_neg]
    · refine takeMarks_flatMap fun o ho => ?_
      obtain ⟨r, hr⟩ := Option.isSome_iff_exists.mp (h.marks o ho)
      exact ((recordAt_lt hr).2.trans_eq (Nat.zero_add _)).trans h.size
    · rw [length_append, length_flatMap_toLe, deletedCount] at *
      omega
  have hfile : parseFile f.fileId (f.toBytes prefixes) f.deletedOffsets =
    some (f.stored prefixes) := by
    have hfst : (f.records.mapIdx fun i r => (prefixes f.fileId i, r)).map Prod.snd =
      f.records := by
      refine ext_getElem? fun i => ?_
      rw [List.getElem?_map, List.getElem?_mapIdx]
      cases f.records[i]? <;> rfl
    rw [parseFile, hrecords]
    simp only [Option.bind_eq_bind, Option.bind_some]
    rw [hfst, BlobManager.loadFile_eq h.marks_sorted h.marks]
    rfl
  rw [SeerDb.decodeFiles, imageSection]
  simp only [append_assoc]
  rw [takeLe_toLe (Nat.lt_succ_of_le h.id.2)]
  simp only [Option.bind_eq_bind, Option.bind_some, h.id.1, Bool.not_true, Bool.false_or,
    decide_eq_true_iff, hnew, if_false, Bool.false_eq_true]
  rw [takeLe_toLe (by rw [length_toBytes]; exact h.size)]
  simp only [Option.bind_some]
  rw [takeBytes_append rfl]
  simp only [Option.bind_some]
  rw [hrecords]
  simp only [Option.bind_some, length_mapIdx]
  rw [hmarks]
  simp only [Option.bind_some]
  rw [hfile]
  cases SeerDb.decodeFiles false count (f.fileId :: seen) rest <;> rfl

end BlobFile

theorem decodeFiles_sections {prefixes : KeyPrefixes} : ∀ {files : List BlobFile} {seen : List Nat},
    (∀ f ∈ files, f.Writable ∧ f.fileId ∉ seen) → (files.map BlobFile.fileId).Nodup →
    decodeFiles false files.length seen (files.flatMap (BlobFile.imageSection prefixes))
      = some (files.map (BlobFile.stored prefixes), [])
  | [], _, _, _ => rfl
  | f :: files, seen, h, hn => by
    obtain ⟨⟨hf, hnew⟩, hfiles⟩ := forall_mem_cons.mp h
    obtain ⟨hnot, hn⟩ := nodup_cons.mp hn
    have ih : decodeFiles false files.length (f.fileId :: seen)
        (files.flatMap (BlobFile.imageSection prefixes))
        = some (files.map (BlobFile.stored prefixes), []) := by
      refine decodeFiles_sections (fun g hg => ⟨(hfiles g hg).1, ?_⟩) hn
      rw [mem_cons, not_or]
      exact ⟨fun heq => hnot (heq ▸ mem_map_of_mem hg), (hfiles g hg).2⟩
    rw [flatMap_cons, length_cons, hf.decodeFiles hnew, ih]
    rfl

/-! ## Images -/

theorem sixteen_le_sectionsSize (files : List BlobFile) :
    16 * files.length ≤ sectionsSize files := by
  induction files with
  | nil => exact le_rfl
  | cons f files ih =>
    rw [sectionsSize] at ih ⊢
    rw [map_cons, sum_cons, length_cons, BlobFile.sectionSize]
    omega

namespace BlobManager

variable {b b' : BlobManager} {p : BlobPointer} {prefixes : KeyPrefixes}

/-- One file of `serialized_size`. -/
def addSection (size : Nat) (f : BlobFile) : Option Nat := do
  let data ← fitsU64 f.serializedSize
  let marks ← fitsU64 (8 * f.deletedCount)
  let size ← fitsU64 (size + 16)
  let size ← fitsU64 (size + data)
  fitsU64 (size + marks)

def serializedSize (b : BlobManager) : Option Nat := b.files.foldlM addSection 44

/-- A chain of checked additions fits when its total does. -/
theorem fitsU64_bind_add (n k : Nat) : ((fitsU64 n).bind fun m => fitsU64 (m + k)) =
    fitsU64 (n + k) := by
  rw [fitsU64, fitsU64]
  split
  · rfl
  · rw [if_neg (by omega)]
    rfl

theorem addSection_eq (size : Nat) (f : BlobFile) :
    addSection size f = fitsU64 (size + f.sectionSize) := by
  simp only [addSection, fitsU64, Option.bind_eq_bind, BlobFile.sectionSize]
  grind

theorem foldlM_addSection (files : List BlobFile) (size : Nat) :
    (fitsU64 size).bind (files.foldlM addSection) = fitsU64 (size + sectionsSize files) := by
  induction files generalizing size with
  | nil => exact Option.bind_fun_some _
  | cons f files ih =>
    simp only [foldlM_cons, Option.bind_eq_bind, addSection_eq]
    rw [← Option.bind_assoc, fitsU64_bind_add, ih, sectionsSize, sectionsSize, map_cons,
      sum_cons, Nat.add_assoc]

/-- The size is the length of the image. -/
theorem serializedSize_eq (prefixes : KeyPrefixes) :
    b.serializedSize = fitsU64 (b.toBytes prefixes).length := by
  rw [length_image]
  exact foldlM_addSection b.files 44

theorem writable (h : b.WF) (hlen : (b.toBytes prefixes).length ≤ u64Max)
    {f : BlobFile} (hf : f ∈ b.files) (hcount : f.deletedCount ≤ u32Max)
    (hvalues : ∀ r ∈ f.records, r.value.length ≤ u32Max) : f.Writable := by
  obtain ⟨hvalid, hlt, -⟩ := h.freshIds.1 f hf
  refine ⟨⟨hvalid, hlt⟩, hvalues, ?_, h.marks_sorted f hf, h.marks f hf, hcount⟩
  have hle : f.sectionSize ≤ sectionsSize b.files :=
    single_le_sum (fun _ _ => Nat.zero_le _) _ (mem_map_of_mem hf)
  rw [length_image] at hlen
  rw [BlobFile.sectionSize] at hle
  have hmax : u64Max < 256 ^ 8 := by decide
  omega

/-- Each field of an image whose numbers keep their width is read back. -/
theorem fromBytes_toBytes (h : b.WF) (hthreshold : b.threshold ≤ u64Max)
    (hgeneration : b.generationId ≤ u64Max) (hlen : (b.toBytes prefixes).length ≤ u64Max)
    (hfit : ∀ f ∈ b.files, f.deletedCount ≤ u32Max ∧ ∀ r ∈ f.records, r.value.length ≤ u32Max) :
    fromBytes (b.toBytes prefixes)
      = some (managerOfFiles (b.files.map (BlobFile.stored prefixes)) b.threshold
        b.generationId) := by
  have hfiles : decodeFiles false b.files.length []
      (b.files.flatMap (BlobFile.imageSection prefixes))
      = some (b.files.map (BlobFile.stored prefixes), []) :=
    decodeFiles_sections (fun f hf => ⟨writable h hlen hf (hfit f hf).1 (hfit f hf).2, not_mem_nil⟩)
      h.freshIds.2
  have hsize : (b.toBytes prefixes).length = (b.payload prefixes).length + 12 := by simp [toBytes]
  have hmagic : (b.toBytes prefixes).take 8 = blobFormatMagic := by
    rw [b.toBytes_eq, imageHeader, append_assoc]
    exact take_left' rfl
  have htotal : leAt (b.toBytes prefixes) (b.payload prefixes).length 8 =
    (b.payload prefixes).length + 12 := by
    rw [toBytes, withChecksum, append_assoc, leAt_skip le_rfl, Nat.sub_self]
    exact leAt_head (lt_of_le_of_lt (hsize ▸ hlen) (by decide))
  have hcrc : leAt (b.toBytes prefixes) ((b.payload prefixes).length + 8) 4
      = crc32c ((b.toBytes prefixes).take ((b.payload prefixes).length + 8)) :=
        checksum_field (by simp)
  have hpayload : (b.toBytes prefixes).take (b.payload prefixes).length = b.payload prefixes := by
    rw [toBytes, withChecksum, append_assoc, take_left]
  have hcount : ¬ b.files.length > (b.files.flatMap (BlobFile.imageSection prefixes)).length
    / 16 := by
    have := sixteen_le_sectionsSize b.files
    rw [length_sections]
    omega
  have hlt : ∀ {n}, n ≤ u64Max → n < 256 ^ 8 := fun hn => lt_of_le_of_lt hn (by decide)
  rw [fromBytes, if_pos hmagic, fromVersionedBytes, hsize, if_neg (by omega),
    Nat.add_sub_cancel, htotal, if_neg (not_not.mpr rfl),
      show (b.payload prefixes).length + 12 - 4 = (b.payload prefixes).length + 8 from rfl, hcrc,
    if_neg (not_not.mpr rfl), hpayload, payload, imageHeader]
  simp only [append_assoc]
  rw [takeBytes_append (show blobFormatMagic.length = 8 from rfl)]
  simp only [Option.bind_eq_bind, Option.bind_some]
  rw [takeLe_toLe (by decide)]
  simp only [Option.bind_some]
  rw [takeLe_toLe (hlt hthreshold)]
  simp only [Option.bind_some]
  rw [takeLe_toLe (hlt hgeneration)]
  simp only [Option.bind_some]
  rw [takeLe_toLe h.length_files]
  simp only [Option.bind_some, ne_eq, not_true, false_or, hcount, if_false, hfiles]

/-! ## Managers as the operations build them -/

/-- A new manager, and any run of appends, rollbacks, deletions and collections. -/
inductive Built : BlobManager → Prop
  | new (threshold : Nat) (segmented : Bool) : Built (withThresholdAndMode threshold segmented)
  | append {b b' : BlobManager} {value : Bytes} {p : BlobPointer} (h : Built b)
      (ha : b.append value = .ok (p, b')) : Built b'
  | rollbackAppend {b : BlobManager} (h : Built b) (p : BlobPointer) : Built (b.rollbackAppend p)
  | markDeleted {b b' : BlobManager} {p : BlobPointer} (h : Built b)
      (hm : b.markDeleted p = some b') : Built b'
  | gc {b : BlobManager} (h : Built b) : Built b.gc.2

theorem Built.wf (h : Built b) : b.WF := by
  induction h with
  | new threshold segmented => exact .initial threshold segmented
  | append _ ha ih => exact (ih.append ha).wf
  | rollbackAppend _ p ih => exact ih.rollback p
  | markDeleted _ hm ih => exact (ih.marked hm).wf
  | gc _ ih => exact ih.sublist filter_sublist

/-! ## The round trip -/

/-- What decoding an image has to give back. -/
def Returns (prefixes : KeyPrefixes) (b b' : BlobManager) (prefixes' : KeyPrefixes) : Prop :=
  b'.threshold = b.threshold ∧ b'.generationId = b.generationId ∧ b'.files = b.files ∧
    (∀ p, b'.read p = b.read p) ∧ ∀ f ∈ b.files, ∀ i < f.records.length,
    prefixes' f.fileId i = prefixes f.fileId i

theorem read_congr {b' : BlobManager} (h : b'.files = b.files) (p : BlobPointer) :
    b'.read p = b.read p := by
  rw [BlobManager.read, BlobManager.read, BlobManager.fileById, BlobManager.fileById, h]

theorem returns_managerOfFiles (h : b.WF) : Returns prefixes b
    (managerOfFiles (b.files.map (BlobFile.stored prefixes)) b.threshold b.generationId).1
    (storedPrefixes (b.files.map (BlobFile.stored prefixes))) := by
  have hmap : (b.files.map (BlobFile.stored prefixes)).map StoredFile.file = b.files := by
    rw [map_map]
    exact map_id _
  have hfiles : (managerOfFiles (b.files.map (BlobFile.stored prefixes)) b.threshold
    b.generationId).1.files = b.files := by
    simp only [managerOfFiles, hmap, sortFiles_eq h.ids]
  refine ⟨rfl, rfl, hfiles, read_congr hfiles, fun f hf i hi => ?_⟩
  have hnodup : ((b.files.map (BlobFile.stored prefixes)).map fun st => st.file.fileId).Nodup := by
    rw [map_map]
    exact h.freshIds.2
  have heq := BlobStore.storedPrefixes_eq hnodup (mem_map_of_mem hf)
  rw [show f.fileId = (f.stored prefixes).file.fileId from rfl, heq]
  exact BlobFile.stored_prefix hi

/-- **Whole images.**  Decoding an image gives the manager back exactly when its values and
the counts of its marks keep 32 bits; its length is as `serialized_size` says; and whatever
the decoder accepts has distinct ids and marks at records only. -/
theorem image_returns_iff (h : Built b) (hthreshold : b.threshold ≤ u64Max)
    (hgeneration : b.generationId ≤ u64Max) (hlen : (b.toBytes prefixes).length ≤ isizeMax) :
    ((∃ b' prefixes', fromBytes (b.toBytes prefixes) = some (b', prefixes') ∧
      Returns prefixes b b' prefixes') ↔
      ∀ f ∈ b.files, f.deletedCount ≤ u32Max ∧ ∀ r ∈ f.records, r.value.length ≤ u32Max) ∧
    b.serializedSize = some (b.toBytes prefixes).length ∧
    ∀ buf b' prefixes', fromVersionedBytes buf = some (b', prefixes') →
      (b'.files.map BlobFile.fileId).Nodup ∧ ∀ f ∈ b'.files, ∀ o ∈ f.deletedOffsets,
      f.hasRecordAt o := by
  have hmax : (b.toBytes prefixes).length ≤ u64Max := hlen.trans (by decide)
  refine ⟨⟨?_, fun hfit => ?_⟩, ?_, fun buf b' prefixes' hdec => ?_⟩
  · rintro ⟨b', prefixes', hdec, -, -, hfiles, -⟩ f hf
    have hacc := fromBytes_accepted hdec
    rw [← hfiles] at hf
    exact ⟨hacc.counts f hf, hacc.values f hf⟩
  · exact ⟨_, _, fromBytes_toBytes h.wf hthreshold hgeneration hmax hfit,
      returns_managerOfFiles h.wf⟩
  · rw [serializedSize_eq prefixes, fitsU64, if_pos hmax]
  · have hwf := (fromVersionedBytes_accepted hdec).wf
    exact ⟨hwf.freshIds.2, hwf.marks⟩

/-- The manager of one value. -/
theorem built_single (value : Bytes) :
    Built ⟨[⟨1, [⟨value⟩], []⟩], 2, 0, 0, false, ⟨[(1, 0)], [], 0, 0, false⟩⟩ :=
  @Built.append (withThresholdAndMode 0 false) _ value _ (.new 0 false) rfl

/-- A value whose record is marked. -/
theorem image_returns_marked : ∃ (b b' : BlobManager) (prefixes prefixes' : KeyPrefixes), Built b ∧
    b.totalDeletedEntries = 1 ∧ fromBytes (b.toBytes prefixes) = some (b', prefixes') ∧
      Returns prefixes b b' prefixes' := by
  have hmark : Built ⟨[⟨1, [⟨[0]⟩], [0]⟩], 2, 0, 0, false, ⟨[(1, 0)], [], 0, 0, false⟩⟩ :=
    @Built.markDeleted _ _ ⟨1, 0, 1⟩ (built_single [0]) rfl
  have hiff := @image_returns_iff _ (fun _ _ => makeKeyPrefix []) hmark (by decide) (by decide)
    (by rw [length_image]; decide)
  obtain ⟨b', prefixes', hdec, hret⟩ := hiff.1.mpr (by decide)
  exact ⟨_, b', _, prefixes', hmark, rfl, hdec, hret⟩

/-- A value of `2 ^ 32` bytes does not come back. -/
theorem long_value_lost : ∃ b : BlobManager, Built b ∧ ∀ prefixes b' prefixes',
    fromBytes (b.toBytes prefixes) = some (b', prefixes') → ¬ Returns prefixes b b' prefixes' := by
  refine ⟨_, built_single (List.replicate (2 ^ 32) 0), fun prefixes b' prefixes' hdec hret => ?_⟩
  have hvalues := (fromBytes_accepted hdec).values
  rw [hret.2.2.1] at hvalues
  have hle := hvalues _ (.head _) _ (.head _)
  rw [length_replicate] at hle
  exact absurd hle (by decide)

/-! ## The projected size -/

/-- The section of a first file, and the record. -/
def addRecord (b : BlobManager) (appendedValueLen : Option Nat) (size : Nat) : Option Nat :=
  match appendedValueLen with
  | none => some size
  | some valueLen =>
    if valueLen ≤ u32Max then
      (if b.files.isEmpty then fitsU64 (size + 16) else some size).bind fun size =>
        fitsU64 (size + (blobOverheadSize + valueLen))
    else none

def projectedSerializedSize (b : BlobManager) (retired : Option BlobPointer)
    (appendedValueLen : Option Nat) :
    Option Nat :=
  (b.serializedSize.bind (b.addRetired retired)).bind (b.addRecord appendedValueLen)

theorem sectionsSize_concat (files : List BlobFile) (f : BlobFile) :
    sectionsSize (files ++ [f]) = sectionsSize files + f.sectionSize := by
  simp [sectionsSize]

theorem sectionSize_append (f : BlobFile) (value : Bytes) :
    (f.append value).sectionSize = f.sectionSize + (blobOverheadSize + value.length) := by
  rw [BlobFile.sectionSize, size_appended, BlobFile.sectionSize]
  show _ + 8 * f.deletedCount = _
  omega

/-- One section has one mark more. -/
theorem WF.sectionsSize_marked (h : b.WF) (hm : b.markDeleted p = some b') :
    sectionsSize b'.files = sectionsSize b.files + 8 := by
  obtain ⟨f, hf, -, rfl⟩ := markDeleted_inv hm
  obtain ⟨l, r, hfiles⟩ := append_of_mem (fileById_mem hf).1
  have hids := h.ids
  rw [hfiles, pairwise_append, pairwise_cons] at hids
  obtain ⟨-, ⟨hr, -⟩, hl⟩ := hids
  have hleft : ∀ x ∈ l, x.fileId ≠ f.fileId := fun x hx => (hl x hx f (.head _)).ne
  have hright : ∀ x ∈ r, x.fileId ≠ f.fileId := fun x hx => (hr x hx).ne'
  have hsame : ∀ (g : BlobFile) {files : List BlobFile}, (∀ x ∈ files, x.fileId ≠ f.fileId) →
      files.map (fun x => if x.fileId = f.fileId then g else x) = files := fun g files hne =>
    (map_congr_left fun x hx => if_neg (hne x hx)).trans (map_id _)
  rw [setFile, hfiles]
  simp only [map_append, map_cons, if_true, hsame _ hleft, hsame _ hright]
  simp [sectionsSize, BlobFile.sectionSize, BlobFile.serializedSize, BlobFile.deletedCount,
    orderedInsert_length]
  omega

/-- What an append adds to the image. -/
theorem WF.appended_image (h : b.WF) (hwhole : b.segmented = false) {value : Option Bytes}
    (hvalue : ∀ v ∈ value, v.length < 2 ^ 32) (ha : b.appended value = some b') :
    (b'.WF ∧ ∀ p, b.Unmarked p → b'.Unmarked p) ∧ ∃ k, sectionsSize b'.files =
      sectionsSize b.files + k ∧ ∀ n, (fitsU64 n).bind (b.addRecord (value.map List.length)) =
        fitsU64 (n + k) := by
  cases value with
  | none =>
    cases ha
    exact ⟨⟨h, fun _ hp => hp⟩, 0, rfl, fun n => Option.bind_fun_some _⟩
  | some v =>
    rw [appended] at ha
    split at ha
    · cases ha
    rename_i q b₁ happ
    cases ha
    have hsmall : v.length ≤ u32Max := Nat.le_of_lt_succ (hvalue v rfl)
    refine ⟨⟨(h.append happ).wf, fun p hp => ((h.append happ).old p hp).1⟩, ?_⟩
    rcases append_cases happ with ⟨-, pre, f, hfiles, -, rfl⟩ | ⟨hopen, -, b₀, -, rfl⟩
    · refine ⟨blobOverheadSize + v.length, ?_, fun n => ?_⟩
      · rw [hfiles, sectionsSize_concat, sectionsSize_concat, sectionSize_append, Nat.add_assoc]
      · have hadd : b.addRecord (some v.length) = fun size =>
          fitsU64 (size + (blobOverheadSize + v.length)) := by
          funext size
          simp [addRecord, hsmall, hfiles]
        rw [Option.map_some, hadd, fitsU64_bind_add]
    have hempty : b.files.isEmpty = true := by simpa [opensFile, shouldRollover, hwhole] using hopen
    refine ⟨16 + (blobOverheadSize + v.length), ?_, fun n => ?_⟩
    · rw [sectionsSize_concat, sectionSize_append]
      rfl
    · have hadd : b.addRecord (some v.length) = fun size => (fitsU64 (size + 16)).bind fun size =>
          fitsU64 (size + (blobOverheadSize + v.length)) := by
        funext size
        simp [addRecord, hsmall, hempty]
      rw [Option.map_some, hadd, ← Option.bind_assoc, fitsU64_bind_add,
        fitsU64_bind_add, Nat.add_assoc]

/-- What the deletion of a record adds to it. -/
theorem WF.retire_image {b₁ : BlobManager} {retired : Option BlobPointer} (h : b₁.WF)
    (hlive : ∀ p ∈ retired, b.canMarkDeleted p = true ∧ b₁.Unmarked p) :
    ∃ b₂, b.retire retired b₁ = some b₂ ∧ ∃ k, sectionsSize b₂.files = sectionsSize b₁.files + k ∧
      ∀ n, (fitsU64 n).bind (b.addRetired retired) = fitsU64 (n + k) := by
  cases retired with
  | none => exact ⟨b₁, rfl, 0, rfl, fun n => Option.bind_fun_some _⟩
  | some p =>
    obtain ⟨hcan, hmark⟩ := hlive p rfl
    obtain ⟨b₂, hb₂⟩ := hmark.markDeleted
    refine ⟨b₂, (if_pos hcan).trans hb₂, 8, h.sectionsSize_marked hb₂, fun n => ?_⟩
    rw [show b.addRetired (some p) = fun size => fitsU64 (size + 8) from funext fun size =>
      if_pos hcan, fitsU64_bind_add]

/-- **The projection is exact.**  From every reached whole-image manager, the append and the
deletion of a live record leave an image of the projected length. -/
theorem projected_eq_image {s : BlobStore} (h : s.Reached) (hwhole : s.blobs.segmented = false)
    {retired : Option BlobPointer} {value : Option Bytes}
    (hlive : ∀ p ∈ retired, s.blobs.canMarkDeleted p = true)
    (hvalue : ∀ v ∈ value, v.length < 2 ^ 32) (ha : s.blobs.appended value ≠ none)
    (prefixes : KeyPrefixes) :
    ∃ b₂, s.blobs.mutated retired value = some b₂ ∧
      s.blobs.projectedSerializedSize retired (value.map List.length) =
        fitsU64 (b₂.toBytes prefixes).length := by
  obtain ⟨b₁, hb₁⟩ := Option.ne_none_iff_exists'.mp ha
  obtain ⟨⟨hwf₁, hunmarked⟩, k₁, hsize₁, hadd₁⟩ := h.sound.wf.appended_image hwhole hvalue hb₁
  obtain ⟨b₂, hb₂, k₂, hsize₂, hadd₂⟩ := hwf₁.retire_image fun p hp =>
    ⟨hlive p hp, hunmarked p ((Option.any_eq_true _ _).mp (hlive p hp))⟩
  refine ⟨b₂, by rw [mutated, hb₁, Option.bind_some, hb₂], ?_⟩
  rw [projectedSerializedSize, serializedSize_eq prefixes, hadd₂, hadd₁, length_image,
    length_image, hsize₂, hsize₁]
  congr 1
  omega

/-- The first record of the second file is replaced. -/
theorem projected_eq_image_twoFiles : ∃ b₂ : BlobManager,
    BlobStore.twoFiles.blobs.mutated (some ⟨2, 0, 1⟩) (some [7]) = some b₂ ∧
    BlobStore.twoFiles.blobs.projectedSerializedSize (some ⟨2, 0, 1⟩) (some 1) = some 185 ∧
    BlobStore.twoFiles.blobs.projectedSerializedSize (some ⟨2, 0, 1⟩) (some 1)
      = fitsU64 (b₂.toBytes fun _ _ => makeKeyPrefix []).length := by
  have hlive : ∀ p ∈ some ⟨2, 0, 1⟩, BlobStore.twoFiles.blobs.canMarkDeleted p = true := by
    rintro _ ⟨⟩
    decide +kernel
  obtain ⟨b₂, hb₂, hsize⟩ := @projected_eq_image _ BlobStore.twoFiles_reached
    (by decide +kernel) _ (some [7]) hlive (by simp) (by decide +kernel) _
  exact ⟨b₂, hb₂, by decide +kernel, hsize⟩

end BlobManager

end SeerDb
