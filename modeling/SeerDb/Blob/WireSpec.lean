/-
# `SeerDb.Blob.WireSpec` — where records and files stand in the bytes

Appending to a stream moves no record, so the offset a pointer keeps is the place of its
record in the bytes of the file; in an image the place of a file is the sum of what stands
before it.  A decoder that accepts a stream returns the records that were written.
-/
import SeerDb.Blob.Wire
import SeerDb.Blob.Spec

namespace SeerDb

open Lib List

variable {marks : List Nat} {rest : Bytes}

/-! ## Records -/

variable {keyPrefix : KeyPrefix} {r : BlobRecord} {rs rs' : List BlobRecord}
  {prefixes : Nat → KeyPrefix} {buf : Bytes} {files : List BlobFile}

@[simp] theorem BlobRecord.length_toBytes (keyPrefix : KeyPrefix) (r : BlobRecord) :
    (r.toBytes keyPrefix).length = r.serializedSize := by
  simp [toBytes, keyPrefix.2, serializedSize, blobOverheadSize]
  omega

/-- The length field. -/
theorem BlobRecord.leAt_toBytes (h : r.value.length ≤ u32Max) :
    leAt (r.toBytes keyPrefix) 8 4 = r.value.length := by
  have hlt : r.value.length < 256 ^ 4 := Nat.lt_of_le_of_lt h (by decide)
  rw [toBytes, withChecksum, append_assoc, leAt_skip keyPrefix.2.le, keyPrefix.2, Nat.sub_self,
    append_assoc, leAt_head hlt]

/-- Header and value, then the checksum over both. -/
theorem BlobRecord.toBytes_eq (keyPrefix : KeyPrefix) (r : BlobRecord) :
    ∃ body : Bytes, r.toBytes keyPrefix = body ++ toLe 4 (crc32c body) ∧
      body.length = 12 + r.value.length ∧ body.drop 12 = r.value := by
  refine ⟨_, rfl, ?_, ?_⟩
  · simp [keyPrefix.2]
    omega
  · have hlen : (keyPrefix.1 ++ toLe 4 r.value.length).length = 12 := by simp [keyPrefix.2]
    rw [← append_assoc, ← hlen, drop_left]

/-- A field that is read is the bytes it was read from. -/
theorem toLe_leAt {data : Bytes} {start width : Nat} (h : start + width ≤ data.length) :
    toLe width (leAt data start width) = slice data start width := by
  have := toLe_ofLe (slice data start width)
  rwa [length_slice h] at this

/-- What is accepted is the encoding of what is returned. -/
theorem BlobRecord.toBytes_fromBytes (h : fromBytes buf = some (keyPrefix, r)) :
    r.value.length ≤ u32Max ∧ r.toBytes keyPrefix <+: buf := by
  rw [fromBytes] at h
  by_cases h16 : buf.length < 16
  · rw [dif_pos h16] at h
    cases h
  rw [dif_neg h16] at h
  have hsize : blobOverheadSize = 16 := rfl
  by_cases htotal : buf.length < blobOverheadSize + leAt buf 8 4
  · rw [if_pos htotal] at h
    cases h
  rw [if_neg htotal] at h
  by_cases hcrc : leAt buf (blobOverheadSize + leAt buf 8 4 - 4) 4
      = crc32c (buf.take (blobOverheadSize + leAt buf 8 4 - 4))
  case neg =>
    rw [if_pos hcrc] at h
    cases h
  rw [if_neg (not_not.mpr hcrc)] at h
  obtain ⟨rfl, rfl⟩ := Prod.mk.inj (Option.some.inj h)
  have hlt := leAt_lt buf 8 4
  have hfield : toLe 4 (leAt buf 8 4) = slice buf 8 4 := toLe_leAt (by omega)
  generalize leAt buf 8 4 = L at hcrc htotal hlt hfield ⊢
  rw [show blobOverheadSize + L - 4 = 12 + L by omega] at hcrc
  have hlen : (slice buf 12 L).length = L := length_slice (by omega)
  -- header and value are the first bytes of the buffer, the checksum the next four
  have hbody : buf.take 8 ++ (slice buf 8 4 ++ slice buf 12 L) = buf.take (12 + L) := by
    rw [show buf.take 8 = slice buf 0 8 from rfl, ← slice_add buf 8 4 L,
      ← slice_add buf 0 8 (4 + L), slice, drop_zero, show 8 + (4 + L) = 12 + L by omega]
  refine ⟨?_, ?_⟩
  · rw [hlen]
    exact Nat.le_of_lt_succ hlt
  · rw [toBytes, withChecksum, hlen, hfield, hbody, ← hcrc, toLe_leAt (by omega),
      show buf.take (12 + L) = slice buf 0 (12 + L) from rfl]
    have := slice_add buf 0 (12 + L) 4
    rw [Nat.zero_add] at this
    rw [← this, slice, drop_zero]
    exact take_prefix _ _

/-! ## Streams -/

@[simp] theorem length_streamBytes : ∀ (prefixes : Nat → KeyPrefix) (rs : List BlobRecord),
    (streamBytes prefixes rs).length = streamSize rs
  | _, [] => rfl
  | prefixes, r :: rs => by
    rw [streamBytes, length_append, r.length_toBytes, length_streamBytes, streamSize_cons]

theorem streamBytes_append : ∀ (prefixes : Nat → KeyPrefix) (rs rs' : List BlobRecord),
    streamBytes prefixes (rs ++ rs')
      = streamBytes prefixes rs ++ streamBytes (fun i => prefixes (i + rs.length)) rs'
  | _, [], _ => rfl
  | prefixes, r :: rs, rs' => by
    rw [cons_append, streamBytes, streamBytes, streamBytes_append, append_assoc]
    simp only [length_cons]
    congr 3

/-- Only the prefixes of the records matter. -/
theorem streamBytes_congr : ∀ {rs : List BlobRecord} {prefixes prefixes' : Nat → KeyPrefix},
    (∀ i < rs.length, prefixes' i = prefixes i) → streamBytes prefixes' rs = streamBytes prefixes rs
  | [], _, _, _ => rfl
  | r :: rs, prefixes, prefixes', h => by
    rw [streamBytes, streamBytes, h 0 (Nat.succ_pos _),
      @streamBytes_congr rs _ _ fun i hi => h (i + 1) (Nat.succ_lt_succ hi)]

theorem recordAt_mem {offset : Nat} : ∀ {rs : List BlobRecord} {start : Nat},
    recordAt offset start rs = some r → r ∈ rs
  | [], _, h => by cases h
  | s :: rs, start, h => by
    rw [recordAt] at h
    split at h
    · cases h
      exact .head _
    · exact .tail _ (recordAt_mem h)

/-- A record stands at its offset. -/
theorem streamBytes_recordAt {offset : Nat} :
    ∀ {rs : List BlobRecord} {start : Nat} {prefixes : Nat → KeyPrefix},
    recordAt offset start rs = some r → ∃ (pre post : Bytes) (keyPrefix : KeyPrefix),
      streamBytes prefixes rs = pre ++ (r.toBytes keyPrefix ++ post) ∧ start + pre.length = offset
  | [], _, _, h => by cases h
  | s :: rs, start, prefixes, h => by
    rw [recordAt] at h
    split at h
    · rename_i hstart
      cases h
      exact ⟨[], _, _, rfl, hstart⟩
    · obtain ⟨pre, post, keyPrefix, hbytes, hpre⟩ := streamBytes_recordAt h
      refine ⟨s.toBytes (prefixes 0) ++ pre, post, keyPrefix, ?_, ?_⟩
      · rw [streamBytes, hbytes, append_assoc]
      · rw [length_append, s.length_toBytes, ← hpre]
        omega

/-- The prefixes that came with the records read. -/
theorem parseRecords_sound (d : KeyPrefix) :
    ∀ {fuel : Nat} {buf : Bytes} {l : List (KeyPrefix × BlobRecord)},
    parseRecords fuel buf = some l →
    streamBytes (fun i => (l[i]?.map Prod.fst).getD d) (l.map Prod.snd) = buf ∧
      ∀ r ∈ l.map Prod.snd, r.value.length ≤ u32Max
  | _, [], l, h => by
    rw [parseRecords] at h
    cases h
    simp [streamBytes]
  | 0, _ :: _, _, h => by cases h
  | fuel + 1, b :: buf, l, h => by
    rw [parseRecords] at h
    cases hrec : BlobRecord.fromBytes (b :: buf) with
    | none =>
      rw [hrec] at h
      cases h
    | some entry =>
      obtain ⟨keyPrefix, r⟩ := entry
      rw [hrec] at h
      obtain ⟨rest, hrest, rfl⟩ := Option.map_eq_some_iff.mp h
      obtain ⟨hbytes, hfits⟩ := parseRecords_sound d hrest
      obtain ⟨hle, tail, htail⟩ := BlobRecord.toBytes_fromBytes hrec
      refine ⟨?_, ?_⟩
      · rw [map_cons, streamBytes]
        simp only [List.getElem?_cons_zero, List.getElem?_cons_succ,
          Option.map_some, Option.getD_some]
        rw [hbytes, ← htail, ← r.length_toBytes keyPrefix, drop_left]
      · rw [map_cons, forall_mem_cons]
        exact ⟨hle, hfits⟩

/-! ## Images -/

theorem length_flatMap_toLe (marks : List Nat) :
    (marks.flatMap (toLe 8)).length = 8 * marks.length := by
  induction marks with
  | nil => rfl
  | cons mark marks ih =>
    rw [flatMap_cons, length_append, ih, length_toLe, length_cons]
    omega

namespace BlobFile

theorem length_toBytes (prefixes : KeyPrefixes) (f : BlobFile) :
    (f.toBytes prefixes).length = f.serializedSize := length_streamBytes _ _

/-- The bytes of a file in an image. -/
def sectionSize (f : BlobFile) : Nat := 16 + f.serializedSize + 8 * f.deletedCount

theorem length_imageSection (prefixes : KeyPrefixes) (f : BlobFile) :
    (f.imageSection prefixes).length = f.sectionSize := by
  simp only [imageSection, length_append, length_toLe, length_toBytes,
    length_flatMap_toLe, deletedCount, sectionSize]
  omega

end BlobFile

def sectionsSize (files : List BlobFile) : Nat := (files.map BlobFile.sectionSize).sum

theorem length_sections (prefixes : KeyPrefixes) (files : List BlobFile) :
    (files.flatMap (BlobFile.imageSection prefixes)).length = sectionsSize files := by
  simp only [length_flatMap, BlobFile.length_imageSection, sectionsSize]

/-- Where the records of each file begin, in sections that begin at `start`. -/
def basesFrom : Nat → List BlobFile → List (Nat × Nat)
  | _, [] => []
  | start, f :: files => (f.fileId, start + 12) :: basesFrom (start + f.sectionSize) files

theorem basesFrom_append : ∀ (start : Nat) (files files' : List BlobFile),
    basesFrom start (files ++ files') = basesFrom start files ++
      basesFrom (start + sectionsSize files) files'
  | start, [], files' => by simp [basesFrom, sectionsSize]
  | start, f :: files, files' => by
    rw [cons_append, basesFrom, basesFrom_append, basesFrom, cons_append,
      sectionsSize, sectionsSize, map_cons, sum_cons, Nat.add_assoc]

theorem map_fst_basesFrom : ∀ (start : Nat) (files : List BlobFile),
    (basesFrom start files).map Prod.fst = files.map BlobFile.fileId
  | _, [] => rfl
  | start, f :: files => by rw [basesFrom, map_cons, map_fst_basesFrom, map_cons]

theorem sorted_basesFrom {start : Nat} (h : files.Pairwise fun f g => f.fileId < g.fileId) :
    Sorted (basesFrom start files) := by
  rw [Sorted, ← @pairwise_map _ _ Prod.fst (· < ·), map_fst_basesFrom, pairwise_map]
  exact h

theorem length_basesFrom (start : Nat) (files : List BlobFile) :
    (basesFrom start files).length = files.length := by
  have := congrArg List.length (map_fst_basesFrom start files)
  simpa using this

/-- A base lies behind what stands before it, and in front of what follows. -/
theorem mem_basesFrom {entry : Nat × Nat} : ∀ {start : Nat} {files : List BlobFile},
    entry ∈ basesFrom start files → start + 12 ≤ entry.2 ∧ entry.2 + 4 ≤ start + sectionsSize files
  | _, [], h => by cases h
  | start, f :: files, h => by
    have hsize : sectionsSize (f :: files) = f.sectionSize + sectionsSize files := by
      simp [sectionsSize]
    have h16 : 16 ≤ f.sectionSize := by
      rw [BlobFile.sectionSize]
      omega
    rw [basesFrom] at h
    rcases mem_cons.mp h with rfl | h
    · simp only
      omega
    · have := mem_basesFrom h
      omega

/-! ## What a decoder accepts -/

theorem restoreDeleted_sound {f f' : BlobFile} (h : BlobFile.restoreDeleted marks f = some f')
    (hs : f.deletedOffsets.Pairwise (· < ·)) (hm : ∀ o ∈ f.deletedOffsets, f.hasRecordAt o) :
    f'.fileId = f.fileId ∧ f'.records = f.records ∧ f'.deletedOffsets.Pairwise (· < ·) ∧
      (∀ o ∈ f'.deletedOffsets, f'.hasRecordAt o) ∧
      f'.deletedCount = f.deletedCount + marks.length := by
  induction marks generalizing f with
  | nil =>
    cases h
    exact ⟨rfl, rfl, hs, hm, rfl⟩
  | cons offset marks ih =>
    rw [BlobFile.restoreDeleted, BlobFile.markDeleted] at h
    by_cases hcan : f.canMarkDeleted offset = true
    · rw [if_pos hcan] at h
      rw [BlobFile.canMarkDeleted, Bool.and_eq_true] at hcan
      simp only at h
      have hs' := BlobManager.pairwise_orderedInsert hs (by simpa using hcan.2)
      have hm' : ∀ o ∈ f.deletedOffsets.orderedInsert (· ≤ ·) offset, f.hasRecordAt o := by
        intro o ho
        rcases (mem_orderedInsert _).mp ho with rfl | ho
        · exact hcan.1
        · exact hm o ho
      obtain ⟨hid, hrec, hs, hm, hcount⟩ := ih h hs' hm'
      refine ⟨hid, hrec, hs, hm, hcount.trans ?_⟩
      rw [BlobFile.deletedCount, orderedInsert_length, length_cons, Nat.add_right_comm]
      rfl
    · rw [if_neg hcan] at h
      cases h

/-- A file as a decoder returns it. -/
structure StoredFile.Sound (st : StoredFile) : Prop where
  values : ∀ r ∈ st.file.records, r.value.length ≤ u32Max
  marks_sorted : st.file.deletedOffsets.Pairwise (· < ·)
  marks : ∀ o ∈ st.file.deletedOffsets, st.file.hasRecordAt o

theorem parseFile_sound {fileId : Nat} {data : Bytes} {st : StoredFile}
    (h : parseFile fileId data marks = some st) :
    st.Sound ∧ st.file.fileId = fileId ∧ streamBytes st.prefixes st.file.records = data ∧
      st.file.deletedCount = marks.length := by
  simp only [parseFile, Option.bind_eq_bind, Option.bind_eq_some_iff] at h
  obtain ⟨records, hrecords, file, hfile, h⟩ := h
  cases h
  obtain ⟨hbytes, hvalues⟩ := parseRecords_sound (makeKeyPrefix []) hrecords
  obtain ⟨hid, hrec, hs, hm, hcount⟩ := restoreDeleted_sound hfile List.Pairwise.nil (by simp)
  refine ⟨⟨?_, hs, hm⟩, hid, ?_, hcount.trans (Nat.zero_add _)⟩
  · rw [hrec]
    exact hvalues
  · rw [hrec]
    exact hbytes

theorem takeLe_lt {width n : Nat} (h : takeLe width buf = some (n, rest)) : n < 256 ^ width := by
  rw [takeLe, takeBytes] at h
  split at h
  · obtain ⟨rfl, -⟩ := Prod.mk.inj (Option.some.inj h)
    exact (ofLe_lt _).trans_le (Nat.pow_le_pow_right (by decide) (length_take_le _ _))
  · cases h

theorem takeMarks_length {count : Nat} (h : takeMarks count buf = some (marks, rest)) :
    marks.length = count := by
  induction count generalizing buf marks with
  | zero =>
    cases h
    rfl
  | succ count ih =>
    simp only [takeMarks, Option.bind_eq_bind, Option.bind_eq_some_iff, Prod.exists] at h
    obtain ⟨_, _, -, offsets, _, hrest, h⟩ := h
    cases h
    rw [length_cons, ih hrest]

theorem takeDeleted_length {legacy : Bool} {recordCount : Nat}
    (h : takeDeleted legacy recordCount buf = some (marks, rest)) : marks.length ≤ u32Max := by
  rw [takeDeleted] at h
  split at h
  · cases h
    exact Nat.zero_le _
  simp only [Option.bind_eq_bind, Option.bind_eq_some_iff, Prod.exists] at h
  obtain ⟨count, _, hcount, h⟩ := h
  split at h
  · cases h
  · rw [takeMarks_length h]
    exact Nat.le_of_lt_succ (takeLe_lt hcount)

theorem decodeFiles_sound {legacy : Bool} {count : Nat} {seen : List Nat}
    {files : List StoredFile} (h : decodeFiles legacy count seen buf = some (files, rest)) :
    (∀ st ∈ files, st.Sound ∧ 0 < st.file.fileId ∧ st.file.fileId < u32Max ∧ st.file.fileId ∉ seen ∧
      st.file.deletedCount ≤ u32Max) ∧
      (files.map fun st => st.file.fileId).Nodup := by
  induction count generalizing seen buf files with
  | zero =>
    cases h
    exact ⟨by simp, nodup_nil⟩
  | succ count ih =>
    simp only [decodeFiles, Option.bind_eq_bind, Option.bind_eq_some_iff, Prod.exists] at h
    obtain ⟨fileId, buf₁, hid, h⟩ := h
    split at h
    · cases h
    rename_i hnew
    simp only [Option.bind_eq_some_iff, Prod.exists] at h
    obtain ⟨len, buf₂, -, data, buf₃, -, records, -, marks, buf₄, hmarks, st, hst, files',
      buf₅, hfiles, h⟩ := h
    cases h
    obtain ⟨hsound, rfl, -, hcount⟩ := parseFile_sound hst
    obtain ⟨hall, hnodup⟩ := ih hfiles
    have hlt := takeLe_lt hid
    simp only [validFileId, Bool.or_eq_true, Bool.not_eq_true', Bool.and_eq_false_iff,
      decide_eq_false_iff_not, decide_eq_true_iff, not_or, not_not, ne_eq] at hnew
    obtain ⟨⟨h0, hmax⟩, hseen⟩ := hnew
    refine ⟨forall_mem_cons.mpr ⟨⟨hsound, Nat.pos_of_ne_zero h0, ?_, hseen, ?_⟩, ?_⟩, ?_⟩
    · exact lt_of_le_of_ne (Nat.le_of_lt_succ hlt) hmax
    · rw [hcount]
      exact takeDeleted_length hmarks
    · intro st' hst'
      obtain ⟨h1, h2, h3, h4, h5⟩ := hall st' hst'
      exact ⟨h1, h2, h3, fun hmem => h4 (.tail _ hmem), h5⟩
    · refine nodup_cons.mpr ⟨?_, hnodup⟩
      intro hmem
      obtain ⟨st', hst', hid'⟩ := mem_map.mp hmem
      exact (hall st' hst').2.2.2.1 (hid' ▸ (.head _))

theorem mem_sortFiles {f : BlobFile} : f ∈ sortFiles files ↔ f ∈ files :=
  (perm_insertionSort _ files).mem_iff

theorem sortFiles_increasing (h : (files.map BlobFile.fileId).Nodup) :
    (sortFiles files).Pairwise fun f g => f.fileId < g.fileId := by
  have hnodup : ((sortFiles files).map BlobFile.fileId).Nodup :=
    ((perm_insertionSort _ files).map BlobFile.fileId).nodup_iff.mpr h
  have hle : (sortFiles files).Pairwise fun f g => f.fileId ≤ g.fileId :=
    pairwise_insertionSort _ files
  refine (hle.and (pairwise_map.mp hnodup)).imp ?_
  rintro f g ⟨hfg, hne⟩
  exact lt_of_le_of_ne hfg hne

/-- The manager of files that were accepted. -/
theorem managerOfFiles_wf {files : List StoredFile} {threshold : Nat} {generationId : GenerationId}
    (hall : ∀ st ∈ files, st.Sound ∧ 0 < st.file.fileId ∧ st.file.fileId < u32Max)
    (hnodup : (files.map fun st => st.file.fileId).Nodup) :
    (managerOfFiles files threshold generationId).1.WF := by
  have hmem : ∀ f ∈ sortFiles (files.map StoredFile.file), ∃ st ∈ files, st.file = f := by
    intro f hf
    exact mem_map.mp (mem_sortFiles.mp hf)
  obtain ⟨hpos, hlt, hleast⟩ := BlobManager.nextFileIdAfter_spec (files.map StoredFile.file)
  refine ⟨sortFiles_increasing ?_, ?_, hpos, hleast _ (by decide) ?_, ?_, ?_⟩
  · rw [map_map]
    exact hnodup
  · intro f hf
    obtain ⟨st, hst, rfl⟩ := hmem f hf
    exact ⟨(hall st hst).2.1, hlt _ (mem_map_of_mem hst)⟩
  · intro f hf
    obtain ⟨st, hst, rfl⟩ := mem_map.mp hf
    exact (hall st hst).2.2
  · intro f hf
    obtain ⟨st, hst, rfl⟩ := hmem f hf
    exact (hall st hst).1.marks_sorted
  · intro f hf
    obtain ⟨st, hst, rfl⟩ := hmem f hf
    exact (hall st hst).1.marks

namespace BlobManager

/-- What the decoders promise of a manager. -/
structure Accepted (b : BlobManager) : Prop where
  wf : b.WF
  values : ∀ f ∈ b.files, ∀ r ∈ f.records, r.value.length ≤ u32Max
  counts : ∀ f ∈ b.files, f.deletedCount ≤ u32Max
  catalog : b.catalog = .default
  segmented : b.segmented = false

theorem accepted_of_decodeFiles {legacy : Bool} {count threshold : Nat} {rest rest' : Bytes}
    {files : List StoredFile} {generationId : GenerationId}
    (h : decodeFiles legacy count [] rest = some (files, rest')) :
    Accepted (managerOfFiles files threshold generationId).1 := by
  obtain ⟨hall, hnodup⟩ := decodeFiles_sound h
  refine ⟨managerOfFiles_wf (fun st hst => ⟨(hall st hst).1, (hall st hst).2.1,
    (hall st hst).2.2.1⟩) hnodup, ?_, ?_, rfl, rfl⟩
  all_goals
    intro f hf
    obtain ⟨st, hst, rfl⟩ := mem_map.mp (mem_sortFiles.mp hf)
  · exact (hall st hst).1.values
  · exact (hall st hst).2.2.2.2

variable {b : BlobManager} {prefixes : KeyPrefixes}

theorem fromVersionedBytes_accepted (h : fromVersionedBytes buf = some (b, prefixes)) :
    b.Accepted := by
  rw [fromVersionedBytes] at h
  split at h
  · cases h
  split at h
  · cases h
  split at h
  · cases h
  simp only [Option.bind_eq_bind, Option.bind_eq_some_iff, Prod.exists] at h
  obtain ⟨_, _, -, _, _, -, _, _, -, _, _, -, _, _, -, h⟩ := h
  split at h
  · cases h
  simp only [Option.bind_eq_some_iff, Prod.exists] at h
  obtain ⟨files, rest, hdec, h⟩ := h
  split at h
  · cases h
  exact (Prod.mk.inj (Option.some.inj h)).1 ▸ accepted_of_decodeFiles hdec

/-- Whatever image is accepted, the manager is well formed. -/
theorem fromBytes_accepted (h : fromBytes buf = some (b, prefixes)) : b.Accepted := by
  rw [fromBytes] at h
  split at h
  · exact fromVersionedBytes_accepted h
  simp only [fromLegacyBytes, Option.bind_eq_bind, Option.bind_eq_some_iff, Prod.exists] at h
  obtain ⟨_, _, -, h⟩ := h
  split at h
  · cases h
  simp only [Option.bind_eq_some_iff, Prod.exists] at h
  obtain ⟨files, rest, hdec, h⟩ := h
  split at h
  · cases h
  exact (Prod.mk.inj (Option.some.inj h)).1 ▸ accepted_of_decodeFiles hdec

end BlobManager

end SeerDb
