/-
# `SeerDb.Blob.WriteSize` — the bytes of the next segmented publication

`segment_write_size` and its projection in `blob/segment_catalog.rs`.  The bytes are
those of the catalog or of a delta frame, and the record suffixes behind the frontier.
Written as a sum over file ids, an append or a deletion changes one summand.

The projection adds what the record and a new file cost, but not the frame entry of a
file that has none pending: a deletion, or an append without a new file, may need one.
-/
import Mathlib.Algebra.BigOperators.Group.Finset.Basic
import SeerDb.Blob.DirectRead

namespace SeerDb

open Lib List

/-! ## The sizes -/

/-- A sum that `checked_add` accepts. -/
def fitsU64 (n : Nat) : Option Nat := if n ≤ u64Max then some n else none

/-- `encode_segment_catalog(…).len()`. -/
def SegmentCatalog.size (c : SegmentCatalog) : Nat :=
  44 + (c.entries.map fun e => 16 + 8 * e.deletedOffsets.length).sum

/-- The counts that `encode_segment_catalog_delta` checks. -/
def SegmentCatalogDelta.countsFit (d : SegmentCatalogDelta) : Bool :=
  decide (d.entries.length ≤ u32Max) && d.entries.all fun
    | .upsert _ _ deletedOffsets => deletedOffsets.length ≤ u32Max
    | .remove _ => true

namespace BlobManager

def canMarkDeleted (b : BlobManager) (pointer : BlobPointer) : Bool :=
  (b.fileById pointer.fileId).any fun f => f.canMarkDeleted pointer.offset

/-- The next publication writes a whole catalog. -/
def writesCatalog (b : BlobManager) : Bool :=
  !b.catalog.catalogPersisted || b.catalogNeedsConsolidation

def addSuffixes (b : BlobManager) : List BlobFile → Nat → Option Nat
  | [], size => some size
  | f :: files, size => do
    let current ← fitsU64 f.serializedSize
    let persisted := b.persistedSegmentLength f.fileId
    if current < persisted then none
    else addSuffixes b files (← fitsU64 (size + (current - persisted)))

/-- The length of the catalog or of the frame. -/
def frameWriteSize (b : BlobManager) : Option Nat :=
  if b.writesCatalog then fitsU64 b.toSegmentCatalog.size
  else if b.files.all (fun f => f.serializedSize ≤ u64Max) && b.toSegmentCatalogDelta.countsFit then
    fitsU64 b.toSegmentCatalogDelta.size
  else none

def segmentWriteSize (b : BlobManager) : Option Nat := b.frameWriteSize.bind (b.addSuffixes b.files)

/-- The deletion offset, when there is something to delete. -/
def addRetired (b : BlobManager) (retired : Option BlobPointer) (size : Nat) : Option Nat :=
  if retired.any b.canMarkDeleted then fitsU64 (size + 8) else some size

/-- The entry of a new file and the record. -/
def addAppended (b : BlobManager) (appendedValueLen : Option Nat) (size : Nat) : Option Nat :=
  match appendedValueLen with
  | none => some size
  | some valueLen =>
    (if b.opensFile valueLen then fitsU64 (size + if b.writesCatalog then 16 else 20)
      else some size).bind fun size => fitsU64 (size + (blobOverheadSize + valueLen))

def projectedSegmentWriteSize (b : BlobManager) (retired : Option BlobPointer)
    (appendedValueLen : Option Nat) : Option Nat :=
  (b.segmentWriteSize.bind (b.addRetired retired)).bind (b.addAppended appendedValueLen)

/-- The append of a mutation. -/
def appended (b : BlobManager) : Option Bytes → Option BlobManager
  | none => some b
  | some value => match b.append value with
    | .error _ => none
    | .ok (_, b') => some b'

/-- The deletion from `b₁` of a record that was in `b`. -/
def retire (b : BlobManager) (retired : Option BlobPointer)
    (b₁ : BlobManager) : Option BlobManager :=
  match retired with
  | none => some b₁
  | some pointer => if b.canMarkDeleted pointer then b₁.markDeleted pointer else some b₁

/-- The append, then the deletion. -/
def mutated (b : BlobManager) (retired : Option BlobPointer)
    (value : Option Bytes) : Option BlobManager :=
  (b.appended value).bind (b.retire retired)

/-! ## One summand for each file id -/

/-- The catalog's or the frame's bytes for an id. -/
def entryBytes (b : BlobManager) (id : Nat) : Nat :=
  if b.writesCatalog then (b.fileById id).elim 0 fun f => 16 + 8 * f.deletedCount
  else (b.deltaEntry id).elim 0 SegmentCatalogDeltaEntry.size

def suffixBytes (b : BlobManager) (id : Nat) : Nat :=
  (b.fileById id).elim 0 fun f => f.serializedSize - b.persistedSegmentLength id

def bytesFor (b : BlobManager) (id : Nat) : Nat :=
  if id ∈ b.deltaFileIds then b.entryBytes id + b.suffixBytes id else 0

variable {b b' : BlobManager} {p : BlobPointer} {value : Bytes}

theorem fitsU64_eq {n m : Nat} (h : fitsU64 n = some m) : m = n := by
  rw [fitsU64] at h
  split at h
  · exact (Option.some.inj h).symm
  · cases h

theorem addSuffixes_eq : ∀ {files : List BlobFile} {size total : Nat},
    b.addSuffixes files size = some total →
    total = size + (files.map fun f => f.serializedSize - b.persistedSegmentLength f.fileId).sum
  | [], size, total, h => by simpa [addSuffixes] using h.symm
  | f :: files, size, total, h => by
    simp only [addSuffixes, Option.bind_eq_bind, Option.bind_eq_some_iff] at h
    obtain ⟨current, hc, h⟩ := h
    split at h
    · cases h
    · obtain ⟨next, hn, h⟩ := Option.bind_eq_some_iff.mp h
      rw [addSuffixes_eq h, fitsU64_eq hn, fitsU64_eq hc, map_cons, sum_cons]
      omega

/-- A sum over the files as one over the ids. -/
theorem WF.sum_files (h : b.WF) (weight : BlobFile → Nat) :
    (b.files.map weight).sum = ∑ id ∈ b.deltaFileIds.toFinset, (b.fileById id).elim 0 weight := by
  have hids : (b.files.map BlobFile.fileId).Nodup := pairwise_map.mpr (h.ids.imp fun hlt => hlt.ne)
  have hfiles : b.files.map weight
      = (b.files.map BlobFile.fileId).map fun id => (b.fileById id).elim 0 weight := by
    rw [map_map]
    exact map_congr_left fun f hf => by simp [h.fileById hf]
  rw [hfiles, ← sum_toFinset _ hids]
  refine Finset.sum_subset (fun id hid => ?_) fun id _ hid => ?_
  · rw [mem_toFinset] at hid ⊢
    exact mem_deltaFileIds.mpr (.inl hid)
  · rw [mem_toFinset] at hid
    cases hf : b.fileById id with
    | none => rfl
    | some f => exact absurd (mem_map.mpr ⟨f, fileById_mem hf⟩) hid

theorem sum_filterMap {entry : Nat → Option SegmentCatalogDeltaEntry} : ∀ ids : List Nat,
    ((ids.filterMap entry).map SegmentCatalogDeltaEntry.size).sum
      = (ids.map fun id => (entry id).elim 0 SegmentCatalogDeltaEntry.size).sum
  | [] => rfl
  | id :: ids => by
    rw [filterMap_cons, map_cons, sum_cons, ← sum_filterMap ids]
    cases entry id with
    | none => exact (Nat.zero_add _).symm
    | some e => rfl

theorem WF.segmentWriteSize_eq (h : b.WF) {size : Nat} (hs : b.segmentWriteSize = some size) :
    size = 44 + ∑ id ∈ b.deltaFileIds.toFinset, b.bytesFor id := by
  rw [segmentWriteSize, Option.bind_eq_some_iff] at hs
  obtain ⟨entries, hentries, hs⟩ := hs
  have hbytes : ∑ id ∈ b.deltaFileIds.toFinset, b.bytesFor id
      = ∑ id ∈ b.deltaFileIds.toFinset, (b.entryBytes id + b.suffixBytes id) :=
    Finset.sum_congr rfl fun id hid => if_pos (mem_toFinset.mp hid)
  have hsuffixes : (b.files.map fun f => f.serializedSize - b.persistedSegmentLength f.fileId).sum
      = ∑ id ∈ b.deltaFileIds.toFinset, b.suffixBytes id := by
    rw [h.sum_files]
    refine Finset.sum_congr rfl fun id _ => ?_
    rw [suffixBytes]
    cases hf : b.fileById id with
    | none => rfl
    | some f => rw [Option.elim_some, Option.elim_some, (fileById_mem hf).2]
  have hentry : entries = 44 + ∑ id ∈ b.deltaFileIds.toFinset, b.entryBytes id := by
    rw [frameWriteSize] at hentries
    split at hentries
    · rename_i hcatalog
      rw [fitsU64_eq hentries, SegmentCatalog.size, toSegmentCatalog, map_map]
      refine congrArg _ ((h.sum_files _).trans (Finset.sum_congr rfl fun id _ => ?_))
      rw [entryBytes, if_pos hcatalog]
      rfl
    rename_i hcatalog
    split at hentries
    · have hnodup : b.deltaFileIds.Nodup := nodup_dedup _
      rw [fitsU64_eq hentries, SegmentCatalogDelta.size, toSegmentCatalogDelta, sum_filterMap,
        ← sum_toFinset _ hnodup]
      refine congrArg _ (Finset.sum_congr rfl fun id _ => ?_)
      rw [entryBytes, if_neg hcatalog]
    · cases hentries
  rw [addSuffixes_eq hs, hentry, hsuffixes, hbytes, Finset.sum_add_distrib, Nat.add_assoc]

/-- Only the summand of `x` differs. -/
theorem sum_bytes_at {x : Nat} (h : ∀ id, id ≠ x → b'.bytesFor id = b.bytesFor id) :
    ∑ id ∈ b'.deltaFileIds.toFinset, b'.bytesFor id + b.bytesFor x
      = ∑ id ∈ b.deltaFileIds.toFinset, b.bytesFor id + b'.bytesFor x := by
  have hext : ∀ (c : BlobManager) (ids : Finset Nat), c.deltaFileIds.toFinset ⊆ ids →
      ∑ id ∈ c.deltaFileIds.toFinset, c.bytesFor id = ∑ id ∈ ids, c.bytesFor id := by
    intro c ids hsub
    refine Finset.sum_subset hsub fun id _ hid => if_neg fun hmem => hid (mem_toFinset.mpr hmem)
  set ids := insert x (b.deltaFileIds.toFinset ∪ b'.deltaFileIds.toFinset)
  have hx : x ∈ ids := Finset.mem_insert_self x _
  have hrest : ∑ id ∈ ids.erase x, b'.bytesFor id = ∑ id ∈ ids.erase x, b.bytesFor id :=
    Finset.sum_congr rfl fun id hid => h id (Finset.ne_of_mem_erase hid)
  rw [hext b' ids (Finset.subset_union_right.trans (Finset.subset_insert x _)),
    hext b ids (Finset.subset_union_left.trans (Finset.subset_insert x _)),
    ← Finset.add_sum_erase ids b'.bytesFor hx, ← Finset.add_sum_erase ids b.bytesFor hx, hrest]
  omega

theorem mem_deltaFileIds_iff {id : Nat} :
    id ∈ b.deltaFileIds ↔ b.fileById id ≠ none ∨ get id b.catalog.persistedLengths ≠ none := by
  rw [mem_deltaFileIds]
  refine or_congr ⟨?_, ?_⟩ ?_
  · intro h hnone
    obtain ⟨f, hf, rfl⟩ := mem_map.mp h
    exact absurd (List.find?_eq_none.mp hnone f hf) (by simp)
  · intro h
    obtain ⟨f, hf⟩ := Option.ne_none_iff_exists'.mp h
    exact mem_map.mpr ⟨f, fileById_mem hf⟩
  · simp [get_eq_none_iff]

/-- An id whose file and frontier stay as they are. -/
structure SameAt (b b' : BlobManager) (id : Nat) : Prop where
  file : b'.fileById id = b.fileById id
  length : get id b'.catalog.persistedLengths = get id b.catalog.persistedLengths
  catalog : b'.catalog = { b.catalog with persistedLengths := b'.catalog.persistedLengths }

theorem writesCatalog_congr (h : b'.catalog =
    { b.catalog with persistedLengths := b'.catalog.persistedLengths }) :
    b'.writesCatalog = b.writesCatalog := by
  rw [writesCatalog, writesCatalog, catalogNeedsConsolidation, catalogNeedsConsolidation, h]

theorem SameAt.deltaEntry {id : Nat} (h : SameAt b b' id) : b'.deltaEntry id = b.deltaEntry id := by
  rw [BlobManager.deltaEntry, BlobManager.deltaEntry, h.file, h.length,
    show b'.catalog.persistedDeletedOffsets = b.catalog.persistedDeletedOffsets by rw [h.catalog]]

theorem SameAt.bytesFor {id : Nat} (h : SameAt b b' id) : b'.bytesFor id = b.bytesFor id := by
  simp only [BlobManager.bytesFor, entryBytes, suffixBytes, persistedSegmentLength,
    mem_deltaFileIds_iff, writesCatalog_congr h.catalog, h.deltaEntry, h.file, h.length]

/-! ## One append, one deletion -/

theorem append_cases (h : b.append value = .ok (p, b')) :
    (b.opensFile value.length = false ∧ ∃ pre f, b.files = pre ++ [f] ∧ p.fileId = f.fileId ∧
      b' = { b with files := pre ++ [f.append value] }) ∨
    b.opensFile value.length = true ∧ p.fileId = b.nextFileId ∧
      ∃ b₁, b.beginCompactionFile = some b₁ ∧
      b' = { b₁ with files := b.files ++ [(BlobFile.new b.nextFileId).append value] } := by
  obtain ⟨b₁, pre, f, ⟨rfl, hopen⟩ | ⟨hb, hopen⟩, hfiles, rfl, rfl⟩ := append_inv h
  · exact .inl ⟨hopen, pre, f, hfiles, rfl, rfl⟩
  · rw [begin_files hb] at hfiles
    obtain ⟨rfl, hf⟩ := append_inj' hfiles rfl
    cases hf
    exact .inr ⟨hopen, rfl, b₁, hb, rfl⟩

/-- All summands. -/
def bytesTotal (b : BlobManager) : Nat := ∑ id ∈ b.deltaFileIds.toFinset, b.bytesFor id

/-- A step from `b` to `b'` needs the bytes that were `added` for it, at most eight less, and,
unless it is `covered`, those of one frame entry. -/
def Costs (b b' : BlobManager) (added : Nat) (covered : Prop) : Prop := ∃ extra slack,
  b'.bytesTotal + slack = b.bytesTotal + added + extra ∧ slack ≤ 8 ∧
    (covered → extra = 0) ∧ (¬ covered → extra = 20)

/-- The marks that a frame would add to the frontier. -/
def newMarks (b : BlobManager) (f : BlobFile) : List Nat :=
  f.deletedOffsets.filter fun o => o ∉ (get f.fileId b.catalog.persistedDeletedOffsets).getD []

theorem deltaEntry_file {id : Nat} {f : BlobFile} (hf : b.fileById id = some f) : b.deltaEntry id =
    if get id b.catalog.persistedLengths ≠ some f.serializedSize ∨
      (get id b.catalog.persistedDeletedOffsets).isNone ∨ b.newMarks f ≠ [] then
      some (.upsert id f.serializedSize (b.newMarks f)) else none := by
  obtain ⟨-, rfl⟩ := fileById_mem hf
  rw [deltaEntry, hf]
  rfl

theorem deltaEntry_ne_none_iff {id : Nat} {f : BlobFile} (hf : b.fileById id = some f) :
    b.deltaEntry id ≠ none ↔ (get id b.catalog.persistedLengths ≠ some f.serializedSize ∨
      (get id b.catalog.persistedDeletedOffsets).isNone) ∨ 0 < (b.newMarks f).length := by
  rw [deltaEntry_file hf, ite_ne_right_iff, length_pos_iff, or_assoc]
  exact and_iff_left (Option.some_ne_none _)

/-- A file without an entry has no new marks. -/
theorem deltaEntry_size {id : Nat} {f : BlobFile} (hf : b.fileById id = some f) :
    (b.deltaEntry id = none ∧ b.newMarks f = []) ∨
      ∃ e, b.deltaEntry id = some e ∧ e.size = 20 + 8 * (b.newMarks f).length := by
  rw [deltaEntry_file hf]
  split
  · exact .inr ⟨_, rfl, rfl⟩
  · rename_i hno
    exact .inl ⟨rfl, by simpa using fun hne => hno (.inr (.inr hne))⟩

theorem bytesFor_file {id : Nat} {f : BlobFile} (hf : b.fileById id = some f) :
    b.bytesFor id = (if b.writesCatalog then 16 + 8 * f.deletedCount
      else (b.deltaEntry id).elim 0 SegmentCatalogDeltaEntry.size)
      + (f.serializedSize - b.persistedSegmentLength id) := by
  rw [bytesFor, if_pos (mem_deltaFileIds_iff.mpr (.inl (by simp [hf]))),
    entryBytes, suffixBytes, hf]
  rfl

theorem size_appended (f : BlobFile) (value : Bytes) :
    (f.append value).serializedSize = f.serializedSize + (blobOverheadSize + value.length) := by
  simp [BlobFile.serializedSize, BlobFile.append, streamSize, BlobRecord.serializedSize]

theorem Costs.congr {added added' : Nat} {covered covered' : Prop} (h : Costs b b' added covered)
    (ha : added = added') (hc : covered ↔ covered') : Costs b b' added' covered' := by
  rwa [← ha, ← hc]

/-- One file grows, and gets a mark or none, which may be on the frontier. -/
theorem file_costs {id grow marks new : Nat} {f f' : BlobFile} (hf : b.fileById id = some f)
    (hf' : b'.fileById id = some f') (hsame : ∀ i, i ≠ id → SameAt b b' i)
    (hcat : b'.catalog = b.catalog)
    (hle : b.persistedSegmentLength id ≤ f.serializedSize ∨ grow = 0)
    (hsize : f'.serializedSize = f.serializedSize + grow)
    (hcount : f'.deletedCount = f.deletedCount + marks)
    (hnew : (b'.newMarks f').length = (b.newMarks f).length + new)
    (hmarks : new ≤ marks) (hone : marks ≤ 1) (hkeep : b.deltaEntry id ≠ none →
      b'.deltaEntry id ≠ none) :
    Costs b b' (grow + 8 * marks) (b.writesCatalog ∨ b.deltaEntry id ≠ none ∨
      b'.deltaEntry id = none) := by
  have hsum : b'.bytesTotal + b.bytesFor id = b.bytesTotal + b'.bytesFor id :=
    sum_bytes_at fun i hi => (hsame i hi).bytesFor
  have hmode : b'.writesCatalog = b.writesCatalog := writesCatalog_congr (by rw [hcat])
  rw [bytesFor_file hf, bytesFor_file hf', hsize, hmode, hcount, show b'.persistedSegmentLength id =
      b.persistedSegmentLength id by rw [persistedSegmentLength, hcat]; rfl] at hsum
  cases hcatalog : b.writesCatalog with
  | true =>
    refine ⟨0, 0, ?_, Nat.zero_le _, fun _ => rfl, fun hno => absurd (.inl rfl) hno⟩
    simp only [hcatalog, if_true] at hsum
    omega
  | false =>
    simp only [hcatalog, Bool.false_eq_true, if_false] at hsum
    rcases deltaEntry_size hf' with ⟨hnone', hnil'⟩ | ⟨e', he', hsize'⟩
    · have hnone : b.deltaEntry id = none := by_contra fun hne => hkeep hne hnone'
      refine ⟨0, 8 * marks, ?_, by omega, fun _ => rfl, fun hno => absurd (.inr (.inr hnone')) hno⟩
      rw [hnone, hnone'] at hsum
      omega
    rw [he', Option.elim_some, hsize', hnew] at hsum
    rcases deltaEntry_size hf with ⟨hnone, hnil⟩ | ⟨e, he, hsize⟩
    · refine ⟨20, 8 * (marks - new), ?_, by omega, fun h => by simp [hnone, he'] at h, fun _ => rfl⟩
      rw [hnone, hnil, Option.elim_none, length_nil] at hsum
      omega
    · refine ⟨0, 8 * (marks - new),
        ?_, by omega, fun _ => rfl, fun hno => absurd (.inr (.inl (by simp [he]))) hno⟩
      rw [he, Option.elim_some, hsize] at hsum
      omega

section Old

variable {pre : List BlobFile} {f : BlobFile} (hwf : b.WF) (hfiles : b.files = pre ++ [f])

include hwf hfiles

theorem fileById_appended (value : Bytes) :
    fileById { b with files := pre ++ [f.append value] } f.fileId = some (f.append value) := by
  have hmem : f ∈ b.files := by simp [hfiles]
  have hwf' : WF { b with files := pre ++ [f.append value] } :=
    hwf.replaceLast hfiles rfl (hwf.marks_sorted f hmem) fun o ho =>
      BlobFile.hasRecordAt_append (hwf.marks f hmem o ho) value
  exact @WF.fileById _ hwf' (f.append value) (by simp)

omit hwf in
theorem sameAt_appended (value : Bytes) {id : Nat} (hid : id ≠ f.fileId) :
    SameAt b { b with files := pre ++ [f.append value] } id := by
  refine ⟨?_, rfl, rfl⟩
  simp [fileById, hfiles, List.find?_append, hid.symm, BlobFile.append]

/-- A file that is longer than its frontier is named by the frame. -/
theorem deltaEntry_appended (hle : b.persistedSegmentLength f.fileId ≤ f.serializedSize)
    (value : Bytes) :
    deltaEntry { b with files := pre ++ [f.append value] } f.fileId
      = some (.upsert f.fileId (f.append value).serializedSize (b.newMarks f)) := by
  refine (deltaEntry_file (fileById_appended hwf hfiles value)).trans (if_pos (.inl fun hlen => ?_))
  have hend : b.persistedSegmentLength f.fileId = (f.append value).serializedSize := by
    rw [persistedSegmentLength, show get f.fileId b.catalog.persistedLengths = _ from hlen]
    rfl
  have hpos : 0 < blobOverheadSize := by decide
  have hsize := size_appended f value
  omega

theorem append_costs_old (hle : b.persistedSegmentLength f.fileId ≤ f.serializedSize)
    (value : Bytes) :
    Costs b { b with files := pre ++ [f.append value] } (blobOverheadSize + value.length)
      (b.writesCatalog ∨ b.deltaEntry f.fileId ≠ none) := by
  have hentry := deltaEntry_appended hwf hfiles hle value
  refine (file_costs (hwf.fileById (by simp [hfiles])) (fileById_appended hwf hfiles value)
    (fun id hid => sameAt_appended hfiles value hid) rfl (.inl hle)
    (size_appended f value) rfl rfl le_rfl (Nat.zero_le _)
    fun _ => by rw [hentry]; exact Option.some_ne_none _).congr rfl ?_
  simp [hentry]

end Old

section New

variable {b₁ : BlobManager} (hwf : b.WF) (hb : b.beginCompactionFile = some b₁)
  (hsorted : Sorted b.catalog.persistedLengths)

include hb hsorted

theorem get_begun (hunused : b.persistedSegmentLength b.nextFileId = 0) (id : Nat) :
    get id b₁.catalog.persistedLengths
      = if id = b.nextFileId then some 0 else get id b.catalog.persistedLengths := by
  rw [beginCompactionFile] at hb
  split at hb
  · cases hb
  cases hb
  dsimp only
  split
  · rename_i n hn
    rw [persistedSegmentLength, hn] at hunused
    split
    · rename_i hid
      rw [hid, hn, ← hunused]
      rfl
    · rfl
  · exact get_upsert hsorted _ _ _

theorem sameAt_begun (hunused : b.persistedSegmentLength b.nextFileId = 0)
    (value : Bytes) {id : Nat} (hid : id ≠ b.nextFileId) :
    SameAt b { b₁ with files := b.files ++ [(BlobFile.new b.nextFileId).append value] } id := by
  refine ⟨?_, (get_begun hb hsorted hunused id).trans (if_neg hid),
    (beginCompactionFile_extends hb).catalog⟩
  simp [fileById, List.find?_append, BlobFile.new, BlobFile.append, hid.symm]

include hwf

theorem append_costs_new (hunused : b.persistedSegmentLength b.nextFileId = 0) (value : Bytes) :
    Costs b { b₁ with files := b.files ++ [(BlobFile.new b.nextFileId).append value] }
      ((if b.writesCatalog then 16 else 20) + (blobOverheadSize + value.length)) True := by
  have hsame := fun id => @sameAt_begun b b₁ hb hsorted hunused value id
  have hnext := (get_begun hb hsorted hunused b.nextFileId).trans (if_pos rfl)
  have hcatalog : writesCatalog { b₁ with
      files := b.files ++ [(BlobFile.new b.nextFileId).append value] }
      = b.writesCatalog := writesCatalog_congr (beginCompactionFile_extends hb).catalog
  set b' : BlobManager := { b₁ with files := b.files ++ [(BlobFile.new b.nextFileId).append value] }
  have hnone : b.fileById b.nextFileId = none := by
    refine List.find?_eq_none.mpr fun f hf => ?_
    simpa using (hwf.valid f hf).2.ne
  have hf' : b'.fileById b.nextFileId = some ((BlobFile.new b.nextFileId).append value) := by
    rw [fileById, List.find?_append, show b.files.find? _ = none from hnone]
    simp [BlobFile.new, BlobFile.append]
  have hsum : b'.bytesTotal + b.bytesFor b.nextFileId = b.bytesTotal + b'.bytesFor b.nextFileId :=
    sum_bytes_at fun id hid => (hsame id hid).bytesFor
  have hsize : ((BlobFile.new b.nextFileId).append value).serializedSize =
    blobOverheadSize + value.length :=
    (size_appended _ value).trans (Nat.zero_add _)
  have hold : b.bytesFor b.nextFileId ≤ if b.writesCatalog then 0 else 8 := by
    rw [bytesFor, entryBytes, suffixBytes, deltaEntry, hnone]
    split
    · split <;> exact le_rfl
    · exact Nat.zero_le _
  have hentry' : b'.deltaEntry b.nextFileId = some (.upsert b.nextFileId _ []) :=
    (deltaEntry_file hf').trans (if_pos (.inl (by
      rw [show get b.nextFileId b'.catalog.persistedLengths = some 0 from hnext, hsize]
      simp [blobOverheadSize]
      omega)))
  rw [bytesFor_file hf', hcatalog, hentry', hsize, persistedSegmentLength,
    show get b.nextFileId b'.catalog.persistedLengths = some 0 from hnext] at hsum
  refine ⟨0, b.bytesFor b.nextFileId, ?_, hold.trans (by split <;> omega), fun _ => rfl,
    fun hno => absurd trivial hno⟩
  split at hsum
  · rename_i hc
    rw [if_pos hc] at hold ⊢
    exact hsum.trans (by simp [BlobFile.deletedCount, BlobFile.new, BlobFile.append])
  · rename_i hc
    rw [if_neg hc]
    exact hsum.trans (by simp [SegmentCatalogDeltaEntry.size])

end New

theorem mark_costs (hm : b.markDeleted p = some b') :
    Costs b b' 8 (b.writesCatalog ∨
      p.offset ∈ (get p.fileId b.catalog.persistedDeletedOffsets).getD [] ∨
      b.deltaEntry p.fileId ≠ none) := by
  obtain ⟨f, hf, -, rfl⟩ := markDeleted_inv hm
  obtain ⟨hmem, hid⟩ := fileById_mem hf
  set g : BlobFile := { f with deletedOffsets := f.deletedOffsets.orderedInsert (· ≤ ·) p.offset }
  have hperm : g.deletedOffsets.Perm (p.offset :: f.deletedOffsets) := perm_orderedInsert _ _ _
  have hf' : (b.setFile g).fileById p.fileId = some g := by
    rw [fileById_setFile, hf]
    simp [g]
  have hsame : ∀ id, id ≠ p.fileId → SameAt b (b.setFile g) id := by
    refine fun id hne => ⟨?_, rfl, rfl⟩
    rw [fileById_setFile]
    cases hx : b.fileById id with
    | none => rfl
    | some x => simp [g, (fileById_mem hx).2, hid, hne]
  have hnew : ((b.setFile g).newMarks g).length = (b.newMarks f).length
      + if p.offset ∈ (get p.fileId b.catalog.persistedDeletedOffsets).getD [] then 0 else 1 := by
    have hfilter := (hperm.filter fun o => o ∉ (get p.fileId b.catalog.persistedDeletedOffsets).getD
      []).length_eq
    rw [filter_cons] at hfilter
    rw [newMarks, newMarks, show g.fileId = f.fileId from rfl, hid]
    refine hfilter.trans ?_
    split <;> split <;> simp_all
  have hentry := deltaEntry_ne_none_iff hf
  have hentry' := deltaEntry_ne_none_iff hf'
  rw [hnew, show (b.setFile g).catalog = b.catalog from rfl, show g.serializedSize =
    f.serializedSize from rfl] at hentry'
  refine (file_costs hf hf' hsame rfl (.inr rfl) rfl hperm.length_eq hnew (by split <;> simp)
    le_rfl ?_).congr rfl ?_
  · rw [hentry, hentry']
    exact Or.imp_right (Nat.add_pos_left · _)
  · by_cases hold : p.offset ∈ (get p.fileId b.catalog.persistedDeletedOffsets).getD []
    · rw [if_pos hold, Nat.add_zero, ← hentry] at hentry'
      have heither : b.deltaEntry p.fileId ≠ none ∨ (b.setFile g).deltaEntry p.fileId = none :=
        or_iff_not_imp_left.mpr fun hno => not_not.mp (mt hentry'.mp hno)
      simp only [hold, heither, true_or]
    · have hsome : (b.setFile g).deltaEntry p.fileId ≠ none :=
        hentry'.mpr (.inr (by rw [if_neg hold]; exact Nat.succ_pos _))
      simp only [hold, hsome, or_false, false_or]

/-! ## The projection -/

/-- What is added for the append. -/
def addedFor (b : BlobManager) : Option Nat → Nat
  | none => 0
  | some valueLen => (if b.opensFile valueLen then if b.writesCatalog then 16 else 20 else 0) +
      (blobOverheadSize + valueLen)

theorem WF.projected_eq (hwf : b.WF) {retired : Option BlobPointer}
    {valueLen : Option Nat} {size : Nat}
    (h : b.projectedSegmentWriteSize retired valueLen = some size) :
    size = 44 + b.bytesTotal + (if retired.any b.canMarkDeleted then 8 else 0) +
      b.addedFor valueLen := by
  obtain ⟨retiredSize, hr, ha⟩ := Option.bind_eq_some_iff.mp h
  obtain ⟨current, hc, hr⟩ := Option.bind_eq_some_iff.mp hr
  have hsize : retiredSize = current + if retired.any b.canMarkDeleted then 8 else 0 := by
    rw [addRetired] at hr
    split at hr
    · rename_i hcan
      rw [fitsU64_eq hr, if_pos hcan]
    · rename_i hcan
      rw [if_neg hcan]
      exact (Option.some.inj hr).symm
  rw [bytesTotal, ← hwf.segmentWriteSize_eq hc, ← hsize]
  cases valueLen with
  | none => exact (Option.some.inj ha).symm
  | some valueLen =>
    obtain ⟨opened, ho, ha⟩ := Option.bind_eq_some_iff.mp ha
    rw [fitsU64_eq ha, addedFor, ← Nat.add_assoc retiredSize, Nat.add_right_cancel_iff]
    split at ho
    · rename_i hopen
      rw [fitsU64_eq ho, if_pos hopen]
    · rename_i hopen
      rw [if_neg hopen]
      exact (Option.some.inj ho).symm

/-- The pending frame has an entry for the file that takes the append, unless that is a new one. -/
def AppendCovered (b : BlobManager) (value : Option Bytes) : Prop := ∀ v, value = some v →
  b.opensFile v.length = false → ∀ f, b.files.getLast? = some f → b.deltaEntry f.fileId ≠ none

/-- And the frame of `b₁` for the file of the retired record, unless its mark is on the frontier. -/
def RetireCovered (b b₁ : BlobManager) (retired : Option BlobPointer) : Prop :=
  ∀ p, retired = some p →
  b.canMarkDeleted p = true → p.offset ∉ (get p.fileId b₁.catalog.persistedDeletedOffsets).getD [] →
    b₁.deltaEntry p.fileId ≠ none

theorem WF.retire {b₁ : BlobManager} {retired : Option BlobPointer} (hwf : b₁.WF)
    (h : b.retire retired b₁ = some b') :
      b'.WF ∧ Costs b₁ b' (if retired.any b.canMarkDeleted then 8 else 0)
      (b₁.writesCatalog ∨ RetireCovered b b₁ retired) := by
  by_cases hcan : retired.any b.canMarkDeleted
  · cases retired with
    | none => cases hcan
    | some p =>
      rw [BlobManager.retire, if_pos (show b.canMarkDeleted p = true from hcan)] at h
      have hcovered : RetireCovered b b₁ (some p) ↔
          p.offset ∈ (get p.fileId b₁.catalog.persistedDeletedOffsets).getD [] ∨
            b₁.deltaEntry p.fileId ≠ none :=
        ⟨fun hc => or_iff_not_imp_left.mpr (hc p rfl hcan), fun hc p' hp' _ hnew => by
          cases hp'
          exact hc.resolve_left hnew⟩
      rw [if_pos hcan, hcovered]
      exact ⟨(hwf.marked h).wf, mark_costs h⟩
  · have hsame : b₁ = b' := by
      cases retired with
      | none => exact Option.some.inj h
      | some p =>
        rw [BlobManager.retire, if_neg (show ¬ b.canMarkDeleted p = true from hcan)] at h
        exact Option.some.inj h
    subst hsame
    rw [if_neg hcan]
    refine ⟨hwf, 0, 0, rfl, Nat.zero_le _, fun _ => rfl, fun hno => absurd (.inr ?_) hno⟩
    rintro p rfl hp
    exact absurd hp hcan

end BlobManager

namespace BlobStore

open BlobManager

variable {s : BlobStore} {b₁ : BlobManager} {value : Option Bytes}

/-- The append leaves the frontier and the entries of other files, and gives its own file one. -/
theorem Sound.appended (h : s.Sound) (ha : s.blobs.appended value = some b₁) :
    b₁.WF ∧ b₁.catalog = { s.blobs.catalog with persistedLengths := b₁.catalog.persistedLengths } ∧
    Costs s.blobs b₁ (s.blobs.addedFor (value.map List.length))
      (s.blobs.writesCatalog ∨ s.blobs.AppendCovered value) ∧
    ∀ id, s.blobs.fileById id ≠ none → b₁.deltaEntry id = s.blobs.deltaEntry id ∨
      (b₁.deltaEntry id ≠ none ∧ (s.blobs.AppendCovered value → s.blobs.deltaEntry id ≠ none)) := by
  cases value with
  | none =>
    cases ha
    exact ⟨h.wf, rfl, ⟨0, 0, rfl, Nat.zero_le _, fun _ => rfl, fun hno => absurd (.inr nofun) hno⟩,
      fun _ _ => .inl rfl⟩
  | some v =>
    rw [BlobManager.appended] at ha
    split at ha
    · cases ha
    rename_i q b₂ happ
    cases ha
    refine ⟨(h.wf.append happ).wf, (append_extends happ).catalog, ?_⟩
    rcases append_cases happ with ⟨hopen, pre, f, hfiles, -, rfl⟩ | ⟨hopen, -, b₀, hb₀, rfl⟩
    · have hlast : s.blobs.files.getLast? = some f := by simp [hfiles]
      have hle := (h.backs f (by simp [hfiles])).le
      have hcovered : s.blobs.AppendCovered (some v) ↔ s.blobs.deltaEntry f.fileId ≠ none := by
        refine ⟨fun hc => hc v rfl hopen f hlast, fun hne _ _ _ f' hf' => ?_⟩
        obtain rfl := Option.some.inj (hlast.symm.trans hf')
        exact hne
      rw [hcovered, Option.map_some, addedFor, hopen]
      refine ⟨by simpa using append_costs_old h.wf hfiles hle v, fun id _ => ?_⟩
      by_cases hne : id = f.fileId
      · subst hne
        rw [deltaEntry_appended h.wf hfiles hle v]
        exact .inr ⟨Option.some_ne_none _, id⟩
      · exact .inl (sameAt_appended hfiles v hne).deltaEntry
    · have hunused := h.unused _ le_rfl
      have hcovered : s.blobs.writesCatalog ∨ s.blobs.AppendCovered (some v) := by
        refine .inr fun v' hv' hclosed => ?_
        cases hv'
        rw [hopen] at hclosed
        cases hclosed
      rw [iff_true_intro hcovered, Option.map_some, addedFor, if_pos hopen]
      refine ⟨append_costs_new h.wf hb₀ h.lengths_sorted hunused v, fun id hid => .inl ?_⟩
      refine (sameAt_begun hb₀ h.lengths_sorted hunused v ?_).deltaEntry
      rintro rfl
      obtain ⟨f, hf⟩ := Option.ne_none_iff_exists'.mp hid
      obtain ⟨hmem, heq⟩ := fileById_mem hf
      exact (h.wf.valid f hmem).2.ne heq

/-- The count of frames since the last whole catalog; no other step reads it. -/
def withDeltaCount (s : BlobStore) (n : Nat) : BlobStore :=
  { s with blobs := { s.blobs with catalog := { s.blobs.catalog with catalogDeltaCount := n } } }

theorem Sound.withDeltaCount (h : s.Sound) (n : Nat) : (s.withDeltaCount n).Sound :=
  { h with wf := { h.wf with } }

/-- The projection covers the mutation exactly when a whole catalog is due, or when the files it
touches have an entry in the pending frame. -/
theorem projection_covers_iff {s₀ : BlobStore} (hs : Reached s₀) {deltaCount : Nat}
    (hd : s = s₀.withDeltaCount deltaCount) {retired : Option BlobPointer} {projected actual : Nat}
    {b' : BlobManager} (hb : s.blobs.mutated retired value = some b')
    (hp : s.blobs.projectedSegmentWriteSize retired (value.map List.length) = some projected)
    (ha : b'.segmentWriteSize = some actual) : actual ≤ projected ↔ s.blobs.writesCatalog ∨
      (s.blobs.AppendCovered value ∧ RetireCovered s.blobs s.blobs retired) := by
  have h : s.Sound := hd ▸ hs.sound.withDeltaCount deltaCount
  obtain ⟨b₁, hb₁, hretire⟩ := Option.bind_eq_some_iff.mp hb
  obtain ⟨hwf, hcat, ⟨extra₁, slack₁, hsum₁, hslack₁, hzero₁, hfull₁⟩, hentry⟩ := h.appended hb₁
  obtain ⟨hwf', extra₂, slack₂, hsum₂, hslack₂, hzero₂, hfull₂⟩ := hwf.retire hretire
  rw [writesCatalog_congr hcat] at hzero₂ hfull₂
  have hmarks : b₁.catalog.persistedDeletedOffsets = s.blobs.catalog.persistedDeletedOffsets := by
    rw [hcat]
  have hfile : ∀ p, s.blobs.canMarkDeleted p = true → s.blobs.fileById p.fileId ≠ none := by
    intro p hcan hnone
    rw [canMarkDeleted, hnone] at hcan
    cases hcan
  have hactual := hwf'.segmentWriteSize_eq ha
  have hprojected := h.wf.projected_eq hp
  rw [← bytesTotal] at hactual
  constructor
  · -- one missing entry is more than both steps can be cheaper than projected
    intro hle
    by_contra hno
    rw [not_or, not_and] at hno
    obtain ⟨hc, hcov⟩ := hno
    by_cases happ : s.blobs.AppendCovered value
    · have hx₂ : extra₂ = 20 := by
        refine hfull₂ fun hr => hcov happ fun p hp hcan hnew => ?_
        rcases hentry _ (hfile p hcan) with heq | hne
        · exact heq ▸ hr.resolve_left hc p hp hcan (hmarks ▸ hnew)
        · exact hne.2 happ
      omega
    · have hx₁ := hfull₁ fun hany => hany.elim hc happ
      omega
  · rintro (hc | ⟨happ, hr⟩)
    · have hx₁ := hzero₁ (.inl hc)
      have hx₂ := hzero₂ (.inl hc)
      omega
    · have hx₁ := hzero₁ (.inr happ)
      have hx₂ : extra₂ = 0 := by
        refine hzero₂ (.inr fun p hp hcan hnew => ?_)
        rcases hentry _ (hfile p hcan) with heq | hne
        · exact heq ▸ hr p hp hcan (hmarks ▸ hnew)
        · exact hne.1
      omega

/-- A published file of one value. -/
theorem reached_published : ∃ s, Reached s ∧ s.blobs =
    ⟨[⟨1, [⟨[0]⟩], []⟩], 2, 0, 1, true, ⟨[(1, 17)], [(1, [])], 1, 1, true⟩⟩ := by
  have hr := Reached.step (.new 0 true (fun _ _ => makeKeyPrefix []) none .nil) (.append [] [0])
  obtain ⟨prefixes, hs⟩ : ∃ prefixes, step ⟨.withThresholdAndMode 0 true,
      fun _ _ => makeKeyPrefix [], none, []⟩
      (.append [] [0]) = ⟨⟨[⟨1, [⟨[0]⟩], []⟩], 2, 0, 0, true, ⟨[(1, 0)], [], 0, 0, false⟩⟩,
        prefixes, none, []⟩ := ⟨_, rfl⟩
  rw [hs] at hr
  have hlen : ((⟨1, [⟨[0]⟩], []⟩ : BlobFile).toBytes prefixes).length = 17 :=
    BlobFile.length_toBytes prefixes _
  obtain ⟨data, hdata⟩ : ∃ data,
      writeSuffix ((⟨1, [⟨[0]⟩], []⟩ : BlobFile).toBytes prefixes) 0 none = .ok (some data) := by
    rw [writeSuffix, hlen]
    exact ⟨_, rfl⟩
  refine ⟨_, .step hr (.publish 1), ?_⟩
  simp only [step, publish, BlobManager.setGeneration, if_true, writeSuffixes,
    BlobManager.persistedSegmentLength]
  rw [show writeSuffix _ ((Lib.get 1 [(1, 0)]).getD 0) (Lib.get 1 []) = _ from hdata]
  rfl

/-- Its value is retired: the frame gets an entry of 20 bytes beside the mark. -/
theorem retirement_exceeds_projection : ∃ (s : BlobStore) (p : BlobPointer) (b' : BlobManager),
    Reached s ∧ s.blobs.segmented = true ∧ s.blobs.mutated (some p) none = some b' ∧
      s.blobs.projectedSegmentWriteSize (some p) none = some 52 ∧
        b'.segmentWriteSize = some 72 := by
  obtain ⟨s, hs, hb⟩ := reached_published
  refine ⟨s, ⟨1, 0, 1⟩, ⟨[⟨1, [⟨[0]⟩], [0]⟩], 2, 0, 1, true, ⟨[(1, 17)], [(1, [])], 1, 1, true⟩⟩,
    hs, ?_⟩
  rw [hb]
  decide

/-- A second value is admitted in full while the first is not published. -/
theorem projection_covers_second : ∃ (s : BlobStore) (b' : BlobManager) (projected actual : Nat),
    Reached s ∧ s.blobs.mutated none (some [0]) = some b' ∧
      s.blobs.projectedSegmentWriteSize none (some 1) = some projected ∧
      b'.segmentWriteSize = some actual ∧ actual ≤ projected := by
  have hr := Reached.step (.new 0 true (fun _ _ => makeKeyPrefix []) none .nil) (.append [] [0])
  have ha : segmentWriteSize ⟨[⟨1, [⟨[0]⟩, ⟨[0]⟩], []⟩], 2, 0, 0, true,
    ⟨[(1, 0)], [], 0, 0, false⟩⟩ = some 94 := by
    decide
  have hcovers := @projection_covers_iff _ (some [0]) _ hr 0 rfl none 94 94 _ rfl rfl ha
  exact ⟨_, _, 94, 94, hr, rfl, rfl, ha, hcovers.mpr (.inl rfl)⟩

end BlobStore

end SeerDb
