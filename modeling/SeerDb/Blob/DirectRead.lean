/-
# `SeerDb.Blob.DirectRead` — direct reads answer as the manager does

`Kept` is what every operation on a store preserves: the bytes of a segment that the
catalog frontier covers are the bytes of the live file.  A publication extends this to
the whole file, and a view that is opened on it then reads every record the manager has.

The whole image has the exception of `DirectSpec`: a file with `2^32` marks or more hides
the files behind it.
-/
import SeerDb.Blob.DirectSpec
import SeerDb.Blob.Frontier

namespace SeerDb

open Lib List

namespace BlobStore

/-! ## What every operation keeps -/

/-- The frontier lies inside the file, and the segment holds the bytes before it. -/
structure Backs (persisted : Nat → Nat) (prefixes : KeyPrefixes) (segments : List (Nat × Bytes))
    (f : BlobFile) :
    Prop where
  le : persisted f.fileId ≤ f.serializedSize
  holds : (f.toBytes prefixes).take (persisted f.fileId) <+: (get f.fileId segments).getD []

structure Kept (s : BlobStore) : Prop where
  wf : s.blobs.WF
  values : ∀ f ∈ s.blobs.files, ∀ r ∈ f.records, r.value.length ≤ u32Max
  segments_sorted : Sorted s.segments
  lengths_sorted : Sorted s.blobs.catalog.persistedLengths
  /-- An id that was never used is not on the frontier. -/
  unused : ∀ id, s.blobs.nextFileId ≤ id → s.blobs.persistedSegmentLength id = 0
  backs : ∀ f ∈ s.blobs.files, Backs s.blobs.persistedSegmentLength s.prefixes s.segments f

/-- A file that has no segment yet has something to write. -/
def Due (segments : List (Nat × Bytes)) (files : List BlobFile) : Prop :=
  ∀ f ∈ files, get f.fileId segments = none → f.records ≠ []

structure Sound (s : BlobStore) : Prop extends s.Kept where
  due : s.blobs.segmented = true → Due s.segments s.blobs.files

variable {s s' : BlobStore} {key value : Bytes} {p : BlobPointer} {b : BlobManager}
  {segments : List (Nat × Bytes)} {files : List StoredFile}

/-- Operations that leave the records and the frontier as they are. -/
theorem Kept.of_files (h : s.Kept) (hwf : b.WF) (hcat : b.catalog = s.blobs.catalog)
    (hnext : b.nextFileId = s.blobs.nextFileId)
    (hfiles : ∀ f' ∈ b.files, ∃ f ∈ s.blobs.files, f.fileId = f'.fileId ∧ f.records = f'.records) :
    Kept { s with blobs := b } where
  wf := hwf
  values := by
    intro f' hf' r hr
    obtain ⟨f, hf, -, hrec⟩ := hfiles f' hf'
    exact h.values f hf r (hrec ▸ hr)
  segments_sorted := h.segments_sorted
  lengths_sorted := by
    simp only [hcat]
    exact h.lengths_sorted
  unused := by
    intro id hid
    simp only [BlobManager.persistedSegmentLength, hcat]
    exact h.unused id (hnext ▸ hid)
  backs := by
    intro f' hf'
    obtain ⟨f, hf, hid, hrec⟩ := hfiles f' hf'
    obtain ⟨hle, hholds⟩ := h.backs f hf
    refine ⟨?_, ?_⟩
    · simp only [BlobManager.persistedSegmentLength, hcat, BlobFile.serializedSize, ← hid, ← hrec]
      exact hle
    · simp only [BlobManager.persistedSegmentLength, hcat, BlobFile.toBytes, ← hid, ← hrec]
      exact hholds

theorem Sound.of_files (h : s.Sound) (hwf : b.WF) (hcat : b.catalog = s.blobs.catalog)
    (hnext : b.nextFileId = s.blobs.nextFileId) (hseg : b.segmented = s.blobs.segmented)
    (hfiles : ∀ f' ∈ b.files, ∃ f ∈ s.blobs.files, f.fileId = f'.fileId ∧ f.records = f'.records) :
    Sound { s with blobs := b } where
  toKept := h.toKept.of_files hwf hcat hnext hfiles
  due := by
    intro htrue f' hf' hnone
    obtain ⟨f, hf, hid, hrec⟩ := hfiles f' hf'
    rw [← hrec]
    exact h.due (hseg.symm.trans htrue) f hf (hid ▸ hnone)

/-- A new file, with no byte on the frontier. -/
theorem Kept.begin (h : s.Kept) (hb : s.blobs.beginCompactionFile = some b) :
    Kept { s with blobs := b } := by
  obtain ⟨hwf, hfiles⟩ := h.wf.beginCompactionFile hb
  have hext := BlobManager.beginCompactionFile_extends hb
  have hlen : ∀ id, b.persistedSegmentLength id = s.blobs.persistedSegmentLength id := by
    intro id
    rw [BlobManager.persistedSegmentLength]
    rcases hext.lengths h.lengths_sorted id with heq | ⟨hle, hzero⟩
    · rw [heq, BlobManager.persistedSegmentLength]
    · rw [hzero, h.unused id hle]
      rfl
  refine ⟨hwf, ?_, h.segments_sorted, hext.lengths_sorted h.lengths_sorted, ?_, ?_⟩
  · simp only [hfiles]
    exact forall_mem_concat h.values (forall_mem_nil _)
  · intro id hid
    rw [hlen]
    exact h.unused id (hext.next.trans hid)
  · intro f hf
    simp only [hfiles] at hf
    rcases mem_append.mp hf with hf | hf
    · obtain ⟨hle, hholds⟩ := h.backs f hf
      exact ⟨(hlen f.fileId).le.trans hle, by simpa only [hlen] using hholds⟩
    rw [mem_singleton.mp hf]
    have hzero : b.persistedSegmentLength s.blobs.nextFileId = 0 :=
      (hlen _).trans (h.unused _ le_rfl)
    refine ⟨?_, ?_⟩
    · simp only [BlobFile.new, hzero]
      exact Nat.zero_le _
    · simp only [BlobFile.new, hzero, take_zero]
      exact nil_prefix

/-- Only the prefixes of records that are there matter. -/
theorem Kept.of_prefixes (h : s.Kept) {prefixes : KeyPrefixes}
    (hsame : ∀ f ∈ s.blobs.files, ∀ i < f.records.length, prefixes f.fileId i =
      s.prefixes f.fileId i) :
    Kept { s with prefixes := prefixes } := by
  refine { h with backs := ?_ }
  intro f hf
  obtain ⟨hle, hholds⟩ := h.backs f hf
  refine ⟨hle, ?_⟩
  change (f.toBytes prefixes).take _ <+: _
  rw [BlobFile.toBytes, streamBytes_congr (hsame f hf)]
  exact hholds

/-! ## Appending -/

/-- The last file takes one more record. -/
theorem Kept.extend_last (h : s.Kept) {pre : List BlobFile} {f : BlobFile}
    (hfiles : s.blobs.files = pre ++ [f])
    (hwf : ({ s.blobs with files := pre ++ [f.append value] } : BlobManager).WF)
    (hvalue : value.length ≤ u32Max) :
    Kept { s with blobs := { s.blobs with files := pre ++ [f.append value] } } := by
  have hf : f ∈ s.blobs.files := by
    rw [hfiles]
    exact mem_append_right _ (mem_singleton_self f)
  have hpre : ∀ g ∈ pre, g ∈ s.blobs.files := by
    intro g hg
    rw [hfiles]
    exact mem_append_left _ hg
  refine ⟨hwf, ?_, h.segments_sorted, h.lengths_sorted, h.unused, ?_⟩
  · exact forall_mem_concat (fun g hg => h.values g (hpre g hg))
      (forall_mem_concat (h.values f hf) hvalue)
  · intro g hg
    rcases mem_append.mp hg with hg | hg
    · exact h.backs g (hpre g hg)
    rw [mem_singleton.mp hg]
    obtain ⟨hle, hholds⟩ := h.backs f hf
    refine ⟨?_, ?_⟩
    · refine hle.trans ?_
      simp only [BlobFile.serializedSize, BlobFile.append, streamSize_append]
      exact Nat.le_add_right _ _
    · change ((f.append value).toBytes s.prefixes).take
        (s.blobs.persistedSegmentLength f.fileId) <+: _
      rw [BlobFile.toBytes, BlobFile.append, streamBytes_append,
        take_append_of_le_length (by rw [length_streamBytes]; exact hle)]
      exact hholds

/-- What an append does to the store: one prefix is set, behind the records of the file. -/
theorem Kept.append_inv (h : s.Kept) (ha : s.append key value = some (p, s')) : ∃ b₁ pre f prefixes,
    (b₁ = s.blobs ∧ s.blobs.opensFile value.length = false ∨
      s.blobs.beginCompactionFile = some b₁ ∧ s.blobs.opensFile value.length) ∧
        b₁.files = pre ++ [f] ∧
      s.blobs.append value = .ok (p, { b₁ with files := pre ++ [f.append value] }) ∧
      p = ⟨f.fileId, f.serializedSize, value.length⟩ ∧ value.length ≤ u32Max ∧
      s' = { s with blobs := { b₁ with files := pre ++ [f.append value] }, prefixes := prefixes } ∧
      Kept { s with blobs := b₁, prefixes := prefixes } := by
  rw [BlobStore.append] at ha
  split at ha
  · cases ha
  rename_i hvalue
  rcases hb : s.blobs.append value with e | ⟨q, b'⟩
  · rw [hb] at ha
    cases ha
  rw [hb] at ha
  obtain ⟨rfl, rfl⟩ := Prod.mk.inj (Option.some.inj ha)
  have hwf := (h.wf.append hb).wf
  obtain ⟨b₁, pre, f, hb₁, hfiles, rfl, rfl⟩ := BlobManager.append_inv hb
  have h₁ : Kept { s with blobs := b₁ } := by
    rcases hb₁ with ⟨rfl, -⟩ | ⟨hb₁, -⟩
    · exact h
    · exact h.begin hb₁
  refine ⟨b₁, pre, f, _, hb₁, hfiles,
    rfl, by rw [BlobManager.cut_eq (not_lt.mp hvalue)], not_lt.mp hvalue, rfl, h₁.of_prefixes ?_⟩
  have hmem : f.append value ∈ ({ b₁ with files := pre ++ [f.append value] } : BlobManager).files :=
    mem_concat_self
  have hlast := hwf.fileById hmem
  rw [BlobFile.fileId_append] at hlast
  intro g hg i hi
  refine if_neg ?_
  rintro ⟨hid, hpos⟩
  obtain rfl : g = f := by
    refine h₁.wf.eq_of_id ?_ hg hid
    simp only [hfiles]
    exact mem_append_right _ (mem_singleton_self f)
  rw [hlast] at hpos
  simp only [Option.map_some, Option.getD_some, BlobFile.recordCount,
    BlobFile.append, length_append, length_singleton, Nat.add_sub_cancel] at hpos
  exact absurd hpos (Nat.ne_of_lt hi)

theorem Kept.append (h : s.Kept) (ha : s.append key value = some (p, s')) :
    s'.Kept ∧ s'.blobs.segmented = s.blobs.segmented := by
  obtain ⟨b₁, pre, f, prefixes, -, hfiles, hb, -, hvalue, rfl, h₁⟩ := h.append_inv ha
  exact ⟨h₁.extend_last hfiles (h.wf.append hb).wf hvalue,
    (BlobManager.append_extends hb).segmented⟩

/-- The file that was appended to has a record; the others are as before. -/
theorem Kept.append_due (h : s.Kept) (hdrop : Due s.segments s.blobs.files.dropLast)
    (hall : s.blobs.opensFile value.length = true → Due s.segments s.blobs.files)
    (ha : s.append key value = some (p, s')) : Due s'.segments s'.blobs.files := by
  obtain ⟨b₁, pre, f, prefixes, hb₁, hfiles, -, -, -, rfl, -⟩ := h.append_inv ha
  have hpre : Due s.segments pre := by
    rcases hb₁ with ⟨rfl, -⟩ | ⟨hb₁, hopen⟩
    · rwa [hfiles, dropLast_concat] at hdrop
    · rw [BlobManager.begin_files hb₁] at hfiles
      obtain ⟨rfl, -⟩ := append_inj' hfiles rfl
      exact hall hopen
  refine forall_mem_concat hpre fun _ => ?_
  exact append_ne_nil_of_right_ne_nil _ (cons_ne_nil _ _)

theorem Sound.append (h : s.Sound) (ha : s.append key value = some (p, s')) : s'.Sound := by
  obtain ⟨h', hseg⟩ := h.toKept.append ha
  refine ⟨h', ?_⟩
  intro htrue
  have hdue := h.due (hseg.symm.trans htrue)
  exact h.append_due (fun f hf => hdue f (dropLast_subset _ hf)) (fun _ => hdue) ha

theorem Sound.appendAll {entries : List (Bytes × Bytes)} (h : s.Sound)
    (ha : appendAll entries s = some s') :
    s'.Sound := by
  induction entries generalizing s with
  | nil =>
    cases ha
    exact h
  | cons entry entries ih =>
    obtain ⟨key, value⟩ := entry
    rw [BlobStore.appendAll] at ha
    split at ha
    · cases ha
    · rename_i happ
      exact ih (h.append happ) ha

/-- An append that is undone leaves the files, or one without records goes. -/
theorem Sound.refused (h : s.Sound) (ha : s.append key value = some (p, s')) :
    Sound { s' with blobs := s'.blobs.rollbackAppend p } := by
  obtain ⟨b₁, pre, f, prefixes, hb₁, hfiles, -, rfl, -, rfl, h₁⟩ := h.append_inv ha
  have hf : f ∈ b₁.files := by
    rw [hfiles]
    exact mem_append_right _ (mem_singleton_self f)
  have hroll := @BlobManager.rollbackAppend_last value b₁ pre f
    fun hm => f.not_hasRecordAt_end (h₁.wf.marks f hf _ hm)
  have hsub : (if f.records = [] then pre else pre ++ [f]).Sublist b₁.files := by
    rw [hfiles]
    split
    · exact sublist_append_left _ _
    · exact List.Sublist.refl _
  simp only [hroll]
  refine ⟨h₁.of_files (h₁.wf.sublist hsub) rfl rfl fun g hg => ⟨g, hsub.subset hg, rfl, rfl⟩, ?_⟩
  intro htrue g hg
  rcases hb₁ with ⟨rfl, -⟩ | ⟨hb₁, -⟩
  · exact h.due htrue g (hsub.subset hg)
  refine h.due ((BlobManager.beginCompactionFile_extends hb₁).segmented.symm.trans htrue) g ?_
  have hnew := (h.wf.beginCompactionFile hb₁).2
  rw [hfiles] at hnew
  obtain ⟨rfl, hf'⟩ := append_inj' hnew rfl
  obtain rfl := singleton_inj.mp hf'
  exact hg

/-! ## Marks, sweeps and rewrites -/

theorem Sound.markDeleted (h : s.Sound) (hm : s.blobs.markDeleted p = some b) :
    Sound { s with blobs := b } := by
  have hwf := (h.wf.marked hm).wf
  obtain ⟨f, hf, -, rfl⟩ := BlobManager.markDeleted_inv hm
  refine h.of_files hwf rfl rfl rfl ?_
  intro f' hf'
  obtain ⟨x, hx, rfl⟩ := mem_map.mp hf'
  split
  · exact ⟨f, (BlobManager.fileById_mem hf).1, rfl, rfl⟩
  · exact ⟨x, hx, rfl, rfl⟩

theorem Sound.gc (h : s.Sound) : Sound { s with blobs := s.blobs.gc.2 } :=
  h.of_files (h.wf.sublist filter_sublist) rfl rfl rfl fun f hf =>
    ⟨f, (mem_filter.mp hf).1, rfl, rfl⟩

theorem Sound.clear (h : s.Sound) : Sound { s with blobs := s.blobs.clearDeletionMetadata } := by
  refine h.of_files h.wf.clear rfl rfl rfl ?_
  intro f hf
  obtain ⟨g, hg, rfl⟩ := mem_map.mp hf
  exact ⟨g, hg, rfl, rfl⟩

/-- The first value goes to the new file, so that no file is left without a record. -/
theorem Sound.rewrite (h : s.Sound) (hb : s.blobs.beginCompactionFile = some b)
    {entries : List (Bytes × Bytes)} (hne : entries ≠ [])
    (ha : BlobStore.appendAll entries { s with blobs := b.markAllDeleted } = some s') :
    s'.Sound := by
  obtain ⟨-, hfiles⟩ := h.wf.beginCompactionFile hb
  have h₁ := h.toKept.begin hb
  have h₂ : Kept { s with blobs := b.markAllDeleted } := by
    refine h₁.of_files h₁.wf.markAllDeleted rfl rfl ?_
    intro f hf
    obtain ⟨g, hg, rfl⟩ := mem_map.mp hf
    exact ⟨g, hg, rfl, rfl⟩
  have hall : b.markAllDeleted.files
      = s.blobs.files.map BlobFile.markAllDeleted ++ [BlobFile.new s.blobs.nextFileId] := by
    rw [BlobManager.markAllDeleted, hfiles, map_append]
    rfl
  cases entries with
  | nil => exact absurd rfl hne
  | cons entry entries =>
    obtain ⟨key, value⟩ := entry
    rw [BlobStore.appendAll] at ha
    split at ha
    · cases ha
    rename_i happ
    obtain ⟨h₃, hseg⟩ := h₂.append happ
    refine Sound.appendAll ⟨h₃, fun htrue => h₂.append_due ?_ ?_ happ⟩ ha
    · intro f hf
      simp only [hall, dropLast_concat] at hf
      obtain ⟨g, hg, rfl⟩ := mem_map.mp hf
      exact h.due ((BlobManager.beginCompactionFile_extends hb).segmented.symm.trans
        (hseg.symm.trans htrue)) g hg
    · intro hopen
      -- the new file is there and takes any first record
      have hroll : b.markAllDeleted.opensFile value.length = false := by
        rw [BlobManager.opensFile, BlobManager.shouldRollover, hall]
        simp [BlobFile.new, BlobFile.serializedSize]
      exact absurd (hroll.symm.trans hopen) Bool.false_ne_true

/-! ## Publishing -/

/-- One segment: the bytes of the file are its first bytes afterwards. -/
theorem Kept.writeSuffix (h : s.Kept) {f : BlobFile} (hf : f ∈ s.blobs.files)
    (hdue : get f.fileId s.segments = none → f.records ≠ []) :
    SeerDb.writeSuffix (f.toBytes s.prefixes) (s.blobs.persistedSegmentLength f.fileId)
        (get f.fileId s.segments) = .error .capacityOverflow ∨
      f.serializedSize ≤ isizeMax ∧ ∃ data, SeerDb.writeSuffix (f.toBytes s.prefixes)
        (s.blobs.persistedSegmentLength f.fileId) (get f.fileId s.segments) = .ok (some data) ∧
          f.toBytes s.prefixes <+: data := by
  obtain ⟨hle, hholds⟩ := h.backs f hf
  have hlen := f.length_toBytes s.prefixes
  rw [SeerDb.writeSuffix]
  split
  · exact .inl rfl
  rename_i hmax
  refine .inr ⟨by omega, ?_⟩
  rw [if_neg (by omega)]
  split
  · rename_i heq
    rw [← heq, take_length] at hholds
    cases hseg : get f.fileId s.segments with
    | none =>
      -- nothing to write for a file that has a record
      rw [hseg] at hholds
      have hnil := congrArg List.length (prefix_nil.mp hholds)
      rw [hlen] at hnil
      exact absurd hnil (Nat.ne_of_gt (streamSize_pos (hdue hseg)))
    | some data =>
      rw [hseg] at hholds
      exact ⟨data, rfl, hholds⟩
  · rename_i hne
    have hphys := hholds.length_le
    rw [length_take, Nat.min_eq_left (by omega)] at hphys
    rw [if_neg (by omega)]
    refine ⟨_, rfl, ?_⟩
    have htake : ((get f.fileId s.segments).getD []).take (s.blobs.persistedSegmentLength f.fileId)
        = (f.toBytes s.prefixes).take (s.blobs.persistedSegmentLength f.fileId) := by
      rw [prefix_iff_eq_take.mp hholds, length_take, Nat.min_eq_left (by omega)]
    exact ⟨[], by rw [append_nil, htake, take_append_drop]⟩

/-- The segments of all files: each file stands at the head of its own. -/
theorem Kept.writeSuffixes (h : s.Kept) : ∀ {files : List BlobFile} {segments : List (Nat × Bytes)},
    (∀ f ∈ files, f ∈ s.blobs.files) → files.Pairwise (fun f g => f.fileId < g.fileId) →
    Due s.segments files →
    Sorted segments → (∀ f ∈ files, get f.fileId segments = get f.fileId s.segments) →
    SeerDb.writeSuffixes s.blobs s.prefixes files segments = .error .capacityOverflow ∨
      ∃ segments', SeerDb.writeSuffixes s.blobs s.prefixes files segments = .ok segments' ∧
        Sorted segments' ∧ (∀ f ∈ files, f.serializedSize ≤ isizeMax ∧
          ∃ data, get f.fileId segments' = some data ∧ f.toBytes s.prefixes <+: data) ∧
        ∀ id, (∀ f ∈ files, f.fileId ≠ id) → get id segments' = get id segments := by
  intro files
  induction files with
  | nil =>
    intro segments _ _ _ hsorted _
    exact .inr ⟨segments, rfl, hsorted, by simp, fun _ _ => rfl⟩
  | cons f files ih =>
    intro segments hmem hids hdue hsorted hsame
    obtain ⟨hlt, hids⟩ := pairwise_cons.mp hids
    obtain ⟨hf, hmem⟩ := forall_mem_cons.mp hmem
    obtain ⟨hsame_f, hsame⟩ := forall_mem_cons.mp hsame
    rw [SeerDb.writeSuffixes, hsame_f]
    rcases h.writeSuffix hf (hdue f (.head _)) with herr | ⟨hmax, data, hok, hdata⟩
    · rw [herr]
      exact .inl rfl
    rw [hok, ok_bind]
    simp only
    have hother : ∀ g ∈ files, get g.fileId (upsert f.fileId data segments) =
      get g.fileId s.segments := by
      intro g hg
      rw [get_upsert hsorted, if_neg (Nat.ne_of_gt (hlt g hg))]
      exact hsame g hg
    rcases ih hmem hids (fun g hg => hdue g (.tail _ hg)) (sorted_upsert hsorted) hother with
      herr | ⟨segments', hok', hsorted', hheld, hrest⟩
    · exact .inl herr
    refine .inr ⟨segments', hok', hsorted',
      forall_mem_cons.mpr ⟨⟨hmax, data, ?_, hdata⟩, hheld⟩, ?_⟩
    · rw [hrest _ fun g hg => Nat.ne_of_gt (hlt g hg), get_upsert hsorted, if_pos rfl]
    · intro id hid
      obtain ⟨hne, hid⟩ := forall_mem_cons.mp hid
      rw [hrest id hid, get_upsert hsorted, if_neg (Ne.symm hne)]

/-- Where a publication has put the records of the live files. -/
structure Published (s : BlobStore) : Prop where
  segments : s.blobs.segmented = true → ∀ f ∈ s.blobs.files, f.serializedSize ≤ isizeMax ∧ ∃ data,
    get f.fileId s.segments = some data ∧ f.toBytes s.prefixes <+: data
  image : s.blobs.segmented = false →
    s.image = some (s.blobs.toBytes s.prefixes) ∧ (s.blobs.toBytes s.prefixes).length ≤ isizeMax

/-- The frontier at the end of every file. -/
theorem sound_captured (hwf : b.WF) (hvalues : ∀ f ∈ b.files, ∀ r ∈ f.records,
    r.value.length ≤ u32Max) (hlen : b.catalog.persistedLengths = b.files.map fun f =>
      (f.fileId, f.serializedSize)) {prefixes : KeyPrefixes}
    (hs : Sorted segments)
    (hheld : ∀ f ∈ b.files, ∃ data, get f.fileId segments = some data ∧ f.toBytes prefixes <+: data)
    (image : Option Bytes) : Sound ⟨b, prefixes, image, segments⟩ := by
  have hpersisted : ∀ id, b.persistedSegmentLength id =
    ((fileAt b.files id).map BlobFile.serializedSize).getD 0 := by
    intro id
    rw [BlobManager.persistedSegmentLength, hlen, get_perFile]
  refine ⟨⟨hwf, hvalues, hs, ?_, ?_, ?_⟩, ?_⟩
  · rw [hlen]
    exact pairwise_map.mpr hwf.ids
  · intro id hid
    rw [hpersisted]
    cases hf : fileAt b.files id with
    | none => rfl
    | some f =>
      obtain ⟨hmem, rfl⟩ := fileAt_mem hf
      exact absurd (hwf.valid f hmem).2 (not_lt.mpr hid)
  · intro f hf
    obtain ⟨data, hget, hpre⟩ := hheld f hf
    refine ⟨?_, ?_⟩
    · rw [hpersisted, fileAt_self hwf.ids hf]
      exact le_rfl
    · simp only [hget, Option.getD_some]
      exact (List.take_prefix _ _).trans hpre
  · intro _ f hf hnone
    obtain ⟨data, hget, -⟩ := hheld f hf
    exact absurd (hnone.symm.trans hget) (by simp)

/-- A publication fails only for want of memory. -/
theorem Sound.publish (h : s.Sound) (generationId : GenerationId) :
    s.publish generationId = .error .capacityOverflow ∨
    ∃ s', s.publish generationId = .ok s' ∧ s'.Sound ∧ s'.Published ∧
      s'.blobs.segmented = s.blobs.segmented ∧ s'.blobs.files = s.blobs.files := by
  have h₁ : Sound { s with blobs := s.blobs.setGeneration generationId } :=
    h.of_files { h.wf with } rfl rfl rfl fun f hf => ⟨f, hf, rfl, rfl⟩
  rw [BlobStore.publish]
  cases hseg : s.blobs.segmented with
  | false =>
    rw [if_neg (by rw [BlobManager.setGeneration, hseg]; exact Bool.false_ne_true)]
    split
    · exact .inl rfl
    rename_i hmax
    refine .inr ⟨_, rfl, ⟨{ h₁.toKept with }, h₁.due⟩,
      ⟨?_, fun _ => ⟨rfl, not_lt.mp hmax⟩⟩, hseg, rfl⟩
    intro htrue
    exact absurd (hseg.symm.trans htrue) Bool.false_ne_true
  | true =>
    rw [if_pos (by rw [BlobManager.setGeneration, hseg])]
    rcases h₁.writeSuffixes (fun f hf => hf) h₁.wf.ids (h₁.due hseg) h₁.segments_sorted
      (fun f _ => rfl) with
      herr | ⟨segments, hok, hsorted, hheld, -⟩
    · simp only at herr
      rw [herr]
      exact .inl rfl
    simp only at hok hheld
    rw [hok]
    have hwf : (s.blobs.setGeneration generationId).markSegmentDeltaPersisted.WF := { h.wf with }
    refine .inr ⟨_, rfl, sound_captured hwf h.values rfl hsorted (fun f hf => (hheld f hf).2)
      s.image, ?_, hseg, rfl⟩
    refine ⟨fun _ => hheld, ?_⟩
    intro hfalse
    exact absurd (hseg.symm.trans hfalse).symm Bool.false_ne_true

/-! ## Runs -/

theorem Sound.pruneSegments (h : s.Sound) :
    Sound { s with
      segments := s.segments.filter fun entry => entry.1 ∈ s.blobs.segmentFileIds } := by
  have hget : ∀ f ∈ s.blobs.files,
      get f.fileId (s.segments.filter fun entry => entry.1 ∈ s.blobs.segmentFileIds) =
        get f.fileId s.segments := by
    intro f hf
    apply Option.ext
    intro data
    rw [get_eq_some_iff (h.segments_sorted.sublist filter_sublist),
      get_eq_some_iff h.segments_sorted, mem_filter, and_iff_left]
    exact decide_eq_true (mem_map_of_mem hf)
  refine ⟨{ h.toKept with segments_sorted := ?_, backs := ?_ }, ?_⟩
  · exact h.segments_sorted.sublist filter_sublist
  · intro f hf
    obtain ⟨hle, hholds⟩ := h.backs f hf
    exact ⟨hle, by simpa only [hget f hf] using hholds⟩
  · intro htrue f hf hnone
    exact h.due htrue f hf ((hget f hf).symm.trans hnone)

theorem Sound.step (h : s.Sound) (c : Command) : (s.step c).Sound := by
  cases c with
  | append key value =>
    rw [BlobStore.step]
    split
    · exact h
    · rename_i ha
      exact h.append ha
  | refused key value =>
    rw [BlobStore.step]
    split
    · exact h
    · rename_i ha
      exact h.refused ha
  | markDeleted pointer =>
    rw [BlobStore.step]
    split
    · exact h
    · rename_i hm
      exact h.markDeleted hm
  | rewrite entries =>
    rw [BlobStore.step]
    split
    · exact h
    rename_i hne
    split
    · exact h
    rename_i hb
    split
    · exact h
    · rename_i ha
      exact h.rewrite hb hne ha
  | gc => exact h.gc
  | clearDeletionMetadata => exact h.clear
  | publish generationId =>
    rw [BlobStore.step]
    rcases h.publish generationId with herr | ⟨s', hok, hs', -⟩
    · rw [herr]
      exact h
    · rw [hok]
      exact hs'
  | pruneSegments => exact h.pruneSegments

/-- A manager that has no frontier. -/
theorem sound_of_default (hwf : b.WF) (hvalues : ∀ f ∈ b.files, ∀ r ∈ f.records,
    r.value.length ≤ u32Max) (hcat : b.catalog = .default) (hdue :
      b.segmented = true → b.files = []) (prefixes : KeyPrefixes)
    (image : Option Bytes) (hs : Sorted segments) : Sound ⟨b, prefixes, image, segments⟩ := by
  have hzero : ∀ id, b.persistedSegmentLength id = 0 := by
    intro id
    rw [BlobManager.persistedSegmentLength, hcat]
    rfl
  refine ⟨⟨hwf, hvalues, hs, by rw [hcat]; exact .nil, fun id _ => hzero id, ?_⟩, ?_⟩
  · intro f _
    refine ⟨by rw [hzero]; exact Nat.zero_le _, ?_⟩
    simp only [hzero, take_zero]
    exact nil_prefix
  · intro htrue f hf
    simp only [hdue htrue] at hf
    cases hf

/-- Each file of a catalog is the head of its segment. -/
theorem loadSegments_sound {entries : List CatalogEntry}
    (h : loadSegments segments entries = some files) :
    files.map (fun st => st.file.fileId) = entries.map CatalogEntry.fileId ∧
      ∀ st ∈ files, st.Sound ∧ ∃ data, get st.file.fileId segments = some data ∧
        streamBytes st.prefixes st.file.records <+: data := by
  induction entries generalizing files with
  | nil =>
    cases h
    exact ⟨rfl, by simp⟩
  | cons e entries ih =>
    rw [loadSegments] at h
    split at h
    · cases h
    rename_i data hdata
    split at h
    · cases h
    simp only [Option.bind_eq_bind, Option.bind_eq_some_iff] at h
    obtain ⟨st, hst, rest, hrest, h⟩ := h
    cases h
    obtain ⟨hsound, hid, hbytes, -⟩ := parseFile_sound hst
    obtain ⟨hids, hall⟩ := ih hrest
    refine ⟨?_, forall_mem_cons.mpr ⟨⟨hsound, data, by rw [hid]; exact hdata, ?_⟩, hall⟩⟩
    · rw [map_cons, map_cons, hid, hids]
    · rw [hbytes]
      exact take_prefix _ _

theorem storedPrefixes_eq (hnodup : (files.map fun st => st.file.fileId).Nodup)
    {st : StoredFile} (hst : st ∈ files) : storedPrefixes files st.file.fileId = st.prefixes := by
  rw [storedPrefixes, find?_of_nodup hnodup hst]

theorem sound_ofCatalog {entries : List CatalogEntry}
    (h : loadSegments segments entries = some files)
    (hids : (entries.map CatalogEntry.fileId).Nodup)
    {nextFileId : Nat} (hnext : ∀ e ∈ entries, 0 < e.fileId ∧ e.fileId < nextFileId)
    (hpos : 0 < nextFileId)
    (hmax : nextFileId ≤ u32Max) (threshold generationId deltaCount : Nat) (image : Option Bytes)
    (hs : Sorted segments) :
    Sound (ofCatalog files nextFileId threshold generationId deltaCount image segments) := by
  obtain ⟨hmap, hall⟩ := loadSegments_sound h
  rw [← hmap] at hids
  have hid : ∀ st ∈ files, 0 < st.file.fileId ∧ st.file.fileId < nextFileId := by
    intro st hst
    have hmem : st.file.fileId ∈ entries.map CatalogEntry.fileId := hmap ▸ mem_map_of_mem hst
    obtain ⟨e, he, heq⟩ := mem_map.mp hmem
    exact heq ▸ hnext e he
  have hwf := @managerOfFiles_wf files threshold generationId
    (fun st hst => ⟨(hall st hst).1, (hid st hst).1, (hid st hst).2.trans_le hmax⟩) hids
  have hmem : ∀ f ∈ sortFiles (files.map StoredFile.file), ∃ st ∈ files, st.file = f := by
    intro f hf
    exact mem_map.mp (mem_sortFiles.mp hf)
  have hwf' : (ofCatalog files nextFileId threshold generationId deltaCount image
    segments).blobs.WF := by
    refine ⟨hwf.ids, ?_, hpos, hmax, hwf.marks_sorted, hwf.marks⟩
    intro f hf
    obtain ⟨st, hst, rfl⟩ := hmem f hf
    exact hid st hst
  refine sound_captured hwf' ?_ rfl hs ?_ image
  · intro f hf
    obtain ⟨st, hst, rfl⟩ := hmem f hf
    exact (hall st hst).1.values
  · intro f hf
    obtain ⟨st, hst, rfl⟩ := hmem f hf
    obtain ⟨-, data, hget, hpre⟩ := hall st hst
    refine ⟨data, hget, ?_⟩
    rw [BlobFile.toBytes, storedPrefixes_eq hids hst]
    exact hpre

/-- Every state of a run is sound. -/
theorem Reached.sound (h : Reached s) : s.Sound := by
  induction h with
  | new threshold segmented prefixes image hs =>
    exact sound_of_default (.initial threshold segmented)
      (forall_mem_nil _) rfl (fun _ => rfl) prefixes image hs
  | image h image hs =>
    obtain ⟨hwf, hvalues, -, hcat, hseg⟩ := BlobManager.fromBytes_accepted h
    refine sound_of_default hwf hvalues hcat ?_ _ image hs
    intro htrue
    exact absurd (hseg.symm.trans htrue) Bool.false_ne_true
  | catalog h hids hnext hpos hmax threshold generationId deltaCount image hs =>
    exact sound_ofCatalog h hids hnext hpos hmax threshold generationId deltaCount image hs
  | step _ c ih => exact ih.step c

/-! ## Direct reads -/

/-- Where the records of each live file begin in the file that holds them. -/
def places (s : BlobStore) : List (Nat × Nat) :=
  if s.blobs.segmented then s.blobs.segmentFileIds.map fun fileId =>
    (fileId, 0) else basesFrom 32 s.blobs.files

/-- A view opens, knows the place of every file, and returns what the manager returns. -/
def Direct (s : BlobStore) : Prop := ∃ v, DirectView.open s = .ok v ∧
  (∀ entry ∈ s.places, get entry.1 v.bases = some entry.2) ∧
    ∀ p value, s.blobs.read p = some value → v.read p = .ok value

/-- A view that has the bytes of every file at its base reads as the manager does. -/
theorem Kept.read_direct (h : s.Kept) {v : DirectView}
      (hv : ∀ f ∈ s.blobs.files, ∃ (file pre post : Bytes) (base : Nat),
      get f.fileId v.files = some file ∧ get f.fileId v.bases = some base ∧
        file = pre ++ (f.toBytes s.prefixes ++ post) ∧ pre.length = base ∧
          base + f.serializedSize ≤ isizeMax)
    {p : BlobPointer} {value : Bytes} (hread : s.blobs.read p = some value) :
      v.read p = .ok value := by
  obtain ⟨f, hf, hfr⟩ := BlobManager.read_eq_some hread
  obtain ⟨hmem, hid⟩ := BlobManager.fileById_mem hf
  obtain ⟨file, pre, post, base, hfile, hbase, hbytes, hpre, hmax⟩ := hv f hmem
  rw [BlobFile.read] at hfr
  rcases hr : recordAt p.offset 0 f.records with _ | r
  · rw [hr] at hfr
    cases hfr
  rw [hr] at hfr
  simp only at hfr
  split at hfr
  · rename_i hlen
    cases hfr
    obtain ⟨before, behind, keyPrefix, hstream, hoffset⟩ :=
      @streamBytes_recordAt r _ _ _ (s.prefixes f.fileId) hr
    have hsize := congrArg List.length hstream
    rw [length_streamBytes, length_append, length_append, r.length_toBytes] at hsize
    rw [hid] at hfile hbase
    refine @DirectView.read_eq v p file (pre ++ before)
      (behind ++ post) base r keyPrefix hfile hbase ?_ ?_ ?_ ?_ hlen.symm
    · rw [hbytes, BlobFile.toBytes, hstream]
      simp only [append_assoc]
    · rw [length_append]
      omega
    · rw [length_append]
      rw [BlobFile.serializedSize] at hmax
      omega
    · exact h.values f hmem r (recordAt_mem hr)
  · cases hfr

theorem openSegments_ok {segments : List (Nat × Bytes)} : ∀ {ids : List Nat},
    (∀ id ∈ ids, ∃ data, get id segments = some data) →
      ∃ files, openSegments segments ids = .ok files ∧ ∀ id ∈ ids, get id files = get id segments
  | [], _ => ⟨[], rfl, by simp⟩
  | id :: ids, h => by
    obtain ⟨data, hdata⟩ := h id (.head _)
    obtain ⟨files, hopen, hget⟩ := openSegments_ok fun i hi => h i (.tail _ hi)
    refine ⟨(id, data) :: files, ?_, ?_⟩
    · simp only [openSegments, hdata, hopen, ok_bind]
    · intro i hi
      rw [Lib.get, lookup_cons]
      by_cases heq : i = id
      · rw [heq, beq_self_eq_true, hdata]
      · rw [beq_eq_false_iff_ne.mpr heq]
        exact hget i ((mem_cons.mp hi).resolve_left heq)

/-- Segment files are read from their start. -/
theorem Published.direct_segments (h : s.Published) (hkept : s.Kept)
    (hseg : s.blobs.segmented = true) : s.Direct := by
  have hids : ∀ id ∈ s.blobs.segmentFileIds, ∃ data, get id s.segments = some data := by
    intro id hid
    obtain ⟨f, hf, rfl⟩ := mem_map.mp hid
    obtain ⟨-, data, hdata, -⟩ := h.segments hseg f hf
    exact ⟨data, hdata⟩
  have hbases : ∀ f ∈ s.blobs.files, get f.fileId (s.blobs.segmentFileIds.map fun fileId =>
    (fileId, 0)) = some 0 := by
    intro f hf
    rw [BlobManager.segmentFileIds, map_map]
    exact (get_perFile (fun _ => 0) s.blobs.files f.fileId).trans
      (by rw [fileAt_self hkept.wf.ids hf]; rfl)
  obtain ⟨files, hopen, hget⟩ := openSegments_ok hids
  refine ⟨⟨files, s.blobs.segmentFileIds.map fun fileId => (fileId, 0)⟩, ?_, ?_, ?_⟩
  · rw [DirectView.open, if_pos hseg, hopen]
    rfl
  · intro entry hentry
    rw [places, if_pos hseg] at hentry
    obtain ⟨id, hid, rfl⟩ := mem_map.mp hentry
    obtain ⟨f, hf, rfl⟩ := mem_map.mp hid
    exact hbases f hf
  · intro p value hread
    refine hkept.read_direct ?_ hread
    intro f hf
    obtain ⟨hmax, data, hdata, rest, hrest⟩ := h.segments hseg f hf
    refine ⟨data, [], rest, 0, ?_, hbases f hf, hrest.symm, rfl, ?_⟩
    · exact (hget f.fileId (mem_map_of_mem hf)).trans hdata
    · rw [Nat.zero_add]
      exact hmax

/-- What opening a view of an image comes to. -/
theorem Published.open_image (h : s.Published) (hkept : s.Kept) (hseg : s.blobs.segmented = false)
    (hne : s.blobs.files ≠ []) : DirectView.open s =
      (walkImage (s.blobs.toBytes s.prefixes) s.blobs.files.length 32 []).bind
      fun bases => match s.blobs.segmentFileIds.find? fun fileId => fileId ∉ bases.map Prod.fst with
        | some fileId => .error (.corruption ("blob image is missing file " ++ toString fileId))
        | none => .ok ⟨bases.map fun entry => (entry.1, s.blobs.toBytes s.prefixes), bases⟩ := by
  have hids : s.blobs.segmentFileIds ≠ [] := by
    intro hnil
    exact hne (map_eq_nil_iff.mp hnil)
  rw [DirectView.open, if_neg (by simp [hseg]), if_neg hids, (h.image hseg).1]
  simp only
  rw [imageBases_toBytes hkept.wf]
  rfl

/-- The walk over an image finds every file as long as every count of marks fits its field. -/
theorem Published.direct_image (h : s.Published) (hkept : s.Kept) (hseg : s.blobs.segmented = false)
    (hfit : MarksFit s.blobs.files) : s.Direct := by
  obtain ⟨himage, hmax⟩ := h.image hseg
  have hplaces : s.places = basesFrom 32 s.blobs.files := by
    rw [places, if_neg (by simp [hseg])]
  have hsorted : Sorted (basesFrom 32 s.blobs.files) := sorted_basesFrom hkept.wf.ids
  by_cases hne : s.blobs.files = []
  · refine ⟨⟨[], []⟩, ?_, ?_, ?_⟩
    · rw [DirectView.open, if_neg (by simp [hseg]), BlobManager.segmentFileIds, hne]
      rfl
    · rw [hplaces, hne]
      exact forall_mem_nil _
    · intro p value hread
      obtain ⟨f, hf, -⟩ := BlobManager.read_eq_some hread
      exact absurd (BlobManager.fileById_mem hf).1 (hne ▸ not_mem_nil)
  refine ⟨⟨(basesFrom 32 s.blobs.files).map fun entry => (entry.1, s.blobs.toBytes s.prefixes),
    basesFrom 32 s.blobs.files⟩, ?_, ?_, ?_⟩
  · have hfind : (s.blobs.segmentFileIds.find? fun fileId => fileId ∉
      (basesFrom 32 s.blobs.files).map Prod.fst) = none := by
      rw [List.find?_eq_none]
      intro id hid
      rw [map_fst_basesFrom, decide_eq_true_iff, not_not]
      exact hid
    rw [h.open_image hkept hseg hne, walkImage_toBytes hkept.wf hmax hfit]
    simp only [Except.bind, hfind]
  · intro entry hentry
    exact (get_eq_some_iff hsorted).mpr (hplaces ▸ hentry)
  · intro p value hread
    refine hkept.read_direct ?_ hread
    intro f hf
    obtain ⟨pre, post, hbytes, hbase⟩ := @image_holds s.prefixes s.blobs f hf
    refine ⟨s.blobs.toBytes s.prefixes, pre, post, pre.length, ?_,
      (get_eq_some_iff hsorted).mpr hbase, hbytes, rfl, ?_⟩
    · have hfiles : Sorted ((basesFrom 32 s.blobs.files).map fun entry =>
        (entry.1, s.blobs.toBytes s.prefixes)) :=
        pairwise_map.mpr hsorted
      exact (get_eq_some_iff hfiles).mpr (mem_map.mpr ⟨_, hbase, rfl⟩)
    · have hlen := congrArg List.length hbytes
      rw [length_append, length_append, f.length_toBytes] at hlen
      omega

/-- Past a count that does not fit, the walk takes marks for descriptors. -/
theorem Published.marksFit_of_direct (h : s.Published) (hkept : s.Kept)
    (hseg : s.blobs.segmented = false) (hdirect : s.Direct) : MarksFit s.blobs.files := by
  by_contra hlong
  have hne : s.blobs.files ≠ [] := by
    intro hnil
    rw [hnil] at hlong
    exact hlong (forall_mem_nil _)
  obtain ⟨v, hopen, hbases, -⟩ := hdirect
  rw [h.open_image hkept hseg hne] at hopen
  obtain ⟨found, hwalk, hopen⟩ := bind_eq_ok.mp hopen
  obtain ⟨entry, hentry, hmissing⟩ := walkImage_misses hkept.wf (h.image hseg).2 hlong hwalk
  have hv : v.bases = found := by
    split at hopen
    · cases hopen
    · cases hopen
      rfl
  have hget := hbases entry (by rw [places, if_neg (by simp [hseg])]; exact hentry)
  rw [hv] at hget
  exact hmissing (mem_of_get hget)

/-- After a publication a view reads every value directly, exactly when no file before the
last of a whole image has 2³² marks or more. -/
theorem published_reads_directly (h : Reached s) (generationId : GenerationId) :
    s.publish generationId = .error .capacityOverflow ∨ ∃ s', s.publish generationId = .ok s' ∧
      (s'.Direct ↔ s.blobs.segmented = true ∨ MarksFit s.blobs.files) := by
  rcases h.sound.publish generationId with hcap | ⟨s', hs', hsound, hpub, hmode, hfiles⟩
  · exact .inl hcap
  refine .inr ⟨s', hs', ?_⟩
  rw [← hmode, ← hfiles]
  cases hseg : s'.blobs.segmented with
  | true => exact ⟨fun _ => .inl rfl, fun _ => hpub.direct_segments hsound.toKept hseg⟩
  | false =>
    constructor
    · intro hdirect
      exact .inr (hpub.marksFit_of_direct hsound.toKept hseg hdirect)
    · rintro (hfalse | hfit)
      · cases hfalse
      · exact hpub.direct_image hsound.toKept hseg hfit

/-- Two values, one of them marked; the other moves to a second file, which takes a third. -/
def twoFiles : BlobStore :=
  [.append [] [0], .append [] [1], .markDeleted ⟨1, 0, 1⟩, .rewrite [([], [1])],
    .append [] [2]].foldl step
    ⟨.withThresholdAndMode 0 false, fun _ _ => makeKeyPrefix [], none, []⟩

theorem twoFiles_reached : Reached twoFiles := by
  rw [twoFiles]
  exact foldlRecOn _ _ (.new 0 false _ none .nil) fun _ h c _ => h.step c

theorem published_twoFiles_reads :
    twoFiles.blobs.files = [⟨1, [⟨[0]⟩, ⟨[1]⟩], [0, 17]⟩, ⟨2, [⟨[1]⟩, ⟨[2]⟩], []⟩] ∧
    ∃ s', twoFiles.publish 1 = .ok s' ∧ s'.Direct := by
  refine ⟨by decide +kernel, ?_⟩
  rcases published_reads_directly twoFiles_reached 1 with hcap | ⟨s', hs', hdirect⟩
  · rw [publish, if_neg (by decide +kernel), if_neg] at hcap
    · cases hcap
    · rw [BlobManager.length_image]
      decide +kernel
  · refine ⟨s', hs', hdirect.mpr (.inr ?_)⟩
    rw [MarksFit]
    decide +kernel

/-! ### A count that is cut to zero -/

/-- A file of `n` values of one byte. -/
def filled (n : Nat) : BlobFile := ⟨1, List.replicate n ⟨[0]⟩, []⟩

theorem reached_filled (n : Nat) : ∃ s, Reached s ∧ s.blobs = ⟨[filled (n + 1)], 2, 0, 0, false,
    { SegmentCatalogState.default with persistedLengths := [(1, 0)] }⟩ := by
  induction n with
  | zero =>
    exact ⟨_, .step (.new 0 false (fun _ _ => makeKeyPrefix []) none .nil) (.append [] [0]), rfl⟩
  | succ n ih =>
    obtain ⟨s, hs, hb⟩ := ih
    have happend : (filled (n + 1)).append [0] = filled (n + 2) := by
      simp only [filled, BlobFile.append, replicate_succ']
    refine ⟨_, .step hs (.append [] [0]), ?_⟩
    rw [step, BlobStore.append, if_neg (by decide), hb]
    simp only [BlobManager.append, BlobManager.activeFile, BlobManager.shouldRollover, isEmpty_cons,
      Bool.false_and, Bool.or_self, Bool.false_eq_true, if_false, List.getLast?_singleton,
      dropLast_singleton, nil_append, happend]

/-- The values moved to a second file. -/
theorem reached_rewritten (n : Nat) : ∃ s, Reached s ∧ s.blobs.segmented = false ∧
    s.blobs.files = [(filled (n + 1)).markAllDeleted, ⟨2, [⟨[0]⟩], []⟩] := by
  obtain ⟨s, hs, hb⟩ := reached_filled n
  refine ⟨_, .step hs (.rewrite [([], [0])]), ?_⟩
  rw [step, if_neg (cons_ne_nil _ _), hb]
  exact ⟨rfl, rfl⟩

theorem length_recordOffsetsFrom : ∀ (start : Nat) (rs : List BlobRecord),
    (recordOffsetsFrom start rs).length = rs.length
  | _, [] => rfl
  | start, r :: rs => by rw [recordOffsetsFrom, length_cons, length_recordOffsetsFrom, length_cons]

/-- The marks of the first two records, taken for a descriptor. -/
theorem walkImage_marks {data rest : Bytes} {cursor count : Nat} {bases : List (Nat × Nat)}
    (hd : data.drop cursor = toLe 8 0 ++ (toLe 8 17 ++ rest)) (hlen : cursor ≤ isizeMax) :
    walkImage data (count + 1) cursor bases =
      .error (.corruption "invalid blob image descriptor") := by
  have hdesc : data.drop cursor = (toLe 8 0 ++ [17, 0, 0, 0]) ++ ([0, 0, 0, 0] ++ rest) := hd
  have hsmall : isizeMax + 12 + 17 * 2 ^ 32 ≤ u64Max := by decide
  have hfield : leAt (toLe 8 0 ++ [17, 0, 0, 0]) 4 8 = 17 * 2 ^ 32 := by decide
  have hread : readExactAt data cursor 12 = .ok (toLe 8 0 ++ [17, 0, 0, 0]) :=
    readExactAt_of_drop hdesc rfl (by decide)
  rw [walkImage, hread, ok_bind, checkedAdd_ok (by omega), ok_bind, hfield,
    checkedAdd_ok (by omega), ok_bind, addBase, if_pos (.inl rfl)]
  rfl

theorem size_filled (n : Nat) : (filled n).markAllDeleted.serializedSize = 17 * n := by
  simp [BlobFile.markAllDeleted, filled, BlobFile.serializedSize, streamSize,
    BlobRecord.serializedSize, blobOverheadSize, Nat.mul_comm]

theorem deletedCount_filled (n : Nat) : (filled n).markAllDeleted.deletedCount = n := by
  rw [BlobFile.deletedCount, BlobFile.markAllDeleted, BlobFile.recordOffsets,
    length_recordOffsetsFrom, filled, length_replicate]

/-- The section of a file whose records are all marked, up to its marks. -/
theorem imageSection_filled (prefixes : KeyPrefixes) (n : Nat) : ∃ (head more : Bytes),
    (filled (n + 2)).markAllDeleted.imageSection prefixes =
      head ++ (toLe 8 0 ++ (toLe 8 17 ++ more)) ∧ head.length = 16 + 17 * (n + 2) := by
  let f := (filled (n + 2)).markAllDeleted
  refine ⟨toLe 4 f.fileId ++ (toLe 8 (f.toBytes prefixes).length ++
    (f.toBytes prefixes ++ toLe 4 f.deletedCount)),
    (recordOffsetsFrom 34 (List.replicate n ⟨[0]⟩)).flatMap (toLe 8), ?_, ?_⟩
  · have hmarks : f.deletedOffsets.flatMap (toLe 8) = toLe 8 0 ++ (toLe 8 17 ++
        (recordOffsetsFrom 34 (List.replicate n ⟨[0]⟩)).flatMap (toLe 8)) := rfl
    rw [BlobFile.imageSection, hmarks]
    simp only [append_assoc, f]
  · simp only [length_append, length_toLe, BlobFile.length_toBytes, f, size_filled]
    omega

/-- With a count that is a multiple of 2³² the second file is not found. -/
theorem open_fails (n : Nat) (hn : (n + 2) % 2 ^ 32 = 0) (hmax : 25 * (n + 2) ≤ 2 ^ 62) :
    ∃ s s' p, Reached s ∧ s.publish 1 = .ok s' ∧ s'.blobs.read p = some [0] ∧
      DirectView.open s' = .error (.corruption "invalid blob image descriptor") := by
  obtain ⟨s, hs, hseg, hfiles⟩ := reached_rewritten (n + 1)
  have hi : isizeMax = 2 ^ 63 - 1 := rfl
  rcases hs.sound.publish 1 with hcap | ⟨s', hs', hsound, hpub, hmode, hfiles'⟩
  · exfalso
    rw [publish, if_neg (by rw [BlobManager.setGeneration, hseg]; exact Bool.false_ne_true),
      if_neg] at hcap
    · cases hcap
    · have hlast : (⟨2, [⟨[0]⟩], []⟩ : BlobFile).sectionSize = 33 := rfl
      rw [BlobManager.length_image, BlobManager.setGeneration, hfiles, sectionsSize,
        map_cons, map_cons, map_nil, sum_cons, sum_cons, sum_nil, hlast,
        BlobFile.sectionSize, size_filled, deletedCount_filled]
      omega
  rw [hseg] at hmode
  rw [hfiles] at hfiles'
  refine ⟨s, s', ⟨2, 0, 1⟩, hs, hs', ?_, ?_⟩
  · rw [BlobManager.read, BlobManager.fileById, hfiles']
    rfl
  · obtain ⟨head, more, hsection, hhead⟩ := imageSection_filled s'.prefixes n
    have hdrop := drop_toBytes s'.prefixes s'.blobs
    have hfresh := hsound.wf.freshIds
    rw [hfiles'] at hdrop hfresh
    rw [flatMap_cons, append_assoc] at hdrop
    obtain ⟨hvalid, hid, hnew⟩ := hfresh.1 _ (.head _)
    rw [hpub.open_image hsound.toKept hmode (by rw [hfiles']; exact cons_ne_nil _ _), hfiles']
    simp only [length_cons, length_nil]
    rw [walkImage_step hdrop (hpub.image hmode).2 hvalid hid hnew, size_filled,
      deletedCount_filled, hn, Nat.mul_zero, Nat.add_zero, ← hhead]
    -- the count says no marks, so the next turn stands in front of them
    rw [hsection, append_assoc, append_assoc, append_assoc] at hdrop
    rw [walkImage_marks (drop_of_drop hdrop) (by omega)]
    rfl

/-- Four billion marks, and a view of the published image does not open. -/
theorem published_open_fails : ∃ s s' p, Reached s ∧ s.publish 1 = .ok s' ∧
    s'.blobs.read p = some [0] ∧ DirectView.open s' =
      .error (.corruption "invalid blob image descriptor") :=
  open_fails (2 ^ 32 - 2) (by decide) (by decide)

end BlobStore

end SeerDb
