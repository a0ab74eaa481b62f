/-
# `SeerDb.Db.CatalogSpec` — what the publication of a segment catalog writes

The segment files come first: each is cut at the catalog frontier and the new records
are appended behind it, so that at no write a published record is missing.  The delta
log is cut at the frontier as well before the new frame is appended.
-/
import SeerDb.Blob.Frontier
import SeerDb.Db.Still

namespace SeerDb

open Lib List

/-! ## Records that are durable -/

/-- The segment file `id` begins with the records `rs`, and they are synced. -/
def Saves (segments : Segments) (id : Nat) (rs : List BlobRecord) : Prop :=
  ∃ segment, get id segments = some segment ∧ rs <+: segment.records ∧ rs.length ≤ segment.synced

def SavesAll (segments : Segments) (files : List BlobFile) : Prop :=
  ∀ f ∈ files, Saves segments f.fileId f.records

section

variable {segments segments' : Segments} {id : Nat} {rs rs' : List BlobRecord}
  {files files' : List BlobFile}

theorem Saves.stores (h : Saves segments id rs) : Stores segments id rs := by
  obtain ⟨segment, hget, hpre, -⟩ := h
  exact ⟨segment, hget, hpre⟩

theorem Saves.congr (h : Saves segments id rs) (hget : get id segments' = get id segments) :
    Saves segments' id rs := by
  obtain ⟨segment, hseg, hrest⟩ := h
  exact ⟨segment, hget.trans hseg, hrest⟩

theorem SavesAll.stores (h : SavesAll segments files) :
    ∀ f ∈ files, Stores segments f.fileId f.records :=
  fun f hf => (h f hf).stores

theorem SavesAll.subset (h : SavesAll segments files) (hsub : ∀ f ∈ files', f ∈ files) :
    SavesAll segments files' :=
  fun f hf => h f (hsub f hf)

end

/-- Only the segment files differ, and they have the records of `files`. -/
def Disk.Segmented (d : Disk) (files : List BlobFile) (d' : Disk) : Prop :=
  ∃ segments, d' = { d with segments := segments } ∧ Sorted segments ∧ SavesAll segments files

variable {d : Disk}

theorem Disk.Segmented.trans {d' d'' : Disk} {files files' : List BlobFile}
    (h : d.Segmented files d') (h' : d'.Segmented files' d'') : d.Segmented files' d'' := by
  obtain ⟨segments, rfl, -⟩ := h
  obtain ⟨segments', rfl, hrest⟩ := h'
  exact ⟨segments', rfl, hrest⟩

theorem Disk.Segmented.subset {d' : Disk} {files files' : List BlobFile} (h : d.Segmented files d')
    (hsub : ∀ f ∈ files', f ∈ files) : d.Segmented files' d' := by
  obtain ⟨segments, rfl, hsorted, hsaves⟩ := h
  exact ⟨segments, rfl, hsorted, hsaves.subset hsub⟩

theorem Disk.deltaFrames_eq (d : Disk) : d.deltaFrames = (DB.deltaFile d).records := by
  rw [deltaFrames, DB.deltaFile]
  cases d.blobDelta <;> rfl

theorem SegmentCatalogDelta.size_pos (frame : SegmentCatalogDelta) : 0 < frame.size := by
  rw [SegmentCatalogDelta.size]
  omega

namespace DB

/-! ## Segment files -/

section

variable {w : World DB Disk} {published kept : List BlobFile} {f : BlobFile} {C : Disk → Prop}
  {E : Error → World DB Disk → Prop} {segment : LogFile BlobRecord}

theorem within_streamSize {rs rs' : List BlobRecord} (h : rs <+: rs') :
    LogFile.within BlobRecord.serializedSize (streamSize rs) rs' = rs := by
  obtain ⟨rest, rfl⟩ := h
  exact LogFile.within_bytes_append BlobRecord.serializedSize_pos rs rest

/-- The part of a file that the catalog covers. -/
theorem covered (h : Follows published w.handle.blobs) (hf : f ∈ w.handle.blobs.files) :
    ∃ rs, rs <+: f.records ∧ w.handle.blobs.persistedSegmentLength f.fileId = streamSize rs ∧
      ((rs = [] ∧ ∀ p ∈ published, p.fileId ≠ f.fileId) ∨ ∃ p ∈ published, p.fileId = f.fileId ∧
        p.records = rs) := by
  cases hp : fileAt published f.fileId with
  | some p =>
    obtain ⟨hmem, hid⟩ := fileAt_mem hp
    refine ⟨p.records, (h.grown p hmem f hf hid.symm).1, ?_, .inr ⟨p, hmem, hid, rfl⟩⟩
    rw [← hid]
    exact h.persistedLength hmem
  | none =>
    refine ⟨[], nil_prefix, ?_, .inl ⟨rfl, fun p hmem hid => ?_⟩⟩
    · rw [BlobManager.persistedSegmentLength]
      rcases h.lengths f.fileId with hlen | ⟨-, hlen⟩
      · rw [hlen, hp]
        rfl
      · rw [hlen]
        rfl
    · rw [← hid, fileAt_self h.sorted hmem] at hp
      cases hp

theorem Segmented.upsert {d : Disk} {id : Nat} (hs : Sorted d.segments)
    (hother : ∀ g ∈ kept, g.fileId ≠ id → Saves d.segments g.fileId g.records)
    (hself : ∀ g ∈ kept, g.fileId = id → g.records <+: segment.records ∧
      g.records.length ≤ segment.synced) :
    d.Segmented kept { d with segments := upsert id segment d.segments } := by
  refine ⟨_, rfl, sorted_upsert hs, fun g hg => ?_⟩
  by_cases hid : g.fileId = id
  · refine ⟨segment, ?_, hself g hg hid⟩
    rw [get_upsert hs, if_pos hid]
  · refine (hother g hg hid).congr ?_
    rw [get_upsert hs, if_neg hid]

/-- The disk with a segment file replaced. -/
def putSegment (d : Disk) (id : Nat) (segment : LogFile BlobRecord) : Disk :=
  { d with segments := upsert id segment d.segments }

theorem sorted_putSegment (hs : Sorted d.segments) (id : Nat) (segment : LogFile BlobRecord) :
    Sorted (putSegment d id segment).segments := sorted_upsert hs

theorem segmentFile_putSegment (hs : Sorted d.segments) (id : Nat) (segment : LogFile BlobRecord) :
    segmentFile (putSegment d id segment) id = segment := by
  rw [segmentFile, putSegment, get_upsert hs, if_pos rfl]
  rfl

theorem setSegment_runs {α : Type} {k : Unit → DbM α} {Q : α → World DB Disk → Prop}
    {id : Nat} {u : LogFile BlobRecord → LogFile BlobRecord}
    (hu : u (segmentFile w.disk id) = segment) (hC : C (putSegment w.disk id segment))
    (h : Runs C (k ()) ⟨w.handle, putSegment w.disk id segment,
      putSegment w.disk id segment :: w.trace⟩ Q E) :
    Runs C (setSegment id u >>= k) w Q E := by
  subst hu
  exact .write hC h

theorem of_setSegment {Q : Unit → World DB Disk → Prop} {id : Nat}
    {u : LogFile BlobRecord → LogFile BlobRecord}
    (hu : u (segmentFile w.disk id) = segment) (hC : C (putSegment w.disk id segment))
    (h : Q () ⟨w.handle, putSegment w.disk id segment, putSegment w.disk id segment :: w.trace⟩) :
    Runs C (setSegment id u) w Q E := by
  subst hu
  exact .of_write hC h

/-- One segment file.  `kept` are the records that must be there all the time. -/
theorem writeSegmentSuffix_runs (kept : List BlobFile) (h : Follows published w.handle.blobs)
    (hf : f ∈ w.handle.blobs.files) (hs : Sorted w.disk.segments)
    (hkept : SavesAll w.disk.segments kept) (hpub : ∀ p ∈ published, p ∈ kept)
    (howes : ∀ g ∈ kept, g.fileId = f.fileId → ∃ p ∈ published, p.fileId = f.fileId ∧
      g.records <+: p.records) :
    Runs (w.disk.Segmented kept) (writeSegmentSuffix f) w
      (fun _ w' => w'.handle = w.handle ∧ w.disk.Segmented (f :: kept) w'.disk)
      (fun _ _ => False) := by
  obtain ⟨rs, hrs, hlen, hcase⟩ := covered h hf
  have hfile : rs <+: (segmentFile w.disk f.fileId).records ∧
    rs.length ≤ (segmentFile w.disk f.fileId).synced := by
    rcases hcase with ⟨rfl, -⟩ | ⟨p, hp, hid, rfl⟩
    · exact ⟨List.nil_prefix, Nat.zero_le _⟩
    · obtain ⟨segment, hget, hpre, hsynced⟩ := hkept p (hpub p hp)
      rw [segmentFile, ← hid, hget]
      exact ⟨hpre, hsynced⟩
  have hold : ∀ g ∈ kept, g.fileId = f.fileId → g.records <+: rs := by
    intro g hg hid
    obtain ⟨p, hp, hpid, hpre⟩ := howes g hg hid
    rcases hcase with ⟨-, hnone⟩ | ⟨p', hp', hpid', rfl⟩
    · exact absurd hpid (hnone p hp)
    obtain rfl : p = p' := by
      have heq := fileAt_self h.sorted hp
      rw [hpid, ← hpid', fileAt_self h.sorted hp'] at heq
      exact (Option.some.inj heq).symm
    exact hpre
  have hsuffix : rs ++ suffixRecords f (streamSize rs) = f.records := by
    rw [suffixRecords, within_streamSize hrs]
    exact prefix_iff_eq_append.mp hrs
  refine .handle (.disk ?_)
  simp only [hlen]
  refine .check (fun hfalse => ?_) fun _ => .runIf (fun _ => ?_) fun heq => ⟨rfl, ?_⟩
  · exact absurd (streamSize_mono hrs) (of_decide_eq_false hfalse)
  · refine .check (fun hfalse => ?_) fun _ => ?_
    · obtain ⟨rest, hrest⟩ := hfile.1
      refine absurd ?_ (of_decide_eq_false hfalse)
      rw [LogFile.length, ← hrest, LogFile.bytes_append]
      exact (Nat.le_add_right _ _).trans (Nat.le_add_right _ _)
    · have hstep : ∀ {d : Disk} (segment : LogFile BlobRecord), w.disk.Segmented kept d →
          rs <+: segment.records → rs.length ≤ segment.synced →
            w.disk.Segmented kept (putSegment d f.fileId segment) := by
        intro d segment hd hpre hsynced
        obtain ⟨segments, rfl, hsorted, hsaves⟩ := hd
        refine Disk.Segmented.trans ⟨segments, rfl, hsorted, hsaves⟩ (Segmented.upsert hsorted
          (fun g hg _ => hsaves g hg) fun g hg hid => ⟨(hold g hg hid).trans hpre, ?_⟩)
        exact (hold g hg hid).length_le.trans hsynced
      have htrunc : (segmentFile w.disk f.fileId).truncate BlobRecord.serializedSize
          (streamSize rs) = ⟨rs, 0, rs.length⟩ := by
        obtain ⟨rest, hrest⟩ := hfile.1
        rw [show streamSize rs = LogFile.bytes BlobRecord.serializedSize rs from rfl,
          LogFile.truncate_bytes BlobRecord.serializedSize_pos hrest.symm, Nat.min_eq_right hfile.2]
      have h₁ := hstep ⟨rs, 0, rs.length⟩ ⟨_, rfl, hs, hkept⟩ (prefix_refl _) le_rfl
      have h₂ := hstep ⟨f.records, 0, rs.length⟩ h₁ hrs le_rfl
      have h₃ := hstep ⟨f.records, 0, f.records.length⟩ h₂ hrs hrs.length_le
      refine setSegment_runs htrunc h₁ (setSegment_runs ?_ h₂ (of_setSegment ?_ h₃ ⟨rfl, ?_⟩))
      · simp only [segmentFile_putSegment hs]
        rw [LogFile.appendAll_of_clean rfl, hsuffix]
      · exact congrArg LogFile.sync (segmentFile_putSegment (sorted_putSegment hs _ _) _ _)
      · obtain ⟨segments, hd, hsorted, hsaves⟩ := h₃
        refine ⟨segments, hd, hsorted, forall_mem_cons.mpr ⟨?_, hsaves⟩⟩
        refine ⟨⟨f.records, 0, f.records.length⟩, ?_, prefix_refl _, le_rfl⟩
        have hsegs : segments = (putSegment _ f.fileId _).segments :=
          (congrArg Disk.segments hd).symm
        rw [hsegs]
        exact (get_upsert (sorted_putSegment (sorted_putSegment hs _ _) _ _) _ _ _).trans
          (if_pos rfl)
  · refine ⟨w.disk.segments, rfl, hs, forall_mem_cons.mpr ⟨?_, hkept⟩⟩
    have hsize : streamSize rs = streamSize f.records :=
      (not_ne_iff.mp (of_decide_eq_false heq)).symm
    rcases hcase with ⟨rfl, -⟩ | ⟨p, hp, hid, rfl⟩
    · exact absurd hsize.symm (streamSize_pos (h.noEmpty f hf)).ne'
    · rw [← eq_of_streamSize_eq hrs hsize, ← hid]
      exact hkept p (hpub p hp)

/-- What a publication starts from: `kept` has the published records, and they are on the disk. -/
structure Backed (kept published : List BlobFile) (b : BlobManager)
    (segments : Segments) : Prop where
  follows : Follows published b
  sorted : Sorted segments
  saved : SavesAll segments kept
  owes : Owes kept published b
  published : ∀ p ∈ published, p ∈ kept

/-- All of them. -/
theorem writeSegmentSuffixes_runs (h : Backed kept published w.handle.blobs w.disk.segments) :
    Runs (w.disk.Segmented kept) writeSegmentSuffixes w
      (fun _ w' => w'.handle = w.handle ∧ w.disk.Segmented (w.handle.blobs.files ++ kept) w'.disk)
      (fun _ _ => False) := by
  refine .handle (.forEach_mem
    (I := fun pre w' => w'.handle = w.handle ∧ w.disk.Segmented (pre ++ kept) w'.disk) ?_ ⟨rfl, _,
      rfl, h.sorted, h.saved⟩)
  intro pre f post w' hfiles ⟨hhandle, hseg⟩
  have hf : f ∈ w'.handle.blobs.files := by
    rw [hhandle, hfiles]
    exact mem_append_cons_self
  have hids := h.follows.wf.ids
  rw [hfiles] at hids
  have hlt : ∀ g ∈ pre, g.fileId < f.fileId := fun g hg =>
    (pairwise_append.mp hids).2.2 g hg f (.head _)
  obtain ⟨segments, hd, hsorted, hsaves⟩ := hseg
  have hrun := writeSegmentSuffix_runs (pre ++ kept) (hhandle ▸ h.follows) hf (hd ▸ hsorted)
    (hd ▸ hsaves) (fun p hp => mem_append_right _ (h.published p hp)) fun g hg hid => ?_
  · refine hrun.mono (fun d hd' => ?_) (fun _ w'' ⟨hh, hseg'⟩ => ⟨hh.trans hhandle, ?_⟩)
      fun _ _ hf => hf
    · exact Disk.Segmented.trans ⟨segments, hd, hsorted, hsaves⟩
        (hd'.subset fun g hg => mem_append_right _ hg)
    · refine Disk.Segmented.trans ⟨segments, hd, hsorted, hsaves⟩ (hseg'.subset fun g hg => ?_)
      rw [append_assoc, mem_append, singleton_append, mem_cons] at hg
      rcases hg with hg | rfl | hg
      · exact .tail _ (mem_append_left _ hg)
      · exact .head _
      · exact .tail _ (mem_append_right _ hg)
  · rcases mem_append.mp hg with hg | hg
    · exact absurd hid (hlt g hg).ne
    · exact (h.owes g hg).2 f (hhandle ▸ hf) hid

/-! ## The delta log -/

/-- The frames that stay when the next one is appended. -/
def coveredFrames (db : DB) (d : Disk) : List SegmentCatalogDelta :=
  (deltaFile d).records.takeWhile fun frame =>
    frame.generationId ≤ db.blobs.catalog.persistedGenerationId

theorem appendSegmentCatalogDelta_runs {frames : List SegmentCatalogDelta}
    (h : coveredFrames w.handle w.disk = frames)
    (hsynced : frames.length ≤ (deltaFile w.disk).synced) :
    Runs (fun _ => True) appendSegmentCatalogDelta w
      (fun _ w' => w'.handle = w.handle ∧ w'.disk = { w.disk with
        blobDelta := some ⟨frames ++ [w.handle.blobs.toSegmentCatalogDelta],
          0, frames.length + 1⟩ })
      (fun _ _ => False) := by
  subst h
  have htrunc : (deltaFile w.disk).truncate SegmentCatalogDelta.size
      (LogFile.bytes SegmentCatalogDelta.size (coveredFrames w.handle w.disk)) =
      ⟨coveredFrames w.handle w.disk, 0, (coveredFrames w.handle w.disk).length⟩ := by
    have hpre : coveredFrames w.handle w.disk <+: (deltaFile w.disk).records := takeWhile_prefix _
    obtain ⟨rest, hrest⟩ := hpre
    rw [LogFile.truncate_bytes SegmentCatalogDelta.size_pos hrest.symm, Nat.min_eq_right hsynced]
  have hlog := congrArg (fun log =>
    (log.append SegmentCatalogDelta.size w.handle.blobs.toSegmentCatalogDelta).sync) htrunc
  refine .handle (.write trivial (.write trivial (.of_write trivial ⟨rfl, ?_⟩)))
  refine (congrArg (fun log => ({ w.disk with blobDelta := some log } : Disk)) hlog).trans ?_
  simp only [LogFile.append_of_clean, LogFile.sync, length_append, length_singleton]

/-! ## A catalog -/

/-- The directory before a full catalog is written: the old one is kept aside. -/
def setAside (db : DB) (d : Disk) : Disk :=
  if d.blobBackup.isNone then match d.blob with
    | some artifact => { d with blob := none, blobBackup := some artifact }
    | none => { d with blobBackup := some (.catalog db.emptyCatalog) }
  else d

@[simp] theorem setAside_segments (db : DB) (d : Disk) : (setAside db d).segments = d.segments := by
  rw [setAside]
  split
  · split <;> rfl
  · rfl

theorem setAside_backup (db : DB) (d : Disk) : (setAside db d).blobBackup.isSome := by
  rw [setAside]
  split
  · split <;> rfl
  · rename_i h
    exact Option.isSome_iff_ne_none.mpr fun hnone => h (Option.isNone_iff_eq_none.mpr hnone)

theorem prepareSegmentCatalogBackup_runs : Runs (fun _ => True) (prepareSegmentCatalogBackup true) w
      (fun _ w' => w'.handle = w.handle ∧ w'.disk = setAside w.handle w.disk) E := by
  refine .handle (.disk ?_)
  rw [setAside]
  refine .runIf (fun hnone => ?_) fun hsome => ?_
  · rw [Bool.true_and] at hnone
    rw [if_pos hnone]
    exact .of_write trivial ⟨rfl, rfl⟩
  · rw [Bool.true_and] at hsome
    rw [if_neg (Bool.eq_false_iff.mp hsome)]
    exact ⟨rfl, rfl⟩

/-- **A full catalog.** -/
theorem writeBlobSegments_consolidates
    (hneeded : w.handle.segmentedCatalogConsolidationNeeded w.disk)
    (h : Backed kept published w.handle.blobs w.disk.segments) :
    Runs (fun _ => True) writeBlobSegments w
      (fun _ w' => w'.handle = { w.handle with
        blobs := w.handle.blobs.markSegmentCatalogConsolidated } ∧
        ∃ d, (setAside w.handle w.disk).Segmented (w.handle.blobs.files ++ kept) d ∧
          w'.disk = { d with blob := some (.catalog w.handle.blobs.toSegmentCatalog) })
      (fun _ _ => False) := by
  refine .handle (.disk ?_)
  simp only [hneeded]
  refine .bind prepareSegmentCatalogBackup_runs fun _ w₁ ⟨hh₁, hd₁⟩ => ?_
  rw [← setAside_segments w.handle, ← hd₁, ← hh₁] at h
  have hrun := writeSegmentSuffixes_runs h
  rw [hh₁, hd₁] at hrun
  refine .bind (hrun.mono (fun _ _ => trivial) (fun _ _ hq => hq) fun _ _ hf => hf)
    fun _ w₂ ⟨hh₂, hd₂⟩ => ?_
  rw [publishSegmentCatalog]
  refine .handle (.ite (fun _ => ?_) fun hfalse => absurd rfl hfalse)
  rw [hh₂]
  exact .write trivial (.of_modifyHandle ⟨by rw [hh₂], _, hd₂, rfl⟩)

/-- **A delta.** -/
theorem writeBlobSegments_appends (hneeded :
    w.handle.segmentedCatalogConsolidationNeeded w.disk = false)
    (h : Backed kept published w.handle.blobs w.disk.segments) {frames : List SegmentCatalogDelta}
    (hframes : coveredFrames w.handle w.disk = frames)
    (hsynced : frames.length ≤ (deltaFile w.disk).synced) :
    Runs (fun _ => True) writeBlobSegments w
      (fun _ w' => w'.handle = { w.handle with blobs := w.handle.blobs.markSegmentDeltaPersisted } ∧
        ∃ d, w.disk.Segmented (w.handle.blobs.files ++ kept) d ∧ w'.disk = { d with
          blobDelta := some ⟨frames ++ [w.handle.blobs.toSegmentCatalogDelta],
            0, frames.length + 1⟩ })
      (fun _ _ => False) := by
  refine .handle (.disk ?_)
  simp only [hneeded]
  refine .bind (R := fun _ w' => w = w') (.handle (.disk (.pure rfl))) ?_
  rintro _ w' hw
  rw [← hw]
  refine .bind ((writeSegmentSuffixes_runs h).mono (fun _ _ => trivial)
    (fun _ _ hq => hq) fun _ _ hf => hf) fun _ w₂ ⟨hh₂, hd₂⟩ => ?_
  have hlog : deltaFile w₂.disk = deltaFile w.disk := by
    obtain ⟨segments, hdisk, -⟩ := hd₂
    rw [hdisk]
    rfl
  rw [coveredFrames, ← hlog, ← hh₂] at hframes
  rw [publishSegmentCatalog]
  refine .handle (.ite (fun htrue => absurd htrue Bool.false_ne_true) fun _ => ?_)
  have hrun := appendSegmentCatalogDelta_runs (w := w₂) hframes (hlog ▸ hsynced)
  rw [hh₂] at hrun
  refine .bind hrun fun _ w₃ ⟨hh₃, hd₃⟩ => ?_
  exact .of_modifyHandle ⟨by rw [hh₃], _, hd₂, hd₃⟩

theorem finishSegmentCatalogBackup_runs : Runs (fun _ => True) finishSegmentCatalogBackup w
      (fun _ w' => w'.handle = w.handle ∧ w'.disk = if w.disk.blobBackup.isSome
        then { w.disk with blobBackup := none, blobDelta := none } else w.disk) E := by
  refine .disk (.runIf (fun hsome => ?_) fun hnone => ⟨rfl, by rw [hnone]; rfl⟩)
  rw [if_pos hsome]
  refine .write trivial (.disk (.runIf (fun _ => ?_) fun hnone => ⟨rfl, ?_⟩))
  · exact .of_write trivial ⟨rfl, rfl⟩
  · have hlog : w.disk.blobDelta = none :=
      Option.isSome_eq_false_iff.mp hnone |> Option.isNone_iff_eq_none.mp
    simp only [hlog]

end

end DB

end SeerDb
