/-
# `SeerDb.Blob.Replay` — replaying a segment catalog

A delta is the difference between the live files and a frontier that the manager keeps
beside them: for each file the length and the marks that the durable catalog has.
`Follows` says how the live files have moved away from the published ones, `Mirrors`
what a reader has after replaying the catalog.
-/
import SeerDb.Blob.Spec
import Mathlib.Data.List.Dedup

namespace SeerDb

open Lib List

/-! ## Files by their id -/

def fileAt (files : List BlobFile) (id : Nat) : Option BlobFile :=
  files.find? fun f => f.fileId = id

/-- The files as a map. -/
def byId (files : List BlobFile) : List (Nat × BlobFile) := files.map fun f => (f.fileId, f)

section

variable {files files' : List BlobFile} {f : BlobFile} {id : Nat}

theorem get_byId (id : Nat) : get id (byId files) = fileAt files id := by
  rw [fileAt]
  induction files with
  | nil => rfl
  | cons f files ih =>
    rw [byId, map_cons, Lib.get, lookup_cons]
    by_cases h : f.fileId = id
    · rw [List.find?_cons_of_pos (by simpa using h), beq_iff_eq.mpr h.symm]
    · rw [List.find?_cons_of_neg (by simpa using h), beq_eq_false_iff_ne.mpr (Ne.symm h)]
      exact ih

theorem sorted_byId : Sorted (byId files) ↔ files.Pairwise fun f g =>
    f.fileId < g.fileId := pairwise_map

theorem byId_upsertFile (f : BlobFile) (files : List BlobFile) :
    byId (BlobManager.upsertFile f files) = upsert f.fileId f (byId files) := by
  induction files with
  | nil => rfl
  | cons g files ih =>
    show byId (BlobManager.upsertFile f (g :: files)) =
      upsert f.fileId f ((g.fileId, g) :: byId files)
    rw [BlobManager.upsertFile, upsert]
    split
    · rfl
    · split
      · rfl
      · exact congrArg _ ih

theorem byId_filter (id : Nat) (files : List BlobFile) :
    byId (files.filter fun f => f.fileId ≠ id) = erase id (byId files) := by
  rw [byId, byId, erase, filter_map]
  rfl

/-- Sorted files are determined by their map. -/
theorem files_ext (h : files.Pairwise fun f g => f.fileId < g.fileId)
    (h' : files'.Pairwise fun f g => f.fileId < g.fileId)
    (heq : ∀ id, fileAt files id = fileAt files' id) :
    files = files' := by
  have hmaps : byId files = byId files' :=
    eq_of_get (sorted_byId.mpr h) (sorted_byId.mpr h') fun id => by rw [get_byId, get_byId, heq]
  have hfiles := congrArg (List.map Prod.snd) hmaps
  simpa [byId, map_map, Function.comp_def] using hfiles

theorem fileAt_mem (h : fileAt files id = some f) : f ∈ files ∧ f.fileId = id :=
  ⟨mem_of_find?_eq_some h, by simpa using List.find?_some h⟩

theorem fileAt_self (h : files.Pairwise fun f g => f.fileId < g.fileId) (hf : f ∈ files) :
    fileAt files f.fileId = some f := by
  rw [← get_byId, get_eq_some_iff (sorted_byId.mpr h)]
  exact mem_map_of_mem (f := fun f : BlobFile => (f.fileId, f)) hf

/-- A list of values kept per file. -/
theorem get_perFile {β : Type} (value : BlobFile → β) (files : List BlobFile) (id : Nat) :
    get id (files.map fun f => (f.fileId, value f)) = (fileAt files id).map value := by
  rw [fileAt]
  induction files with
  | nil => rfl
  | cons f files ih =>
    rw [map_cons, Lib.get, lookup_cons]
    by_cases h : f.fileId = id
    · rw [List.find?_cons_of_pos (by simpa using h), beq_iff_eq.mpr h.symm]
      rfl
    · rw [List.find?_cons_of_neg (by simpa using h), beq_eq_false_iff_ne.mpr (Ne.symm h)]
      exact ih

end

/-! ## Segment files -/

/-- The segment file `id` begins with the records `rs`. -/
def Stores (segments : Segments) (id : Nat) (rs : List BlobRecord) : Prop :=
  ∃ segment, get id segments = some segment ∧ rs <+: segment.records

theorem readPrefix_eq {segment : LogFile BlobRecord} {rs : List BlobRecord}
    (h : rs <+: segment.records) :
    readPrefix segment (streamSize rs) = some rs := by
  obtain ⟨rest, hrest⟩ := h
  have hwithin : LogFile.within BlobRecord.serializedSize (streamSize rs) segment.records = rs := by
    rw [← hrest]
    exact LogFile.within_bytes_append BlobRecord.serializedSize_pos rs rest
  rw [readPrefix]
  simp only [hwithin, if_true]

/-- The id is one that a catalog may name, and the marks are on records. -/
structure BlobFile.Sane (f : BlobFile) : Prop where
  pos : 0 < f.fileId
  lt : f.fileId < u32Max
  sorted : f.deletedOffsets.Pairwise (· < ·)
  marks : ∀ o ∈ f.deletedOffsets, f.hasRecordAt o

theorem BlobManager.WF.sane {b : BlobManager} (h : b.WF) : ∀ f ∈ b.files, f.Sane := fun f hf =>
  ⟨(h.valid f hf).1, (h.valid f hf).2.trans_le h.next_le, h.marks_sorted f hf, h.marks f hf⟩

theorem loadSegment_eq {segments : Segments} {f : BlobFile} (hf : f.Sane)
    (h : Stores segments f.fileId f.records) :
    BlobManager.loadSegment segments f.fileId f.serializedSize f.deletedOffsets = some f := by
  obtain ⟨segment, hget, hpre⟩ := h
  rw [BlobManager.loadSegment, hget]
  simp only [BlobFile.serializedSize, readPrefix_eq hpre]
  exact BlobManager.loadFile_eq hf.sorted hf.marks

/-! ## Marks -/

theorem marks_ext {l l' : List Nat} (h : l.Pairwise (· < ·)) (h' : l'.Pairwise (· < ·))
    (heq : ∀ o, o ∈ l ↔ o ∈ l') :
    l = l' := by
  have hnodup : ∀ {l : List Nat}, l.Pairwise (· < ·) → l.Nodup := fun h => h.imp fun hlt => hlt.ne
  exact ((perm_ext_iff_of_nodup (hnodup h) (hnodup h')).mpr heq).eq_of_pairwise
    (fun _ _ _ _ hab hba => absurd (hab.trans hba) (lt_irrefl _)) h h'

theorem addDeleted_spec : ∀ (marks prev : List Nat), prev.Pairwise (· < ·) → marks.Nodup →
    (∀ o ∈ marks, o ∉ prev) → ∃ all, BlobManager.addDeleted marks prev = some all ∧
    all.Pairwise (· < ·) ∧ ∀ o, o ∈ all ↔ o ∈ prev ∨ o ∈ marks
  | [], prev, hprev, _, _ => ⟨prev, rfl, hprev, by simp⟩
  | o :: marks, prev, hprev, hnodup, hout => by
    obtain ⟨hfresh, hnodup⟩ := nodup_cons.mp hnodup
    have ho := hout o (.head _)
    obtain ⟨all, hall, hsorted, hmem⟩ := addDeleted_spec marks (prev.orderedInsert (· ≤ ·) o)
      (BlobManager.pairwise_orderedInsert hprev ho) hnodup fun x hx hin => by
        rcases (mem_orderedInsert _).mp hin with rfl | hin
        · exact hfresh hx
        · exact hout x (.tail _ hx) hin
    refine ⟨all, ?_, hsorted, fun x => ?_⟩
    · rw [BlobManager.addDeleted, if_neg ho]
      exact hall
    · rw [hmem, mem_orderedInsert, mem_cons]
      tauto

/-- The new marks, added to the old ones, are all marks. -/
theorem addDeleted_filter {prev all : List Nat} (hprev : prev.Pairwise (· < ·))
    (hall : all.Pairwise (· < ·)) (hsub : ∀ o ∈ prev, o ∈ all) :
    BlobManager.addDeleted (all.filter fun o => o ∉ prev) prev = some all := by
  obtain ⟨found, hfound, hsorted, hmem⟩ := addDeleted_spec (all.filter fun o => o ∉ prev) prev hprev
    ((hall.imp fun hlt => hlt.ne).filter _) fun o ho => by simpa using (mem_filter.mp ho).2
  rw [hfound, marks_ext hsorted hall fun o => ?_]
  rw [hmem, mem_filter]
  constructor
  · rintro (h | h)
    · exact hsub o h
    · exact h.1
  · intro h
    by_cases hp : o ∈ prev
    · exact .inl hp
    · exact .inr ⟨h, by simpa using hp⟩

/-! ## A reader -/

/-- What a reader has after a replay: the files, and for each of them the frontier. -/
structure Mirrors (r : BlobManager) (files : Nat → Option BlobFile) : Prop where
  ids : r.files.Pairwise fun f g => f.fileId < g.fileId
  file : ∀ id, r.fileById id = files id
  sane : ∀ id f, files id = some f → f.Sane
  next_pos : 0 < r.nextFileId
  next_le : r.nextFileId ≤ u32Max
  next : ∀ id f, files id = some f → id < r.nextFileId
  segmented : r.segmented = true
  lengths_sorted : Sorted r.catalog.persistedLengths
  lengths : ∀ id, get id r.catalog.persistedLengths = (files id).map BlobFile.serializedSize
  marks_sorted : Sorted r.catalog.persistedDeletedOffsets
  marks : ∀ id, get id r.catalog.persistedDeletedOffsets = (files id).map BlobFile.deletedOffsets

theorem Mirrors.files_eq {r : BlobManager} {files : List BlobFile} (h : Mirrors r (fileAt files))
    (hs : files.Pairwise fun f g => f.fileId < g.fileId) : r.files = files :=
  files_ext h.ids hs h.file

/-- Replaying an entry leaves the rest of the reader alone. -/
structure SameHead (r r' : BlobManager) : Prop where
  threshold : r'.threshold = r.threshold
  generationId : r'.generationId = r.generationId
  count : r'.catalog.catalogDeltaCount = r.catalog.catalogDeltaCount

theorem Mirrors.upsert {r : BlobManager} {files : Nat → Option BlobFile}
    {segments : Segments} {f : BlobFile}
    {marks : List Nat} (h : Mirrors r files) (hf : f.Sane)
    (hstored : Stores segments f.fileId f.records)
    (hlen : ∀ g, files f.fileId = some g → g.serializedSize ≤ f.serializedSize)
    (hmarks : BlobManager.addDeleted marks
      (((files f.fileId).map BlobFile.deletedOffsets).getD []) = some f.deletedOffsets) :
    ∃ r', BlobManager.applyDeltaEntry segments r (.upsert f.fileId f.serializedSize marks) =
      some r' ∧ Mirrors r' (Function.update files f.fileId (some f)) ∧ SameHead r r' := by
  have hshort : ¬ (get f.fileId r.catalog.persistedLengths).any (fun previous => f.serializedSize <
    previous) = true := by
    rw [h.lengths]
    cases hg : files f.fileId with
    | none => simp
    | some g => simpa using hlen g hg
  refine ⟨{ r with
    files := BlobManager.upsertFile f r.files
    nextFileId := max r.nextFileId (f.fileId + 1)
    catalog := { r.catalog with
      persistedLengths := Lib.upsert f.fileId f.serializedSize r.catalog.persistedLengths
      persistedDeletedOffsets := Lib.upsert f.fileId f.deletedOffsets
        r.catalog.persistedDeletedOffsets } },
    ?_, ?_, rfl, rfl, rfl⟩
  · rw [BlobManager.applyDeltaEntry, if_neg hshort, h.marks]
    simp only [hmarks, loadSegment_eq hf hstored]
  have hfiles : ∀ id, fileAt (BlobManager.upsertFile f r.files) id =
    Function.update files f.fileId (some f) id := by
    intro id
    rw [← get_byId, byId_upsertFile, get_upsert (sorted_byId.mpr h.ids), get_byId,
      Function.update_apply]
    split
    · rfl
    · exact h.file id
  have hone : ∀ {id : Nat} {g : BlobFile}, Function.update files f.fileId (some f) id = some g →
      (id = f.fileId ∧ g = f) ∨ files id = some g := by
    intro id g hg
    rw [Function.update_apply] at hg
    split at hg
    · rename_i hid
      exact .inl ⟨hid, (Option.some.inj hg).symm⟩
    · exact .inr hg
  refine ⟨?_, hfiles, ?_, ?_, ?_, ?_, h.segmented, sorted_upsert h.lengths_sorted, ?_,
    sorted_upsert h.marks_sorted, ?_⟩
  · rw [← sorted_byId, byId_upsertFile]
    exact sorted_upsert (sorted_byId.mpr h.ids)
  · intro id g hg
    rcases hone hg with ⟨-, rfl⟩ | hg
    · exact hf
    · exact h.sane id g hg
  · exact lt_of_lt_of_le h.next_pos (le_max_left _ _)
  · exact max_le h.next_le hf.lt
  · intro id g hg
    rcases hone hg with ⟨rfl, -⟩ | hg
    · exact lt_of_lt_of_le (Nat.lt_succ_self _) (le_max_right _ _)
    · exact lt_of_lt_of_le (h.next id g hg) (le_max_left _ _)
  · intro id
    rw [get_upsert h.lengths_sorted, Function.update_apply]
    split
    · rfl
    · exact h.lengths id
  · intro id
    rw [get_upsert h.marks_sorted, Function.update_apply]
    split
    · rfl
    · exact h.marks id

theorem Mirrors.remove {r : BlobManager} {files : Nat → Option BlobFile}
    (segments : Segments) {id : Nat} (h : Mirrors r files) (hid : (files id).isSome) :
    ∃ r', BlobManager.applyDeltaEntry segments r (.remove id) = some r' ∧
      Mirrors r' (Function.update files id none) ∧ SameHead r r' := by
  obtain ⟨f, hf⟩ := Option.isSome_iff_exists.mp hid
  refine ⟨{ r with
    files := r.files.filter fun f => f.fileId ≠ id
    catalog := { r.catalog with
      persistedLengths := Lib.erase id r.catalog.persistedLengths
      persistedDeletedOffsets := Lib.erase id r.catalog.persistedDeletedOffsets } },
    by simp only [BlobManager.applyDeltaEntry, h.file, hf], ?_, rfl, rfl, rfl⟩
  have hone : ∀ {i : Nat} {g : BlobFile}, Function.update files id none i = some g →
    files i = some g := by
    intro i g hg
    rw [Function.update_apply] at hg
    split at hg
    · cases hg
    · exact hg
  refine ⟨h.ids.sublist filter_sublist, fun i => ?_, fun i g hg => h.sane i g (hone hg),
    h.next_pos, h.next_le, fun i g hg => h.next i g (hone hg), h.segmented,
    sorted_erase h.lengths_sorted, fun i => ?_, sorted_erase h.marks_sorted, fun i => ?_⟩
  · show fileAt (r.files.filter fun f => f.fileId ≠ id) i = _
    rw [← get_byId, byId_filter, get_erase, get_byId, Function.update_apply]
    split
    · rfl
    · exact h.file i
  · rw [get_erase, Function.update_apply]
    split
    · rfl
    · exact h.lengths i
  · rw [get_erase, Function.update_apply]
    split
    · rfl
    · exact h.marks i

/-! ## The frontier -/

/-- How the live files have moved away from the published ones. -/
structure Follows (published : List BlobFile) (b : BlobManager) : Prop where
  wf : b.WF
  noEmpty : b.NoEmpty
  segmented : b.segmented = true
  sorted : published.Pairwise fun f g => f.fileId < g.fileId
  known : ∀ g ∈ published, g.fileId < b.nextFileId
  grown : ∀ g ∈ published, ∀ f ∈ b.files, f.fileId = g.fileId →
    g.records <+: f.records ∧ ∀ o ∈ g.deletedOffsets, o ∈ f.deletedOffsets
  lengths_sorted : Sorted b.catalog.persistedLengths
  /-- A file that was opened since then is on the frontier with no byte. -/
  lengths : ∀ id, get id b.catalog.persistedLengths =
    (fileAt published id).map BlobFile.serializedSize ∨
    (fileAt published id = none ∧ get id b.catalog.persistedLengths = some 0)
  marks : ∀ id, get id b.catalog.persistedDeletedOffsets =
    (fileAt published id).map BlobFile.deletedOffsets

/-- Every file that the frontier names is live, or was published. -/
def NoLostFile (b : BlobManager) : Prop := ∀ e ∈ b.catalog.persistedLengths, b.fileById e.1 = none →
  (get e.1 b.catalog.persistedDeletedOffsets).isSome

instance (b : BlobManager) : Decidable (NoLostFile b) :=
  inferInstanceAs (Decidable (∀ e ∈ b.catalog.persistedLengths, _ → _))

theorem streamSize_pos {rs : List BlobRecord} (h : rs ≠ []) : 0 < streamSize rs := by
  cases rs with
  | nil => exact absurd rfl h
  | cons r rs =>
    have hr := r.serializedSize_pos
    rw [streamSize_cons]
    omega

/-- Of two streams of one length, one of which begins the other, there is only one. -/
theorem eq_of_streamSize_eq {rs rs' : List BlobRecord} (h : rs <+: rs')
    (hsize : streamSize rs = streamSize rs') :
    rs = rs' := by
  obtain ⟨rest, rfl⟩ := h
  rw [streamSize_append] at hsize
  by_cases hrest : rest = []
  · rw [hrest, append_nil]
  · have hpos := streamSize_pos hrest
    omega

theorem streamSize_mono {rs rs' : List BlobRecord} (h : rs <+: rs') :
    streamSize rs ≤ streamSize rs' := by
  obtain ⟨rest, rfl⟩ := h
  rw [streamSize_append]
  exact Nat.le_add_right _ _

section

variable {published : List BlobFile} {b r : BlobManager} {segments : Segments}
  {files : Nat → Option BlobFile}

/-- A file without an entry is as it was published. -/
theorem Follows.unchanged (h : Follows published b) (hm : Mirrors r files) {id : Nat}
    (hfiles : files id = fileAt published id) (he : b.deltaEntry id = none) :
    files id = b.fileById id := by
  rw [BlobManager.deltaEntry] at he
  rcases hf : b.fileById id with _ | f
  · rw [hf] at he
    cases he
  rw [hf] at he
  simp only [ite_eq_right_iff, reduceCtorEq, imp_false, not_or, not_not] at he
  obtain ⟨hlen, hprev, hnew⟩ := he
  rcases hg : fileAt published id with _ | g
  · rw [h.marks, hg] at hprev
    exact absurd rfl hprev
  rw [hfiles, hg]
  have hlens := h.lengths id
  rw [hlen, hg] at hlens
  have hsize : f.serializedSize = g.serializedSize := by simpa using hlens
  obtain ⟨hgm, hgid⟩ := fileAt_mem hg
  obtain ⟨hfm, hfid⟩ := BlobManager.fileById_mem hf
  obtain ⟨hrec, hmarks⟩ := h.grown g hgm f hfm (hfid.trans hgid.symm)
  have hrecords : g.records = f.records := eq_of_streamSize_eq hrec hsize.symm
  have hdeleted : g.deletedOffsets = f.deletedOffsets := by
    refine marks_ext (hm.sane id g (hfiles.trans hg)).sorted (h.wf.marks_sorted f hfm) fun o =>
      ⟨hmarks o, fun ho => ?_⟩
    rw [h.marks, hg] at hnew
    by_contra hno
    exact not_mem_nil (hnew ▸ mem_filter.mpr ⟨ho, by simpa using hno⟩)
  obtain ⟨gid, grec, gdel⟩ := g
  obtain ⟨fid, frec, fdel⟩ := f
  simp only at hrecords hdeleted hgid hfid
  rw [hrecords, hdeleted, hgid, hfid]

/-- **The entries of a delta move a reader from the published files to the live ones.** -/
theorem Follows.applyEntries (h : Follows published b) (hlost : NoLostFile b)
    (hstored : ∀ f ∈ b.files, Stores segments f.fileId f.records) (ids : List Nat) :
    ∀ {r : BlobManager} {files : Nat → Option BlobFile}, ids.Nodup →
      (∀ id ∈ ids, b.fileById id = none → (get id b.catalog.persistedLengths).isSome) →
      Mirrors r files → (∀ id ∈ ids, files id = fileAt published id) →
      ∃ r', BlobManager.applyDeltaEntries segments (ids.filterMap b.deltaEntry) r = some r' ∧
        Mirrors r' (fun id => if id ∈ ids then b.fileById id else files id) ∧ SameHead r r' := by
  induction ids with
  | nil =>
    intro r files _ _ hm _
    refine ⟨r, rfl, ?_, rfl, rfl, rfl⟩
    simpa using hm
  | cons id ids ih =>
    intro r files hnodup hnamed hm hfiles
    obtain ⟨hid, hnodup⟩ := nodup_cons.mp hnodup
    have hnamed' := fun i hi => hnamed i (.tail _ hi)
    have hself := hfiles id (.head _)
    -- what is left to do once this id has been dealt with
    have hrest : ∀ {r₁ : BlobManager} {files₁ : Nat → Option BlobFile}, Mirrors r₁ files₁ →
        SameHead r r₁ → files₁ id = b.fileById id → (∀ i, i ≠ id → files₁ i = files i) →
        ∃ r', BlobManager.applyDeltaEntries segments (ids.filterMap b.deltaEntry) r₁ = some r' ∧
          Mirrors r' (fun i => if i ∈ id :: ids then b.fileById i else files i) ∧
            SameHead r r' := by
      intro r₁ files₁ hm₁ hhead hone hother
      obtain ⟨r', happly, hm', hhead'⟩ := ih hnodup hnamed' hm₁ fun i hi => by
        rw [hother i fun heq => hid (heq ▸ hi)]
        exact hfiles i (.tail _ hi)
      refine ⟨r', happly, ?_, hhead'.threshold.trans hhead.threshold,
        hhead'.generationId.trans hhead.generationId, hhead'.count.trans hhead.count⟩
      have heq : (fun i => if i ∈ ids then b.fileById i else files₁ i) =
          fun i => if i ∈ id :: ids then b.fileById i else files i := by
        funext i
        by_cases hi : i = id
        · subst hi
          simp [hid, hone]
        · simp [hi, hother i hi]
      rw [← heq]
      exact hm'
    rcases he : b.deltaEntry id with _ | entry
    · rw [filterMap_cons_none he]
      exact hrest hm ⟨rfl, rfl, rfl⟩ (h.unchanged hm hself he) fun _ _ => rfl
    rw [filterMap_cons_some he, BlobManager.applyDeltaEntries]
    cases hf : b.fileById id with
    | none =>
      have hentry : entry = .remove id := by
        rw [BlobManager.deltaEntry, hf] at he
        exact (Option.some.inj he).symm
      obtain ⟨len, hlen⟩ := Option.isSome_iff_exists.mp (hnamed id (.head _) hf)
      have hsome := hlost (id, len) (mem_of_get hlen) hf
      rw [h.marks, Option.isSome_map, ← hself] at hsome
      obtain ⟨r₁, happly, hm₁, hhead⟩ := hm.remove segments hsome
      rw [hentry, happly]
      exact hrest hm₁ hhead (by rw [Function.update_self, hf]) fun i hi =>
        Function.update_of_ne hi _ _
    | some f =>
      obtain ⟨hfm, rfl⟩ := BlobManager.fileById_mem hf
      have hentry : entry = .upsert f.fileId f.serializedSize (f.deletedOffsets.filter fun o =>
          o ∉ (get f.fileId b.catalog.persistedDeletedOffsets).getD []) := by
        rw [BlobManager.deltaEntry, hf] at he
        simp only at he
        split at he
        · exact (Option.some.inj he).symm
        · cases he
      have hgrown : ∀ g, files f.fileId = some g →
          g.records <+: f.records ∧ ∀ o ∈ g.deletedOffsets, o ∈ f.deletedOffsets := by
        intro g hg
        rw [hself] at hg
        exact h.grown g (fileAt_mem hg).1 f hfm (fileAt_mem hg).2.symm
      have hmarks : BlobManager.addDeleted (f.deletedOffsets.filter fun o =>
          o ∉ (get f.fileId b.catalog.persistedDeletedOffsets).getD [])
          (((files f.fileId).map BlobFile.deletedOffsets).getD []) = some f.deletedOffsets := by
        rw [h.marks, ← hself]
        cases hg : files f.fileId with
        | none => exact addDeleted_filter List.Pairwise.nil (h.wf.marks_sorted f hfm) nofun
        | some g =>
          exact addDeleted_filter (hm.sane _ g hg).sorted (h.wf.marks_sorted f hfm) (hgrown g hg).2
      obtain ⟨r₁, happly, hm₁, hhead⟩ := hm.upsert (h.wf.sane f hfm) (hstored f hfm)
        (fun g hg => streamSize_mono (hgrown g hg).1) hmarks
      rw [hentry, happly]
      exact hrest hm₁ hhead (by rw [Function.update_self, hf]) fun i hi =>
        Function.update_of_ne hi _ _

/-- A manager that was loaded from a catalog of generation `target`, through `count` deltas. -/
structure Loads (published : List BlobFile) (target : GenerationId) (count : Nat)
    (r : BlobManager) : Prop where
  mirrors : Mirrors r (fileAt published)
  generation : r.generationId = target
  persistedGeneration : r.catalog.persistedGenerationId = target
  persisted : r.catalog.catalogPersisted = true
  count : r.catalog.catalogDeltaCount = count

theorem mem_deltaFileIds {id : Nat} : id ∈ b.deltaFileIds ↔
    id ∈ b.files.map BlobFile.fileId ∨ id ∈ b.catalog.persistedLengths.map Prod.fst := by
  rw [BlobManager.deltaFileIds, mem_dedup, mem_insertionSort, mem_append]

/-- A delta, applied to a mirror of the published files. -/
theorem Follows.applyDelta (h : Follows published b) (hlost : NoLostFile b)
    (hstored : ∀ f ∈ b.files, Stores segments f.fileId f.records) {count : Nat}
    (hr : Loads published b.catalog.persistedGenerationId count r) :
    ∃ r', BlobManager.applySegmentCatalogDelta segments b.toSegmentCatalogDelta r = some r' ∧
      Loads b.files b.generationId (count + 1) r' := by
  have hnamed : ∀ id ∈ b.deltaFileIds, b.fileById id = none →
    (get id b.catalog.persistedLengths).isSome := by
    intro id hid hnone
    rcases mem_deltaFileIds.mp hid with hid | hid
    · obtain ⟨f, hf, rfl⟩ := mem_map.mp hid
      rw [h.wf.fileById hf] at hnone
      cases hnone
    · rw [Option.isSome_iff_ne_none]
      intro hget
      obtain ⟨e, he, rfl⟩ := mem_map.mp hid
      exact get_eq_none_iff.mp hget e he rfl
  obtain ⟨r₁, happly, hm₁, hhead⟩ := h.applyEntries hlost hstored b.deltaFileIds
    (nodup_dedup _) hnamed hr.mirrors fun _ _ => rfl
  have hlive : (fun id => if id ∈ b.deltaFileIds then b.fileById id else fileAt published id) =
    fileAt b.files := by
    funext id
    split
    · rfl
    rename_i hid
    rw [mem_deltaFileIds, not_or] at hid
    have hdead : fileAt b.files id = none := by
      cases hf : fileAt b.files id with
      | none => rfl
      | some f => exact absurd (mem_map.mpr ⟨f, (fileAt_mem hf).1, (fileAt_mem hf).2⟩) hid.1
    have hunpublished : fileAt published id = none := by
      cases hg : fileAt published id with
      | none => rfl
      | some g =>
        have hlen := (h.lengths id).resolve_right fun hz => by rw [hz.1] at hg; cases hg
        rw [hg] at hlen
        exact absurd (mem_map_of_mem (f := Prod.fst) (mem_of_get hlen)) hid.2
    rw [hdead, hunpublished]
  rw [hlive] at hm₁
  refine ⟨{ r₁ with
    generationId := b.generationId
    catalog := { r₁.catalog with
      persistedGenerationId := b.generationId
      catalogDeltaCount := r₁.catalog.catalogDeltaCount + 1
      catalogPersisted := true } }, ?_, ?_, rfl, rfl, rfl, ?_⟩
  · have hparent : r.generationId = b.toSegmentCatalogDelta.parentGenerationId := hr.generation
    rw [BlobManager.applySegmentCatalogDelta, if_neg (not_not.mpr hparent)]
    simp only [BlobManager.toSegmentCatalogDelta, happly]
  · exact ⟨hm₁.ids, hm₁.file, hm₁.sane, hm₁.next_pos, hm₁.next_le, hm₁.next, hm₁.segmented,
      hm₁.lengths_sorted, hm₁.lengths, hm₁.marks_sorted, hm₁.marks⟩
  · exact congrArg (· + 1) (hhead.count.trans hr.count)

/-! ## The anchor -/

theorem loadCatalogEntries_eq : ∀ {files : List BlobFile} {seen : List Nat}, (∀ f ∈ files, f.Sane) →
    (∀ f ∈ files, Stores segments f.fileId f.records) → (∀ f ∈ files, f.fileId ∉ seen) →
    files.Pairwise (fun f g => f.fileId < g.fileId) →
    BlobManager.loadCatalogEntries segments seen
      (files.map fun f => ⟨f.fileId, f.serializedSize, f.deletedOffsets⟩) = some files
  | [], _, _, _, _, _ => rfl
  | f :: fs, seen, hsane, hstored, hseen, hids => by
    obtain ⟨hlt, hids⟩ := pairwise_cons.mp hids
    have hmem : f ∈ f :: fs := .head _
    have hf := hsane f hmem
    have hvalid : ¬ (!validFileId f.fileId || decide (f.fileId ∈ seen)) = true := by
      have hpos := hf.pos
      have hlt := hf.lt
      simp [validFileId, hseen f hmem]
      omega
    have hseen' : ∀ g ∈ fs, g.fileId ∉ f.fileId :: seen := by
      intro g hg hin
      rcases mem_cons.mp hin with heq | hin
      · exact (hlt g hg).ne' heq
      · exact hseen g (.tail _ hg) hin
    have hrest := loadCatalogEntries_eq (fun g hg => hsane g (.tail _ hg))
      (fun g hg => hstored g (.tail _ hg)) hseen' hids
    rw [map_cons, BlobManager.loadCatalogEntries, if_neg hvalid]
    simp only [loadSegment_eq hf (hstored f hmem), hrest]

/-- The anchor of a manager, read back. -/
theorem BlobManager.WF.readAnchor (h : b.WF)
    (hstored : ∀ f ∈ b.files, Stores segments f.fileId f.records) :
    ∃ r, BlobManager.fromSegmentCatalogBase b.toSegmentCatalog segments = some r ∧
      Loads b.files b.generationId 0 r := by
  have hload := loadCatalogEntries_eq h.sane hstored (fun _ _ => not_mem_nil) h.ids
  obtain ⟨hpos, hlt, hle⟩ := nextFileIdAfter_spec b.files
  refine ⟨⟨b.files, nextFileIdAfter b.files, b.threshold, b.generationId, true,
    ⟨b.files.map fun f => (f.fileId, f.serializedSize),
      b.files.map fun f => (f.fileId, f.deletedOffsets),
      b.generationId, 0, true⟩⟩, ?_, ?_, rfl, rfl, rfl, rfl⟩
  · rw [BlobManager.fromSegmentCatalogBase, BlobManager.toSegmentCatalog]
    simp only [hload, sortFiles_eq h.ids]
  · exact ⟨h.ids, fun _ => rfl, fun id f hf => h.sane f (fileAt_mem hf).1, hpos,
      (hle b.nextFileId h.next_pos fun f hf => (h.valid f hf).2).trans h.next_le,
      fun id f hf => (fileAt_mem hf).2 ▸ hlt f (fileAt_mem hf).1, rfl, pairwise_map.mpr h.ids,
      get_perFile BlobFile.serializedSize b.files, pairwise_map.mpr h.ids,
      get_perFile BlobFile.deletedOffsets b.files⟩

end

/-! ## The delta log -/

/-- Deltas that lead from the generation of the anchor to `target`. -/
inductive Chain (anchor : GenerationId) : List SegmentCatalogDelta → GenerationId → Prop
  | nil : Chain anchor [] anchor
  | snoc {deltas : List SegmentCatalogDelta} {delta : SegmentCatalogDelta} :
      Chain anchor deltas delta.parentGenerationId → delta.parentGenerationId < delta.generationId →
      Chain anchor (deltas ++ [delta]) delta.generationId

section

variable {anchor target : GenerationId} {deltas stale later : List SegmentCatalogDelta}

theorem Chain.le (h : Chain anchor deltas target) : anchor ≤ target ∧
    ∀ d ∈ deltas, anchor < d.generationId ∧ d.generationId ≤ target := by
  induction h with
  | nil => exact ⟨le_rfl, nofun⟩
  | snoc _ hlt ih =>
    exact ⟨ih.1.trans hlt.le, forall_mem_concat
      (fun d hd => ⟨(ih.2 d hd).1, (ih.2 d hd).2.trans hlt.le⟩) ⟨ih.1.trans_lt hlt, le_rfl⟩⟩

/-- The walk back from the target finds the chain, among older and newer frames. -/
theorem Chain.path (h : Chain anchor deltas target) :
    ∀ (later path : List SegmentCatalogDelta) {fuel : Nat},
    (∀ d ∈ stale, d.generationId ≤ anchor) → (∀ d ∈ later, target < d.generationId) →
    deltas.length ≤ fuel →
    deltaPath (stale ++ deltas ++ later) anchor fuel target path = some (deltas ++ path) := by
  induction h with
  | nil =>
    intro later path fuel _ _ _
    rw [deltaPath.eq_def]
    exact if_pos rfl
  | @snoc deltas delta hchain hlt ih =>
    intro later path fuel hstale hlater hfuel
    obtain ⟨fuel, rfl⟩ : ∃ n, fuel = n + 1 := by
      rw [length_append, length_singleton] at hfuel
      exact ⟨fuel - 1, by omega⟩
    have hlow := hchain.le
    have hne : delta.generationId ≠ anchor := (hlow.1.trans_lt hlt).ne'
    have hlist : stale ++ (deltas ++ [delta]) ++ later = stale ++ deltas ++ (delta :: later) := by
      simp only [append_assoc, singleton_append]
    have hnone : ∀ {l : List SegmentCatalogDelta}, (∀ d ∈ l, d.generationId ≠ delta.generationId) →
        l.filter (fun d => d.generationId = delta.generationId) = [] := fun hl =>
      filter_eq_nil_iff.mpr fun d hd => by simpa using hl d hd
    have hfilter : (stale ++ deltas ++ (delta :: later)).filter (fun d => d.generationId =
        delta.generationId) = [delta] := by
      rw [filter_append, filter_append, filter_cons_of_pos (by simp),
        hnone fun d hd => ((hstale d hd).trans_lt (hlow.1.trans_lt hlt)).ne,
        hnone fun d hd => ((hlow.2 d hd).2.trans_lt hlt).ne, hnone fun d hd => (hlater d hd).ne']
      rfl
    rw [hlist, deltaPath, if_neg hne]
    simp only [hfilter]
    rw [if_neg (not_or.mpr ⟨not_le.mpr hlt, not_lt.mpr hlow.1⟩)]
    rw [ih _ _ hstale (fun d hd => ?_) (by simpa using hfuel)]
    · rw [append_assoc, singleton_append]
    · rcases mem_cons.mp hd with rfl | hd
      · exact hlt
      · exact hlt.trans (hlater d hd)

end

/-! ## The catalog of a directory -/

/-- An anchor and the deltas behind it lead to the files `published` of generation `target`, over
every set of segment files that has the records `needed`; `stale` are frames from before the
anchor. -/
structure Cataloged (anchor : SegmentCatalog) (stale deltas : List SegmentCatalogDelta)
    (target : GenerationId) (needed published : List BlobFile) : Prop where
  older : ∀ d ∈ stale, d.generationId ≤ anchor.generationId
  chain : Chain anchor.generationId deltas target
  bound : (stale ++ deltas).length ≤ maxSegmentCatalogDeltas
  reads : ∀ segments, (∀ f ∈ needed, Stores segments f.fileId f.records) →
    ∃ base r, BlobManager.fromSegmentCatalogBase anchor segments = some base ∧
      base.generationId = anchor.generationId ∧
      BlobManager.applySegmentCatalogDeltas segments deltas base = some r ∧
        Loads published target deltas.length r

section

variable {anchor : SegmentCatalog} {stale deltas : List SegmentCatalogDelta} {target : GenerationId}
  {needed published : List BlobFile} {b : BlobManager} {segments : Segments}

/-- **The catalog replays**, with frames ahead of the target behind it. -/
theorem Cataloged.replays (h : Cataloged anchor stale deltas target needed published)
    (later : List SegmentCatalogDelta) (hlater : ∀ d ∈ later, target < d.generationId)
    (hseg : ∀ f ∈ needed, Stores segments f.fileId f.records) :
    ∃ r, BlobManager.fromSegmentCatalogWithDeltaLog anchor segments (stale ++ deltas ++ later)
      (some target) = some r ∧ Loads published target deltas.length r := by
  obtain ⟨base, r, hbase, hgen, happly, hr⟩ := h.reads segments hseg
  have hle := h.chain.le
  have htake : (stale ++ deltas ++ later).takeWhile (fun d => d.generationId ≤ target) =
    stale ++ deltas := by
    rw [takeWhile_append_of_pos fun d hd => ?_]
    · cases later with
      | nil => simp
      | cons d later =>
        rw [takeWhile_cons_of_neg (by simpa using hlater d (.head _)), append_nil]
    · rcases mem_append.mp hd with hd | hd
      · simpa using (h.older d hd).trans hle.1
      · simpa using (hle.2 d hd).2
  have hparse : parseDeltaLogThroughGeneration target (stale ++ deltas ++ later) =
    some (stale ++ deltas) := by
    rw [parseDeltaLogThroughGeneration]
    simp only [htake]
    rw [if_neg (not_lt.mpr h.bound)]
  have hlen : deltas.length ≤ maxSegmentCatalogDeltas := by
    have hbound := h.bound
    rw [length_append] at hbound
    omega
  have hpath := h.chain.path [] [] h.older nofun hlen
  rw [append_nil, append_nil] at hpath
  refine ⟨r, ?_, hr⟩
  rw [BlobManager.fromSegmentCatalogWithDeltaLog, hbase]
  simp only [Option.getD_some, hgen, if_neg (not_lt.mpr hle.1), hparse, hpath, happly]

/-- A full catalog. -/
theorem BlobManager.WF.anchored (h : b.WF) (hstale : ∀ d ∈ stale, d.generationId ≤ b.generationId)
    (hbound : stale.length ≤ maxSegmentCatalogDeltas) :
    Cataloged b.toSegmentCatalog stale [] b.generationId b.files b.files := by
  refine ⟨hstale, .nil, by simpa using hbound, fun segments hseg => ?_⟩
  obtain ⟨r, hbase, hr⟩ := h.readAnchor hseg
  exact ⟨r, r, hbase, hr.generation, rfl, hr⟩

theorem applySegmentCatalogDeltas_append (ds ds' : List SegmentCatalogDelta) (b : BlobManager) :
    BlobManager.applySegmentCatalogDeltas segments (ds ++ ds') b =
      (BlobManager.applySegmentCatalogDeltas segments ds b).bind
        (BlobManager.applySegmentCatalogDeltas segments ds') := by
  induction ds generalizing b with
  | nil => rfl
  | cons d ds ih =>
    rw [cons_append, BlobManager.applySegmentCatalogDeltas, BlobManager.applySegmentCatalogDeltas]
    cases BlobManager.applySegmentCatalogDelta segments d b with
    | none => rfl
    | some b => exact ih b

/-- **One more delta.** -/
theorem Cataloged.extend (h : Cataloged anchor stale deltas b.catalog.persistedGenerationId
    needed published) (hf : Follows published b) (hlost : NoLostFile b) (hgen :
      b.catalog.persistedGenerationId < b.generationId)
    (hbound : (stale ++ deltas).length < maxSegmentCatalogDeltas) :
    Cataloged anchor stale (deltas ++ [b.toSegmentCatalogDelta]) b.generationId
      (b.files ++ needed) b.files := by
  refine ⟨h.older, .snoc h.chain hgen, ?_, fun segments hseg => ?_⟩
  · rw [← append_assoc, length_append, length_singleton]
    exact hbound
  · obtain ⟨base, r, hbase, hbgen, happly, hr⟩ := h.reads segments fun f hf =>
      hseg f (mem_append_right _ hf)
    obtain ⟨r', happly', hr'⟩ := hf.applyDelta hlost (fun f hf => hseg f (mem_append_left _ hf)) hr
    refine ⟨base, r', hbase, hbgen, ?_, ?_⟩
    · rw [applySegmentCatalogDeltas_append, happly]
      simp only [Option.bind_some, BlobManager.applySegmentCatalogDeltas, happly']
    · rw [length_append]
      exact hr'

end

end SeerDb
