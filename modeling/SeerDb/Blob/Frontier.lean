/-
# `SeerDb.Blob.Frontier` — the catalog frontier between two publications

`Extends` collects what the operations on a manager may do to the files that were there
and to the frontier: files grow, are marked or go, and a new file takes a new id and
stands on the frontier with no byte.  An undone append is the one that shrinks a file;
above the frontier nothing that was published is lost by it.
-/
import SeerDb.Blob.Replay
import Mathlib.Algebra.Order.BigOperators.Group.List
import Mathlib.Algebra.Order.Group.Nat

namespace SeerDb

open Lib List

/-! ## Files move forward -/

structure BlobManager.Extends (b b' : BlobManager) : Prop where
  next : b.nextFileId ≤ b'.nextFileId
  segmented : b'.segmented = b.segmented
  generationId : b'.generationId = b.generationId
  catalog : b'.catalog = { b.catalog with persistedLengths := b'.catalog.persistedLengths }
  lengths_sorted : Sorted b.catalog.persistedLengths → Sorted b'.catalog.persistedLengths
  lengths : Sorted b.catalog.persistedLengths → ∀ id,
    get id b'.catalog.persistedLengths = get id b.catalog.persistedLengths ∨
      (b.nextFileId ≤ id ∧ get id b'.catalog.persistedLengths = some 0)
  grown : ∀ f' ∈ b'.files, f'.fileId < b.nextFileId →
    ∃ f ∈ b.files, f.fileId = f'.fileId ∧ f.records <+: f'.records ∧ ∀ o ∈ f.deletedOffsets,
      o ∈ f'.deletedOffsets

namespace BlobManager

variable {b b' b'' : BlobManager} {value : Bytes} {p : BlobPointer}

theorem Extends.refl (b : BlobManager) : Extends b b where
  next := le_rfl
  segmented := rfl
  generationId := rfl
  catalog := rfl
  lengths_sorted h := h
  lengths _ _ := .inl rfl
  grown f hf _ := ⟨f, hf, rfl, prefix_refl _, fun _ ho => ho⟩

theorem Extends.trans (h : Extends b b') (h' : Extends b' b'') : Extends b b'' where
  next := h.next.trans h'.next
  segmented := h'.segmented.trans h.segmented
  generationId := h'.generationId.trans h.generationId
  catalog := by rw [h'.catalog, h.catalog]
  lengths_sorted hs := h'.lengths_sorted (h.lengths_sorted hs)
  lengths hs id := by
    rcases h'.lengths (h.lengths_sorted hs) id with heq | ⟨hle, hzero⟩
    · rw [heq]
      exact h.lengths hs id
    · exact .inr ⟨h.next.trans hle, hzero⟩
  grown f'' hf'' hlt := by
    obtain ⟨f', hf', hid', hpre', hmarks'⟩ := h'.grown f'' hf'' (hlt.trans_le h.next)
    obtain ⟨f, hf, hid, hpre, hmarks⟩ := h.grown f' hf' (hid' ▸ hlt)
    exact ⟨f, hf, hid.trans hid', hpre.trans hpre', fun o ho => hmarks' o (hmarks o ho)⟩

/-- Operations that touch only the files. -/
theorem Extends.of_files (files : List BlobFile)
    (h : ∀ f' ∈ files, f'.fileId < b.nextFileId → ∃ f ∈ b.files,
    f.fileId = f'.fileId ∧ f.records <+: f'.records ∧ ∀ o ∈ f.deletedOffsets,
      o ∈ f'.deletedOffsets) :
    Extends b { b with files := files } :=
  { Extends.refl b with grown := h }

theorem beginCompactionFile_extends (h : b.beginCompactionFile = some b') : Extends b b' := by
  rw [beginCompactionFile] at h
  split at h
  · cases h
  cases h
  refine ⟨Nat.le_succ _, rfl, rfl, rfl, fun hs => ?_, fun hs id => ?_, fun f hf hlt => ?_⟩
  · simp only
    split
    · exact hs
    · exact sorted_upsert hs
  · simp only
    split
    · exact .inl rfl
    rw [get_upsert hs]
    split
    · rename_i hid
      exact .inr ⟨hid.ge, rfl⟩
    · exact .inl rfl
  · rcases mem_append.mp hf with hf | hf
    · exact ⟨f, hf, rfl, prefix_refl _, fun _ ho => ho⟩
    · rw [mem_singleton.mp hf] at hlt
      exact absurd hlt (lt_irrefl _)

theorem append_extends (h : b.append value = .ok (p, b')) : Extends b b' := by
  obtain ⟨b₁, pre, f, hb₁, hfiles, -, rfl⟩ := append_inv h
  have hopen : Extends b b₁ := by
    rcases hb₁ with ⟨rfl, -⟩ | ⟨hb₁, -⟩
    · exact .refl _
    · exact beginCompactionFile_extends hb₁
  refine hopen.trans (.of_files _ fun f' hf' _ => ?_)
  rcases mem_append.mp hf' with hf' | hf'
  · refine ⟨f', ?_, rfl, prefix_refl _, fun _ ho => ho⟩
    rw [hfiles]
    exact mem_append_left _ hf'
  · rw [mem_singleton.mp hf']
    refine ⟨f, ?_, rfl, prefix_append _ _, fun _ ho => ho⟩
    rw [hfiles]
    exact mem_append_right _ (mem_singleton_self f)

theorem markDeleted_extends (h : b.markDeleted p = some b') : Extends b b' := by
  obtain ⟨f, hf, -, rfl⟩ := markDeleted_inv h
  refine .of_files _ fun f' hf' _ => ?_
  obtain ⟨g, hg, rfl⟩ := mem_map.mp hf'
  split
  · exact ⟨f, (fileById_mem hf).1, rfl, prefix_refl _,
      fun o ho => (mem_orderedInsert _).mpr (.inr ho)⟩
  · exact ⟨g, hg, rfl, prefix_refl _, fun _ ho => ho⟩

theorem gc_extends (b : BlobManager) : Extends b b.gc.2 :=
  .of_files _ fun f hf _ => ⟨f, (mem_filter.mp hf).1, rfl, prefix_refl _, fun _ ho => ho⟩

end BlobManager

/-! ## The files follow the published ones -/

section

variable {published : List BlobFile} {b b' : BlobManager} {p : BlobPointer}

theorem Follows.extends (h : Follows published b) (he : b.Extends b') (hwf : b'.WF)
    (hne : b'.NoEmpty) :
    Follows published b' where
  wf := hwf
  noEmpty := hne
  segmented := he.segmented.trans h.segmented
  sorted := h.sorted
  known g hg := (h.known g hg).trans_le he.next
  grown g hg f' hf' hid := by
    obtain ⟨f, hf, hid', hpre, hmarks⟩ := he.grown f' hf' (hid ▸ h.known g hg)
    obtain ⟨hpre₀, hmarks₀⟩ := h.grown g hg f hf (hid'.trans hid)
    exact ⟨hpre₀.trans hpre, fun o ho => hmarks o (hmarks₀ o ho)⟩
  lengths_sorted := he.lengths_sorted h.lengths_sorted
  lengths id := by
    rcases he.lengths h.lengths_sorted id with heq | ⟨hle, hzero⟩
    · rw [heq]
      exact h.lengths id
    refine .inr ⟨?_, hzero⟩
    cases hg : fileAt published id with
    | none => rfl
    | some g =>
      -- the id is above every published one
      obtain ⟨hmem, rfl⟩ := fileAt_mem hg
      exact absurd (h.known g hmem) (not_lt.mpr hle)
  marks id := by
    rw [he.catalog]
    exact h.marks id

theorem prefix_of_streamSize_le {rs rs' rs'' : List BlobRecord} (h : rs <+: rs'')
    (h' : rs' <+: rs'') (hle : streamSize rs ≤ streamSize rs') : rs <+: rs' := by
  rcases prefix_or_prefix_of_prefix h h' with hpre | hpre
  · exact hpre
  · have heq := eq_of_streamSize_eq hpre (le_antisymm (streamSize_mono hpre) hle)
    exact heq ▸ prefix_refl _

theorem BlobFile.rollbackAppend_inv {f g : BlobFile} {offset length : Nat}
    (h : f.rollbackAppend offset length = some g) : ∃ r, f.records = g.records ++ [r] ∧
      g.fileId = f.fileId ∧ g.deletedOffsets = f.deletedOffsets ∧ g.serializedSize = offset ∧
        offset ∉ f.deletedOffsets := by
  rw [rollbackAppend] at h
  rcases hl : f.records.getLast? with _ | r
  · rw [hl] at h
    cases h
  rw [hl] at h
  obtain ⟨rs, hrs⟩ := List.getLast?_eq_some_iff.mp hl
  simp only at h
  split at h
  · cases h
  rename_i hcond
  obtain ⟨hoff, -, hmark⟩ := not_or.mp hcond |>.imp_right not_or.mp
  have hsize : f.serializedSize = streamSize rs + r.serializedSize := by
    rw [serializedSize, hrs, streamSize_append, streamSize_cons, streamSize_nil, Nat.add_zero]
  rw [not_not, hsize, Nat.add_sub_cancel] at hoff
  cases h
  rw [hrs, dropLast_concat]
  exact ⟨r, rfl, rfl, rfl, hoff, hmark⟩

theorem Follows.persistedLength (h : Follows published b) {g : BlobFile} (hg : g ∈ published) :
    b.persistedSegmentLength g.fileId = g.serializedSize := by
  rw [BlobManager.persistedSegmentLength]
  rcases h.lengths g.fileId with hlen | ⟨hnone, -⟩
  · rw [hlen, fileAt_self h.sorted hg]
    rfl
  · rw [fileAt_self h.sorted hg] at hnone
    cases hnone

theorem BlobManager.WF.sublist (h : b.WF) {files : List BlobFile} (hs : files.Sublist b.files) :
    ({ b with files := files } : BlobManager).WF := { h with
  ids := h.ids.sublist hs
  valid f hf := h.valid f (hs.subset hf)
  marks_sorted f hf := h.marks_sorted f (hs.subset hf)
  marks f hf := h.marks f (hs.subset hf) }

/-- A record other than the last. -/
theorem recordAt_concat {o : Nat} {r : BlobRecord} : ∀ {start : Nat} {rs : List BlobRecord},
    o ≠ start + streamSize rs → recordAt o start (rs ++ [r]) = recordAt o start rs
  | start, [], hne => by
    simp only [nil_append, recordAt]
    exact if_neg (by simpa using Ne.symm hne)
  | start, s :: rs, hne => by
    rw [streamSize_cons, ← Nat.add_assoc] at hne
    rw [cons_append, recordAt, recordAt, recordAt_concat hne]

/-- The record that is taken back has no mark. -/
theorem BlobFile.rollbackAppend_marks {f g : BlobFile} {offset length : Nat}
    (h : f.rollbackAppend offset length = some g)
    (hm : ∀ o ∈ f.deletedOffsets, f.hasRecordAt o) : ∀ o ∈ g.deletedOffsets, g.hasRecordAt o := by
  obtain ⟨r, hrs, -, hmarks, hsize, hmark⟩ := rollbackAppend_inv h
  intro o ho
  rw [hmarks] at ho
  have hrec := hm o ho
  rwa [hasRecordAt, hrs, recordAt_concat] at hrec
  rw [Nat.zero_add]
  rintro rfl
  exact hmark (hsize ▸ ho)

/-- What taking an append back does. -/
theorem BlobManager.rollbackAppend_cases (b : BlobManager) (p : BlobPointer) :
    b.rollbackAppend p = b ∨ ∃ pre f g, b.files = pre ++ [f] ∧ f.fileId = p.fileId ∧
      f.rollbackAppend p.offset p.length = some g ∧
      ((g.records = [] ∧ b.rollbackAppend p = { b with files := pre }) ∨
        (g.records ≠ [] ∧ b.rollbackAppend p = { b with files := pre ++ [g] })) := by
  rw [rollbackAppend]
  split
  · exact .inl rfl
  rename_i f hlast
  obtain ⟨pre, hfiles⟩ := List.getLast?_eq_some_iff.mp hlast
  split
  · exact .inl rfl
  rename_i hid
  split
  · exact .inl rfl
  rename_i g hroll
  refine .inr ⟨pre, f, g, hfiles, not_not.mp hid, hroll, ?_⟩
  rw [hfiles, dropLast_concat]
  split
  · rename_i hnone
    exact .inl ⟨length_eq_zero_iff.mp hnone, rfl⟩
  · rename_i hsome
    exact .inr ⟨fun hnil => hsome (length_eq_zero_iff.mpr hnil), rfl⟩

theorem BlobManager.rollbackAppend_eq (b : BlobManager) (p : BlobPointer) :
    b.rollbackAppend p = { b with files := (b.rollbackAppend p).files } := by
  rcases b.rollbackAppend_cases p with heq | ⟨_, _, _, -, -, -, ⟨-, heq⟩ | ⟨-, heq⟩⟩ <;> rw [heq]

theorem BlobManager.WF.rollback (h : b.WF) (p : BlobPointer) : (b.rollbackAppend p).WF := by
  rcases b.rollbackAppend_cases p with heq | ⟨pre, f, g, hfiles, -, hroll, ⟨-, heq⟩ | ⟨-, heq⟩⟩
  · rw [heq]
    exact h
  · rw [heq]
    exact h.sublist (hfiles ▸ sublist_append_left _ _)
  · have hf : f ∈ b.files := by simp [hfiles]
    obtain ⟨-, -, hid, hmarks, -⟩ := BlobFile.rollbackAppend_inv hroll
    rw [heq]
    exact h.replaceLast hfiles hid (hmarks ▸ h.marks_sorted f hf)
      (BlobFile.rollbackAppend_marks hroll (h.marks f hf))

/-- Undoing an append above the frontier. -/
theorem Follows.rollback (h : Follows published b)
    (hp : b.persistedSegmentLength p.fileId ≤ p.offset) :
    Follows published (b.rollbackAppend p) := by
  have hwf := h.wf.rollback p
  rcases b.rollbackAppend_cases p with heq | ⟨pre, f, g, hfiles, hid, hroll, heq⟩
  · rw [heq]
    exact h
  obtain ⟨r, hrs, hgid, hgmarks, hsize, -⟩ := BlobFile.rollbackAppend_inv hroll
  have hf : f ∈ b.files := by simp [hfiles]
  have hpre : ∀ x ∈ pre, x ∈ b.files := fun x hx => by simp [hfiles, hx]
  rcases heq with ⟨-, heq⟩ | ⟨hne, heq⟩ <;> rw [heq] at hwf ⊢
  · exact { h with
      wf := hwf
      noEmpty := fun x hx => h.noEmpty x (hpre x hx)
      grown := fun x hx y hy => h.grown x hx y (hpre y hy) }
  refine { h with
    wf := hwf
    noEmpty := forall_mem_concat (fun x hx => h.noEmpty x (hpre x hx)) hne
    grown := fun x hx y hy hyid => ?_ }
  rcases mem_append.mp hy with hy | hy
  · exact h.grown x hx y (hpre y hy) hyid
  obtain rfl := mem_singleton.mp hy
  obtain ⟨hrecs, hmarks⟩ := h.grown x hx f hf (hgid ▸ hyid)
  rw [hgmarks]
  refine ⟨prefix_of_streamSize_le hrecs (hrs ▸ prefix_append _ _) ?_, hmarks⟩
  rw [← hid, ← hgid, hyid, h.persistedLength hx] at hp
  exact hp.trans hsize.ge

/-! ## Between publications -/

theorem Follows.append {value : Bytes} (h : Follows published b)
    (ha : b.append value = .ok (p, b')) :
    Follows published b' :=
  h.extends (BlobManager.append_extends ha) (h.wf.append ha).wf (h.noEmpty.append ha)

theorem Follows.markDeleted (h : Follows published b) (hm : b.markDeleted p = some b') :
    Follows published b' :=
  h.extends (BlobManager.markDeleted_extends hm)
    (h.wf.marked hm).wf ((h.wf.marked hm).noEmpty h.noEmpty)

theorem Follows.gc (h : Follows published b) : Follows published b.gc.2 :=
  h.extends b.gc_extends (h.wf.sublist filter_sublist) fun f hf => h.noEmpty f (mem_filter.mp hf).1

theorem Follows.setGeneration (h : Follows published b) (generationId : GenerationId) :
    Follows published (b.setGeneration generationId) :=
  { h with wf := { h.wf with } }

/-- A publication makes the live files the published ones. -/
theorem Follows.captured (h : Follows published b) (count : Nat) : Follows b.files
    { b.capturePersistedState with catalog := { b.capturePersistedState.catalog with
      catalogDeltaCount := count } } where
  wf := { h.wf with }
  noEmpty := h.noEmpty
  segmented := h.segmented
  sorted := h.wf.ids
  known f hf := (h.wf.valid f hf).2
  grown f hf g hg hid := by
    obtain rfl : g = f := h.wf.eq_of_id hf hg hid
    exact ⟨prefix_refl _, fun _ ho => ho⟩
  lengths_sorted := pairwise_map.mpr h.wf.ids
  lengths id := .inl (get_perFile BlobFile.serializedSize b.files id)
  marks id := get_perFile BlobFile.deletedOffsets b.files id

/-- A new manager. -/
theorem Follows.initial (threshold : Nat) :
    Follows [] (BlobManager.withThresholdAndMode threshold true) where
  wf := .initial threshold true
  noEmpty := nofun
  segmented := rfl
  sorted := .nil
  known := nofun
  grown := nofun
  lengths_sorted := .nil
  lengths _ := .inl rfl
  marks _ := rfl

/-! ## Records that older catalogs need -/

/-- What older frames of the catalog name is in the published files, as far as these files are
live. -/
def Owes (needed published : List BlobFile) (b : BlobManager) : Prop :=
  ∀ g ∈ needed, g.fileId < b.nextFileId ∧ ∀ f ∈ b.files, g.fileId = f.fileId → ∃ p ∈ published,
    p.fileId = f.fileId ∧ g.records <+: p.records

variable {needed : List BlobFile}

theorem Owes.extends (h : Owes needed published b) (he : b.Extends b') :
    Owes needed published b' := by
  intro g hg
  obtain ⟨hlt, howes⟩ := h g hg
  refine ⟨hlt.trans_le he.next, fun f' hf' hid => ?_⟩
  obtain ⟨f, hf, hid', -, -⟩ := he.grown f' hf' (hid ▸ hlt)
  rw [← hid'] at hid ⊢
  exact howes f hf hid

theorem Owes.rollback (h : Owes needed published b) (p : BlobPointer) :
    Owes needed published (b.rollbackAppend p) := by
  have hids : ∀ f' ∈ (b.rollbackAppend p).files, ∃ f ∈ b.files, f.fileId = f'.fileId := by
    rcases b.rollbackAppend_cases p with heq | ⟨pre, f, g, hfiles, -, hroll,
      ⟨-, heq⟩ | ⟨-, heq⟩⟩ <;> rw [heq]
    · exact fun f hf => ⟨f, hf, rfl⟩
    · exact fun f hf => ⟨f, by simp [hfiles, hf], rfl⟩
    · obtain ⟨-, -, hid, -⟩ := BlobFile.rollbackAppend_inv hroll
      exact forall_mem_concat (fun f hf => ⟨f, by simp [hfiles, hf], rfl⟩)
        ⟨f, by simp [hfiles], hid.symm⟩
  intro g hg
  obtain ⟨hlt, howes⟩ := h g hg
  refine ⟨?_, fun f' hf' hid => ?_⟩
  · rw [BlobManager.rollbackAppend_eq]
    exact hlt
  · obtain ⟨f, hf, hid'⟩ := hids f' hf'
    rw [← hid'] at hid ⊢
    exact howes f hf hid

theorem Follows.owes (h : Follows published b) : Owes b.files b.files b := by
  intro g hg
  refine ⟨(h.wf.valid g hg).2, fun f hf hid => ⟨f, hf, rfl, ?_⟩⟩
  obtain rfl := h.wf.eq_of_id hf hg hid
  exact prefix_refl _

/-- The live files become the published ones. -/
theorem Owes.captured (h : Owes needed published b) (hf : Follows published b) :
    Owes (b.files ++ needed) b.files b := by
  intro g hg
  rcases mem_append.mp hg with hg | hg
  · exact hf.owes g hg
  obtain ⟨hlt, howes⟩ := h g hg
  refine ⟨hlt, fun f hlive hid => ?_⟩
  obtain ⟨p, hp, hpid, hpre⟩ := howes f hlive hid
  exact ⟨f, hlive, rfl, hpre.trans (hf.grown p hp f hlive hpid.symm).1⟩

end

end SeerDb
