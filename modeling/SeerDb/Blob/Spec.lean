/-
# `SeerDb.Blob.Spec` — what the blob manager keeps

A well-formed manager has increasing file ids and marks only records it has.
Appending moves no record, marking changes no read, and undoing the last append
restores the files; the frontier of the segment catalog is all that an undone
append can leave behind.
-/
import SeerDb.Blob.Catalog

namespace SeerDb

open Lib List

theorem BlobRecord.serializedSize_pos (r : BlobRecord) : 0 < r.serializedSize := by
  simp only [serializedSize, blobOverheadSize]
  omega

/-! ## Record streams -/

@[simp] theorem streamSize_nil : streamSize [] = 0 := rfl

@[simp] theorem streamSize_cons (r : BlobRecord) (rs : List BlobRecord) :
    streamSize (r :: rs) = r.serializedSize + streamSize rs := by simp [streamSize]

@[simp] theorem streamSize_append (rs rs' : List BlobRecord) :
    streamSize (rs ++ rs') = streamSize rs + streamSize rs' := by simp [streamSize]

theorem recordAt_append {offset : Nat} {r : BlobRecord} : ∀ {start : Nat} {rs : List BlobRecord}
    (rs' : List BlobRecord), recordAt offset start rs = some r →
    recordAt offset start (rs ++ rs') = some r
  | _, [], _, h => by cases h
  | start, s :: rs, rs', h => by
    rw [cons_append, recordAt]
    rw [recordAt] at h
    split at h
    · rename_i hs
      rw [if_pos hs]
      exact h
    · rename_i hs
      rw [if_neg hs]
      exact recordAt_append rs' h

/-- The record behind a stream begins at the stream's end. -/
theorem recordAt_end (r : BlobRecord) : ∀ (start : Nat) (rs rs' : List BlobRecord),
    recordAt (start + streamSize rs) start (rs ++ r :: rs') = some r
  | start, [], rs' => by simp [recordAt]
  | start, s :: rs, rs' => by
    have hs := s.serializedSize_pos
    rw [cons_append, recordAt, if_neg (by simp; omega), streamSize_cons, ← Nat.add_assoc]
    exact recordAt_end r _ rs rs'

/-- A record begins inside its stream. -/
theorem recordAt_lt {offset : Nat} {r : BlobRecord} : ∀ {start : Nat} {rs : List BlobRecord},
    recordAt offset start rs = some r → start ≤ offset ∧ offset < start + streamSize rs
  | _, [], h => by cases h
  | start, s :: rs, h => by
    have hs := s.serializedSize_pos
    rw [recordAt] at h
    split at h
    · simp; omega
    · have := recordAt_lt h
      simp; omega

theorem mem_recordOffsetsFrom {offset : Nat} : ∀ {start : Nat} {rs : List BlobRecord},
    offset ∈ recordOffsetsFrom start rs ↔ (recordAt offset start rs).isSome
  | _, [] => by simp [recordOffsetsFrom, recordAt]
  | start, s :: rs => by
    rw [recordOffsetsFrom, recordAt, mem_cons, mem_recordOffsetsFrom]
    split
    · rename_i h
      simp [h]
    · rename_i h
      simp [Ne.symm h]

theorem recordOffsetsFrom_sorted : ∀ (start : Nat) (rs : List BlobRecord),
    (recordOffsetsFrom start rs).Pairwise (· < ·)
  | _, [] => List.Pairwise.nil
  | start, s :: rs => by
    refine pairwise_cons.mpr ⟨fun o ho => ?_, recordOffsetsFrom_sorted _ rs⟩
    obtain ⟨r, hr⟩ := Option.isSome_iff_exists.mp (mem_recordOffsetsFrom.mp ho)
    have := (recordAt_lt hr).1
    have := s.serializedSize_pos
    omega

/-! ## Files -/

namespace BlobFile

variable {f : BlobFile} {offset length : Nat} {value : Bytes}

@[simp] theorem fileId_append (f : BlobFile) (value : Bytes) :
    (f.append value).fileId = f.fileId := rfl

@[simp] theorem deletedOffsets_append (f : BlobFile) (value : Bytes) :
    (f.append value).deletedOffsets = f.deletedOffsets := rfl

theorem hasRecordAt_append (h : f.hasRecordAt offset) (value : Bytes) :
    (f.append value).hasRecordAt offset := by
  obtain ⟨r, hr⟩ := Option.isSome_iff_exists.mp h
  rw [hasRecordAt, append]
  simp [recordAt_append _ hr]

theorem recordAt_appended (f : BlobFile) (value : Bytes) :
    recordAt f.serializedSize 0 (f.append value).records = some ⟨value⟩ := by
  have := recordAt_end ⟨value⟩ 0 f.records []
  simpa [serializedSize, append] using this

theorem read_appended (f : BlobFile) (value : Bytes) :
    (f.append value).read f.serializedSize value.length = some value := by
  rw [read, recordAt_appended]
  simp

theorem not_hasRecordAt_end (f : BlobFile) : ¬ f.hasRecordAt f.serializedSize := by
  intro h
  obtain ⟨r, hr⟩ := Option.isSome_iff_exists.mp h
  have := (recordAt_lt hr).2
  simp [serializedSize] at this

theorem rollbackAppend_append (f : BlobFile) (value : Bytes)
    (hm : f.serializedSize ∉ f.deletedOffsets) :
    (f.append value).rollbackAppend f.serializedSize value.length = some f := by
  have hsize : (f.append value).serializedSize
      = f.serializedSize + BlobRecord.serializedSize ⟨value⟩ := by
    simp [serializedSize, append]
  have hlast : (f.append value).records.getLast? = some ⟨value⟩ := by simp [append]
  rw [rollbackAppend, hlast]
  simp only [hsize, Nat.add_sub_cancel, deletedOffsets_append, ne_eq, not_true, false_or, hm,
    if_false]
  simp [append]

end BlobFile

namespace BlobManager

/-! ## Well-formed managers -/

structure WF (b : BlobManager) : Prop where
  ids : b.files.Pairwise fun f g => f.fileId < g.fileId
  valid : ∀ f ∈ b.files, 0 < f.fileId ∧ f.fileId < b.nextFileId
  next_pos : 0 < b.nextFileId
  next_le : b.nextFileId ≤ u32Max
  marks_sorted : ∀ f ∈ b.files, f.deletedOffsets.Pairwise (· < ·)
  marks : ∀ f ∈ b.files, ∀ o ∈ f.deletedOffsets, f.hasRecordAt o

/-- The record of a pointer is there and not marked. -/
def Unmarked (b : BlobManager) (p : BlobPointer) : Prop :=
  ∃ f, b.fileById p.fileId = some f ∧ f.canMarkDeleted p.offset

variable {b b' : BlobManager} {p q : BlobPointer} {value : Bytes} {i : Nat} {g : BlobFile}
  {b₁ : BlobManager} {pre : List BlobFile}

theorem fileById_mem {f : BlobFile} (h : b.fileById i = some f) :
    f ∈ b.files ∧ f.fileId = i :=
  ⟨mem_of_find?_eq_some h, by simpa using List.find?_some h⟩

theorem WF.fileById (h : b.WF) {f : BlobFile} (hf : f ∈ b.files) :
    b.fileById f.fileId = some f := by
  have hnodup : (b.files.map BlobFile.fileId).Nodup :=
    pairwise_map.mpr (h.ids.imp fun hlt => hlt.ne)
  exact find?_of_nodup hnodup hf

theorem WF.eq_of_id (h : b.WF) {f : BlobFile} (hf : f ∈ b.files) (hg : g ∈ b.files)
    (hid : g.fileId = f.fileId) : g = f := by
  have := h.fileById hg
  rw [hid, h.fileById hf] at this
  exact (Option.some.inj this).symm

theorem read_eq_some {v : Bytes} (h : b.read p = some v) :
    ∃ f, b.fileById p.fileId = some f ∧ f.read p.offset p.length = some v := by
  rw [read] at h
  cases hf : b.fileById p.fileId with
  | none => rw [hf] at h; cases h
  | some f => rw [hf] at h; exact ⟨f, rfl, h⟩

theorem Unmarked.inv (h : b.Unmarked p) :
    ∃ f, b.fileById p.fileId = some f ∧ f.hasRecordAt p.offset ∧ p.offset ∉ f.deletedOffsets := by
  simpa [Unmarked, BlobFile.canMarkDeleted] using h

/-- Where the file of a pointer has the record still, and no mark for it, nothing is lost. -/
theorem WF.serves (hwf : b'.WF) {f : BlobFile} (hf : b.fileById q.fileId = some f)
    (hg : g ∈ b'.files) (hid : g.fileId = f.fileId) (hrec : f.hasRecordAt q.offset)
    (hmark : q.offset ∉ g.deletedOffsets)
    (hsame : recordAt q.offset 0 g.records = recordAt q.offset 0 f.records) :
    b'.Unmarked q ∧ b'.read q = b.read q := by
  have hfind : b'.fileById q.fileId = some g := by
    rw [← (fileById_mem hf).2, ← hid]
    exact hwf.fileById hg
  refine ⟨⟨g, hfind, ?_⟩, ?_⟩
  · rw [BlobFile.canMarkDeleted, Bool.and_eq_true, decide_eq_true_eq, BlobFile.hasRecordAt, hsame]
    exact ⟨hrec, hmark⟩
  · rw [read, read, hfind, hf]
    simp only [BlobFile.read, hsame]

/-! ## Opening a file -/

theorem WF.initial (threshold : Nat) (segmented : Bool) :
    (withThresholdAndMode threshold segmented).WF :=
  ⟨.nil, forall_mem_nil _, Nat.one_pos, (by decide : 1 ≤ u32Max),
    forall_mem_nil _, forall_mem_nil _⟩

theorem begin_files (hb : b.beginCompactionFile = some b₁) :
    b₁.files = b.files ++ [BlobFile.new b.nextFileId] := by
  rw [beginCompactionFile] at hb
  split at hb
  · cases hb
  · cases hb
    rfl

theorem WF.beginCompactionFile (h : b.WF) (hb : b.beginCompactionFile = some b₁) :
    b₁.WF ∧ b₁.files = b.files ++ [BlobFile.new b.nextFileId] := by
  rw [BlobManager.beginCompactionFile] at hb
  split at hb
  · cases hb
  rename_i hne
  obtain ⟨h0, hmax⟩ := not_or.mp hne
  have hle := h.next_le
  cases hb
  refine ⟨⟨pairwise_concat h.ids fun f hf => (h.valid f hf).2,
    forall_mem_concat (fun f hf => ?_) ?_, Nat.succ_pos _,
    by simp only; omega, forall_mem_concat h.marks_sorted List.Pairwise.nil,
    forall_mem_concat h.marks (by simp [BlobFile.new])⟩, rfl⟩
  · exact ⟨(h.valid f hf).1, Nat.lt_succ_of_lt (h.valid f hf).2⟩
  · exact ⟨Nat.pos_of_ne_zero h0, Nat.lt_succ_self _⟩

/-- An append of this length opens a file. -/
def opensFile (b : BlobManager) (valueLen : Nat) :
    Bool := b.files.isEmpty || b.shouldRollover valueLen

/-- What an append does, as equations. -/
theorem append_inv (h : b.append value = .ok (p, b')) : ∃ b₁ pre f,
    (b₁ = b ∧ b.opensFile value.length = false ∨ b.beginCompactionFile = some b₁ ∧
      b.opensFile value.length) ∧ b₁.files = pre ++ [f] ∧
      p = ⟨f.fileId, f.serializedSize, value.length % 2 ^ 32⟩ ∧
      b' = { b₁ with files := pre ++ [f.append value] } := by
  rw [append] at h
  rcases ha : b.activeFile value.length with _ | b₁
  · rw [ha] at h; cases h
  rw [ha] at h
  have hb₁ : b₁ = b ∧ b.opensFile value.length = false ∨
      b.beginCompactionFile = some b₁ ∧ b.opensFile value.length := by
    rw [activeFile] at ha
    split at ha
    · exact .inr ⟨ha, ‹_›⟩
    · exact .inl ⟨(Option.some.inj ha).symm, Bool.eq_false_iff.mpr ‹_›⟩
  simp only at h
  cases hl : b₁.files.getLast? with
  | none => rw [hl] at h; cases h
  | some f =>
    rw [hl] at h
    simp only [Except.ok.injEq, Prod.mk.injEq] at h
    obtain ⟨rfl, rfl⟩ := h
    have hfiles : b₁.files = b₁.files.dropLast ++ [f] := by
      obtain ⟨hne, hlast⟩ := List.getLast?_eq_some_iff.mp hl
      simp [hlast]
    exact ⟨b₁, b₁.files.dropLast, f, hb₁, hfiles, rfl, rfl⟩

/-! ## Appending -/

theorem WF.replaceLast (h : b.WF) {f : BlobFile}
    (hfiles : b.files = pre ++ [f]) (hg : g.fileId = f.fileId)
    (hs : g.deletedOffsets.Pairwise (· < ·)) (hm : ∀ o ∈ g.deletedOffsets, g.hasRecordAt o) :
    ({ b with files := pre ++ [g] } : BlobManager).WF := by
  have hmem : ∀ x ∈ pre, x ∈ b.files := fun x hx => by simp [hfiles, hx]
  have hf : f ∈ b.files := by simp [hfiles]
  have hids := h.ids
  rw [hfiles] at hids
  obtain ⟨h1, -, h3⟩ := pairwise_append.mp hids
  refine ⟨pairwise_concat h1 fun x hx => ?_,
    forall_mem_concat (fun x hx => h.valid x (hmem x hx)) ?_, h.next_pos,
    h.next_le, forall_mem_concat (fun x hx => h.marks_sorted x (hmem x hx)) hs,
    forall_mem_concat (fun x hx => h.marks x (hmem x hx)) hm⟩
  · rw [hg]
    exact h3 x hx f (by simp)
  · rw [hg]
    exact h.valid f hf

theorem cut_eq {n : Nat} (h : n ≤ u32Max) : n % 2 ^ 32 = n := Nat.mod_eq_of_lt (Nat.lt_succ_of_le h)

/-- What an append owes: a value of 32 bits' length is readable at a new place that is not marked,
and everything else is as before. -/
structure Appended (b b' : BlobManager) (p : BlobPointer) (value : Bytes) : Prop where
  wf : b'.WF
  new : b'.Unmarked p ∧ (value.length ≤ u32Max → b'.read p = some value)
  old : ∀ q, b.Unmarked q → b'.Unmarked q ∧ b'.read q = b.read q
  fresh : ∀ q, b.Unmarked q → ¬ (q.fileId = p.fileId ∧ q.offset = p.offset)

theorem WF.append (h : b.WF) (ha : b.append value = .ok (p, b')) : Appended b b' p value := by
  obtain ⟨b₁, pre, f, hopen, hfiles, rfl, rfl⟩ := append_inv ha
  obtain ⟨hwf₁, hsub⟩ : b₁.WF ∧ ∀ g ∈ b.files, g ∈ b₁.files := by
    rcases hopen with ⟨rfl, -⟩ | ⟨hb, -⟩
    · exact ⟨h, fun _ hg => hg⟩
    · obtain ⟨hwf₁, hfiles₁⟩ := h.beginCompactionFile hb
      exact ⟨hwf₁, fun g hg => by simp [hfiles₁, hg]⟩
  have hf : f ∈ b₁.files := by simp [hfiles]
  have hwf : ({ b₁ with files := pre ++ [f.append value] } : BlobManager).WF :=
    hwf₁.replaceLast hfiles rfl (hwf₁.marks_sorted f hf)
      fun o ho => BlobFile.hasRecordAt_append (hwf₁.marks f hf o ho) value
  have hnew : ({ b₁ with files := pre ++ [f.append value] } : BlobManager).fileById f.fileId
      = some (f.append value) :=
    hwf.fileById (f := f.append value) (by simp)
  refine ⟨hwf, ⟨⟨f.append value, hnew, ?_⟩, ?_⟩, fun q hq => ?_, fun q hq hplace => ?_⟩
  · have hmark : f.serializedSize ∉ f.deletedOffsets := fun hm =>
      f.not_hasRecordAt_end (hwf₁.marks f hf _ hm)
    simp [BlobFile.canMarkDeleted, BlobFile.hasRecordAt, BlobFile.recordAt_appended, hmark]
  · intro hv
    simp only [read, hnew, cut_eq hv, BlobFile.read_appended]
  · obtain ⟨g, hg, hrec, hm⟩ := hq.inv
    have hmem := hsub g (fileById_mem hg).1
    rw [hfiles] at hmem
    rcases mem_append.mp hmem with hpre | hlast
    · exact hwf.serves hg (mem_append_left _ hpre) rfl hrec hm rfl
    · obtain rfl := mem_singleton.mp hlast
      obtain ⟨r, hr⟩ := Option.isSome_iff_exists.mp hrec
      exact hwf.serves hg mem_concat_self rfl hrec hm ((recordAt_append _ hr).trans hr.symm)
  · obtain ⟨g, hg, hrec, -⟩ := hq.inv
    obtain ⟨hmem, hid⟩ := fileById_mem hg
    obtain rfl := hwf₁.eq_of_id hf (hsub g hmem) (hid.trans hplace.1)
    rw [hplace.2] at hrec
    exact g.not_hasRecordAt_end hrec

/-- No file is without a record. -/
def NoEmpty (b : BlobManager) : Prop := ∀ f ∈ b.files, f.records ≠ []

theorem NoEmpty.append (h : b.NoEmpty) (ha : b.append value = .ok (p, b')) : b'.NoEmpty := by
  obtain ⟨b₁, pre, f, hb₁, hfiles, rfl, rfl⟩ := append_inv ha
  have hpre : ∀ g ∈ pre, g.records ≠ [] := by
    intro g hg
    rcases hb₁ with ⟨rfl, -⟩ | ⟨hb, -⟩
    · exact h g (by simp [hfiles, hg])
    rw [begin_files hb] at hfiles
    obtain ⟨hpre, -⟩ := append_inj' hfiles rfl
    exact h g (hpre ▸ hg)
  exact forall_mem_concat hpre (by simp [BlobFile.append])

theorem rollbackAppend_last {f : BlobFile} (hm : f.serializedSize ∉ f.deletedOffsets) :
    ({ b₁ with files := pre ++ [f.append value] } : BlobManager).rollbackAppend
        ⟨f.fileId, f.serializedSize, value.length⟩
      = { b₁ with files := if f.records = [] then pre else pre ++ [f] } := by
  have hroll := BlobFile.rollbackAppend_append f value hm
  rw [rollbackAppend]
  simp only [List.getLast?_append, List.getLast?_singleton, Option.some_or, BlobFile.fileId_append,
    ne_eq, not_true, if_false, hroll, dropLast_concat, BlobFile.recordCount,
    length_eq_zero_iff]
  split
  · rfl
  · rfl

/-! ## Marking -/

theorem pairwise_orderedInsert {o : Nat} {l : List Nat} (h : l.Pairwise (· < ·)) (ho : o ∉ l) :
    (l.orderedInsert (· ≤ ·) o).Pairwise (· < ·) := by
  have hle := List.Pairwise.orderedInsert o l (h.imp Nat.le_of_lt)
  have hnodup : (l.orderedInsert (· ≤ ·) o).Nodup :=
    (perm_orderedInsert _ o l).nodup_iff.mpr (nodup_cons.mpr ⟨ho, h.imp Nat.ne_of_lt⟩)
  exact hle.imp₂ (fun _ _ hle hne => Nat.lt_of_le_of_ne hle hne) hnodup

theorem fileById_setFile (g : BlobFile) (i : Nat) : (b.setFile g).fileById i
    = (b.fileById i).map fun x => if x.fileId = g.fileId then g else x := by
  rw [fileById, setFile, List.find?_map, fileById]
  congr 2
  funext x
  by_cases h : x.fileId = g.fileId <;> simp [h]

/-- What marking a record owes: no other record changes. -/
structure Marked (b b' : BlobManager) (p : BlobPointer) : Prop where
  wf : b'.WF
  noEmpty : b.NoEmpty → b'.NoEmpty
  other : ∀ q, b.Unmarked q → ¬ (q.fileId = p.fileId ∧ q.offset = p.offset) →
    b'.Unmarked q ∧ b'.read q = b.read q

theorem WF.setMarks (h : b.WF) {f : BlobFile} {marks : List Nat} (hs : marks.Pairwise (· < ·))
    (hm : ∀ o ∈ marks, f.hasRecordAt o) : (b.setFile { f with deletedOffsets := marks }).WF := by
  have hset : ∀ x ∈ b.files, ∀ y,
      (if x.fileId = f.fileId then { f with deletedOffsets := marks } else x) = y →
      y.fileId = x.fileId ∧ y.deletedOffsets.Pairwise (· < ·) ∧ ∀ o ∈ y.deletedOffsets,
        y.hasRecordAt o := by
    rintro x hx _ rfl
    split
    · exact ⟨Eq.symm ‹_›, hs, hm⟩
    · exact ⟨rfl, h.marks_sorted x hx, h.marks x hx⟩
  refine ⟨pairwise_map.mpr (h.ids.imp_of_mem fun hx hy hlt => ?_),
    forall_mem_map.mpr fun x hx => ?_,
    h.next_pos, h.next_le, forall_mem_map.mpr fun x hx => (hset x hx _ rfl).2.1,
    forall_mem_map.mpr fun x hx => (hset x hx _ rfl).2.2⟩
  · rwa [(hset _ hx _ rfl).1, (hset _ hy _ rfl).1]
  · rw [(hset x hx _ rfl).1]
    exact h.valid x hx

/-- What a deletion does, as equations. -/
theorem markDeleted_inv (h : b.markDeleted p = some b') : ∃ f, b.fileById p.fileId = some f ∧
    f.canMarkDeleted p.offset ∧
    b' = b.setFile { f with
      deletedOffsets := f.deletedOffsets.orderedInsert (· ≤ ·) p.offset } := by
  rw [markDeleted] at h
  rcases hf : b.fileById p.fileId with _ | f
  · rw [hf] at h
    cases h
  rw [hf] at h
  simp only [BlobFile.markDeleted] at h
  split at h
  · cases h
  rename_i g hg
  cases h
  split at hg
  · rename_i hcan
    cases hg
    exact ⟨f, rfl, hcan, rfl⟩
  · cases hg

theorem Unmarked.markDeleted (h : b.Unmarked p) : ∃ b', b.markDeleted p = some b' := by
  obtain ⟨f, hf, hcan⟩ := h
  simp [BlobManager.markDeleted, hf, BlobFile.markDeleted, hcan]

theorem WF.marked (h : b.WF) (hm : b.markDeleted p = some b') : Marked b b' p := by
  obtain ⟨f, hf, hcan, rfl⟩ := markDeleted_inv hm
  rw [BlobFile.canMarkDeleted, Bool.and_eq_true, decide_eq_true_eq] at hcan
  obtain ⟨hmem, hid⟩ := fileById_mem hf
  have hwf := h.setMarks (pairwise_orderedInsert (h.marks_sorted f hmem) hcan.2) fun o ho =>
    ((mem_orderedInsert _).mp ho).elim (fun he => he ▸ hcan.1) (h.marks f hmem o)
  refine ⟨hwf, fun hne x hx => ?_, fun q hq hne => ?_⟩
  · obtain ⟨y, hy, rfl⟩ := mem_map.mp hx
    split
    · exact hne f hmem
    · exact hne y hy
  · obtain ⟨g, hg, hrec, hmark⟩ := hq.inv
    obtain ⟨hgmem, hgid⟩ := fileById_mem hg
    by_cases hgf : g.fileId = f.fileId
    · obtain rfl := h.eq_of_id hmem hgmem hgf
      refine hwf.serves hg (mem_map.mpr ⟨g, hgmem, if_pos rfl⟩) rfl hrec (fun hin => ?_) rfl
      exact ((mem_orderedInsert _).mp hin).elim (fun ho => hne ⟨hgid.symm.trans hid, ho⟩) hmark
    · exact hwf.serves hg (mem_map.mpr ⟨g, hgmem, if_neg hgf⟩) rfl hrec hmark rfl

/-! ## The image of a manager -/

theorem orderedInsert_last {o : Nat} : ∀ {l : List Nat}, (∀ x ∈ l, x < o) →
    l.orderedInsert (· ≤ ·) o = l ++ [o]
  | [], _ => rfl
  | a :: l, h => by
    have ha := h a (.head _)
    rw [List.orderedInsert, if_neg (by omega), orderedInsert_last fun x hx => h x (.tail _ hx)]
    rfl

/-- Restoring increasing marks one by one gives them back. -/
theorem restoreDeleted_eq (f : BlobFile) : ∀ (l acc : List Nat), (acc ++ l).Pairwise (· < ·) →
    (∀ o ∈ l, f.hasRecordAt o) →
    BlobFile.restoreDeleted l { f with deletedOffsets := acc } =
      some { f with deletedOffsets := acc ++ l }
  | [], acc, _, _ => by simp [BlobFile.restoreDeleted]
  | o :: l, acc, hs, hm => by
    obtain ⟨-, -, hlt⟩ := pairwise_append.mp hs
    have hacc : ∀ x ∈ acc, x < o := fun x hx => hlt x hx o (.head _)
    have hno : o ∉ acc := fun hmem => lt_irrefl _ (hacc o hmem)
    have ho : f.hasRecordAt o := hm o (.head _)
    have hmark : ({ f with deletedOffsets := acc } : BlobFile).markDeleted o
        = some { f with deletedOffsets := acc ++ [o] } := by
      have hrec : ({ f with deletedOffsets := acc } : BlobFile).hasRecordAt o = true := ho
      simp [BlobFile.markDeleted, BlobFile.canMarkDeleted, hrec, hno, orderedInsert_last hacc]
    rw [BlobFile.restoreDeleted, hmark]
    simp only
    rw [restoreDeleted_eq f l (acc ++ [o]) (by simpa using hs) fun x hx => hm x (.tail _ hx)]
    simp

theorem loadFile_eq {f : BlobFile} (hs : f.deletedOffsets.Pairwise (· < ·))
    (hm : ∀ o ∈ f.deletedOffsets, f.hasRecordAt o) :
    loadFile f.fileId f.records f.deletedOffsets = some f := by
  have := restoreDeleted_eq f f.deletedOffsets [] (by simpa using hs) hm
  simpa [loadFile] using this

theorem nextFileIdAfter_spec (files : List BlobFile) : 0 < nextFileIdAfter files ∧
    (∀ f ∈ files, f.fileId < nextFileIdAfter files) ∧
    ∀ n, 0 < n → (∀ f ∈ files, f.fileId < n) → nextFileIdAfter files ≤ n := by
  have hgen : ∀ (fs : List BlobFile) (start : Nat),
      start ≤ fs.foldl (fun next f => max next (f.fileId + 1)) start ∧
      (∀ f ∈ fs, f.fileId < fs.foldl (fun next f => max next (f.fileId + 1)) start) ∧
      ∀ n, start ≤ n → (∀ f ∈ fs, f.fileId < n) →
        fs.foldl (fun next f => max next (f.fileId + 1)) start ≤ n := by
    intro fs
    induction fs with
    | nil => intro start; simp
    | cons g gs ih =>
      intro start
      obtain ⟨h1, h2, h3⟩ := ih (max start (g.fileId + 1))
      simp only [foldl_cons]
      refine ⟨(le_max_left _ _).trans h1, fun f hf => ?_, fun n hn hlt => ?_⟩
      · rcases mem_cons.mp hf with rfl | hf
        · have := (le_max_right start (f.fileId + 1)).trans h1
          omega
        · exact h2 f hf
      · have := hlt g (.head _)
        exact h3 n (max_le hn this) fun f hf => hlt f (.tail _ hf)
  obtain ⟨h1, h2, h3⟩ := hgen files 1
  exact ⟨h1, h2, fun n hn => h3 n hn⟩

theorem sortFiles_eq {files : List BlobFile} (h : files.Pairwise fun f g => f.fileId < g.fileId) :
    sortFiles files = files :=
  List.Pairwise.insertionSort_eq (h.imp fun hlt => le_of_lt hlt)

/-! ## Forgetting the marks -/

theorem WF.clear (h : b.WF) : b.clearDeletionMetadata.WF := { h with
  ids := by
    rw [clearDeletionMetadata, pairwise_map]
    exact h.ids
  valid f hf := by
    obtain ⟨g, hg, rfl⟩ := mem_map.mp hf
    exact h.valid g hg
  marks_sorted f hf := by
    obtain ⟨g, hg, rfl⟩ := mem_map.mp hf
    exact List.Pairwise.nil
  marks f hf := by
    obtain ⟨g, hg, rfl⟩ := mem_map.mp hf
    simp [BlobFile.clearDeletionMetadata] }

theorem WF.markAllDeleted (h : b.WF) : b.markAllDeleted.WF := { h with
  ids := pairwise_map.mpr h.ids
  valid f hf := by
    obtain ⟨g, hg, rfl⟩ := mem_map.mp hf
    exact h.valid g hg
  marks_sorted f hf := by
    obtain ⟨g, -, rfl⟩ := mem_map.mp hf
    exact recordOffsetsFrom_sorted _ _
  marks f hf o ho := by
    obtain ⟨g, -, rfl⟩ := mem_map.mp hf
    exact mem_recordOffsetsFrom.mp ho }

end BlobManager

end SeerDb
