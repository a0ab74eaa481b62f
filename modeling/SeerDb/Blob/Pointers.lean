/-
# `SeerDb.Blob.Pointers` — a pointer reads its value until its record is retired

Whatever a manager does with other records: a deletion marks one of them, a sweep drops a
file only when all its records are marked, an undone append takes back the last one.
-/
import SeerDb.Blob.DirectRead

namespace SeerDb.BlobManager

open List

abbrev SamePlace (p q : BlobPointer) : Prop := p.fileId = q.fileId ∧ p.offset = q.offset

/-- A run of a manager, with the pointers that are out: handed out, and neither taken back nor
marked.  A pointer that a rollback was called with counts as taken back, also when the manager
refuses the rollback and stays as it is.  A longer value has no pointer that reads: its length
does not fit. -/
inductive Issued : BlobManager → List (BlobPointer × Bytes) → Prop
  | new (threshold : Nat) (segmented : Bool) : Issued (withThresholdAndMode threshold segmented) []
  | append {b b' out value p} : Issued b out → value.length ≤ u32Max →
      b.append value = .ok (p, b') → Issued b' ((p, value) :: out)
  | rollbackAppend {b out} (p : BlobPointer) : Issued b out →
      Issued (b.rollbackAppend p) (out.filter fun e => ¬ SamePlace e.1 p)
  | markDeleted {b b' out p} : Issued b out → b.markDeleted p = some b' →
      Issued b' (out.filter fun e => ¬ SamePlace e.1 p)
  | gc {b out} : Issued b out → Issued b.gc.2 out

variable {b : BlobManager} {p q : BlobPointer}

theorem WF.rollback_serves (h : b.WF) (hu : b.Unmarked q) (hne : ¬ SamePlace q p) :
    (b.rollbackAppend p).Unmarked q ∧ (b.rollbackAppend p).read q = b.read q := by
  have hwf := h.rollback p
  rcases b.rollbackAppend_cases p with heq | ⟨pre, last, g, hfiles, hlast, hroll, heq⟩
  · rw [heq]
    exact ⟨hu, rfl⟩
  obtain ⟨f, hf, hrec, hmark⟩ := hu.inv
  obtain ⟨hmem, hid⟩ := fileById_mem hf
  rw [hfiles] at hmem
  rcases mem_append.mp hmem with hpre | hmem
  · refine hwf.serves hf ?_ rfl hrec hmark rfl
    rcases heq with ⟨-, heq⟩ | ⟨-, heq⟩ <;> simp [heq, hpre]
  obtain rfl := mem_singleton.mp hmem
  obtain ⟨r, hrs, hgid, hmarks, hsize, -⟩ := BlobFile.rollbackAppend_inv hroll
  have hsame : recordAt q.offset 0 f.records = recordAt q.offset 0 g.records := by
    rw [hrs, recordAt_concat]
    rw [Nat.zero_add]
    exact fun he => hne ⟨hid.symm.trans hlast, he.trans hsize⟩
  -- the file has the record of `q` still, and stays
  have hsome : g.records ≠ [] := by
    intro hnil
    rw [BlobFile.hasRecordAt, hsame, hnil] at hrec
    cases hrec
  refine hwf.serves hf ?_ hgid hrec (hmarks ▸ hmark) hsame.symm
  simp [(heq.resolve_left fun hnone => hsome hnone.1).2]

theorem WF.gc_serves (h : b.WF) (hu : b.Unmarked q) :
    b.gc.2.Unmarked q ∧ b.gc.2.read q = b.read q := by
  obtain ⟨f, hf, hrec, hmark⟩ := hu.inv
  have hmem := (fileById_mem hf).1
  have hwf : b.gc.2.WF := h.sublist filter_sublist
  refine hwf.serves hf (mem_filter.mpr ⟨hmem, ?_⟩) rfl hrec hmark rfl
  -- the marks and one record more
  have hnodup : (q.offset :: f.deletedOffsets).Nodup :=
    nodup_cons.mpr ⟨hmark, (h.marks_sorted f hmem).imp fun hlt => hlt.ne⟩
  have hsub : q.offset :: f.deletedOffsets ⊆ f.recordOffsets := by
    refine cons_subset.mpr ⟨mem_recordOffsetsFrom.mpr hrec, fun o ho => ?_⟩
    exact mem_recordOffsetsFrom.mpr (h.marks f hmem o ho)
  have hlen := (subperm_of_subset hnodup hsub).length_le
  rw [BlobFile.recordOffsets, BlobStore.length_recordOffsetsFrom, length_cons] at hlen
  have hvalid : f.validCount ≠ 0 := Nat.sub_ne_zero_of_lt hlen
  simp [reclaimable, hvalid]

/-- **Every pointer that is out reads its value**, its record has no mark, and no two of them share
a place. -/
theorem issued_reads {out : List (BlobPointer × Bytes)} (h : Issued b out) :
    (∀ e ∈ out, b.Unmarked e.1 ∧ b.read e.1 = some e.2) ∧ out.Pairwise fun e e' =>
    ¬ SamePlace e'.1 e.1 := by
  suffices hinv : b.WF ∧ (∀ e ∈ out, b.Unmarked e.1 ∧ b.read e.1 = some e.2) ∧
      out.Pairwise fun e e' => ¬ SamePlace e'.1 e.1 from hinv.2
  induction h with
  | new threshold segmented => exact ⟨.initial threshold segmented, by simp, .nil⟩
  | append _ hv ha ih =>
    obtain ⟨hwf, hserves, hapart⟩ := ih
    have happ := hwf.append ha
    refine ⟨happ.wf, forall_mem_cons.mpr ⟨⟨happ.new.1, happ.new.2 hv⟩, fun e he => ?_⟩,
      pairwise_cons.mpr ⟨fun e he => ?_, hapart⟩⟩
    · obtain ⟨hu, hr⟩ := happ.old _ (hserves e he).1
      exact ⟨hu, hr.trans (hserves e he).2⟩
    · exact happ.fresh _ (hserves e he).1
  | rollbackAppend p _ ih =>
    obtain ⟨hwf, hserves, hapart⟩ := ih
    refine ⟨hwf.rollback p, fun e he => ?_, hapart.filter _⟩
    obtain ⟨he, hne⟩ := mem_filter.mp he
    obtain ⟨hu, hr⟩ := hwf.rollback_serves (hserves e he).1 (of_decide_eq_true hne)
    exact ⟨hu, hr.trans (hserves e he).2⟩
  | markDeleted _ hm ih =>
    obtain ⟨hwf, hserves, hapart⟩ := ih
    have hmark := hwf.marked hm
    refine ⟨hmark.wf, fun e he => ?_, hapart.filter _⟩
    obtain ⟨he, hne⟩ := mem_filter.mp he
    obtain ⟨hu, hr⟩ := hmark.other _ (hserves e he).1 (of_decide_eq_true hne)
    exact ⟨hu, hr.trans (hserves e he).2⟩
  | gc _ ih =>
    obtain ⟨hwf, hserves, hapart⟩ := ih
    refine ⟨hwf.sublist filter_sublist, fun e he => ?_, hapart⟩
    obtain ⟨hu, hr⟩ := hwf.gc_serves (hserves e he).1
    exact ⟨hu, hr.trans (hserves e he).2⟩

theorem issued_reads_two : ∃ b : BlobManager, b.read ⟨1, 0, 1⟩ = some [7] ∧
    b.read ⟨1, 17, 1⟩ = some [8] := by
  have h := issued_reads (@Issued.append _ _ _ [8] _ (@Issued.append _ _ _ [7] _ (.new 1 false)
    (by decide) rfl) (by decide) rfl)
  exact ⟨_, (h.1 _ (.tail _ (.head _))).2, (h.1 _ (.head _)).2⟩

end SeerDb.BlobManager
