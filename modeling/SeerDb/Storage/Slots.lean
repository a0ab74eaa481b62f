/-
# `SeerDb.Storage.Slots` — which slots of the data file are in use

A slot is mapped by the active table, free, or on its way from the one to the
other: retired by a flush (`pending`), or held back while a rebuilt tree is
written (`reserved`).  `SlotInv` keeps these apart, every slot aligned and below the
allocation frontier, and no free slot among those that must be `held`, for the newest
durable generation, a retained root or a reader.  There is one lemma for each operation
of the engine that moves slots.
-/
import SeerDb.Storage.Engine
import Mathlib.Data.List.Dedup

namespace SeerDb

open List

/-! ## The mapping table -/

namespace PMT

variable {t : PMT}

/-- Pages in increasing order, no two in one slot, all in the one data file. -/
structure WF (t : PMT) : Prop where
  sorted : Lib.Sorted t.mappings
  inj : ∀ {p q m m'}, t.get p = some m → t.get q = some m' → m.offset = m'.offset → p = q
  file : ∀ {p m}, t.get p = some m → m.fileId = 0

theorem get_of_isEmpty (h : t.isEmpty = true) (p : PageId) : t.get p = none := by
  rw [isEmpty, List.isEmpty_iff] at h
  rw [get, h]
  rfl

variable {o : Nat}

theorem WF.mem_offsets (h : t.WF) :
    o ∈ t.offsets ↔ ∃ p m, t.get p = some m ∧ m.offset = o := by
  rw [offsets, mem_map]
  constructor
  · rintro ⟨⟨p, m⟩, hm, rfl⟩
    exact ⟨p, m, (Lib.get_eq_some_iff h.sorted).mpr hm, rfl⟩
  · rintro ⟨p, m, hm, rfl⟩
    exact ⟨(p, m), (Lib.get_eq_some_iff h.sorted).mp hm, rfl⟩

theorem WF.get_insert (h : t.WF) (p fileId o q : Nat) :
    (t.insert p fileId o).get q = if q = p then some ⟨fileId, o, t.nextVersion⟩ else t.get q :=
  Lib.get_upsert h.sorted p q _

theorem wf_new : new.WF where
  sorted := Lib.sorted_nil
  inj h := by cases h
  file h := by cases h

theorem wf_clear (t : PMT) : t.clear.WF where
  sorted := Lib.sorted_nil
  inj h := by cases h
  file h := by cases h

/-- A page moves to a slot that no other page has. -/
theorem WF.insert (h : t.WF) {p : Nat}
    (ho : ∀ q m, t.get q = some m → m.offset = o → q = p) : (t.insert p 0 o).WF where
  sorted := Lib.sorted_upsert h.sorted
  inj := by
    intro q q' m m' hq hq' heq
    rw [h.get_insert] at hq hq'
    split at hq
    · subst_vars
      cases hq
      split at hq'
      · subst_vars
        rfl
      · exact (ho _ _ hq' heq.symm).symm
    · split at hq'
      · subst_vars
        cases hq'
        exact ho _ _ hq heq
      · exact h.inj hq hq' heq
  file := by
    intro q m hq
    rw [h.get_insert] at hq
    split at hq
    · cases hq
      rfl
    · exact h.file hq

/-- The slots of a table after a page moved. -/
theorem WF.mem_offsets_insert (h : t.WF) {p : Nat}
    (ho : ∀ q m, t.get q = some m → m.offset = o → q = p) {x : Nat} :
    x ∈ (t.insert p 0 o).offsets ↔ x = o ∨ ∃ q m, q ≠ p ∧ t.get q = some m ∧ m.offset = x := by
  rw [(h.insert ho).mem_offsets]
  constructor
  · rintro ⟨q, m, hq, rfl⟩
    rw [h.get_insert] at hq
    split at hq
    · cases hq
      exact .inl rfl
    · rename_i hne
      exact .inr ⟨q, m, hne, hq, rfl⟩
  · rintro (rfl | ⟨q, m, hne, hq, rfl⟩)
    · exact ⟨p, ⟨0, x, t.nextVersion⟩, by rw [h.get_insert, if_pos rfl], rfl⟩
    · exact ⟨q, m, by rw [h.get_insert, if_neg hne, hq], rfl⟩

end PMT

/-! ## Slots of a file -/

/-- An aligned slot of a file of `size` bytes. -/
def InFile (size o : Nat) : Prop := pageSize ∣ o ∧ o + pageSize ≤ size

theorem InFile.mono {size size' : Nat} (h : InFile size o) (hle : size ≤ size') : InFile size' o :=
  ⟨h.1, h.2.trans hle⟩

theorem pageSize_pos : 0 < pageSize := by decide

theorem mem_slots {d : Device} (ha : pageSize ∣ d.size) :
    o ∈ d.slots ↔ InFile d.size o := by
  obtain ⟨n, hn⟩ := ha
  have hpos := pageSize_pos
  have hcount : (d.size + pageSize - 1) / pageSize = n := by
    rw [hn, Nat.add_sub_assoc hpos, Nat.mul_add_div hpos, Nat.div_eq_of_lt (by omega), Nat.add_zero]
  rw [Device.slots, hcount, mem_map, InFile]
  constructor
  · rintro ⟨i, hi, rfl⟩
    have hi' := mem_range.mp hi
    refine ⟨Nat.dvd_mul_left _ _, ?_⟩
    rw [hn, ← Nat.succ_mul, Nat.mul_comm pageSize n]
    exact Nat.mul_le_mul_right _ hi'
  · rintro ⟨⟨i, rfl⟩, hle⟩
    refine ⟨i, mem_range.mpr ?_, Nat.mul_comm _ _⟩
    rw [hn, ← Nat.mul_succ] at hle
    exact Nat.le_of_mul_le_mul_left hle hpos

/-- An aligned slot in the last page of the file is that page. -/
theorem InFile.eq_last {size o : Nat} (h : InFile size o) (ha : pageSize ∣ size)
    (hn : ¬ InFile (size - pageSize) o) : o = size - pageSize := by
  have hlow : ¬ o + pageSize ≤ size - pageSize := fun hle => hn ⟨h.1, hle⟩
  have hup := h.2
  obtain ⟨i, rfl⟩ := h.1
  obtain ⟨j, hj⟩ := Nat.dvd_sub ha (Nat.dvd_refl pageSize)
  rw [hj] at hlow ⊢
  have h1 : ¬ i + 1 ≤ j := fun hle => hlow (by
    rw [← Nat.mul_succ]
    exact Nat.mul_le_mul_left _ hle)
  have h2 : i ≤ j := by
    refine Nat.le_of_mul_le_mul_left ?_ pageSize_pos
    omega
  rw [show i = j by omega]

theorem sorted_slots (d : Device) : d.slots.Pairwise (· < ·) :=
  pairwise_map.mpr (pairwise_lt_range.imp fun h => Nat.mul_lt_mul_of_pos_right h pageSize_pos)

namespace StorageEngine

/-! ## The invariant -/

/-- `out`: slots a flush has taken out of the table and not yet listed as pending. -/
structure SlotInv (e : StorageEngine) (size : Nat) (out held : List Nat) : Prop where
  pmt : e.pmt.WF
  frontier : e.nextOffset = size
  aligned : pageSize ∣ size
  mapped : ∀ o ∈ e.pmt.offsets, InFile size o
  free_in : ∀ o ∈ e.freeOffsets, InFile size o
  retired_in : ∀ o, o ∈ e.pendingReclaimedOffsets ∨ o ∈ e.rebuildReservedOffsets ∨
    o ∈ out → InFile size o
  held_in : ∀ o ∈ held, InFile size o
  sorted : e.freeOffsets.Pairwise (· < ·)
  free : ∀ o ∈ e.freeOffsets, o ∉ e.pmt.offsets ∧ o ∉ held
  free_retired : ∀ o, o ∈ e.pendingReclaimedOffsets ∨ o ∈ e.rebuildReservedOffsets ∨ o ∈ out →
    o ∉ e.freeOffsets
  retired : ∀ o, o ∈ e.pendingReclaimedOffsets ∨ o ∈ e.rebuildReservedOffsets ∨ o ∈ out →
    o ∉ e.pmt.offsets

variable {e e' : StorageEngine} {size : Nat} {out held : List Nat} {held' keep : List Nat}

theorem SlotInv.nodup (h : SlotInv e size out held) : e.freeOffsets.Nodup := h.sorted.imp ne_of_lt

/-- Only the bookkeeping of slots matters. -/
theorem SlotInv.congr (h : SlotInv e size out held) (hpmt : e'.pmt = e.pmt)
    (hnext : e'.nextOffset = e.nextOffset) (hfree : e'.freeOffsets = e.freeOffsets)
    (hpend : e'.pendingReclaimedOffsets = e.pendingReclaimedOffsets)
    (hres : e'.rebuildReservedOffsets = e.rebuildReservedOffsets) : SlotInv e' size out held := by
  obtain ⟨h1, h2, h3, h4, h5, h6, h7, h8, h9, h10, h11⟩ := h
  exact ⟨by rwa [hpmt], by rwa [hnext], h3, by rwa [hpmt], by rwa [hfree], by rwa [hpend, hres], h7,
    by rwa [hfree], by rwa [hfree, hpmt], by rwa [hpend, hres, hfree], by rwa [hpend, hres, hpmt]⟩

/-- Loading pages changes the resident tree only. -/
theorem prepareMutation_rest {dev : Device} {k : Bytes} (h : e.prepareMutation dev k = .ok e') :
    ∃ t, e' = { e with btree := t } := by
  rw [StorageEngine.prepareMutation] at h
  split at h
  · cases h
    exact ⟨e.btree, rfl⟩
  split at h
  · cases h
  · cases h
    exact ⟨_, rfl⟩

theorem ensureMaterialized_rest {dev : Device} (h : e.ensureMaterialized dev = .ok e') :
    ∃ t root, e' = { e with btree := t, lazyRoot := root } := by
  rw [ensureMaterialized] at h
  split at h
  · cases h
    exact ⟨e.btree, e.lazyRoot, rfl⟩
  split at h
  · cases h
  split at h
  · cases h
  · cases h
    exact ⟨_, none, rfl⟩

/-- Fewer slots may be held. -/
theorem SlotInv.mono (h : SlotInv e size out held) (hh : ∀ o ∈ held', o ∈ held) :
    SlotInv e size out held' :=
  { h with
    held_in := fun o ho => h.held_in o (hh o ho)
    free := fun o ho => ⟨(h.free o ho).1, fun hm => (h.free o ho).2 (hh o hm)⟩ }

/-- A slot may be held if it is in use. -/
theorem SlotInv.hold (h : SlotInv e size out held)
    (hh : ∀ o ∈ held', o ∈ held ∨ o ∈ e.pmt.offsets) : SlotInv e size out held' :=
  { h with
    held_in := fun o ho => (hh o ho).elim (h.held_in o) (h.mapped o)
    free := fun o ho => ⟨(h.free o ho).1,
      fun hm => (hh o hm).elim (h.free o ho).2 (h.free o ho).1⟩ }

/-! ## Writing pages -/

/-- Where the next page goes is free: no page of the table is there, and it is not held. -/
theorem SlotInv.nextSlot (h : SlotInv e size out held) :
    pageSize ∣ e.nextSlot ∧ e.nextSlot ∉ e.pmt.offsets ∧ e.nextSlot ∉ held ∧
      (∀ o, o ∈ e.pendingReclaimedOffsets ∨ o ∈ e.rebuildReservedOffsets ∨
        o ∈ out → o ≠ e.nextSlot) ∧
      e.nextSlot ∉ e.freeOffsets.dropLast ∧
      max size (e.nextSlot + pageSize) =
        (if e.freeOffsets.isEmpty then e.nextOffset + pageSize else e.nextOffset) := by
  have hpast : ∀ {o}, InFile size o → o ≠ e.nextOffset := by
    rintro o ho rfl
    have h1 := ho.2
    have h2 := pageSize_pos
    rw [h.frontier] at h1
    omega
  rcases eq_nil_or_concat e.freeOffsets with hnil | ⟨init, last, hlast⟩
  · have hslot : e.nextSlot = e.nextOffset := by simp [StorageEngine.nextSlot, hnil]
    rw [hslot]
    refine ⟨h.frontier ▸ h.aligned, fun hm => hpast (h.mapped _ hm) rfl,
      fun hm => hpast (h.held_in _ hm) rfl, fun o ho =>
        hpast (h.retired_in o ho), by simp [hnil], ?_⟩
    rw [hnil, h.frontier]
    simp
  rw [concat_eq_append] at hlast
  have hslot : e.nextSlot = last := by simp [StorageEngine.nextSlot, hlast]
  have hmem : last ∈ e.freeOffsets := by simp [hlast]
  have hin := h.free_in last hmem
  rw [hslot]
  refine ⟨hin.1, (h.free last hmem).1, (h.free last hmem).2, ?_, ?_, ?_⟩
  · rintro o ho rfl
    exact h.free_retired o ho hmem
  · have hn := h.nodup
    rw [hlast, nodup_append] at hn
    rw [hlast, dropLast_concat]
    exact fun hm => hn.2.2 last hm last (.head _) rfl
  · rw [hlast, h.frontier]
    simp [hin.2]

theorem mem_toList_offset {p : Nat} :
    o ∈ ((e.pmt.get p).map PageMapping.offset).toList ↔ ∃ m, e.pmt.get p = some m ∧
      m.offset = o := by
  cases e.pmt.get p with
  | none => simp
  | some m => simp [eq_comm]

/-- One page written to a slot that was not in use; the slot it had goes out of use. -/
theorem SlotInv.place (h : SlotInv e size out held) {p x size' : Nat} {free : List Nat}
    (hin : InFile size' x) (hsize : size ≤ size') (ha : pageSize ∣ size')
    (hmapped : x ∉ e.pmt.offsets)
    (hret : ∀ o, o ∈ e.pendingReclaimedOffsets ∨ o ∈ e.rebuildReservedOffsets ∨ o ∈ out → o ≠ x)
    (hfree : ∀ o ∈ free, o ∈ e.freeOffsets ∧ o ≠ x) (hsorted : free.Pairwise (· < ·)) :
    SlotInv { e with pmt := e.pmt.insert p 0 x, freeOffsets := free, nextOffset := size' } size'
      (((e.pmt.get p).map PageMapping.offset).toList ++ out) held := by
  have hnone : ∀ q m, e.pmt.get q = some m → m.offset = x → q = p := fun q m hq ho =>
    absurd (h.pmt.mem_offsets.mpr ⟨q, m, hq, ho⟩) hmapped
  have hmem : ∀ {o}, o ∈ (e.pmt.insert p 0 x).offsets ↔
      o = x ∨ ∃ q m, q ≠ p ∧ e.pmt.get q = some m ∧ m.offset = o :=
    h.pmt.mem_offsets_insert hnone
  have hold : ∀ {o}, (∃ q m, q ≠ p ∧ e.pmt.get q = some m ∧ m.offset = o) → o ∈ e.pmt.offsets := by
    rintro o ⟨q, m, -, hq, rfl⟩
    exact h.pmt.mem_offsets.mpr ⟨q, m, hq, rfl⟩
  -- what goes out of use is what the page's old mapping names, and what was out of use
  have hout : ∀ {o}, (o ∈ e.pendingReclaimedOffsets ∨ o ∈ e.rebuildReservedOffsets ∨
      o ∈ ((e.pmt.get p).map PageMapping.offset).toList ++ out) →
      (∃ m, e.pmt.get p = some m ∧ m.offset = o) ∨
        (o ∈ e.pendingReclaimedOffsets ∨ o ∈ e.rebuildReservedOffsets ∨ o ∈ out) := by
    rintro o (ho | ho | ho)
    · exact .inr (.inl ho)
    · exact .inr (.inr (.inl ho))
    · rcases mem_append.mp ho with ho | ho
      · exact .inl (mem_toList_offset.mp ho)
      · exact .inr (.inr (.inr ho))
  refine ⟨h.pmt.insert hnone, rfl, ha, ?_, ?_, ?_, ?_, hsorted, ?_, ?_, ?_⟩
  · intro o ho
    rcases hmem.mp ho with rfl | ho
    · exact hin
    · exact (h.mapped o (hold ho)).mono hsize
  · exact fun o ho => (h.free_in o (hfree o ho).1).mono hsize
  · intro o ho
    rcases hout ho with ⟨m, hm, rfl⟩ | ho
    · exact (h.mapped _ (h.pmt.mem_offsets.mpr ⟨_, m, hm, rfl⟩)).mono hsize
    · exact (h.retired_in o ho).mono hsize
  · exact fun o ho => (h.held_in o ho).mono hsize
  · intro o ho
    obtain ⟨hof, hne⟩ := hfree o ho
    refine ⟨fun hm => ?_, (h.free o hof).2⟩
    exact (hmem.mp hm).elim hne fun hm => (h.free o hof).1 (hold hm)
  · intro o ho hm
    obtain ⟨hof, -⟩ := hfree o hm
    rcases hout ho with ⟨m, hm', rfl⟩ | ho
    · exact (h.free _ hof).1 (h.pmt.mem_offsets.mpr ⟨_, m, hm', rfl⟩)
    · exact h.free_retired o ho hof
  · intro o ho hm
    rcases hmem.mp hm with rfl | ⟨q, m, hne, hq, hqo⟩
    · rcases hout ho with ⟨m, hm', hmo⟩ | ho
      · exact hmapped (h.pmt.mem_offsets.mpr ⟨_, m, hm', hmo⟩)
      · exact hret _ ho rfl
    · rcases hout ho with ⟨m', hm', hmo⟩ | ho
      · exact hne (h.pmt.inj hq hm' (hqo.trans hmo.symm))
      · exact h.retired o ho (h.pmt.mem_offsets.mpr ⟨q, m, hq, hqo⟩)

/-- One turn of the flush. -/
theorem SlotInv.placed (h : SlotInv e size out held) (pageId : PageId) :
    SlotInv (e.placed pageId) (max size (e.nextSlot + pageSize))
      (((e.pmt.get pageId).map PageMapping.offset).toList ++ out) held := by
  obtain ⟨halign, hmapped, hheld, hret, hdrop, hsize⟩ := h.nextSlot
  have ha : pageSize ∣ max size (e.nextSlot + pageSize) := by
    rcases le_total size (e.nextSlot + pageSize) with hm | hm
    · rw [max_eq_right hm]
      exact Nat.dvd_add halign (Nat.dvd_refl _)
    · rw [max_eq_left hm]
      exact h.aligned
  refine (h.place (p := pageId) ⟨halign, le_max_right _ _⟩ (le_max_left _ _) ha hmapped hret
    (fun o ho => ⟨dropLast_subset _ ho, fun he => hdrop (he ▸ ho)⟩)
    (h.sorted.sublist (dropLast_sublist _))).congr rfl ?_ rfl rfl rfl
  exact hsize.symm

/-- The flush is over: what went out of use is pending. -/
theorem SlotInv.retire {retired : List Nat} (h : SlotInv e size out held)
    (hsame : ∀ o ∈ retired, o ∈ out) :
    SlotInv { e with pendingReclaimedOffsets := retired } size [] held := by
  have hout : ∀ {o}, (o ∈ retired ∨ o ∈ e.rebuildReservedOffsets ∨ o ∈ ([] : List Nat)) →
      o ∈ e.pendingReclaimedOffsets ∨ o ∈ e.rebuildReservedOffsets ∨ o ∈ out := by
    rintro o (ho | ho | ho)
    · exact .inr (.inr (hsame o ho))
    · exact .inr (.inl ho)
    · cases ho
  exact { h with
    retired_in := fun o ho => h.retired_in o (hout ho)
    free_retired := fun o ho => h.free_retired o (hout ho)
    retired := fun o ho => h.retired o (hout ho) }

/-! ## Reclamation -/

/-- A free list rebuilt from the file: every slot that is not in use. -/
theorem SlotInv.refreshed {dev : Device} (hpmt : e.pmt.WF)
    (ha : pageSize ∣ dev.size) (hmapped : ∀ o ∈ e.pmt.offsets, InFile dev.size o)
    (hres : ∀ o ∈ e.rebuildReservedOffsets, InFile dev.size o ∧ o ∉ e.pmt.offsets)
    (hpend : e.pendingReclaimedOffsets = []) (hheld : ∀ o ∈ held, InFile dev.size o)
    (hkeep : ∀ o ∈ held, o ∈ keep ∨ o ∈ e.pmt.offsets ∨ o ∈ e.rebuildReservedOffsets) :
    SlotInv (e.refreshReclamation dev keep) dev.size [] held := by
  have hfree : ∀ {o}, o ∈ (e.refreshReclamation dev keep).freeOffsets ↔
      InFile dev.size o ∧ o ∉ e.pmt.offsets ∧ o ∉ keep ∧ o ∉ e.rebuildReservedOffsets := by
    intro o
    rw [refreshReclamation, mem_filter, mem_slots ha]
    simp
  have hret : ∀ {o}, (o ∈ (e.refreshReclamation dev keep).pendingReclaimedOffsets ∨
      o ∈ (e.refreshReclamation dev keep).rebuildReservedOffsets ∨ o ∈ ([] : List Nat)) →
      o ∈ e.rebuildReservedOffsets := by
    rintro o (ho | ho | ho)
    · have ho' : o ∈ e.pendingReclaimedOffsets := ho
      rw [hpend] at ho'
      cases ho'
    · exact ho
    · cases ho
  refine ⟨hpmt, rfl, ha, hmapped, fun o ho => (hfree.mp ho).1,
    fun o ho => (hres o (hret ho)).1, hheld,
    (sorted_slots dev).filter _, ?_, fun o ho hm => (hfree.mp hm).2.2.2 (hret ho),
    fun o ho => (hres o (hret ho)).2⟩
  intro o ho
  obtain ⟨-, h1, h2, h3⟩ := hfree.mp ho
  refine ⟨h1, fun hm => ?_⟩
  rcases hkeep o hm with h | h | h
  · exact h2 h
  · exact h1 h
  · exact h3 h

theorem SlotInv.refreshReclamation {dev : Device} (h : SlotInv e dev.size [] held)
    (hpend : e.pendingReclaimedOffsets = [])
    (hkeep : ∀ o ∈ held, o ∈ keep ∨ o ∈ e.pmt.offsets ∨ o ∈ e.rebuildReservedOffsets) :
    SlotInv (e.refreshReclamation dev keep) dev.size [] held :=
  SlotInv.refreshed h.pmt h.aligned h.mapped
    (fun o ho => ⟨h.retired_in o (.inr (.inl ho)), h.retired o (.inr (.inl ho))⟩) hpend
    h.held_in hkeep

theorem SlotInv.refreshIfNeeded {dev : Device} (h : SlotInv e dev.size [] held)
    (hpend : e.pendingReclaimedOffsets = [])
    (hkeep : ∀ o ∈ held, o ∈ keep ∨ o ∈ e.pmt.offsets ∨ o ∈ e.rebuildReservedOffsets) :
    SlotInv (e.refreshIfNeeded dev keep) dev.size [] held := by
  rw [StorageEngine.refreshIfNeeded]
  split
  · exact h.refreshReclamation hpend hkeep
  · exact h

theorem mem_completed_free :
    o ∈ (e.completeGeneration keep).freeOffsets ↔ o ∈ e.freeOffsets ∨
      (o ∈ e.pendingReclaimedOffsets ∧ o ∉ keep) ∨ (o ∈ e.rebuildReservedOffsets ∧ o ∉ keep) := by
  rw [completeGeneration, mem_dedup, (perm_insertionSort _ _).mem_iff]
  simp

/-- The successor is durable: from now on its slots are the ones to be held. -/
theorem SlotInv.complete (h : SlotInv e size [] held)
    (hheld : ∀ o ∈ held', (o ∈ keep ∧ o ∈ held) ∨ o ∈ e.pmt.offsets) :
    SlotInv (e.completeGeneration keep) size [] held' := by
  have hin : ∀ {o}, o ∈ (e.completeGeneration keep).freeOffsets →
      InFile size o ∧ o ∉ e.pmt.offsets ∧ ¬ (o ∈ keep ∧ o ∈ held) := by
    intro o ho
    rcases mem_completed_free.mp ho with ho | ⟨ho, hk⟩ | ⟨ho, hk⟩
    · exact ⟨h.free_in o ho, (h.free o ho).1, fun hm => (h.free o ho).2 hm.2⟩
    · exact ⟨h.retired_in o (.inl ho), h.retired o (.inl ho), fun hm => hk hm.1⟩
    · exact ⟨h.retired_in o (.inr (.inl ho)), h.retired o (.inr (.inl ho)), fun hm => hk hm.1⟩
  have hnone : ∀ {o}, ¬ (o ∈ (e.completeGeneration keep).pendingReclaimedOffsets ∨
      o ∈ (e.completeGeneration keep).rebuildReservedOffsets ∨ o ∈ ([] : List Nat)) := by
    simp [completeGeneration]
  refine ⟨h.pmt, h.frontier, h.aligned, h.mapped, fun o ho => (hin ho).1,
    fun o ho => absurd ho hnone, ?_, ?_, ?_, fun o ho => absurd ho hnone,
    fun o ho => absurd ho hnone⟩
  · intro o ho
    exact (hheld o ho).elim (fun hk => h.held_in o hk.2) (h.mapped o)
  · refine List.Pairwise.imp (fun h => lt_of_le_of_ne h.1 h.2)
      (List.Pairwise.and ?_ (nodup_dedup _))
    exact (pairwise_insertionSort (· ≤ ·) _).sublist (dedup_sublist _)
  · intro o ho
    obtain ⟨-, h1, h2⟩ := hin ho
    exact ⟨h1, fun hm => (hheld o hm).elim h2 h1⟩

/-- A rebuilt tree starts from an empty table; the old slots are held back. -/
theorem SlotInv.rebuild {dev : Device} {t : BTree} (h : SlotInv e dev.size [] held)
    (he : e.prepareLogicalRebuild dev t = .ok e') :
    SlotInv e' dev.size [] held ∧ e'.rebuildReservedOffsets = e.pmt.offsets ∧
      e'.pendingReclaimedOffsets = [] := by
  rw [prepareLogicalRebuild] at he
  split at he
  · cases he
  rename_i hpend
  rw [not_not] at hpend
  cases he
  refine ⟨⟨PMT.wf_clear _, rfl,
    h.aligned, by simp [PMT.offsets, PMT.clear], h.free_in, ?_, h.held_in,
    h.sorted, ?_, ?_, by simp [PMT.offsets, PMT.clear]⟩, rfl, hpend⟩
  · rintro o (ho | ho | ho)
    · rw [show ({ e with } : StorageEngine).pendingReclaimedOffsets = [] from hpend] at ho
      cases ho
    · exact h.mapped o ho
    · cases ho
  · exact fun o ho => ⟨by simp [PMT.offsets, PMT.clear], (h.free o ho).2⟩
  · rintro o (ho | ho | ho) hm
    · rw [show ({ e with } : StorageEngine).pendingReclaimedOffsets = [] from hpend] at ho
      cases ho
    · exact (h.free o hm).1 ho
    · cases ho

end StorageEngine

/-! ## Reading through a table -/

section

variable {dev dev' : Device} {t : PMT}

theorem PMT.get_mem_offsets {p : PageId} {m : PageMapping} (h : t.get p = some m) :
    m.offset ∈ t.offsets := by
  have hmem : (p, m) ∈ t.mappings := Lib.mem_of_get h
  exact mem_map_of_mem (f := fun entry : PageId × PageMapping => entry.2.offset) hmem

/-- Only the mapped slots matter. -/
theorem readNodeFromPmt_congr (h : ∀ o ∈ t.offsets, InFile dev.size o ∧ InFile dev'.size o ∧
    dev'.page o = dev.page o) :
    readNodeFromPmt dev' t = readNodeFromPmt dev t := by
  funext p
  rw [readNodeFromPmt, readNodeFromPmt]
  cases hm : t.get p with
  | none => rfl
  | some m =>
    obtain ⟨hin, hin', hpage⟩ := h m.offset (PMT.get_mem_offsets hm)
    have hsize : ¬ m.offset + pageSize > dev.size := Nat.not_lt.mpr hin.2
    have hsize' : ¬ m.offset + pageSize > dev'.size := Nat.not_lt.mpr hin'.2
    simp only [if_neg hsize, if_neg hsize', hpage]

theorem lookupAt_congr (h : readNodeFromPmt dev' t = readNodeFromPmt dev t)
    (root : PageId) (key : Bytes) :
    lookupAt dev' root t key = lookupAt dev root t key := by
  rw [lookupAt, lookupAt, h]

theorem rangeAt_congr (h : readNodeFromPmt dev' t = readNodeFromPmt dev t) (root : PageId)
    (start end_ : Bytes) :
    rangeAt dev' root t start end_ = rangeAt dev root t start end_ := by
  rw [rangeAt, rangeAt, h]

end

end SeerDb
