/-
# `SeerDb.Btree.RawAccept` — what an accepted page promises

`from_bytes` takes any 4096 bytes.  `Laid` says what it accepts, in terms of plain reads
of the page: slots inside the page, distinct entry offsets, entries that end before the
next one begins, keys that do not decrease, payloads with room for what their type
says.  `validateLayout_iff` is an equivalence, so the same structure serves the readers of
a page (everything they index is inside it) and its writers (what they leave is accepted).
-/
import SeerDb.Btree.RawNode

namespace SeerDb

open Lib List

namespace RawNode

variable {n : RawNode} {i : Nat}

/-! ## Plain reads -/

def offsetAt (n : RawNode) (i : Nat) : Nat := leAt n.data (slotArrayStart + i * slotSize) 2

def keyLenAt (n : RawNode) (i : Nat) : Nat := leAt n.data (slotArrayStart + i * slotSize + 2) 2

def prefixLenAt (n : RawNode) (i : Nat) : Nat := leAt n.data (n.offsetAt i) 2

def suffixLenAt (n : RawNode) (i : Nat) : Nat := leAt n.data (n.offsetAt i + 2) 2

def suffixAt (n : RawNode) (i : Nat) : Bytes := slice n.data (n.offsetAt i + 4) (n.suffixLenAt i)

/-- Where the payload of entry `i` starts, behind its key. -/
def payloadAt (n : RawNode) (i : Nat) : Nat := n.offsetAt i + 4 + n.suffixLenAt i

def offsets (n : RawNode) : List Nat := (List.range n.count).map n.offsetAt

/-- Where entry `i` ends: at the next higher offset, or at the end of the page. -/
def stopAt (n : RawNode) (i : Nat) : Nat := nextAbove n.offsets (n.offsetAt i) pageSize

/-- The key before slot `i`; `keyBefore (i + 1)` is the key of slot `i`. -/
def keyBefore (n : RawNode) : Nat → Bytes
  | 0 => []
  | i + 1 => (n.keyBefore i).take (n.prefixLenAt i) ++ n.suffixAt i

def slotEnd (n : RawNode) : Nat := headerSize + n.count * slotSize

theorem readU16_ok {start : Nat} (h : start + 2 ≤ pageSize) :
    n.readU16 start = .ok (leAt n.data start 2) := by
  have h0 : start < n.data.length := by rw [n.size]; omega
  have h1 : start + 1 < n.data.length := by rw [n.size]; omega
  rw [readU16, readAt_ok h0, ok_bind, readAt_ok h1, ok_bind, pure_eq_ok, leAt, slice,
    drop_eq_getElem_cons h0, drop_eq_getElem_cons h1]
  rfl

section Slots

variable (hs : n.slotEnd ≤ pageSize) (hi : i < n.count)

include hs hi

theorem slotOffset_ok : n.slotOffset i = .ok (n.offsetAt i) := by
  refine readU16_ok ?_
  simp only [slotEnd, slotArrayStart, headerSize, slotSize, pageSize] at hs ⊢
  omega

theorem slotKeyLen_ok : n.slotKeyLen i = .ok (n.keyLenAt i) := by
  refine readU16_ok ?_
  simp only [slotEnd, slotArrayStart, headerSize, slotSize, pageSize] at hs ⊢
  omega

theorem entryPrefixLen_ok (h : n.offsetAt i + 4 ≤ pageSize) :
    n.entryPrefixLen i = .ok (n.prefixLenAt i) := by
  rw [entryPrefixLen, slotOffset_ok hs hi, ok_bind]
  exact readU16_ok (by omega)

theorem entrySuffixLen_ok (h : n.offsetAt i + 4 ≤ pageSize) :
    n.entrySuffixLen i = .ok (n.suffixLenAt i) := by
  rw [entrySuffixLen, slotOffset_ok hs hi, ok_bind]
  exact readU16_ok (by omega)

theorem entrySuffix_ok (h : n.payloadAt i ≤ pageSize) : n.entrySuffix i = .ok (n.suffixAt i) := by
  rw [payloadAt] at h
  rw [entrySuffix, entrySuffixLen_ok hs hi (by omega), ok_bind, slotOffset_ok hs hi, ok_bind,
    readRange_ok (by omega) (by rw [n.size]; omega), Nat.add_sub_cancel_left]
  rfl

end Slots

theorem mem_offsets (hi : i < n.count) : n.offsetAt i ∈ n.offsets :=
  mem_map.mpr ⟨i, mem_range.mpr hi, rfl⟩

theorem slotOffsets_ok (hs : n.slotEnd ≤ pageSize) {is : List Nat} (his : ∀ i ∈ is, i < n.count) :
    is.mapM n.slotOffset = .ok (is.map n.offsetAt) :=
  mapM_ok fun i hi => slotOffset_ok hs (his i hi)

/-! ## The layout of a page -/

/-- A child id, or a value type with room for its value. -/
def Payload (n : RawNode) (i : Nat) : Prop :=
  if n.isInternal then n.payloadAt i + 8 ≤ n.stopAt i
  else n.payloadAt i < n.stopAt i ∧ ∃ valueType, n.data[n.payloadAt i]? = some valueType ∧
    (valueType = ValueType.inline.code ∨ valueType = ValueType.tombstone.code ∨
      valueType = ValueType.blobPointer.code ∧ n.payloadAt i + 1 + blobPointerSize ≤ n.stopAt i)

structure Entry (n : RawNode) (i : Nat) : Prop where
  suffix_le : n.payloadAt i ≤ n.stopAt i
  keyLen : n.keyLenAt i = n.prefixLenAt i + n.suffixLenAt i
  prefix_le : n.prefixLenAt i ≤ (n.keyBefore i).length
  ordered : n.keyBefore i ≤ n.keyBefore (i + 1)
  payload : n.Payload i

structure Laid (n : RawNode) : Prop where
  slots : n.slotEnd ≤ pageSize
  inside : ∀ i < n.count, n.slotEnd ≤ n.offsetAt i ∧ n.offsetAt i < pageSize
  distinct : n.offsets.Nodup
  free : n.header.freeSpace = n.offsets.min?.getD pageSize - n.slotEnd
  entry : ∀ i < n.count, n.Entry i

theorem lt_stopAt (h : n.offsetAt i < pageSize) : n.offsetAt i < n.stopAt i := lt_nextAbove h

theorem stopAt_le (h : ∀ i < n.count, n.offsetAt i < pageSize) : n.stopAt i ≤ pageSize := by
  refine nextAbove_le ?_
  intro z hz
  obtain ⟨j, hj, rfl⟩ := mem_map.mp hz
  exact h j (mem_range.mp hj)

theorem validatePayload_eq (hi : n.stopAt i ≤ pageSize) (hp : n.payloadAt i ≤ n.stopAt i) :
    ∃ ok, n.validatePayload (n.payloadAt i) (n.stopAt i) = .ok ok ∧ (ok = true ↔ n.Payload i) := by
  rw [validatePayload, Payload]
  by_cases hint : n.isInternal = true
  · rw [if_pos hint, if_pos hint]
    exact ⟨_, rfl, decide_eq_true_iff⟩
  rw [if_neg hint, if_neg hint]
  by_cases hlt : n.payloadAt i < n.stopAt i
  · have hlen : n.payloadAt i < n.data.length := by rw [n.size]; omega
    rw [if_neg (by omega), readAt_ok hlen, ok_bind]
    simp only [List.getElem?_eq_getElem hlen, Option.some.injEq, exists_eq_left', hlt, true_and]
    generalize n.data[n.payloadAt i] = valueType
    by_cases h02 : valueType = ValueType.inline.code ∨ valueType = ValueType.tombstone.code
    · rw [if_pos h02]
      exact ⟨true, rfl, iff_of_true rfl (h02.imp_right .inl)⟩
    rw [if_neg h02]
    obtain ⟨h0, h2⟩ := not_or.mp h02
    by_cases h1 : valueType = ValueType.blobPointer.code
    · rw [if_pos h1]
      refine ⟨_, rfl, ?_⟩
      rw [decide_eq_true_iff, or_iff_right h0, or_iff_right h2, and_iff_right h1]
    · rw [if_neg h1]
      refine ⟨false, rfl, iff_of_false Bool.false_ne_true ?_⟩
      rw [or_iff_right h0, or_iff_right h2]
      exact fun h => h1 h.1
  · rw [if_pos (by omega)]
    exact ⟨false, rfl, by simp [hlt]⟩

section Validate

variable (hs : n.slotEnd ≤ pageSize)
  (hin : ∀ i < n.count, n.slotEnd ≤ n.offsetAt i ∧ n.offsetAt i < pageSize)

include hs hin

/-- One turn of the loop over the entries: it goes on exactly when the entry is sound. -/
theorem validateEntries_step (offsets : List Nat) {sortedOffsets : List Nat}
    {j : Nat} (hi : i < n.count) (hj : sortedOffsets.idxOf? (n.offsetAt i) = some j)
    (hend : sortedOffsets[j + 1]?.getD pageSize = n.stopAt i) :
    (n.Entry i ∧ n.validateEntries sortedOffsets i (n.offsetAt i :: offsets) (n.keyBefore i)
        = n.validateEntries sortedOffsets (i + 1) offsets (n.keyBefore (i + 1))) ∨
      (¬ n.Entry i ∧ n.validateEntries sortedOffsets i (n.offsetAt i :: offsets)
          (n.keyBefore i) = .ok false) := by
  have hlt := lt_stopAt (hin i hi).2
  have hle := stopAt_le (i := i) fun i hi => (hin i hi).2
  rw [validateEntries, hj]
  simp only [hend]
  by_cases h4 : n.offsetAt i + 4 ≤ n.stopAt i
  case neg =>
    rw [if_pos (by omega)]
    refine .inr ⟨fun h => ?_, rfl⟩
    have := h.suffix_le
    rw [payloadAt] at this
    omega
  rw [if_neg (by omega), entryPrefixLen_ok hs hi (by omega), ok_bind,
    entrySuffixLen_ok hs hi (by omega), ok_bind]
  have hpay : n.offsetAt i + (4 + n.suffixLenAt i) = n.payloadAt i := by rw [payloadAt]; omega
  simp only [hpay]
  by_cases hsuf : n.payloadAt i ≤ n.stopAt i
  case neg =>
    rw [if_pos (by omega)]
    exact .inr ⟨fun h => hsuf h.suffix_le, rfl⟩
  rw [if_neg (by omega), slotKeyLen_ok hs hi, ok_bind]
  by_cases hkl : n.keyLenAt i = n.prefixLenAt i + n.suffixLenAt i
  case neg =>
    rw [if_pos hkl]
    exact .inr ⟨fun h => hkl h.keyLen, rfl⟩
  rw [if_neg (not_not.mpr hkl)]
  by_cases hpre : n.prefixLenAt i ≤ (n.keyBefore i).length
  case neg =>
    rw [if_pos (by omega)]
    exact .inr ⟨fun h => hpre h.prefix_le, rfl⟩
  have hrange : readRange n.data (n.offsetAt i + 4) (n.payloadAt i) = .ok (n.suffixAt i) := by
    rw [readRange_ok (by rw [payloadAt]; omega) (by rw [n.size]; omega), payloadAt,
      Nat.add_sub_cancel_left]
    rfl
  rw [if_neg (by omega), hrange, ok_bind]
  have hkey : (n.keyBefore i).take (n.prefixLenAt i) ++ n.suffixAt i = n.keyBefore (i + 1) := rfl
  simp only [hkey]
  by_cases hord : n.keyBefore i ≤ n.keyBefore (i + 1)
  case neg =>
    rw [if_pos (not_le.mp hord)]
    exact .inr ⟨fun h => hord h.ordered, rfl⟩
  rw [if_neg (not_lt.mpr hord)]
  obtain ⟨ok, hok, hiff⟩ := validatePayload_eq hle hsuf
  rw [hok, ok_bind]
  cases ok with
  | false => exact .inr ⟨fun h => Bool.false_ne_true (hiff.mpr h.payload), rfl⟩
  | true => exact .inl ⟨⟨hsuf, hkl, hpre, hord, hiff.mp rfl⟩, rfl⟩

/-- The whole loop. -/
theorem validateEntries_eq {sortedOffsets : List Nat}
    (hsort : ∀ i < n.count, ∃ j, sortedOffsets.idxOf? (n.offsetAt i) = some j ∧
      sortedOffsets[j + 1]?.getD pageSize = n.stopAt i) :
    ∀ (is : List Nat) (i : Nat), is = List.range' i (n.count - i) →
      ∃ ok, n.validateEntries sortedOffsets i (is.map n.offsetAt) (n.keyBefore i) = .ok ok ∧
        (ok = true ↔ ∀ j, i ≤ j → j < n.count → n.Entry j) := by
  intro is
  induction is with
  | nil =>
    intro i his
    have hlen := congrArg List.length his
    rw [length_range', length_nil] at hlen
    refine ⟨true, rfl, iff_of_true rfl ?_⟩
    intro j h1 h2
    omega
  | cons x is ih =>
    intro i his
    have hi : i < n.count := by
      by_contra hge
      rw [Nat.sub_eq_zero_of_le (not_lt.mp hge)] at his
      cases his
    rw [show n.count - i = (n.count - (i + 1)) + 1 by omega, List.range'_succ] at his
    obtain ⟨rfl, his⟩ := List.cons.inj his
    obtain ⟨j, hj, hend⟩ := hsort x hi
    obtain ⟨hent, hstep⟩ | ⟨hent, hstep⟩ :=
      validateEntries_step hs hin (is.map n.offsetAt) hi hj hend
    · obtain ⟨ok, hok, hiff⟩ := ih (x + 1) his
      refine ⟨ok, hstep.trans hok, hiff.trans ⟨fun h k h1 h2 => ?_,
        fun h k h1 h2 => h k (by omega) h2⟩⟩
      rcases h1.eq_or_lt with rfl | h1
      · exact hent
      · exact h k h1 h2
    · refine ⟨false, hstep, iff_of_false Bool.false_ne_true fun h => hent (h x le_rfl hi)⟩

end Validate

/-- Neighbours of a sorted list are all different exactly when the list has no duplicate. -/
theorem any_window_eq_false {l : List Nat} (h : l.Pairwise (· ≤ ·)) :
    (l.zip l.tail).any (fun window => decide (window.1 = window.2)) = false ↔ l.Nodup := by
  induction l with
  | nil => simp
  | cons a l ih =>
    cases l with
    | nil => simp
    | cons b l =>
      have ih := ih (pairwise_cons.mp h).2
      rw [tail_cons] at ih ⊢
      rw [zip_cons_cons, any_cons, Bool.or_eq_false_iff, ih, decide_eq_false_iff_not,
        @nodup_cons _ a]
      refine and_congr_left fun _ => ?_
      constructor
      · -- a repeated smallest element equals its neighbour
        intro hne hmem
        have hab : a ≤ b := (pairwise_cons.mp h).1 b (.head _)
        have hba : b ≤ a := by
          rcases mem_cons.mp hmem with rfl | hmem
          · exact le_rfl
          · exact (pairwise_cons.mp (pairwise_cons.mp h).2).1 a hmem
        exact hne (le_antisymm hab hba)
      · intro hmem he
        exact hmem (mem_cons.mpr (.inl he))

/-- The check never indexes outside the page, and accepts exactly the laid-out pages. -/
theorem validateLayout_iff (n : RawNode) :
    ∃ ok, n.validateLayout = .ok ok ∧ (ok = true ↔ n.Laid) := by
  rw [validateLayout]
  have hslot : headerSize + n.count * slotSize = n.slotEnd := rfl
  simp only [hslot]
  by_cases hs : n.slotEnd ≤ pageSize
  case neg =>
    rw [if_pos (.inr (not_le.mp hs))]
    exact ⟨false, rfl, iff_of_false Bool.false_ne_true fun h => hs h.slots⟩
  have hcount : ¬ (n.count > (pageSize - headerSize) / slotSize ∨ n.slotEnd > pageSize) := by
    simp only [slotEnd, headerSize, slotSize, pageSize] at hs ⊢
    omega
  rw [if_neg hcount, slotOffsets_ok hs fun i hi => mem_range.mp hi, ok_bind]
  have hoffs : (List.range n.count).map n.offsetAt = n.offsets := rfl
  simp only [hoffs]
  by_cases hin : ∀ i < n.count, n.slotEnd ≤ n.offsetAt i ∧ n.offsetAt i < pageSize
  case neg =>
    have hany : n.offsets.any (fun offset => decide (offset < n.slotEnd) || decide
      (offset ≥ pageSize)) = true := by
      push Not at hin
      obtain ⟨i, hi, hout⟩ := hin
      refine any_eq_true.mpr ⟨_, mem_offsets hi, ?_⟩
      rw [Bool.or_eq_true, decide_eq_true_iff, decide_eq_true_iff]
      omega
    rw [if_pos hany]
    exact ⟨false, rfl, iff_of_false Bool.false_ne_true fun h => hin h.inside⟩
  have hany : ¬ n.offsets.any (fun offset => decide (offset < n.slotEnd) || decide
    (offset ≥ pageSize)) = true := by
    rw [any_eq_true]
    rintro ⟨z, hz, hout⟩
    obtain ⟨i, hi, rfl⟩ := mem_map.mp hz
    have := hin i (mem_range.mp hi)
    rw [Bool.or_eq_true, decide_eq_true_iff, decide_eq_true_iff] at hout
    omega
  rw [if_neg hany]
  have hperm : (n.offsets.insertionSort (· ≤ ·)).Perm n.offsets := perm_insertionSort _ _
  have hsorted : (n.offsets.insertionSort (· ≤ ·)).Pairwise (· ≤ ·) := pairwise_insertionSort _ _
  generalize n.offsets.insertionSort (· ≤ ·) = sortedOffsets at hperm hsorted ⊢
  by_cases hnd : n.offsets.Nodup
  case neg =>
    have hwin : (sortedOffsets.zip sortedOffsets.tail).any
      (fun window => decide (window.1 = window.2)) = true := by
      by_contra hf
      exact hnd (hperm.nodup_iff.mp ((any_window_eq_false hsorted).mp (Bool.not_eq_true _ ▸ hf)))
    rw [if_pos hwin]
    exact ⟨false, rfl, iff_of_false Bool.false_ne_true fun h => hnd h.distinct⟩
  have hnd' : sortedOffsets.Nodup := hperm.nodup_iff.mpr hnd
  rw [if_neg (by rw [(any_window_eq_false hsorted).mpr hnd']; exact Bool.false_ne_true)]
  by_cases hfree : n.header.freeSpace = n.offsets.min?.getD pageSize - n.slotEnd
  case neg =>
    rw [if_pos hfree]
    exact ⟨false, rfl, iff_of_false Bool.false_ne_true fun h => hfree h.free⟩
  rw [if_neg (not_not.mpr hfree)]
  have hlt : sortedOffsets.Pairwise (· < ·) :=
    hsorted.imp₂ (fun a b hab hne => lt_of_le_of_ne hab hne) hnd'
  have hsort : ∀ i < n.count, ∃ j, sortedOffsets.idxOf? (n.offsetAt i) = some j ∧
      sortedOffsets[j + 1]?.getD pageSize = n.stopAt i := by
    intro i hi
    have hmem : n.offsetAt i ∈ sortedOffsets := hperm.mem_iff.mpr (mem_offsets hi)
    cases hidx : sortedOffsets.idxOf? (n.offsetAt i) with
    | none => exact absurd hmem (List.idxOf?_eq_none_iff.mp hidx)
    | some j =>
      obtain ⟨hj, hget, -⟩ := List.idxOf?_eq_some_iff.mp hidx
      refine ⟨j, rfl, ?_⟩
      rw [← nextAbove_of_sorted hlt hj, hget, stopAt, nextAbove_perm hperm]
  obtain ⟨ok, hok, hiff⟩ := validateEntries_eq hs hin hsort (List.range n.count) 0
    (by simp [range_eq_range'])
  refine ⟨ok, hok, hiff.trans ⟨fun h => ⟨hs, hin, hnd, hfree, fun i hi => h i (Nat.zero_le i) hi⟩,
    fun h i _ hi => h.entry i hi⟩⟩

end RawNode

end SeerDb
