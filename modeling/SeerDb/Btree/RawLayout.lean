/-
# `SeerDb.Btree.RawLayout` — what the page operations write

`Stores n t xs`: page `n` has type `t` and holds the entries `xs` in slot order, each with
its offset; behind the free space the entries stand back to back, in whatever order they
were written.  Only the slots say where an entry is, and only the next entry where it ends.

`insertEntryRaw_stores` is the step: the bytes of a new entry right below the lowest one,
the slots behind the insertion point one up, count and free space in the header.
-/
import SeerDb.Btree.RawAccept
import SeerDb.Btree.RawMutation
import SeerDb.Btree.NodeSpec

namespace SeerDb

open Lib List

/-! ## The header as a field of the page -/

/-- The fields fit their widths. -/
structure NodeHeader.Fits (h : NodeHeader) : Prop where
  magic : h.magic < 256 ^ 4
  version : h.version < 256 ^ 4
  count : h.count < 256 ^ 4
  freeSpace : h.freeSpace < 256 ^ 4
  checksum : h.checksum < 256 ^ 8
  parentId : h.parentId < 256 ^ 4
  leftmostChild : h.leftmostChild < 256 ^ 8
  writeGeneration : h.writeGeneration < 256 ^ 8

theorem NodeHeader.fits_fromBytes (buf : Bytes) : (fromBytes buf).Fits := by
  constructor <;> exact leAt_lt _ _ _

theorem NodeHeader.fromBytes_toBytes {h : NodeHeader} (hf : h.Fits) : fromBytes h.toBytes = h := by
  have hcode : h.pageType.code < 256 ^ 4 := by cases h.pageType <;> decide
  have htype : (if h.pageType.code = 1 then PageType.internal else .leaf) = h.pageType := by
    cases h.pageType <;> rfl
  obtain ⟨h1, h2, h3, h4, h5, h6, h7, h8⟩ := hf
  simp only [fromBytes, toBytes]
  simp only [leAt_skip, length_toLe, leAt_head, leAt_all, Nat.sub_self, Nat.reduceSub, le_refl,
    Nat.reduceLeDiff, h1, h2, h3, h4, h5, h6, h7, h8, hcode, htype]

namespace RawNode

variable {n n' : RawNode} {i : Nat}

theorem leAt_of_slice {data data' : Bytes} {start start' width : Nat}
    (h : slice data' start' width = slice data start width) :
    leAt data' start' width = leAt data start width := by rw [leAt, h, leAt]

theorem leAt_of_written {data : Bytes} {start width x : Nat} (hx : x < 256 ^ width)
    (h : slice data start width = toLe width x) : leAt data start width = x := by
  rw [leAt, h, ofLe_toLe width x hx]

theorem sameOutside_setHeader (n : RawNode) (h : NodeHeader) :
    SameOutside n.data (n.setHeader h).data 0 headerSize := by
  have := @sameOutside_splice _ n.data h.toBytes 0 (by rw [h.length_toBytes, n.size]; decide)
  rwa [h.length_toBytes] at this

@[simp] theorem header_setHeader {h : NodeHeader} (hf : h.Fits) : (n.setHeader h).header = h := by
  have hs : slice (n.setHeader h).data 0 headerSize = h.toBytes := by
    have := @slice_splice_self _ n.data h.toBytes 0 (Nat.zero_le _)
    rwa [h.length_toBytes] at this
  rw [header, hs, NodeHeader.fromBytes_toBytes hf]

theorem fits_header (n : RawNode) : n.header.Fits := NodeHeader.fits_fromBytes _

theorem header_of_sameOutside {a b : Nat} (h : SameOutside n.data n'.data a b)
    (ha : headerSize ≤ a) :
    n'.header = n.header := by
  rw [header, header, h.slice_eq (.inl (by omega))]

/-- The header names a page of type `t` in the current format. -/
structure Known (n : RawNode) (t : PageType) : Prop where
  magic : n.header.magic = pageMagic
  version : n.header.version = pageVersion
  code : leAt (slice n.data 0 headerSize) 8 4 = t.code

theorem Known.pageType {t : PageType} (h : n.Known t) : n.header.pageType = t := by
  show (if leAt (slice n.data 0 headerSize) 8 4 = 1 then PageType.internal else .leaf) = t
  rw [h.code]
  cases t <;> rfl

theorem Known.tryFromBytes {t : PageType} (h : n.Known t) :
    (NodeHeader.tryFromBytes (slice n.data 0 headerSize)).isSome := by
  have hvalid : (NodeHeader.fromBytes (slice n.data 0 headerSize)).isValid = true := by
    rw [NodeHeader.isValid, Bool.and_eq_true, decide_eq_true_iff, decide_eq_true_iff]
    exact ⟨h.magic, h.version⟩
  rw [NodeHeader.tryFromBytes, h.code, if_pos (by cases t <;> decide), if_pos hvalid]
  rfl

theorem Known.setHeader {t : PageType} (h : n.Known t) {g : NodeHeader} (hf : g.Fits)
    (hm : g.magic = n.header.magic) (hv : g.version = n.header.version)
    (hp : g.pageType = n.header.pageType) : (n.setHeader g).Known t := by
  have hs : slice (n.setHeader g).data 0 headerSize = g.toBytes := by
    have := @slice_splice_self _ n.data g.toBytes 0 (Nat.zero_le _)
    rwa [g.length_toBytes] at this
  have hcode : g.pageType.code < 256 ^ 4 := by cases g.pageType <;> decide
  refine ⟨?_, ?_, ?_⟩
  · rw [header_setHeader hf, hm, h.magic]
  · rw [header_setHeader hf, hv, h.version]
  · rw [hs, NodeHeader.toBytes, leAt_skip (by simp), leAt_skip (by simp)]
    simp only [length_toLe, Nat.reduceSub]
    rw [leAt_head hcode, hp, h.pageType]

theorem Known.of_sameOutside {t : PageType} (h : n.Known t) {a b : Nat}
    (hd : SameOutside n.data n'.data a b) (ha : headerSize ≤ a) : n'.Known t := by
  have hh := header_of_sameOutside hd ha
  refine ⟨hh ▸ h.magic, hh ▸ h.version, ?_⟩
  rw [hd.slice_eq (.inl (by omega)), h.code]

/-! ## Writes -/

theorem write_ok {start : Nat} {bytes : Bytes} (h : start + bytes.length ≤ pageSize) :
    ∃ n', n.write start bytes = .ok n' ∧ slice n'.data start bytes.length = bytes ∧
      SameOutside n.data n'.data start (start + bytes.length) := by
  have hsize : start + bytes.length ≤ n.data.length := n.size ▸ h
  refine ⟨_, dif_pos h, ?_, sameOutside_splice hsize⟩
  exact slice_splice_self (by omega)

section Slot

variable (h : slotArrayStart + (i + 1) * slotSize ≤ pageSize)

include h

/-- Writing a whole slot. -/
theorem setSlot_ok {offset keyLen : Nat} (ho : offset < 256 ^ 2) (hk : keyLen < 256 ^ 2) :
    ∃ n₁ n', n.setSlotOffset i offset = .ok n₁ ∧ n₁.setSlotKeyLen i keyLen = .ok n' ∧
      n'.offsetAt i = offset ∧ n'.keyLenAt i = keyLen ∧
      SameOutside n.data n'.data (slotArrayStart + i * slotSize)
        (slotArrayStart + (i + 1) * slotSize) := by
  simp only [slotSize] at h
  obtain ⟨n₁, hw₁, hs₁, hf₁⟩ := @write_ok n (slotArrayStart + i * slotSize) (toLe 2 offset)
    (by simp only [slotSize, length_toLe]; omega)
  obtain ⟨n₂, hw₂, hs₂, hf₂⟩ := @write_ok n₁ (slotArrayStart + i * slotSize + 2) (toLe 2 keyLen)
    (by simp only [slotSize, length_toLe]; omega)
  simp only [length_toLe] at hs₁ hf₁ hs₂ hf₂
  refine ⟨n₁, n₂, hw₁, hw₂, ?_, leAt_of_written hk hs₂, ?_⟩
  · exact leAt_of_written ho ((hf₂.slice_eq (.inl (by omega))).trans hs₁)
  · refine hf₁.trans hf₂ ?_ ?_ ?_ ?_ <;> simp only [slotSize] <;> omega

end Slot

theorem slotFields_of_sameOutside {a b : Nat} (h : SameOutside n.data n'.data a b)
    (hi : slotArrayStart + (i + 1) * slotSize ≤ a ∨ b ≤ slotArrayStart + i * slotSize) :
    n'.offsetAt i = n.offsetAt i ∧ n'.keyLenAt i = n.keyLenAt i := by
  simp only [slotSize] at hi
  constructor
  · exact leAt_of_slice (h.slice_eq (by simp only [slotSize]; omega))
  · exact leAt_of_slice (h.slice_eq (by simp only [slotSize]; omega))

/-- The slot loop moves the slots from `insertionPoint` on up by one. -/
theorem shiftSlots_ok {insertionPoint : Nat} : ∀ {remaining : Nat} {n : RawNode},
    slotArrayStart + (insertionPoint + remaining + 1) * slotSize ≤ pageSize →
    ∃ n', shiftSlots insertionPoint remaining n = .ok n' ∧
      (∀ j, insertionPoint ≤ j → j < insertionPoint + remaining →
        n'.offsetAt (j + 1) = n.offsetAt j ∧ n'.keyLenAt (j + 1) = n.keyLenAt j) ∧
      SameOutside n.data n'.data (slotArrayStart + (insertionPoint + 1) * slotSize)
        (slotArrayStart + (insertionPoint + remaining + 1) * slotSize) := by
  intro remaining
  induction remaining with
  | zero =>
    intro n _
    exact ⟨n, rfl, fun j h1 h2 => absurd h2 (by omega), .refl _ _ _⟩
  | succ remaining ih =>
    intro n hle
    have hread : slotArrayStart + (insertionPoint + remaining) * slotSize + 2 + 2 ≤ pageSize := by
      simp only [slotSize] at hle ⊢
      omega
    have hoff : n.slotOffset (insertionPoint + remaining)
        = .ok (n.offsetAt (insertionPoint + remaining)) := readU16_ok (by omega)
    have hlen : n.slotKeyLen (insertionPoint + remaining)
        = .ok (n.keyLenAt (insertionPoint + remaining)) := readU16_ok hread
    obtain ⟨n₀, n₁, hw₀, hw₁, ho, hk, hf⟩ :=
      @setSlot_ok n (insertionPoint + remaining + 1) (by omega)
      (n.offsetAt (insertionPoint + remaining)) (n.keyLenAt (insertionPoint + remaining))
      (leAt_lt _ _ _) (leAt_lt _ _ _)
    obtain ⟨n₂, hrest, hmoved, hf₂⟩ := @ih n₁ (by simp only [slotSize] at hle ⊢; omega)
    refine ⟨n₂, ?_, ?_, ?_⟩
    · rw [shiftSlots, hoff, ok_bind, hlen, ok_bind, hw₀, ok_bind, hw₁, ok_bind, hrest]
    · intro j h1 h2
      rcases Nat.lt_succ_iff_lt_or_eq.mp
        (show j < insertionPoint + remaining + 1 by omega) with hj | rfl
      · -- moved by a later turn, from a slot this turn did not touch
        obtain ⟨e1, e2⟩ := hmoved j h1 hj
        obtain ⟨e3, e4⟩ := @slotFields_of_sameOutside n n₁ j _ _ hf
          (.inl (by simp only [slotSize]; omega))
        exact ⟨e1.trans e3, e2.trans e4⟩
      · obtain ⟨e1, e2⟩ := @slotFields_of_sameOutside n₁ n₂ (insertionPoint + remaining + 1) _ _ hf₂
          (.inr le_rfl)
        exact ⟨e1.trans ho, e2.trans hk⟩
    · refine hf.trans hf₂ ?_ ?_ ?_ ?_ <;> simp only [slotSize] <;> omega

/-! ## Entries back to back -/

/-- The bytes of an entry: its key stored whole, then what stands behind it. -/
def entryImage (e : Bytes × Bytes) : Bytes := toLe 2 0 ++ (toLe 2 e.1.length ++ (e.1 ++ e.2))

def entrySize (e : Bytes × Bytes) : Nat := 4 + e.1.length + e.2.length

theorem entrySize_pos (e : Bytes × Bytes) : 0 < entrySize e := by
  rw [entrySize]
  omega

/-- The bytes the entries take. -/
def storedBytes (xs : List (Nat × (Bytes × Bytes))) : Nat := (xs.map fun x => entrySize x.2).sum

structure Stores (n : RawNode) (t : PageType) (xs : List (Nat × (Bytes × Bytes))) : Prop where
  known : n.Known t
  count : n.count = xs.length
  free : n.header.freeSpace + (headerSize + xs.length * slotSize) + storedBytes xs = pageSize
  slot : ∀ i x, xs[i]? = some x → n.offsetAt i = x.1 ∧ n.keyLenAt i = x.2.1.length ∧
    slice n.data x.1 (entrySize x.2) = entryImage x.2
  packed : ∃ phys, phys.Perm xs ∧ Packed entrySize pageSize (pageSize - storedBytes xs) phys
  room : storedBytes xs + slotSize * xs.length + slotSize + headerSize ≤ pageSize

namespace Stores

variable {t : PageType} {xs : List (Nat × (Bytes × Bytes))} {x : Nat × (Bytes × Bytes)}

theorem bounds (h : n.Stores t xs) (hx : x ∈ xs) :
    pageSize - storedBytes xs ≤ x.1 ∧ x.1 + entrySize x.2 ≤ pageSize := by
  obtain ⟨phys, hperm, hp⟩ := h.packed
  exact hp.bounds (hperm.mem_iff.mpr hx)

theorem offsets_eq (h : n.Stores t xs) : n.offsets = xs.map Prod.fst := by
  refine ext_getElem (by simp [offsets, h.count]) ?_
  intro i hi hi'
  have hlt : i < xs.length := by simpa using hi'
  simp only [offsets, getElem_map, getElem_range]
  exact (h.slot i xs[i] (List.getElem?_eq_getElem hlt)).1

theorem offsetAt_le (h : n.Stores t xs) (hi : i < n.count) : n.offsetAt i + 4 ≤ pageSize := by
  rw [h.count] at hi
  have hle := (h.bounds (getElem_mem hi)).2
  rw [entrySize] at hle
  rw [(h.slot i xs[i] (List.getElem?_eq_getElem hi)).1]
  omega

theorem stopAt_eq (h : n.Stores t xs) (hx : xs[i]? = some x) :
    n.stopAt i = x.1 + entrySize x.2 := by
  obtain ⟨phys, hperm, hp⟩ := h.packed
  rw [stopAt, h.offsets_eq, (h.slot i x hx).1, ← nextAbove_perm (hperm.map Prod.fst)]
  exact hp.nextAbove_eq entrySize_pos (hperm.mem_iff.mpr (mem_of_getElem? hx))

/-- The lowest entry starts where the stored bytes begin. -/
theorem min_eq (h : n.Stores t xs) : n.offsets.min?.getD pageSize = pageSize - storedBytes xs := by
  obtain ⟨phys, hperm, hp⟩ := h.packed
  have hoff := h.offsets_eq
  cases phys with
  | nil =>
    have hnil : xs = [] := hperm.symm.eq_nil
    subst hnil
    rw [hoff]
    rfl
  | cons y phys =>
    have hmin : n.offsets.min? = some (pageSize - storedBytes xs) := by
      rw [List.min?_eq_some_iff, hoff]
      constructor
      · rw [← hp.1]
        exact mem_map_of_mem (hperm.mem_iff.mp (.head _))
      · intro z hz
        obtain ⟨w, hw, rfl⟩ := mem_map.mp hz
        exact (h.bounds hw).1
    rw [hmin, Option.getD_some]

theorem slotEnd_eq (h : n.Stores t xs) : n.slotEnd = headerSize + xs.length * slotSize := by
  rw [slotEnd, h.count]

theorem slotEnd_le (h : n.Stores t xs) : n.slotEnd ≤ pageSize - storedBytes xs := by
  have hroom := h.room
  rw [h.slotEnd_eq]
  simp only [slotSize] at hroom ⊢
  omega

theorem minOffset_eq (h : n.Stores t xs) :
    n.minOffset n.count = .ok (pageSize - storedBytes xs) := by
  have hs : n.slotEnd ≤ pageSize := h.slotEnd_le.trans (Nat.sub_le _ _)
  rw [minOffset, slotOffsets_ok hs fun i hi => mem_range.mp hi, ok_bind, ← h.min_eq]
  rfl

end Stores

/-! ## Inserting an entry -/

/-- The four writes of an entry put its image in place. -/
theorem writeEntry_ok {start : Nat} {key payload : Bytes}
    (h : start + entrySize (key, payload) ≤ pageSize) :
    ∃ n₁ n₂ n₃ n', n.write start (toLe 2 0) = .ok n₁ ∧
      n₁.write (start + 2) (toLe 2 key.length) = .ok n₂ ∧ n₂.write (start + 4) key = .ok n₃ ∧
      n₃.write (start + 4 + key.length) payload = .ok n' ∧
      slice n'.data start (entrySize (key, payload)) = entryImage (key, payload) ∧
      SameOutside n.data n'.data start (start + entrySize (key, payload)) := by
  simp only [entrySize] at h ⊢
  obtain ⟨n₁, hw₁, hs₁, hf₁⟩ := @write_ok n start (toLe 2 0) (by rw [length_toLe]; omega)
  obtain ⟨n₂, hw₂, hs₂, hf₂⟩ := @write_ok n₁ (start + 2) (toLe 2 key.length)
    (by rw [length_toLe]; omega)
  obtain ⟨n₃, hw₃, hs₃, hf₃⟩ := @write_ok n₂ (start + 4) key (by omega)
  obtain ⟨n₄, hw₄, hs₄, hf₄⟩ := @write_ok n₃ (start + 4 + key.length) payload (by omega)
  rw [length_toLe] at hs₁ hf₁ hs₂ hf₂
  refine ⟨n₁, n₂, n₃, n₄, hw₁, hw₂, hw₃, hw₄, ?_, ?_⟩
  · -- no write touches the parts before it
    have h1 : slice n₄.data start 2 = toLe 2 0 := by
      rw [hf₄.slice_eq (.inl (by omega)), hf₃.slice_eq (.inl (by omega)),
        hf₂.slice_eq (.inl (by omega)), hs₁]
    have h2 : slice n₄.data (start + 2) 2 = toLe 2 key.length := by
      rw [hf₄.slice_eq (.inl (by omega)), hf₃.slice_eq (.inl (by omega)), hs₂]
    have h3 : slice n₄.data (start + 4) key.length = key := by
      rw [hf₄.slice_eq (.inl (by omega)), hs₃]
    rw [show 4 + key.length + payload.length = 2 + (2 + (key.length + payload.length)) by omega,
      slice_add, slice_add, slice_add, h1, h2, show start + 2 + 2 = start + 4 by omega, h3, hs₄]
    rfl
  · have h12 := @SameOutside.trans _ _ _ _ _ _ _ _ start (start + 4) hf₁ hf₂ (by omega) (by omega)
      (by omega) (by omega)
    have h13 := @SameOutside.trans _ _ _ _ _ _ _ _ start (start + 4 + key.length) h12 hf₃ (by omega)
      (by omega) (by omega) (by omega)
    exact h13.trans hf₄ (by omega) (by omega) (by omega) (by omega)

theorem newEntryOffset_eq {t : PageType} {xs : List (Nat × (Bytes × Bytes))} (h : n.Stores t xs)
    {size : Nat} (hsize : size ≤ pageSize) :
    n.newEntryOffset size = .ok (if pageSize - storedBytes xs < size then none
      else some (pageSize - storedBytes xs - size)) := by
  rw [newEntryOffset]
  by_cases h0 : n.count = 0
  · have hnil : xs = [] := eq_nil_of_length_eq_zero (by rw [← h.count, h0])
    subst hnil
    rw [if_pos h0, checkedSub_ok hsize, if_neg (by simpa [storedBytes] using hsize)]
    rfl
  · rw [if_neg h0, h.minOffset_eq, ok_bind]
    split <;> rfl

/-- The slots of the page around a new one. -/
theorem getElem?_insertIdx {α : Type} {xs : List α} {x y : α} {ip i : Nat} (hip : ip ≤ xs.length)
    (h : (xs.insertIdx ip x)[i]? = some y) :
    i < ip ∧ xs[i]? = some y ∨ i = ip ∧ y = x ∨ ip < i ∧ xs[i - 1]? = some y := by
  rw [List.getElem?_insertIdx] at h
  split at h
  · exact .inl ⟨by assumption, h⟩
  split at h
  · rename_i heq
    split at h
    · exact .inr (.inl ⟨heq, (Option.some.inj h).symm⟩)
    · omega
  · exact .inr (.inr ⟨by omega, h⟩)

theorem storedBytes_insertIdx {xs : List (Nat × (Bytes × Bytes))}
    {x : Nat × (Bytes × Bytes)} {ip : Nat}
    (hip : ip ≤ xs.length) : storedBytes (xs.insertIdx ip x) = entrySize x.2 + storedBytes xs := by
  have hperm := perm_insertIdx x xs hip
  rw [storedBytes, (hperm.map _).sum_eq]
  rfl

/-- A page whose slots and bytes are those of `n` with one entry more. -/
structure Gains (n n' : RawNode) (count ip offset keyLen : Nat) : Prop where
  before : ∀ i < ip, n'.offsetAt i = n.offsetAt i ∧ n'.keyLenAt i = n.keyLenAt i
  own : n'.offsetAt ip = offset ∧ n'.keyLenAt ip = keyLen
  after : ∀ i, ip ≤ i → i < count → n'.offsetAt (i + 1) = n.offsetAt i ∧
    n'.keyLenAt (i + 1) = n.keyLenAt i

/-- What a slot of the larger page says. -/
theorem Gains.slot {t : PageType} {xs : List (Nat × (Bytes × Bytes))} {e : Bytes × Bytes}
    {x : Nat × (Bytes × Bytes)} {ip offset : Nat} (h : n.Stores t xs) (hip : ip ≤ xs.length)
    (hg : Gains n n' xs.length ip offset e.1.length)
    (hx : (xs.insertIdx ip (offset, e))[i]? = some x) :
    n'.offsetAt i = x.1 ∧ n'.keyLenAt i = x.2.1.length := by
  rcases getElem?_insertIdx hip hx with ⟨hlt, hx⟩ | ⟨rfl, rfl⟩ | ⟨hgt, hx⟩
  · obtain ⟨h1, h2, -⟩ := h.slot i x hx
    exact ⟨(hg.before i hlt).1.trans h1, (hg.before i hlt).2.trans h2⟩
  · exact hg.own
  obtain ⟨h1, h2, -⟩ := h.slot (i - 1) x hx
  have hlen : i - 1 < xs.length := (List.getElem?_eq_some_iff.mp hx).1
  obtain ⟨e1, e2⟩ := hg.after (i - 1) (by omega) hlen
  rw [Nat.sub_add_cancel (by omega)] at e1 e2
  exact ⟨e1.trans h1, e2.trans h2⟩

theorem Gains.trans {count ip offset keyLen : Nat} (hg : Gains n n' count ip offset keyLen)
    {n'' : RawNode} (h : SameOutside n'.data n''.data 0 headerSize) :
    Gains n n'' count ip offset keyLen := by
  have hslot : ∀ i, n''.offsetAt i = n'.offsetAt i ∧ n''.keyLenAt i = n'.keyLenAt i :=
    fun i => slotFields_of_sameOutside h (.inr (by rw [slotArrayStart]; omega))
  refine ⟨?_, ?_, ?_⟩
  · intro i hi
    rw [(hslot i).1, (hslot i).2]
    exact hg.before i hi
  · rw [(hslot ip).1, (hslot ip).2]
    exact hg.own
  · intro i h1 h2
    rw [(hslot (i + 1)).1, (hslot (i + 1)).2]
    exact hg.after i h1 h2

/-- The new entry is the lowest. -/
theorem Gains.minOffset {t : PageType} {xs : List (Nat × (Bytes × Bytes))} {ip offset keyLen : Nat}
    (h : n.Stores t xs) (hip : ip ≤ xs.length) (hg : Gains n n' xs.length ip offset keyLen)
    (hslots : headerSize + (xs.length + 1) * slotSize ≤ offset)
    (hoff : offset ≤ pageSize - storedBytes xs) : n'.minOffset (xs.length + 1) = .ok offset := by
  have hread : ∀ i ∈ List.range (xs.length + 1), n'.slotOffset i = .ok (n'.offsetAt i) := by
    intro i hi
    have := mem_range.mp hi
    refine readU16_ok ?_
    simp only [slotArrayStart, headerSize, slotSize, pageSize] at hslots hoff ⊢
    omega
  have hold : ∀ {i}, i < xs.length → offset ≤ n.offsetAt i := by
    intro i hi
    rw [(h.slot i xs[i] (List.getElem?_eq_getElem hi)).1]
    exact hoff.trans (h.bounds (getElem_mem hi)).1
  have hmin : ((List.range (xs.length + 1)).map n'.offsetAt).min? = some offset := by
    rw [List.min?_eq_some_iff]
    constructor
    · exact mem_map.mpr ⟨ip, mem_range.mpr (by omega), hg.own.1⟩
    · intro z hz
      obtain ⟨i, hi, rfl⟩ := mem_map.mp hz
      have hi := mem_range.mp hi
      rcases Nat.lt_trichotomy i ip with hlt | rfl | hgt
      · rw [(hg.before i hlt).1]
        exact hold (by omega)
      · exact hg.own.1.ge
      have := (hg.after (i - 1) (by omega) (by omega)).1
      rw [Nat.sub_add_cancel (by omega)] at this
      rw [this]
      exact hold (by omega)
  rw [RawNode.minOffset, mapM_ok hread, ok_bind, hmin]
  rfl

theorem Stores.insertIdx {t : PageType} {xs : List (Nat × (Bytes × Bytes))} {e : Bytes × Bytes}
    {ip offset : Nat} (h : n.Stores t xs) (hip : ip ≤ xs.length)
    (hoff : offset + entrySize e + storedBytes xs = pageSize)
    (hslots : headerSize + (xs.length + 2) * slotSize ≤ offset)
    (hg : Gains n n' xs.length ip offset e.1.length)
    (himage : slice n'.data offset (entrySize e) = entryImage e)
    (hkept : ∀ {start len}, offset + entrySize e ≤ start → slice n'.data start len =
      slice n.data start len)
    (hknown : n'.Known t) (hcount : n'.count = xs.length + 1)
    (hfree : n'.header.freeSpace = offset - (headerSize + (xs.length + 1) * slotSize)) :
    n'.Stores t (xs.insertIdx ip (offset, e)) := by
  have hbytes := @storedBytes_insertIdx xs (offset, e) ip hip
  have hlen : (xs.insertIdx ip (offset, e)).length = xs.length + 1 :=
    length_insertIdx_of_le_length hip _
  simp only at hbytes
  simp only [headerSize, slotSize, pageSize] at hoff hslots
  constructor
  case known => exact hknown
  case count => rw [hcount, hlen]
  case free =>
    rw [hlen, hfree, hbytes]
    simp only [headerSize, slotSize, pageSize]
    omega
  case slot =>
    intro i x hx
    obtain ⟨h1, h2⟩ := hg.slot h hip hx
    refine ⟨h1, h2, ?_⟩
    have hold : x ∈ xs → slice n'.data x.1 (entrySize x.2) = entryImage x.2 := by
      intro hmem
      obtain ⟨j, hj⟩ := List.getElem?_of_mem hmem
      have hlow := (h.bounds hmem).1
      simp only [pageSize] at hlow
      rw [hkept (by omega)]
      exact (h.slot j x hj).2.2
    rcases getElem?_insertIdx hip hx with ⟨-, hx⟩ | ⟨-, rfl⟩ | ⟨-, hx⟩
    · exact hold (mem_of_getElem? hx)
    · exact himage
    · exact hold (mem_of_getElem? hx)
  case packed =>
    obtain ⟨phys, hperm, hp⟩ := h.packed
    refine ⟨(offset, e) :: phys, (hperm.cons _).trans (perm_insertIdx _ xs hip).symm, ?_, ?_⟩
    · rw [hbytes]
      simp only [pageSize]
      omega
    · rw [hbytes]
      have : pageSize - (entrySize e + storedBytes xs) + entrySize e =
        pageSize - storedBytes xs := by
        simp only [pageSize]
        omega
      rw [this]
      exact hp
  case room =>
    rw [hbytes, hlen]
    simp only [headerSize, slotSize, pageSize]
    omega

/-- **Inserting an entry.**  An entry larger than a page is refused as such; otherwise it is
taken exactly when the page still has room, and then it stands right below the others. -/
theorem insertEntryRaw_stores {t : PageType} {xs : List (Nat × (Bytes × Bytes))} (h : n.Stores t xs)
    (key payload : Bytes) {ip : Nat} (hip : ip ≤ xs.length) :
    n.insertEntryRaw key payload ip =
        (if entrySize (key, payload) > pageSize - headerSize - slotSize then .ok
          (.error .entryTooLarge)
        else .ok (.error .pageFull)) ∧
      ¬ Node.slotsFit entrySize ((key, payload) :: xs.map Prod.snd) = true ∨
    ∃ n' offset, n.insertEntryRaw key payload ip = .ok (.ok n') ∧
      Node.slotsFit entrySize ((key, payload) :: xs.map Prod.snd) = true ∧
      n'.Stores t (xs.insertIdx ip (offset, (key, payload))) ∧
      n'.header.parentId = n.header.parentId ∧ n'.header.writeGeneration =
        n.header.writeGeneration := by
  have hroom := h.room
  have hsum : ((xs.map Prod.snd).map entrySize).sum = storedBytes xs := by
    rw [map_map]
    rfl
  have hfit : Node.slotsFit entrySize ((key, payload) :: xs.map Prod.snd) = true ↔
      entrySize (key, payload) + storedBytes xs + slotSize * (xs.length + 1) + slotSize + headerSize
        ≤ pageSize := by
    rw [Node.slotsFit, decide_eq_true_iff, map_cons, sum_cons, hsum, length_cons, length_map]
  simp only [slotSize, headerSize, pageSize] at hroom hfit
  have hsize : 4 + key.length + payload.length = entrySize (key, payload) := rfl
  rw [insertEntryRaw]
  simp only [hsize]
  by_cases hbig : entrySize (key, payload) > pageSize - headerSize - slotSize
  · refine .inl ⟨by rw [if_pos hbig, if_pos hbig]; rfl, fun hf => ?_⟩
    have := hfit.mp hf
    simp only [slotSize, headerSize, pageSize] at hbig
    omega
  rw [if_neg hbig, newEntryOffset_eq h
    (by simp only [slotSize, headerSize, pageSize] at hbig ⊢; omega), ok_bind]
  by_cases hlow : pageSize - storedBytes xs < entrySize (key, payload)
  · refine .inl ⟨by rw [if_pos hlow, if_neg hbig]; rfl, fun hf => ?_⟩
    have := hfit.mp hf
    simp only [pageSize] at hlow
    omega
  rw [if_neg hlow]
  simp only
  generalize ho : pageSize - storedBytes xs - entrySize (key, payload) = offset
  simp only [pageSize] at hlow ho
  by_cases hslots : slotArrayStart + (n.count + 1) * slotSize + slotSize > offset
  · refine .inl ⟨by rw [if_pos hslots, if_neg hbig]; rfl, fun hf => ?_⟩
    have := hfit.mp hf
    simp only [slotArrayStart, headerSize, slotSize, h.count] at hslots
    omega
  rw [if_neg hslots]
  simp only [slotArrayStart, headerSize, slotSize, h.count] at hslots
  -- the writes one after the other
  obtain ⟨n₁, n₂, n₃, n₄, hw₁, hw₂, hw₃, hw₄, himage, hf₄⟩ := @writeEntry_ok n offset key payload
    (by simp only [pageSize]; omega)
  obtain ⟨n₅, hshift, hmoved, hf₅⟩ := @shiftSlots_ok ip (n.count - ip) n₄
    (by simp only [slotArrayStart, headerSize, slotSize, pageSize, h.count]; omega)
  obtain ⟨n₆, n₇, hw₆, hw₇, hoff, hlen, hf₇⟩ := @setSlot_ok n₅ ip
    (by simp only [slotArrayStart, headerSize, slotSize, pageSize]; omega) offset key.length
    (by omega) (by simp only [entrySize] at hlow; omega)
  rw [h.count] at hf₅ hmoved
  have hspan : ip + (xs.length - ip) = xs.length := by omega
  rw [hspan] at hf₅ hmoved
  have hslot₄ : ∀ {i}, i < xs.length → n₄.offsetAt i = n.offsetAt i ∧
    n₄.keyLenAt i = n.keyLenAt i := by
    intro i hi
    refine slotFields_of_sameOutside hf₄ (.inl ?_)
    simp only [slotArrayStart, headerSize, slotSize]
    omega
  have hg : Gains n n₇ xs.length ip offset key.length := by
    refine ⟨?_, ⟨hoff, hlen⟩, ?_⟩
    · intro i hi
      obtain ⟨e1, e2⟩ := @slotFields_of_sameOutside n₅ n₇ i _ _ hf₇
        (.inl (by simp only [slotArrayStart, headerSize, slotSize]; omega))
      obtain ⟨e3, e4⟩ := @slotFields_of_sameOutside n₄ n₅ i _ _ hf₅
        (.inl (by simp only [slotArrayStart, headerSize, slotSize]; omega))
      obtain ⟨e5, e6⟩ := @hslot₄ i (by omega)
      exact ⟨e1.trans (e3.trans e5), e2.trans (e4.trans e6)⟩
    · intro i h1 h2
      obtain ⟨e1, e2⟩ := @slotFields_of_sameOutside n₅ n₇ (i + 1) _ _ hf₇
        (.inr (by simp only [slotArrayStart, headerSize, slotSize]; omega))
      obtain ⟨e3, e4⟩ := hmoved i h1 h2
      obtain ⟨e5, e6⟩ := hslot₄ h2
      exact ⟨e1.trans (e3.trans e5), e2.trans (e4.trans e6)⟩
  have hheader : n₇.header = n.header := by
    have e1 := header_of_sameOutside hf₄ (by simp only [headerSize]; omega)
    have e2 := header_of_sameOutside hf₅ (by simp only [slotArrayStart]; omega)
    have e3 := header_of_sameOutside hf₇ (by simp only [slotArrayStart]; omega)
    exact e3.trans (e2.trans e1)
  have hcount : n₇.header.count = xs.length := by rw [hheader]; exact h.count
  have hmin : n₇.minOffset (xs.length + 1) = .ok offset :=
    hg.minOffset h hip (by simp only [headerSize, slotSize]; omega) (by simp only [pageSize]; omega)
  rw [hw₁, ok_bind, hw₂, ok_bind, hw₃, ok_bind, hw₄, ok_bind, hshift, ok_bind, hw₆,
    ok_bind, hw₇, ok_bind, hcount]
  simp only [hmin, ok_bind]
  rw [checkedSub_ok (by simp only [slotArrayStart, headerSize, slotSize]; omega), ok_bind]
  have hfits : NodeHeader.Fits { n₇.header with
      count := xs.length + 1, freeSpace :=
        offset - (slotArrayStart + (xs.length + 1) * slotSize) } :=
    { n₇.fits_header with
      count := show xs.length + 1 < 256 ^ 4 by omega
      freeSpace := show offset - (slotArrayStart + (xs.length + 1) * slotSize) < 256 ^ 4 by omega }
  have hf₈ := n₇.sameOutside_setHeader { n₇.header with
    count := xs.length + 1, freeSpace := offset - (slotArrayStart + (xs.length + 1) * slotSize) }
  refine .inr ⟨_, offset, rfl, ?_, ?_, ?_, ?_⟩
  · rw [hfit]
    omega
  · refine h.insertIdx (e := (key, payload)) hip (by simp only [pageSize]; omega)
      (by simp only [headerSize, slotSize]; omega) (hg.trans hf₈) ?_ ?_ ?_ ?_ ?_
    · rw [hf₈.slice_eq (.inr (by simp only [headerSize]; omega)),
        hf₇.slice_eq (.inr (by simp only [slotArrayStart, headerSize, slotSize]; omega)),
        hf₅.slice_eq (.inr (by simp only [slotArrayStart, headerSize, slotSize]; omega)), himage]
    · intro start len hstart
      rw [hf₈.slice_eq (.inr (by simp only [headerSize]; omega)),
        hf₇.slice_eq (.inr (by simp only [slotArrayStart, headerSize, slotSize]; omega)),
        hf₅.slice_eq (.inr (by simp only [slotArrayStart, headerSize, slotSize]; omega)),
        hf₄.slice_eq (.inr hstart)]
    · refine Known.setHeader ?_ hfits rfl rfl rfl
      have k₄ := h.known.of_sameOutside hf₄ (by simp only [headerSize]; omega)
      have k₅ := k₄.of_sameOutside hf₅ (by simp only [slotArrayStart]; omega)
      exact k₅.of_sameOutside hf₇ (by simp only [slotArrayStart]; omega)
    · rw [RawNode.count, header_setHeader hfits]
    · rw [header_setHeader hfits]
      rfl
  · rw [header_setHeader hfits, hheader]
  · rw [header_setHeader hfits, hheader]

/-! ## Overwriting what stands behind a key -/

theorem storedBytes_replace {l r : List (Nat × (Bytes × Bytes))} {x y : Nat × (Bytes × Bytes)}
    (h : entrySize y.2 = entrySize x.2) :
    storedBytes (l ++ y :: r) = storedBytes (l ++ x :: r) := by
  simp only [storedBytes, map_append, map_cons, sum_append, sum_cons, h]

/-- New bytes of the same length behind a key; no other entry is touched. -/
theorem Stores.replacePayload {t : PageType} {l r : List (Nat × (Bytes × Bytes))} {offset : Nat}
    {key old new : Bytes} (h : n.Stores t (l ++ (offset, (key, old)) :: r))
    (hlen : new.length = old.length)
    (hnew : slice n'.data (offset + (4 + key.length)) new.length = new)
    (hd : SameOutside n.data n'.data (offset + (4 + key.length))
      (offset + (4 + key.length) + new.length)) :
    n'.Stores t (l ++ (offset, (key, new)) :: r) := by
  have hsize : entrySize (key, new) = entrySize (key, old) := by simp only [entrySize, hlen]
  have hbytes := @storedBytes_replace l r (offset, (key, old)) (offset, (key, new)) hsize
  have hcount : (l ++ (offset, (key, new)) :: r).length =
    (l ++ (offset, (key, old)) :: r).length := by simp
  have hmem : (offset, (key, old)) ∈ l ++ (offset, (key, old)) :: r := by simp
  have hown := h.bounds hmem
  have hslots := h.slotEnd_le
  rw [h.slotEnd_eq] at hslots
  have hroom := h.room
  simp only [entrySize] at hown
  have hheader : n'.header = n.header := header_of_sameOutside hd (by omega)
  obtain ⟨phys, hperm, hp⟩ := h.packed
  constructor
  case known => exact h.known.of_sameOutside hd (by omega)
  case count => rw [RawNode.count, hheader, hcount]; exact h.count
  case free => rw [hheader, hcount, hbytes]; exact h.free
  case room => rw [hcount, hbytes]; exact hroom
  case packed =>
    obtain ⟨a, b, rfl⟩ := append_of_mem (hperm.mem_iff.mpr hmem)
    refine ⟨a ++ (offset, (key, new)) :: b, ?_, by rw [hbytes]; exact hp.replace hsize⟩
    have hrest : (a ++ b).Perm (l ++ r) :=
      (perm_middle.symm.trans (hperm.trans perm_middle)).cons_inv
    exact perm_middle.trans ((hrest.cons _).trans perm_middle.symm)
  case slot =>
    intro j y hy
    have hslot : ∀ {z}, (l ++ (offset, (key, old)) :: r)[j]? = some z →
        n'.offsetAt j = n.offsetAt j ∧ n'.keyLenAt j = n.keyLenAt j := by
      intro z hz
      have hj := (List.getElem?_eq_some_iff.mp hz).1
      refine slotFields_of_sameOutside hd (.inl ?_)
      have hle : (j + 1) * slotSize ≤ (l ++ (offset, (key, old)) :: r).length * slotSize :=
        Nat.mul_le_mul_right slotSize (Nat.succ_le_of_lt hj)
      simp only [slotArrayStart]
      omega
    by_cases hj : j = l.length
    · -- the entry itself: its head is the old one
      subst hj
      have hy' : y = (offset, (key, new)) := by simpa using hy.symm
      subst hy'
      have hold : (l ++ (offset, (key, old)) :: r)[l.length]? = some (offset, (key, old)) := by simp
      obtain ⟨h1, h2, h3⟩ := h.slot _ _ hold
      refine ⟨(hslot hold).1.trans h1, (hslot hold).2.trans h2, ?_⟩
      simp only [entrySize, entryImage] at h3 ⊢
      have hhead : slice n.data offset (4 + key.length) =
        toLe 2 0 ++ (toLe 2 key.length ++ key) := by
        have := slice_of_slice (a := 0) (m := 4 + key.length) h3 (by omega)
        have hassoc : toLe 2 0 ++ (toLe 2 key.length ++ (key ++ old))
            = (toLe 2 0 ++ (toLe 2 key.length ++ key)) ++ old := by simp only [append_assoc]
        rw [Nat.add_zero] at this
        rw [this, hassoc, slice_head (by simp only [length_append, length_toLe]; omega)]
      rw [slice_add, hd.slice_eq (.inl le_rfl), hhead, hnew]
      simp
    · -- another entry does not overlap it
      have hold : (l ++ (offset, (key, old)) :: r)[j]? = some y := by
        rcases Nat.lt_or_ge j l.length with hlt | hge
        · rw [List.getElem?_append_left hlt] at hy ⊢
          exact hy
        · rw [List.getElem?_append_right hge] at hy ⊢
          rw [show j - l.length = (j - l.length - 1) + 1 by omega, List.getElem?_cons_succ] at hy ⊢
          exact hy
      obtain ⟨h1, h2, h3⟩ := h.slot j y hold
      refine ⟨(hslot hold).1.trans h1, (hslot hold).2.trans h2, ?_⟩
      rw [hd.slice_eq ?_, h3]
      have hne : y ≠ (offset, (key, old)) := by
        rintro rfl
        have hnd : ((l ++ (offset, (key, old)) :: r).map Prod.fst).Nodup :=
          (hperm.map Prod.fst).nodup_iff.mp (hp.nodup entrySize_pos)
        have hj' := (List.getElem?_eq_some_iff.mp hold).1
        refine hj ((@List.Nodup.getElem_inj_iff _ _ hnd _ (by simpa using hj') _ (by simp)).mp ?_)
        rw [getElem_map, getElem_map, (List.getElem?_eq_some_iff.mp hold).2]
        simp
      have := hp.apart (hperm.mem_iff.mpr (mem_of_getElem? hold)) (hperm.mem_iff.mpr hmem) hne
      simp only [entrySize] at this ⊢
      omega

end RawNode

end SeerDb
