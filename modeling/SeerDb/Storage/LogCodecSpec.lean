/-
# `SeerDb.Storage.LogCodecSpec` — what is written to the metadata log is read back

Round trips of the layouts of `Storage.LogCodec`, from the bottom up: numbers, manifests,
mapping tables, allocators, checkpoints, deltas, frames.  `MetaLogFrame.Storable` says that
the values of a frame fit the format; a storable frame is read back whole from the head of
a file, and no cut part of it is taken for a frame.
-/
import SeerDb.Storage.LogCodec
import SeerDb.Storage.MetaLogSpec

namespace SeerDb

open Lib List

/-! ## Manifests -/

/-- The values fit their types. -/
structure Manifest.Fits (m : Manifest) : Prop where
  databaseId : m.databaseId < 256 ^ 16
  historyId : m.historyId < 256 ^ 8
  generationId : m.generationId < 256 ^ 8
  commitId : m.commitId < 256 ^ 8
  rootPageId : m.rootPageId < 256 ^ 8
  pmtCheckpointId : m.pmtCheckpointId < 256 ^ 8
  walOffset : m.walOffset < 256 ^ 8
  mutationCount : m.mutationCount < 256 ^ 8
  digest : m.digest < 256 ^ 4

@[simp] theorem length_manifestMagic : manifestMagic.length = 8 := by decide

@[simp] theorem length_manifestPadding : manifestPadding.length = 152 := length_replicate

theorem Manifest.length_image (m : Manifest) : m.image.length = 252 := by
  simp [Manifest.image]

theorem Manifest.length_toBytes (m : Manifest) : m.toBytes.length = manifestSlotSize := by
  rw [Manifest.toBytes, length_withChecksum, m.length_image, manifestSlotSize]

theorem Manifest.fromBytes_toBytes {m : Manifest} (h : m.Fits) :
    Manifest.fromBytes m.toBytes = .ok (some m) := by
  have hmagic : slice m.toBytes 0 8 = manifestMagic := by
    rw [Manifest.toBytes, withChecksum, Manifest.image, append_assoc]
    exact slice_head rfl
  have hzero : m.toBytes.all (· = 0) = false := by
    rw [Manifest.toBytes, withChecksum, Manifest.image, append_assoc, all_append,
      show manifestMagic.all (· = 0) = false from by decide, Bool.false_and]
  have hsum : leAt m.toBytes 252 4 = crc32c (m.toBytes.take 252) :=
    checksum_field m.length_image.symm
  obtain ⟨h1, h2, h3, h4, h5, h6, h7, h8, h9⟩ := h
  have hversion : formatVersion < 256 ^ 4 := by decide
  have hpage : pageSize < 256 ^ 4 := by decide
  rw [Manifest.fromBytes, if_neg (by simp [hzero]), if_neg (not_not.mpr hmagic),
    if_neg (not_not.mpr hsum)]
  simp (disch := first | assumption | simp) only [Manifest.toBytes, withChecksum,
    Manifest.image, append_assoc, leAt_skip, leAt_head, length_toLe,
      length_manifestMagic, Nat.reduceSub]
  rw [if_neg (by decide)]

/-! ## Mapping tables and allocators -/

theorem length_flatMap_const {α : Type*} {f : α → Bytes} {c : Nat}
    (h : ∀ x, (f x).length = c) (l : List α) :
    (l.flatMap f).length = l.length * c := by
  induction l with
  | nil => simp
  | cons x l ih => rw [flatMap_cons, length_append, h, ih, length_cons, Nat.succ_mul, Nat.add_comm]

/-- The last version has no successor, so it is not used. -/
structure PageMapping.Fits (m : PageMapping) : Prop where
  fileId : m.fileId < 256 ^ 4
  offset : m.offset < 256 ^ 8
  version : m.version < u64Max

@[simp] theorem length_mappingBytes (e : PageId × PageMapping) : (mappingBytes e).length = 28 := by
  simp [mappingBytes, PageMapping.toBytes]

theorem PageMapping.fromBytes_toBytes {m : PageMapping} (h : m.Fits) :
    PageMapping.fromBytes m.toBytes = m := by
  obtain ⟨hf, ho, hv⟩ := h
  have hv' : m.version < 256 ^ 8 := hv.trans (by decide)
  simp (disch := first | assumption | simp) only [PageMapping.fromBytes,
    PageMapping.toBytes, leAt_head, leAt_skip, leAt_all, length_toLe, Nat.reduceSub]

/-- The fields of an entry at the head of a list of them. -/
theorem mapping_fields {e : PageId × PageMapping} (hid : e.1 < 256 ^ 8)
    (h : e.2.Fits) (rest : Bytes) :
    leAt (mappingBytes e ++ rest) 0 8 = e.1 ∧
      PageMapping.fromBytes (slice (mappingBytes e ++ rest) 8 20) = e.2 ∧
      (mappingBytes e ++ rest).drop 28 = rest := by
  refine ⟨?_, ?_, ?_⟩
  · rw [mappingBytes, append_assoc, leAt_head hid]
  · rw [mappingBytes, append_assoc, slice_skip (by simp), length_toLe, Nat.sub_self,
      slice_head (by simp [PageMapping.toBytes]), PageMapping.fromBytes_toBytes h]
  · exact drop_left' (length_mappingBytes e)

/-- Mappings in increasing page order are read back behind those already found. -/
theorem readMappings_flatMap : ∀ (ms found : List (PageId × PageMapping)), Sorted (found ++ ms) →
    (∀ e ∈ ms, e.1 < 256 ^ 8 ∧ e.2.Fits) → ∀ rest,
      readMappings ms.length (ms.flatMap mappingBytes ++ rest) found = some (found ++ ms) := by
  intro ms
  induction ms with
  | nil => simp [readMappings]
  | cons e ms ih =>
    intro found hs hfit rest
    obtain ⟨hid, hm⟩ := hfit e (.head _)
    obtain ⟨h1, h2, h3⟩ := mapping_fields hid hm (ms.flatMap mappingBytes ++ rest)
    have hbelow : ∀ x ∈ found, x.1 < e.1 := fun x hx =>
      (sorted_append.mp hs).2.2 x hx e (.head _)
    have hup : Lib.upsert e.1 e.2 found = found ++ [e] := by
      simpa [Lib.upsert] using upsert_append_of_gt (v := e.2) (r := []) hbelow
    rw [flatMap_cons, append_assoc, length_cons, readMappings, h1, h2, h3,
      if_neg (Nat.ne_of_lt hm.version), hup, ih _ (by simpa using hs)
        (fun x hx => hfit x (.tail _ hx)) rest]
    simp

theorem length_pmtBytes (ms : List (PageId × PageMapping)) :
    (pmtBytes ms).length = 4 + ms.length * 28 := by
  rw [pmtBytes, length_append, length_toLe, length_flatMap_const length_mappingBytes]

variable {ms : List (PageId × PageMapping)} {a : PageAllocator} {data : Bytes}

theorem pmtFromBytes_pmtBytes (hs : Sorted ms)
    (hfit : ∀ e ∈ ms, e.1 < 256 ^ 8 ∧ e.2.Fits) (hlen : ms.length < 256 ^ 4) :
    pmtFromBytes (pmtBytes ms) = some ms := by
  have hcount : leAt (pmtBytes ms) 0 4 = ms.length := leAt_head hlen
  have hdrop : (pmtBytes ms).drop 4 = ms.flatMap mappingBytes := drop_left' (length_toLe 4 _)
  have hread := readMappings_flatMap ms [] (by simpa using hs) hfit []
  rw [append_nil, nil_append] at hread
  rw [pmtFromBytes, hcount, hdrop, length_pmtBytes, if_neg (by omega), if_neg (by simp), hread]

/-- What the decoder demands of an allocator. -/
structure PageAllocator.Fits (a : PageAllocator) : Prop where
  pos : a.nextId ≠ 0
  nextId : a.nextId < 256 ^ 8
  free : ∀ id ∈ a.freeList, id ≠ 0 ∧ id < a.nextId
  nodup : a.freeList.Nodup

theorem readFreeList_toLe {nextId id count : Nat} (hid : id < 256 ^ 8) (data : Bytes)
    (found : List Nat) :
    readFreeList nextId (count + 1) (toLe 8 id ++ data) found
      = if id = 0 ∨ nextId ≤ id ∨ id ∈ found then none else readFreeList nextId count data
        (found ++ [id]) := by
  have hdrop : (toLe 8 id ++ data).drop 8 = data := drop_left' (length_toLe 8 _)
  rw [readFreeList, leAt_head hid, hdrop]

theorem readFreeList_flatMap {nextId : Nat} (hn : nextId < 256 ^ 8) :
    ∀ (ids found : List Nat), (found ++ ids).Nodup → (∀ id ∈ ids, id ≠ 0 ∧ id < nextId) →
      readFreeList nextId ids.length (ids.flatMap (toLe 8)) found = some (found ++ ids) := by
  intro ids
  induction ids with
  | nil => simp [readFreeList]
  | cons id ids ih =>
    intro found hnodup hfree
    obtain ⟨⟨h0, hlt⟩, hids⟩ := forall_mem_cons.mp hfree
    have hnew : id ∉ found := fun hm =>
      (nodup_append.mp hnodup).2.2 id hm id (.head _) rfl
    rw [flatMap_cons, length_cons, readFreeList_toLe (hlt.trans hn),
      if_neg (by simp [h0, hlt, hnew]), ih _ (by simpa using hnodup) hids]
    simp

/-- A free list that is read at all is read as it was written. -/
theorem readFreeList_eq {nextId : Nat} : ∀ {ids found ids' : List Nat}, (∀ id ∈ ids, id < 256 ^ 8) →
    readFreeList nextId ids.length (ids.flatMap (toLe 8)) found = some ids' →
      ids' = found ++ ids := by
  intro ids
  induction ids with
  | nil =>
    rintro found ids' - ⟨⟩
    rw [append_nil]
  | cons id ids ih =>
    intro found ids' hids h
    obtain ⟨hid, hids⟩ := forall_mem_cons.mp hids
    rw [flatMap_cons, length_cons, readFreeList_toLe hid] at h
    split at h
    · cases h
    rw [ih hids h, append_assoc, singleton_append]

theorem PageAllocator.length_toBytes (a : PageAllocator) : a.toBytes.length = a.serializedLen := by
  rw [PageAllocator.toBytes, PageAllocator.serializedLen, length_append, length_append,
    length_flatMap_const (length_toLe 8), length_toLe, length_toLe]
  omega

/-- The fields of an allocator, where its decoder reads them. -/
theorem PageAllocator.toBytes_fields (hn : a.nextId < 256 ^ 8) : leAt a.toBytes 0 8 = a.nextId ∧
    a.toBytes.drop 12 = a.freeList.flatMap (toLe 8) := by
  refine ⟨leAt_head hn, ?_⟩
  rw [PageAllocator.toBytes, ← append_assoc]
  exact drop_left' (by simp)

theorem PageAllocator.fromBytes_toBytes (h : a.Fits) (hlen : a.freeList.length < 256 ^ 4) :
    PageAllocator.fromBytes a.toBytes = some a := by
  obtain ⟨hnext, hdrop⟩ := PageAllocator.toBytes_fields h.nextId
  have hcount : leAt a.toBytes 8 4 = a.freeList.length := by
    rw [PageAllocator.toBytes, leAt_skip (by simp), length_toLe, Nat.sub_self, leAt_head hlen]
  have hread := readFreeList_flatMap h.nextId a.freeList [] (by simpa using h.nodup) h.free
  have hsize := a.length_toBytes
  rw [PageAllocator.serializedLen] at hsize
  rw [PageAllocator.fromBytes, hnext, hcount, hdrop, hsize, if_neg (by omega)]
  simp only [if_neg h.pos, if_neg (not_not.mpr (rfl : 12 + a.freeList.length * 8 = _)), hread]
  rfl

theorem PageAllocator.fromBytes_toBytes_eq {a' : PageAllocator} (hn : a.nextId < 256 ^ 8)
    (hids : ∀ id ∈ a.freeList, id < 256 ^ 8) (h : PageAllocator.fromBytes a.toBytes = some a') :
    a' = a := by
  obtain ⟨hnext, hdrop⟩ := PageAllocator.toBytes_fields hn
  have hsize := a.length_toBytes
  rw [PageAllocator.serializedLen] at hsize
  rw [PageAllocator.fromBytes, hnext, hdrop, hsize, if_neg (by omega)] at h
  simp only at h
  split at h
  · cases h
  split at h
  · cases h
  rename_i hcount
  have hlen : leAt a.toBytes 8 4 = a.freeList.length := by omega
  obtain ⟨ids, hread, rfl⟩ := Option.map_eq_some_iff.mp h
  rw [hlen] at hread
  rw [readFreeList_eq hids hread, nil_append]

theorem readFreeList_sound {nextId : Nat} : ∀ {count : Nat} {data : Bytes} {found ids : List Nat},
    readFreeList nextId count data found = some ids → found.Nodup →
      (∀ id ∈ found, id ≠ 0 ∧ id < nextId) → ids.Nodup ∧ ∀ id ∈ ids, id ≠ 0 ∧ id < nextId := by
  intro count
  induction count with
  | zero =>
    rintro data found ids ⟨⟩ hnodup hfree
    exact ⟨hnodup, hfree⟩
  | succ count ih =>
    intro data found ids h hnodup hfree
    rw [readFreeList] at h
    split at h
    · cases h
    rename_i hid
    push Not at hid
    refine ih h ?_ ?_
    · exact nodup_append.mpr ⟨hnodup, nodup_singleton _, fun a ha b hb heq =>
        hid.2.2 (by rw [← mem_singleton.mp hb, ← heq]; exact ha)⟩
    · exact forall_mem_concat hfree ⟨hid.1, hid.2.1⟩

/-- Every allocator that is read fits. -/
theorem PageAllocator.fromBytes_fits {buf : Bytes} (h : PageAllocator.fromBytes buf = some a) :
    a.Fits := by
  rw [PageAllocator.fromBytes] at h
  split at h
  · cases h
  simp only at h
  split at h
  · cases h
  rename_i hpos
  split at h
  · cases h
  obtain ⟨freeList, hread, rfl⟩ := Option.map_eq_some_iff.mp h
  obtain ⟨hnodup, hfree⟩ := readFreeList_sound hread nodup_nil (by simp)
  exact ⟨hpos, leAt_lt _ _ _, hfree, hnodup⟩

/-! ## Checkpoints and deltas -/

@[simp] theorem length_metaMagic : metaMagic.length = 8 := by decide

@[simp] theorem length_metaDeltaMagic : metaDeltaMagic.length = 8 := by decide

@[simp] theorem length_metaPubMagic : metaPubMagic.length = 8 := by decide

theorem lt_of_le_u32Max {n : Nat} (h : n ≤ u32Max) : n < 256 ^ 4 := lt_of_le_of_lt h (by decide)

theorem decodeLegacyCheckpoint_fields {table allocator : Bytes}
    (ht : pmtFromBytes table = some ms) (ha : PageAllocator.fromBytes allocator = some a)
    (hlt : table.length < 256 ^ 4) (hla : allocator.length < 256 ^ 4) :
    decodeLegacyCheckpoint (toLe 4 table.length ++
      (table ++ (toLe 4 allocator.length ++ allocator))) = .ok (.checkpoint ms a) := by
  generalize hdata : toLe 4 table.length ++ (table ++ (toLe 4 allocator.length ++ allocator)) = data
  have hlen : data.length = 4 + table.length + 4 + allocator.length := by
    rw [← hdata]
    simp only [length_append, length_toLe]
    omega
  have h1 : leAt data 0 4 = table.length := by rw [← hdata, leAt_head hlt]
  have h2 : slice data 4 table.length = table := by
    rw [← hdata, slice_skip (by simp), length_toLe, Nat.sub_self, slice_head rfl]
  have h3 : leAt data (4 + table.length) 4 = allocator.length := by
    rw [← hdata, leAt_skip (by simp), length_toLe, Nat.add_sub_cancel_left,
      leAt_skip le_rfl, Nat.sub_self, leAt_head hla]
  have h4 : slice data (4 + table.length + 4) allocator.length = allocator := by
    have h0 : 4 + table.length + 4 - 4 - table.length - 4 = 0 := by omega
    rw [← hdata, slice_skip (by simp), length_toLe, slice_skip (by omega),
      slice_skip (by simp), length_toLe, h0, slice_all rfl]
  rw [decodeLegacyCheckpoint]
  simp only [h1, h2, h3, h4, hlen, ht, ha]
  rw [if_neg (by omega), if_neg (by omega), if_neg (by omega), if_neg (by simp)]

/-- What a checksum covers is found under it. -/
theorem checksum_ok (buf : Bytes) : leAt (withChecksum buf) ((withChecksum buf).length - 4) 4 =
    crc32c ((withChecksum buf).take ((withChecksum buf).length - 4)) :=
  checksum_field (by simp)

theorem decodeCheckpoint_checkpointBytes (hs : Sorted ms)
    (hfit : ∀ e ∈ ms, e.1 < 256 ^ 8 ∧ e.2.Fits) (ha : a.Fits) (hlt : (pmtBytes ms).length ≤ u32Max)
    (hla : a.toBytes.length ≤ u32Max) :
    decodeCheckpoint (checkpointBytes ms a) = .ok (.checkpoint ms a) := by
  have hms : ms.length < 256 ^ 4 := lt_of_le_u32Max (by rw [length_pmtBytes] at hlt; omega)
  have hfree : a.freeList.length < 256 ^ 4 := lt_of_le_u32Max (by
    rw [PageAllocator.length_toBytes, PageAllocator.serializedLen] at hla
    omega)
  have hlegacy := decodeLegacyCheckpoint_fields (pmtFromBytes_pmtBytes hs hfit hms)
    (PageAllocator.fromBytes_toBytes ha hfree) (lt_of_le_u32Max hlt) (lt_of_le_u32Max hla)
  generalize hinner : toLe 4 (pmtBytes ms).length ++
    (pmtBytes ms ++ (toLe 4 a.toBytes.length ++ a.toBytes)) = inner at hlegacy
  have hdata : checkpointBytes ms a = withChecksum
    (metaMagic ++ (toLe 4 formatVersion ++ inner)) := by
    rw [checkpointBytes, hinner]
  have hversion : leAt (checkpointBytes ms a) 8 4 = formatVersion := by
    rw [hdata, withChecksum, append_assoc, leAt_skip (by simp), length_metaMagic, Nat.sub_self,
      append_assoc, leAt_head (by decide)]
  have hslice : slice (checkpointBytes ms a) 12 ((checkpointBytes ms a).length - 4 - 12) =
    inner := by
    rw [hdata, length_withChecksum, withChecksum, ← append_assoc, append_assoc,
      slice_skip (by simp)]
    have h0 : 12 - (metaMagic ++ toLe 4 formatVersion).length = 0 := by simp
    rw [h0]
    exact slice_head (by simp; omega)
  have hsum := checksum_ok (metaMagic ++ (toLe 4 formatVersion ++ inner))
  rw [← hdata] at hsum
  have hlen : ¬ (checkpointBytes ms a).length < 16 := by
    rw [hdata, length_withChecksum]
    simp only [length_append, length_metaMagic, length_toLe]
    omega
  rw [decodeCheckpoint, if_neg hlen, if_neg (not_not.mpr hversion), if_neg (not_not.mpr hsum),
    hslice, hlegacy]

theorem decodeCheckpoint_fits (h : decodeCheckpoint data = .ok (.checkpoint ms a)) : a.Fits := by
  rw [decodeCheckpoint] at h
  split at h
  · cases h
  split at h
  · cases h
  split at h
  · cases h
  rw [decodeLegacyCheckpoint] at h
  split at h
  · cases h
  simp only at h
  split at h
  · cases h
  split at h
  · cases h
  split at h
  · cases h
  split at h
  · cases h
  split at h
  · cases h
  · rename_i hread
    cases h
    exact PageAllocator.fromBytes_fits hread

theorem decodeDelta_fits {d : MetaDelta} (h : decodeDelta data = .ok (.delta d)) :
    d.allocator.Fits := by
  rw [decodeDelta] at h
  split at h
  · cases h
  split at h
  · cases h
  split at h
  · cases h
  simp only at h
  split at h
  · cases h
  split at h
  · cases h
  split at h
  · cases h
  split at h
  · cases h
  split at h
  · cases h
  · rename_i hread
    cases h
    exact PageAllocator.fromBytes_fits hread

theorem readUpdates_flatMap : ∀ (us : List (PageId × PageMapping)) (previous : Option PageId),
    Sorted us → (∀ p ∈ previous, ∀ u ∈ us, p < u.1) → (∀ u ∈ us, u.1 < 256 ^ 8 ∧ u.2.Fits) → ∀ rest,
      readUpdates us.length (us.flatMap mappingBytes ++ rest) previous = .ok us := by
  intro us
  induction us with
  | nil => simp [readUpdates]
  | cons u us ih =>
    intro previous hs hprev hfit rest
    obtain ⟨hid, hm⟩ := hfit u (.head _)
    obtain ⟨h1, h2, h3⟩ := mapping_fields hid hm (us.flatMap mappingBytes ++ rest)
    have hnext : previous.any (fun p => decide (u.1 ≤ p)) = false := by
      cases previous with
      | none => rfl
      | some p => simpa using hprev p rfl u (.head _)
    obtain ⟨habove, hs'⟩ := sorted_cons.mp hs
    have hrest := ih (some u.1) hs' (fun p hp x hx => by cases hp; exact habove x hx)
      (fun x hx => hfit x (.tail _ hx)) rest
    rw [flatMap_cons, append_assoc, length_cons, readUpdates]
    simp only [h1, h2, h3, hnext, hrest, if_neg (Nat.ne_of_lt hm.version)]
    rfl

theorem readRemovals_flatMap : ∀ (ids : List PageId) (previous : Option PageId),
    ids.Pairwise (· < ·) → (∀ p ∈ previous, ∀ id ∈ ids, p < id) →
      (∀ id ∈ ids, id < 256 ^ 8) → ∀ rest,
      readRemovals ids.length (ids.flatMap (toLe 8) ++ rest) previous = .ok ids := by
  intro ids
  induction ids with
  | nil => simp [readRemovals]
  | cons id ids ih =>
    intro previous hs hprev hfit rest
    have hid : leAt (toLe 8 id ++ (ids.flatMap (toLe 8) ++ rest)) 0 8 = id :=
      leAt_head (hfit id (.head _))
    have hdrop : (toLe 8 id ++ (ids.flatMap (toLe 8) ++ rest)).drop 8 =
      ids.flatMap (toLe 8) ++ rest :=
      drop_left' (length_toLe 8 _)
    have hnext : previous.any (fun p => decide (id ≤ p)) = false := by
      cases previous with
      | none => rfl
      | some p => simpa using hprev p rfl id (.head _)
    obtain ⟨habove, hs'⟩ := pairwise_cons.mp hs
    have hrest := ih (some id) hs' (fun p hp x hx => by cases hp; exact habove x hx)
      (fun x hx => hfit x (.tail _ hx)) rest
    rw [flatMap_cons, append_assoc, length_cons, readRemovals]
    simp only [hid, hdrop, hnext, hrest]
    rfl

structure MetaDelta.Fits (d : MetaDelta) : Prop where
  parent : d.parentCheckpointId < 256 ^ 8
  updates : Sorted d.updates ∧ ∀ u ∈ d.updates, u.1 < 256 ^ 8 ∧ u.2.Fits
  removals : d.removals.Pairwise (· < ·) ∧ ∀ id ∈ d.removals, id < 256 ^ 8
  apart : ∀ u ∈ d.updates, u.1 ∉ d.removals
  allocator : d.allocator.Fits

@[simp] theorem length_deltaHeader (d : MetaDelta) : (deltaHeader d).length = 32 := by
  simp [deltaHeader]

theorem length_deltaBytes (d : MetaDelta) : (deltaBytes d).length =
    36 + d.updates.length * 28 + d.removals.length * 8 + d.allocator.toBytes.length := by
  rw [deltaBytes, length_withChecksum]
  simp only [length_append, length_deltaHeader,
    length_flatMap_const length_mappingBytes, length_flatMap_const (length_toLe 8)]
  omega

section

variable {d : MetaDelta} (h : d.Fits) (hu : d.updates.length ≤ u32Max)
  (hr : d.removals.length ≤ u32Max) (hla : d.allocator.toBytes.length ≤ u32Max)

include h hu hr hla

theorem deltaHeader_fields (rest : Bytes) :
    leAt (deltaHeader d ++ rest) 8 4 = metaDeltaVersion ∧
      leAt (deltaHeader d ++ rest) 12 8 = d.parentCheckpointId ∧
      leAt (deltaHeader d ++ rest) 20 4 = d.updates.length ∧
      leAt (deltaHeader d ++ rest) 24 4 = d.removals.length ∧
      leAt (deltaHeader d ++ rest) 28 4 = d.allocator.toBytes.length := by
  have hversion : metaDeltaVersion < 256 ^ 4 := by decide
  have hparent := h.parent
  have hu' := lt_of_le_u32Max hu
  have hr' := lt_of_le_u32Max hr
  have hla' := lt_of_le_u32Max hla
  simp (disch := first | assumption | simp) only [deltaHeader, append_assoc, leAt_skip, leAt_head,
    length_toLe, length_metaDeltaMagic, Nat.reduceSub, and_self]

theorem decodeDelta_deltaBytes : decodeDelta (deltaBytes d) = .ok (.delta d) := by
  have hfree : d.allocator.freeList.length < 256 ^ 4 := lt_of_le_u32Max (by
    rw [PageAllocator.length_toBytes, PageAllocator.serializedLen] at hla
    omega)
  have hlen := length_deltaBytes d
  have hsum : leAt (deltaBytes d) ((deltaBytes d).length - 4) 4 =
      crc32c ((deltaBytes d).take ((deltaBytes d).length - 4)) := checksum_ok _
  obtain ⟨tail, htail⟩ : ∃ tail, deltaBytes d = deltaHeader d ++ (d.updates.flatMap mappingBytes ++
      (d.removals.flatMap (toLe 8) ++ (d.allocator.toBytes ++ tail))) :=
    ⟨_, by rw [deltaBytes, withChecksum]; simp only [append_assoc]; rfl⟩
  have hul : (d.updates.flatMap mappingBytes).length = d.updates.length * 28 :=
    length_flatMap_const length_mappingBytes _
  have hrl : (d.removals.flatMap (toLe 8)).length = d.removals.length * 8 :=
    length_flatMap_const (length_toLe 8) _
  have hupdates : (deltaBytes d).drop 32 = d.updates.flatMap mappingBytes ++
      (d.removals.flatMap (toLe 8) ++ (d.allocator.toBytes ++ tail)) := by
    rw [htail]
    exact drop_left' (length_deltaHeader d)
  have hremovals : (deltaBytes d).drop (32 + d.updates.length * 28) =
      d.removals.flatMap (toLe 8) ++ (d.allocator.toBytes ++ tail) := by
    rw [← drop_drop, hupdates]
    exact drop_left' hul
  have halloc : slice (deltaBytes d) (32 + d.updates.length * 28 + d.removals.length * 8)
      d.allocator.toBytes.length = d.allocator.toBytes := by
    rw [slice, ← drop_drop, hremovals, drop_left' hrl, take_left]
  obtain ⟨hversion, hparent, hucount, hrcount, hacount⟩ := deltaHeader_fields h hu hr hla
    (d.updates.flatMap mappingBytes ++ (d.removals.flatMap (toLe 8) ++
      (d.allocator.toBytes ++ tail)))
  rw [← htail] at hversion hparent hucount hrcount hacount
  have hreadu := readUpdates_flatMap d.updates none h.updates.1 (by simp) h.updates.2
    (d.removals.flatMap (toLe 8) ++ (d.allocator.toBytes ++ tail))
  have hreadr := readRemovals_flatMap d.removals none h.removals.1 (by simp) h.removals.2
    (d.allocator.toBytes ++ tail)
  have hapart : (d.updates.any fun u => decide (u.1 ∈ d.removals)) = false := by
    simpa using fun a m hm => h.apart (a, m) hm
  rw [decodeDelta, if_neg (by omega), if_neg (not_not.mpr hversion), if_neg (not_not.mpr hsum)]
  simp only [hucount, hrcount, hacount, hparent, hupdates, hremovals, halloc,
    hreadu, hreadr, hapart, PageAllocator.fromBytes_toBytes h.allocator hfree]
  rw [if_neg (by omega)]
  rfl

end

/-! ## Frames -/

def MetaLogEntry.Fits : MetaLogEntry → Prop
  | .checkpoint ms a => Sorted ms ∧ (∀ e ∈ ms, e.1 < 256 ^ 8 ∧ e.2.Fits) ∧ a.Fits
  | .delta d => d.Fits

theorem MetaLogEntry.checkLengths_checkpoint :
    (MetaLogEntry.checkpoint ms a).checkLengths = .ok () ↔
      (pmtBytes ms).length ≤ u32Max ∧ a.toBytes.length ≤ u32Max := by
  rw [checkLengths]
  split
  · rename_i hlt
    simp [not_le.mpr hlt]
  split
  · rename_i hla
    simp [not_le.mpr hla]
  · rename_i hlt hla
    simp [not_lt.mp hlt, not_lt.mp hla]

theorem MetaLogEntry.checkLengths_delta {d : MetaDelta} :
    (MetaLogEntry.delta d).checkLengths = .ok () ↔
    d.updates.length ≤ u32Max ∧ d.removals.length ≤ u32Max ∧
      d.allocator.toBytes.length ≤ u32Max := by
  rw [checkLengths]
  split
  · rename_i hu
    simp [not_le.mpr hu]
  split
  · rename_i hr
    simp [not_le.mpr hr]
  split
  · rename_i hla
    simp [not_le.mpr hla]
  · rename_i hu hr hla
    simp [not_lt.mp hu, not_lt.mp hr, not_lt.mp hla]

theorem decodeEntry_bytes {e : MetaLogEntry} (h : e.Fits) (hl : e.checkLengths = .ok ()) :
    decodeEntry e.bytes = .ok (some e) := by
  cases e with
  | checkpoint ms a =>
    obtain ⟨hs, hfit, ha⟩ := h
    obtain ⟨hlt, hla⟩ := MetaLogEntry.checkLengths_checkpoint.mp hl
    have hmagic : (checkpointBytes ms a).take 8 = metaMagic := by
      rw [checkpointBytes, withChecksum, append_assoc]
      exact take_left' length_metaMagic
    rw [decodeEntry, MetaLogEntry.bytes, hmagic, if_neg (by decide), if_pos rfl,
      decodeCheckpoint_checkpointBytes hs hfit ha hlt hla]
    rfl
  | delta d =>
    obtain ⟨hu, hr, hla⟩ := MetaLogEntry.checkLengths_delta.mp hl
    have hmagic : (deltaBytes d).take 8 = metaDeltaMagic := by
      rw [deltaBytes, withChecksum, deltaHeader, append_assoc, append_assoc]
      exact take_left' length_metaDeltaMagic
    rw [decodeEntry, MetaLogEntry.bytes, hmagic, if_pos rfl, decodeDelta_deltaBytes h hu hr hla]
    rfl

theorem MetaLogFrame.length_bytes (f : MetaLogFrame) :
    f.bytes.length = metaLogFrameHeaderSize + f.payload.length := by
  rw [MetaLogFrame.bytes, metaLogFrameBytes, metaLogFrameHeaderSize]
  simp only [length_append, length_toLe]
  omega

/-- A length, a checksum and bytes that fit both. -/
def Checksummed (data : Bytes) : Prop :=
  metaLogFrameHeaderSize + leAt data 0 4 ≤ data.length ∧
    crc32c (slice data 8 8 ++ slice data metaLogFrameHeaderSize (leAt data 0 4)) = leAt data 4 4

theorem parseFrame_none (h : ¬ Checksummed data) : parseFrame data = .ok none := by
  rw [parseFrame]
  split
  · rfl
  simp only
  split
  · rfl
  · rename_i hle
    rw [if_pos fun hcrc => h ⟨not_lt.mp hle, hcrc⟩]

/-- The values of the frame fit the format, and its lengths do. -/
structure MetaLogFrame.Storable (f : MetaLogFrame) : Prop where
  id : f.checkpointId < 256 ^ 8
  manifest : f.manifest.Fits
  entry : f.entry.Fits
  encoded : encodeMetaLogFrame f = .ok f.bytes

namespace MetaLogFrame.Storable

variable {f : MetaLogFrame}

theorem lengths (h : f.Storable) : f.entry.checkLengths = .ok () ∧ f.payload.length < 256 ^ 4 := by
  have he := h.encoded
  rw [encodeMetaLogFrame] at he
  cases hl : f.entry.checkLengths with
  | error err =>
    rw [hl] at he
    cases he
  | ok u =>
    rw [hl] at he
    simp only at he
    split at he
    · cases he
    · rename_i hle
      exact ⟨rfl, lt_of_le_u32Max (not_lt.mp hle)⟩

theorem decodePayload_eq (h : f.Storable) :
    decodePayload f.payload = .ok (some (.publication f.manifest f.entry)) := by
  have hmlen := f.manifest.length_toBytes
  have hslot : manifestSlotSize = 256 := rfl
  have hmagic : f.payload.take 8 = metaPubMagic := take_left' length_metaPubMagic
  have hlen : f.payload.length = 16 + 256 + f.entry.bytes.length := by
    rw [payload, publicationPayload]
    simp only [length_append, length_metaPubMagic, length_toLe, hmlen, hslot]
    omega
  have hversion : leAt f.payload 8 4 = metaPubVersion := by
    rw [payload, publicationPayload, leAt_skip (by simp), length_metaPubMagic, Nat.sub_self,
      leAt_head (by decide)]
  have hmanifestLen : leAt f.payload 12 4 = 256 := by
    rw [payload, publicationPayload, leAt_skip (by simp), length_metaPubMagic,
      leAt_skip (by simp), length_toLe, show 12 - 8 - 4 = 0 from rfl, hmlen,
        leAt_head (by decide), hslot]
  have hmanifest : slice f.payload 16 256 = f.manifest.toBytes := by
    rw [payload, publicationPayload, slice_skip (by simp), length_metaPubMagic,
      slice_skip (by simp), length_toLe, slice_skip (by simp), length_toLe, show 16 - 8 - 4 - 4 =
        0 from rfl, slice_head (hmlen.trans hslot)]
  have hentry : f.payload.drop (16 + 256) = f.entry.bytes := by
    rw [payload, publicationPayload, ← append_assoc, ← append_assoc, ← append_assoc]
    exact drop_left' (by simp [hmlen, hslot])
  rw [decodePayload, if_pos hmagic, decodePublication, if_neg (by omega),
    if_neg (not_not.mpr hversion)]
  simp only [hmanifestLen, hmanifest, hentry, hslot, Manifest.fromBytes_toBytes h.manifest,
    decodeEntry_bytes h.entry h.lengths.1]
  rw [if_neg (by omega), if_neg (by simp)]
  rfl

theorem parseFrame_bytes (h : f.Storable) (rest : Bytes) :
    parseFrame (f.bytes ++ rest) = .ok (some (f.logged, f.bytes.length)) := by
  have hhead : metaLogFrameHeaderSize = 16 := rfl
  have hlen := f.length_bytes
  have hpayload := h.lengths.2
  generalize hdata : f.bytes ++ rest = data
  have hdlen : data.length = 16 + f.payload.length + rest.length := by
    rw [← hdata, length_append, hlen, hhead]
  have h1 : leAt data 0 4 = f.payload.length := by
    rw [← hdata, bytes, metaLogFrameBytes, append_assoc, leAt_head hpayload]
  have h2 : leAt data 4 4 = crc32c (toLe 8 f.checkpointId ++ f.payload) := by
    rw [← hdata, bytes, metaLogFrameBytes, append_assoc, leAt_skip (by simp),
      length_toLe, Nat.sub_self, append_assoc, leAt_head (crc32c_lt _)]
  have h3 : slice data 8 8 = toLe 8 f.checkpointId := by
    rw [← hdata, bytes, metaLogFrameBytes, append_assoc, slice_skip (by simp), length_toLe,
      append_assoc, slice_skip (by simp), length_toLe, show 8 - 4 - 4 = 0 from rfl, append_assoc,
      slice_head (length_toLe 8 _)]
  have h4 : slice data 16 f.payload.length = f.payload := by
    rw [← hdata, bytes, metaLogFrameBytes, append_assoc, slice_skip (by simp), length_toLe,
      append_assoc, slice_skip (by simp), length_toLe, append_assoc, slice_skip (by simp),
      length_toLe, show 16 - 4 - 4 - 8 = 0 from rfl, slice_head rfl]
  have h5 : data.take (16 + f.payload.length) = f.bytes := by
    rw [← hdata]
    exact take_left' (by rw [hlen, hhead])
  have hid : leAt data 8 8 = f.checkpointId := by
    rw [leAt, h3, ofLe_toLe 8 _ h.id]
  rw [parseFrame]
  simp only [hhead, h1, h2, h3, h4, h5, hid, h.decodePayload_eq]
  rw [if_neg (by omega), if_neg (by omega), if_neg (by simp), hlen, hhead]
  rfl

/-- A cut frame is too short for the length it names. -/
theorem not_checksummed (h : f.Storable) {k : Nat} (hk : k < f.bytes.length) :
    ¬ Checksummed (f.bytes.take k) := by
  rintro ⟨hle, -⟩
  have hhead : metaLogFrameHeaderSize = 16 := rfl
  have hlen := f.length_bytes
  have hdlen : (f.bytes.take k).length = k := by rw [length_take]; omega
  have hpayload : leAt (f.bytes.take k) 0 4 = f.payload.length := by
    rw [leAt, slice, drop_zero, take_take, Nat.min_eq_left (by omega), bytes, metaLogFrameBytes,
      take_left' (length_toLe 4 _), ofLe_toLe 4 _ h.lengths.2]
  omega

end MetaLogFrame.Storable

/-- **The frames of the log.** -/
theorem framing : Framing parseFrame LoggedFrame.raw fun l => ∃ f : MetaLogFrame, f.Storable ∧
    l = f.logged where
  empty := rfl
  pos := by
    rintro r ⟨f, hf, rfl⟩
    show 0 < f.bytes.length
    rw [MetaLogFrame.length_bytes, metaLogFrameHeaderSize]
    omega
  whole := by
    rintro r ⟨f, hf, rfl⟩ rest
    exact hf.parseFrame_bytes rest
  torn := by
    rintro r ⟨f, hf, rfl⟩ k hk
    exact parseFrame_none (hf.not_checksummed hk)

end SeerDb
