/-
# `SeerDb.Btree.RawLeaf` — leaf pages refine lists of entries

`Embodies n m es`: the buffer `n` holds the leaf page `m`, whose entries are `es`.  Each
page operation on bytes does to the buffer what the operation of `SeerDb.Btree.Node` does
to the list, errors included, so that what is known of pages as lists is known of their
bytes.
-/
import SeerDb.Btree.RawLayout
import SeerDb.Btree.RawRead

namespace SeerDb

open Lib List

/-- The fields of the pointer fit their widths. -/
structure BlobPointer.Fits (p : BlobPointer) : Prop where
  fileId : p.fileId < 256 ^ 4
  offset : p.offset < 256 ^ 8
  length : p.length < 256 ^ 4

@[simp] theorem BlobPointer.length_toBytes (p : BlobPointer) :
    p.toBytes.length = blobPointerSize := by
  simp [toBytes, blobPointerSize]

theorem BlobPointer.fromBytes_toBytes {p : BlobPointer} (h : p.Fits) : fromBytes p.toBytes = p := by
  obtain ⟨h1, h2, h3⟩ := h
  simp only [fromBytes, toBytes, leAt_skip, length_toLe, leAt_head, leAt_all, Nat.sub_self,
    Nat.reduceSub, le_refl, Nat.reduceLeDiff, h1, h2, h3]

def Value.Fits : Value → Prop
  | .blob p => p.Fits
  | _ => True

theorem Value.length_payload (v : Value) : v.payload.length = 1 + v.len := by
  cases v <;> simp [payload, len, Nat.add_comm]

/-- An entry with its value as bytes. -/
def encodeEntry (e : Bytes × Value) : Bytes × Bytes := (e.1, e.2.payload)

theorem entrySize_encodeEntry (e : Bytes × Value) :
    RawNode.entrySize (encodeEntry e) = Node.leafEntrySize e := by
  simp only [RawNode.entrySize, encodeEntry, Node.leafEntrySize, Value.length_payload]
  omega

namespace RawNode

variable {n n' : RawNode} {i : Nat}

/-! ## Reading a stored entry -/

structure ReadsAs (n : RawNode) (i : Nat) (e : Bytes × Bytes) : Prop where
  prefixLen : n.prefixLenAt i = 0
  suffixLen : n.suffixLenAt i = e.1.length
  suffix : n.suffixAt i = e.1
  payload : slice n.data (n.payloadAt i) e.2.length = e.2
  stop : n.payloadAt i + e.2.length = n.stopAt i

theorem Stores.reads {t : PageType} {xs : List (Nat × (Bytes × Bytes))} {x : Nat × (Bytes × Bytes)}
    (h : n.Stores t xs) (hx : xs[i]? = some x) : n.ReadsAs i x.2 := by
  obtain ⟨offset, key, payload⟩ := x
  obtain ⟨hoff, -, himage⟩ := h.slot i _ hx
  have hstop := h.stopAt_eq hx
  have hle := (h.bounds (mem_of_getElem? hx)).2
  simp only at hoff himage hstop hle
  have hlen : key.length < 256 ^ 2 := by
    simp only [entrySize, pageSize] at hle
    omega
  have hsize : entrySize (key, payload) = 4 + key.length + payload.length := rfl
  rw [hsize] at himage hstop
  have hbegins : n.prefixLenAt i = 0 := by
    rw [prefixLenAt, hoff, leAt, ← Nat.add_zero offset, slice_of_slice himage (by omega)]
    rfl
  have hsuffixLen : n.suffixLenAt i = key.length := by
    rw [suffixLenAt, hoff, leAt, slice_of_slice himage (by omega), entryImage,
      slice_skip (by simp), length_toLe, Nat.sub_self, slice_head (length_toLe _ _),
        ofLe_toLe _ _ hlen]
  have hpay : n.payloadAt i = offset + (4 + key.length) := by
    rw [payloadAt, hoff, hsuffixLen]
    omega
  have hsuffix : n.suffixAt i = key := by
    rw [suffixAt, hoff, hsuffixLen, slice_of_slice himage (by omega), entryImage,
      slice_skip (by simp), slice_skip (by simp)]
    simp only [length_toLe, Nat.reduceSub]
    exact slice_head rfl
  have hpayload : slice n.data (n.payloadAt i) payload.length = payload := by
    rw [hpay, slice_of_slice himage (by omega), entryImage, slice_skip (by rw [length_toLe]; omega),
      slice_skip (by simp only [length_toLe]; omega),
        slice_skip (by simp only [length_toLe]; omega)]
    simp only [length_toLe]
    rw [show 4 + key.length - 2 - 2 - key.length = 0 by omega]
    exact slice_all rfl
  exact ⟨hbegins, hsuffixLen, hsuffix, hpayload, show n.payloadAt i + payload.length = _ by omega⟩

theorem ReadsAs.keyBefore {e : Bytes × Bytes} (h : n.ReadsAs i e) : n.keyBefore (i + 1) = e.1 := by
  rw [RawNode.keyBefore, h.prefixLen, take_zero, nil_append, h.suffix]

/-- The value behind a key is read back as it was written. -/
theorem ReadsAs.valueAt {k : Bytes} {v : Value} (h : n.ReadsAs i (k, v.payload)) (hv : v.Fits) :
    n.valueAt i = some v := by
  have hpay := h.payload
  have hstop := h.stop
  simp only at hpay hstop
  have hfirst : ∀ {b : UInt8} {bs : Bytes}, v.payload = b :: bs →
    n.data[n.payloadAt i]? = some b := by
    intro b bs hb
    rw [hb] at hpay
    have := getElem?_slice n.data (n.payloadAt i)
      (b :: bs).length (show 0 < (b :: bs).length by simp)
    rw [hpay, Nat.add_zero] at this
    exact this.symm
  have hrest : ∀ {b : UInt8} {bs : Bytes}, v.payload = b :: bs →
      slice n.data (n.payloadAt i + 1) bs.length = bs := by
    intro b bs hb
    rw [hb, length_cons] at hpay
    rw [slice_of_slice hpay (by omega)]
    exact slice_all rfl
  cases v with
  | inline data =>
    have hlen : n.stopAt i - (n.payloadAt i + 1) = data.length := by
      rw [← hstop, Value.payload, length_cons]
      omega
    rw [RawNode.valueAt, hfirst rfl, Option.bind_some, if_pos rfl, hlen, hrest rfl]
  | blob p =>
    have hne : ¬ ValueType.blobPointer.code = ValueType.inline.code := by decide
    have hbytes := @hrest _ p.toBytes rfl
    rw [BlobPointer.length_toBytes] at hbytes
    rw [RawNode.valueAt, hfirst rfl, Option.bind_some, if_neg hne, if_pos rfl, hbytes,
      BlobPointer.fromBytes_toBytes hv]
  | tombstone =>
    rw [RawNode.valueAt, hfirst rfl, Option.bind_some]
    rfl

/-! ## A leaf page in a buffer -/

structure Embodies (n : RawNode) (m : Node) (es : List (Bytes × Value)) : Prop where
  body : m.body = .leaf es
  stores : ∃ xs, n.Stores .leaf xs ∧ xs.map Prod.snd = es.map encodeEntry
  fits : ∀ e ∈ es, e.2.Fits
  parent : n.header.parentId = m.parentId
  generation : n.header.writeGeneration = m.writeGeneration

theorem slotsFit_encodeEntry (es : List (Bytes × Value)) :
    Node.slotsFit entrySize (es.map encodeEntry) = Node.leafFits es := by
  have hsize : entrySize ∘ encodeEntry = Node.leafEntrySize := funext entrySize_encodeEntry
  rw [Node.slotsFit, map_map, hsize, length_map]
  rfl

namespace Embodies

variable {m : Node} {es : List (Bytes × Value)} {e : Bytes × Value} {k : Bytes} {v : Value}

theorem count_eq (h : n.Embodies m es) : n.count = es.length := by
  obtain ⟨xs, hst, hxs⟩ := h.stores
  rw [hst.count, ← @length_map _ _ xs Prod.snd, hxs, length_map]

theorem isLeaf_eq (h : n.Embodies m es) : n.isLeaf = true := by
  obtain ⟨xs, hst, -⟩ := h.stores
  rw [isLeaf, hst.known.pageType]
  rfl

theorem room (h : n.Embodies m es) : Node.leafFits es = true := by
  obtain ⟨xs, hst, hxs⟩ := h.stores
  have hroom := hst.room
  have hsum : storedBytes xs = ((xs.map Prod.snd).map entrySize).sum := by
    rw [map_map]
    rfl
  rw [← slotsFit_encodeEntry, ← hxs, Node.slotsFit, decide_eq_true_iff, ← hsum, length_map]
  exact hroom

theorem reads (h : n.Embodies m es) (he : es[i]? = some e) : n.ReadsAs i (encodeEntry e) := by
  obtain ⟨xs, hst, hxs⟩ := h.stores
  have hget : (xs.map Prod.snd)[i]? = some (encodeEntry e) := by
    rw [hxs, List.getElem?_map, he, Option.map_some]
  rw [List.getElem?_map] at hget
  obtain ⟨x, hx, hxe⟩ := Option.map_eq_some_iff.mp hget
  rw [← hxe]
  exact hst.reads hx

theorem keyBefore (h : n.Embodies m es) (he : es[i]? = some e) : n.keyBefore (i + 1) = e.1 :=
  (h.reads he).keyBefore

theorem payload (h : n.Embodies m es) (he : es[i]? = some e) : n.Payload i := by
  have hr := h.reads he
  have hval := hr.valueAt (h.fits e (mem_of_getElem? he))
  have hstop := hr.stop
  have hint : n.isInternal = false := Laid.isInternal_of_leaf h.isLeaf_eq
  have hlen : (encodeEntry e).2.length = 1 + e.2.len := e.2.length_payload
  rw [Payload, hint, if_neg Bool.false_ne_true]
  refine ⟨by omega, ?_⟩
  -- the type byte is the one the value was written with
  rw [RawNode.valueAt] at hval
  obtain ⟨valueType, hget, hval⟩ := Option.bind_eq_some_iff.mp hval
  refine ⟨valueType, hget, ?_⟩
  split at hval
  · exact .inl (by assumption)
  split at hval
  · rename_i hblob
    obtain ⟨k, v⟩ := e
    cases Option.some.inj hval
    refine .inr (.inr ⟨hblob, ?_⟩)
    simp only [Value.len] at hlen
    omega
  · split at hval
    · exact .inr (.inl (by assumption))
    · cases hval

theorem laid (h : n.Embodies m es) (hs : es.Pairwise fun a b => a.1 ≤ b.1) : n.Laid := by
  obtain ⟨xs, hst, hxs⟩ := h.stores
  have hlen : xs.length = es.length := by rw [← hst.count, h.count_eq]
  constructor
  case slots => exact hst.slotEnd_le.trans (Nat.sub_le _ _)
  case inside =>
    intro i hi
    rw [hst.count] at hi
    have hx := List.getElem?_eq_getElem hi
    obtain ⟨h1, h2⟩ := hst.bounds (getElem_mem hi)
    have hpos := entrySize_pos xs[i].2
    rw [(hst.slot i xs[i] hx).1]
    exact ⟨hst.slotEnd_le.trans h1, by omega⟩
  case distinct =>
    obtain ⟨phys, hperm, hp⟩ := hst.packed
    rw [hst.offsets_eq, ← (hperm.map Prod.fst).nodup_iff]
    exact hp.nodup entrySize_pos
  case free =>
    have hfree := hst.free
    have hroom := hst.room
    rw [hst.min_eq, hst.slotEnd_eq]
    omega
  case entry =>
    intro i hi
    have hi' : i < es.length := h.count_eq ▸ hi
    have he := List.getElem?_eq_getElem hi'
    have hr := h.reads he
    have hx := List.getElem?_eq_getElem (hlen ▸ hi')
    have hkey : (es.map encodeEntry)[i]? = some xs[i].2 := by
      rw [← hxs, List.getElem?_map, hx, Option.map_some]
    rw [List.getElem?_map, he, Option.map_some, Option.some.injEq] at hkey
    constructor
    case suffix_le => exact (Nat.le_add_right _ _).trans hr.stop.le
    case keyLen =>
      rw [(hst.slot i xs[i] hx).2.1, hr.prefixLen, hr.suffixLen, ← hkey]
      omega
    case prefix_le => rw [hr.prefixLen]; exact Nat.zero_le _
    case ordered =>
      rw [hr.keyBefore]
      cases i with
      | zero => exact not_lt.mp (not_lt_nil (encodeEntry es[0]).1)
      | succ i =>
        rw [h.keyBefore (List.getElem?_eq_getElem (Nat.lt_of_succ_lt hi'))]
        exact pairwise_iff_getElem.mp hs i (i + 1) _ hi' (Nat.lt_succ_self i)
    case payload => exact h.payload he

theorem accepted (h : n.Embodies m es) (hs : es.Pairwise fun a b => a.1 ≤ b.1) : n.Accepted := by
  obtain ⟨xs, hst, -⟩ := id h.stores
  exact accepted_iff.mpr ⟨hst.known.tryFromBytes, h.laid hs⟩

end Embodies

end RawNode

end SeerDb
