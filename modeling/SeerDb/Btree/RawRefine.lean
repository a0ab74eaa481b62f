/-
# `SeerDb.Btree.RawRefine` — the page operations on bytes do what they do on lists

One lemma per operation of `SeerDb.Btree.RawMutation`, over a buffer that embodies a leaf
page with increasing keys: it never indexes outside the page, it fails where the operation
of `SeerDb.Btree.Node` fails, with the same error, and otherwise leaves a buffer that
embodies the page that operation returns.
-/
import SeerDb.Btree.RawLeaf

namespace SeerDb

open Lib List

namespace RawNode

variable {n n' : RawNode} {i : Nat} {m : Node} {es l r : List (Bytes × Value)}
  {k : Bytes} {v w : Value}

/-- A result on bytes and a result on lists. -/
def Agrees (r : Except Panic (Except InsertError RawNode)) (s : Except InsertError Node) : Prop :=
  match s with
  | .error e => r = .ok (.error e)
  | .ok m => ∃ n es, r = .ok (.ok n) ∧ n.Embodies m es

theorem sorted_ordered (hs : Sorted es) : es.Pairwise fun a b => a.1 ≤ b.1 := hs.imp le_of_lt

/-! ## Reads -/

namespace Embodies

theorem count_node (h : n.Embodies m es) : n.count = m.count := by
  rw [h.count_eq, Node.count_leaf h.body]

theorem key_eq (h : n.Embodies m es) (hs : Sorted es) (i : Nat) : n.key i = .ok (m.key i) := by
  rw [Node.key, Node.keys_leaf h.body, List.getElem?_map]
  by_cases hi : i < es.length
  · have he := List.getElem?_eq_getElem hi
    rw [(h.laid (sorted_ordered hs)).key_eq (h.count_eq ▸ hi), h.keyBefore he, he, Option.map_some]
  · rw [key_of_ge (by rw [h.count_eq]; omega), List.getElem?_eq_none (not_lt.mp hi),
      Option.map_none]

theorem value_eq (h : n.Embodies m es) (hs : Sorted es) (i : Nat) :
    n.value i = .ok (m.value i) := by
  have hm : m.value i = es[i]?.map Prod.snd := by rw [Node.value, h.body]
  rw [hm]
  by_cases hi : i < es.length
  · have he := List.getElem?_eq_getElem hi
    rw [((h.laid (sorted_ordered hs)).value_eq h.isLeaf_eq (h.count_eq ▸ hi)).1,
      (h.reads he).valueAt (h.fits _ (getElem_mem hi)), he, Option.map_some]
  · rw [value_of_outside (by rw [h.count_eq]; exact fun hc => hi hc.1),
      List.getElem?_eq_none (not_lt.mp hi), Option.map_none]

theorem search_eq (h : n.Embodies m es) (hs : Sorted es) (k : Bytes) :
    n.search k = .ok (m.search k) := by
  have hl := h.laid (sorted_ordered hs)
  have hcmp : ∀ i < n.count, n.compareKey k i = .ok (some (m.compareKey i k)) := by
    intro i hi
    rw [h.count_eq] at hi
    have he := List.getElem?_eq_getElem hi
    rw [hl.compareKey_eq k (h.count_eq ▸ hi), h.keyBefore he,
      Node.compareKey_eq (Node.keys_leaf h.body) k i _ he]
  rw [search, Node.search, ← h.count_node]
  by_cases h0 : n.count = 0
  · rw [if_pos h0, if_pos h0]
    rfl
  rw [if_neg h0, if_neg h0, bisectM_ok _ _ _ _ hcmp, ok_bind]
  generalize bisect (fun i => m.compareKey i k) n.count 0 n.count none = found
  obtain ⟨lo, found⟩ := found
  cases found <;> rfl

/-- The slots in order, without slot `i`, hold the list without its `i`th element. -/
theorem filterMap_range_ne {α : Type} (es : List α) : ∀ i : Nat,
    ((List.range es.length).filter (· ≠ i)).filterMap (es[·]?) = es.eraseIdx i := by
  induction es with
  | nil => intro i; rfl
  | cons a es ih =>
    intro i
    rw [length_cons, range_succ_eq_map]
    cases i with
    | zero =>
      have hall : ((List.range es.length).map Nat.succ).filter (· ≠ 0) =
        (List.range es.length).map Nat.succ :=
        filter_eq_self.mpr (by simp)
      rw [filter_cons_of_neg (by simp), hall, filterMap_map, eraseIdx_cons_zero]
      have hlen := ih es.length
      rw [filter_eq_self.mpr (by simp; omega), eraseIdx_of_length_le le_rfl] at hlen
      exact hlen
    | succ i =>
      have hhead : (fun x => (a :: es)[x]?) 0 = some a := rfl
      rw [filter_cons_of_pos (by simp), filterMap_cons_some hhead, filter_map,
        filterMap_map, eraseIdx_cons_succ, ← ih i]
      simp [Function.comp_def]

/-- The entries read back through `key` and `value`. -/
theorem readEntries_eq (h : n.Embodies m es) (hs : Sorted es) : ∀ {is : List Nat},
    (∀ i ∈ is, i < es.length) → n.readEntries is = .ok (.ok (is.filterMap (es[·]?))) := by
  intro is
  induction is with
  | nil => exact fun _ => rfl
  | cons i is ih =>
    intro his
    have hi := his i (.head _)
    have he := List.getElem?_eq_getElem hi
    have hentry : n.entryAt i = .ok (.ok es[i]) := by
      rw [entryAt, h.key_eq hs, ok_bind, Node.key, Node.keys_leaf h.body, List.getElem?_map,
        he, Option.map_some]
      simp only
      rw [h.value_eq hs, ok_bind, Node.value, h.body]
      simp only [he, Option.map_some]
      rfl
    rw [readEntries, hentry, ok_bind]
    simp only
    rw [ih fun j hj => his j (.tail _ hj), ok_bind, filterMap_cons_some he]
    rfl

theorem readAll_eq (h : n.Embodies m es) (hs : Sorted es) :
    n.readEntries (List.range n.count) = .ok (.ok es) := by
  have hall := filterMap_range_ne es es.length
  rw [filter_eq_self.mpr (by simp; omega), eraseIdx_of_length_le le_rfl] at hall
  rw [h.readEntries_eq hs fun i hi => by rw [← h.count_eq]; exact mem_range.mp hi, h.count_eq, hall]

end Embodies

/-! ## Empty pages and headers -/

theorem Stores.setHeader {t : PageType} {xs : List (Nat × (Bytes × Bytes))} (h : n.Stores t xs)
    {g : NodeHeader} (hf : g.Fits) (hm : g.magic = n.header.magic)
    (hv : g.version = n.header.version)
    (hp : g.pageType = n.header.pageType) (hc : g.count = n.header.count)
    (hfree : g.freeSpace = n.header.freeSpace) : (n.setHeader g).Stores t xs := by
  have hd := n.sameOutside_setHeader g
  have hroom := h.room
  constructor
  case known => exact h.known.setHeader hf hm hv hp
  case count => rw [RawNode.count, header_setHeader hf, hc]; exact h.count
  case free => rw [header_setHeader hf, hfree]; exact h.free
  case slot =>
    intro i x hx
    obtain ⟨h1, h2, h3⟩ := h.slot i x hx
    obtain ⟨e1, e2⟩ := @slotFields_of_sameOutside n _ i _ _ hd
      (.inr (by rw [slotArrayStart]; omega))
    have hlow := (h.bounds (mem_of_getElem? hx)).1
    refine ⟨e1.trans h1, e2.trans h2, ?_⟩
    rw [hd.slice_eq (.inr (by omega)), h3]
  case packed => exact h.packed
  case room => exact hroom

theorem newLeaf_embodies : newLeaf.Embodies Node.newLeaf [] := by
  have hf : (NodeHeader.new .leaf).Fits := by constructor <;> decide
  have hheader : newLeaf.header = NodeHeader.new .leaf := header_setHeader hf
  refine ⟨rfl, ⟨[], ?_, rfl⟩, by simp, by rw [hheader]; rfl, by rw [hheader]; rfl⟩
  constructor
  case known =>
    refine ⟨by rw [hheader]; rfl, by rw [hheader]; rfl, ?_⟩
    have hs : slice newLeaf.data 0 headerSize = (NodeHeader.new .leaf).toBytes := by
      have := @slice_splice_self _ (List.replicate pageSize 0)
        (NodeHeader.new .leaf).toBytes 0 (Nat.zero_le _)
      rwa [NodeHeader.length_toBytes] at this
    rw [hs]
    decide
  case count => rw [RawNode.count, hheader]; rfl
  case free => rw [hheader]; decide
  case slot => intro i x hx; cases hx
  case packed => exact ⟨[], .refl _, rfl⟩
  case room => decide

theorem Embodies.setParentId (h : n.Embodies m es) {p : Nat} (hp : p < 256 ^ 4) :
    (n.setParentId p).Embodies (m.setParentId p) es := by
  obtain ⟨xs, hst, hxs⟩ := h.stores
  have hf : NodeHeader.Fits { n.header with parentId := p } := { n.fits_header with parentId := hp }
  refine ⟨h.body, ⟨xs, hst.setHeader hf rfl rfl rfl rfl rfl, hxs⟩, h.fits, ?_, ?_⟩
  · rw [RawNode.setParentId, header_setHeader hf]
    rfl
  · rw [RawNode.setParentId, header_setHeader hf]
    exact h.generation

/-! ## Insertions -/

namespace Embodies

theorem hasPrefixCompression_eq (h : n.Embodies m es) : n.hasPrefixCompression = .ok false := by
  have hall : ∀ {is : List Nat}, (∀ i ∈ is, i < n.count) →
      is.anyM (fun index => do return (← n.entryPrefixLen index) != 0) = .ok false := by
    intro is
    induction is with
    | nil => exact fun _ => rfl
    | cons i is ih =>
      intro his
      have hi := his i (.head _)
      obtain ⟨xs, hst, -⟩ := id h.stores
      have he := List.getElem?_eq_getElem (h.count_eq ▸ hi)
      have hr := h.reads he
      have hs : n.slotEnd ≤ pageSize := hst.slotEnd_le.trans (Nat.sub_le _ _)
      rw [anyM_cons, entryPrefixLen_ok hs hi (hst.offsetAt_le hi), hr.prefixLen]
      exact ih fun j hj => his j (.tail _ hj)
  exact hall fun i hi => mem_range.mp hi

theorem insertLeafValue_agrees (h : n.Embodies m (l ++ r)) (k : Bytes) (hv : v.Fits) :
    Agrees (n.insertLeafValue k v l.length) (m.insertLeafValue k v l.length) := by
  obtain ⟨xs, hst, hxs⟩ := h.stores
  have hlen : xs.length = (l ++ r).length := by rw [← hst.count, h.count_eq]
  have hip : l.length ≤ xs.length := by rw [hlen, length_append]; omega
  have hraw : n.insertLeafValue k v l.length = n.insertEntryRaw k v.payload l.length := by
    have hleaf := h.isLeaf_eq
    rw [insertLeafValue, if_neg (by rw [hleaf, hst.count]; simpa using hip)]
    have hbranch : (if l.length < n.count then n.hasPrefixCompression else return false) =
      .ok false := by
      split
      · exact h.hasPrefixCompression_eq
      · rfl
    rw [hbranch, ok_bind, if_neg Bool.false_ne_true, insertLeafValueRaw,
      if_neg (by rw [hleaf]; decide)]
  have hfits : Node.slotsFit entrySize ((k, v.payload) :: xs.map Prod.snd)
      = Node.leafFits (l ++ (k, v) :: r) := by
    rw [hxs, show (k, v.payload) = encodeEntry (k, v) from rfl, ← map_cons, slotsFit_encodeEntry]
    exact Node.slotsFit_perm perm_middle.symm
  rw [hraw, Node.insertLeafValue_cut h.body h.room]
  have hsize : entrySize (k, v.payload) = Node.leafEntrySize (k, v) := entrySize_encodeEntry (k, v)
  obtain ⟨hres, hno⟩ | ⟨n', offset, hres, hyes, hst', hpar, hgen⟩ :=
    insertEntryRaw_stores hst k v.payload hip
  · rw [hfits] at hno
    rw [hres, hsize]
    rw [Node.ifFits, if_neg hno]
    split_ifs <;> rfl
  rw [hfits] at hyes
  rw [Node.ifFits_of_fits (by simp) hyes]
  refine ⟨n', l ++ (k, v) :: r, hres, rfl, ⟨_, hst', ?_⟩, ?_, hpar.trans h.parent,
    hgen.trans h.generation⟩
  · have hcut := Node.insertIdx_length_append (l.map encodeEntry) (r.map encodeEntry)
      (encodeEntry (k, v))
    rw [length_map] at hcut
    rw [map_insertIdx, hxs, map_append, map_append, map_cons]
    exact hcut
  · have hfit := forall_mem_append.mp h.fits
    exact forall_mem_append.mpr ⟨hfit.1, forall_mem_cons.mpr ⟨hv, hfit.2⟩⟩

theorem insertNew_agrees (h : n.Embodies m es) (hs : Sorted es) (k : Bytes) (hv : v.Fits) :
    Agrees (n.insertNew k v) (m.insertNew k v) := by
  rw [insertNew, h.isLeaf_eq, if_neg (by decide), h.search_eq hs, ok_bind, Node.insertNew,
    Node.isLeaf_leaf h.body, if_pos rfl]
  obtain ⟨l, r, hl, hr, rfl | ⟨w, rfl⟩⟩ := exists_cut hs k
  · rw [Node.search_absent (Node.keys_leaf h.body) hl hr]
    exact h.insertLeafValue_agrees k hv
  · rw [Node.search_present (Node.keys_leaf h.body) hl hr]
    rfl

/-! ## Rebuilding a page -/

theorem upperBound_eq (h : n.Embodies m es) (hs : Sorted es) (hk : ∀ e ∈ es, e.1 < k) :
    n.upperBound k = .ok es.length := by
  have hb : m.body = .leaf (es ++ []) := by simpa using h.body
  rw [upperBound, h.search_eq hs, Node.search_absent (Node.keys_leaf hb) hk (by simp), ok_bind]
  simp only
  cases hc : n.count with
  | zero => rfl
  | succ c => rw [skipEqual, if_neg (by rw [h.count_eq]; exact lt_irrefl _)]; rfl

theorem rebuildLeaf_agrees : ∀ {es : List (Bytes × Value)} {n : RawNode} {m : Node}
    {pre : List (Bytes × Value)}, n.Embodies m pre → Sorted (pre ++ es) →
    Node.leafFits (pre ++ es) →
    (∀ e ∈ es, e.2.Fits) →
    ∃ n', n.rebuildLeaf es = .ok (.ok n') ∧ n'.Embodies { m with body := .leaf (pre ++ es) }
      (pre ++ es) := by
  intro es
  induction es with
  | nil =>
    intro n m pre h _ _ _
    refine ⟨n, rfl, ?_⟩
    rw [append_nil, ← h.body]
    exact h
  | cons e es ih =>
    intro n m pre h hs hf hfit
    obtain ⟨k, v⟩ := e
    have hk : ∀ e ∈ pre, e.1 < k := fun e he => (sorted_append.mp hs).2.2 e he (k, v) (by simp)
    have hf1 : Node.leafFits (pre ++ [(k, v)]) := Node.slotsFit_sublist (by simp) hf
    have hb : m.body = .leaf (pre ++ []) := by simpa using h.body
    have h' : n.Embodies m (pre ++ []) := by simpa using h
    have hag := h'.insertLeafValue_agrees k (hfit (k, v) (.head _))
    rw [Node.insertLeafValue_cut hb h'.room, Node.ifFits_of_fits (by simp) hf1] at hag
    obtain ⟨n₁, es₁, hn₁, he₁⟩ := hag
    obtain rfl : pre ++ [(k, v)] = es₁ := by
      have := he₁.body
      simpa using this
    obtain ⟨n₂, hn₂, he₂⟩ := ih he₁ (by simpa using hs) (by simpa using hf)
      fun x hx => hfit x (.tail _ hx)
    refine ⟨n₂, ?_, by simpa using he₂⟩
    rw [rebuildLeaf, h.upperBound_eq (sorted_append.mp hs).1 hk, ok_bind, hn₁, ok_bind]
    exact hn₂

theorem removeEntry_eq (h : n.Embodies m es) (hs : Sorted es) (hi : i < es.length) :
    ∃ n', n.removeEntry i = .ok (.ok n') ∧
      n'.Embodies ⟨.leaf (es.eraseIdx i), m.parentId, 0⟩ (es.eraseIdx i) := by
  have hsub : (es.eraseIdx i).Sublist es := eraseIdx_sublist ..
  have hpar : n.parentId = m.parentId := h.parent
  have hread := @readEntries_eq _ _ _ h hs ((List.range n.count).filter (· ≠ i)) (by
    intro j hj
    rw [← h.count_eq]
    exact mem_range.mp (mem_filter.mp hj).1)
  rw [h.count_eq, filterMap_range_ne] at hread
  have hempty := newLeaf_embodies.setParentId n.fits_header.parentId
  obtain ⟨n', hn', he'⟩ := @rebuildLeaf_agrees (es.eraseIdx i) _ _ [] hempty
    (Sorted.sublist hsub hs) (Node.slotsFit_sublist hsub h.room) fun e he =>
    h.fits e (hsub.subset he)
  refine ⟨n', ?_, ?_⟩
  · rw [removeEntry, if_neg (by rw [h.isLeaf_eq, h.count_eq]; simpa using hi),
      h.count_eq, hread, ok_bind]
    exact hn'
  · have hm : ({ Node.newLeaf.setParentId n.parentId with body := .leaf (es.eraseIdx i) } : Node)
        = ⟨.leaf (es.eraseIdx i), m.parentId, 0⟩ := by rw [hpar]; rfl
    rw [← hm]
    exact he'

theorem removeEntry_cut (h : n.Embodies m (l ++ (k, w) :: r)) (hs : Sorted (l ++ (k, w) :: r)) :
    ∃ n', n.removeEntry l.length = .ok (.ok n') ∧
      n'.Embodies ⟨.leaf (l ++ r), m.parentId, 0⟩ (l ++ r) ∧ Sorted (l ++ r) := by
  obtain ⟨n', hn', h'⟩ := h.removeEntry_eq hs (i := l.length) (by simp)
  rw [Node.eraseIdx_length_append] at h'
  exact ⟨n', hn', h', Sorted.sublist ((List.Sublist.refl l).append (sublist_cons_self _ _)) hs⟩

end Embodies

/-! ## Replacing a value -/

namespace Embodies

/-- The type byte of a stored value. -/
theorem readType (h : n.Embodies m es) (he : es[i]? = some (k, v)) {b : UInt8} {bs : Bytes}
    (hb : v.payload = b :: bs) : readAt n.data (n.payloadAt i) = .ok b := by
  have hpay := (h.reads he).payload
  have hget := getElem?_slice n.data (n.payloadAt i) (encodeEntry (k, v)).2.length
    (show 0 < (encodeEntry (k, v)).2.length by rw [encodeEntry, Value.length_payload]; omega)
  rw [hpay, Nat.add_zero, encodeEntry] at hget
  simp only [hb, List.getElem?_cons_zero] at hget
  rw [readAt, ← hget]

/-- The buffer after an inline value was overwritten by one of its length. -/
theorem replaceInline {old new : Bytes} (h : n.Embodies m (l ++ (k, .inline old) :: r))
    (hlen : new.length = old.length)
    (hnew : slice n'.data (n.payloadAt l.length) (Value.inline new).payload.length =
      (Value.inline new).payload)
    (hd : SameOutside n.data n'.data (n.payloadAt l.length)
      (n.payloadAt l.length + (Value.inline new).payload.length)) :
    n'.Embodies { m with body := .leaf (l ++ (k, .inline new) :: r) }
      (l ++ (k, .inline new) :: r) := by
  obtain ⟨xs, hst, hxs⟩ := h.stores
  rw [map_append, map_cons] at hxs
  obtain ⟨xl, xr', rfl, hxl, hxr⟩ := map_eq_append_iff.mp hxs
  obtain ⟨⟨offset, key, payload⟩, xr, rfl, hx, htail⟩ := map_eq_cons_iff.mp hxr
  simp only [encodeEntry, Prod.mk.injEq] at hx
  obtain ⟨rfl, rfl⟩ := hx
  have hlen' : xl.length = l.length := by rw [← @length_map _ _ xl Prod.snd, hxl, length_map]
  have hget : (xl ++ (offset, (key, (Value.inline old).payload)) :: xr)[l.length]?
      = some (offset, (key, (Value.inline old).payload)) := by rw [← hlen']; simp
  have hpay : n.payloadAt l.length = offset + (4 + key.length) := by
    rw [payloadAt, (hst.slot _ _ hget).1, (hst.reads hget).suffixLen]
    simp only
    omega
  rw [hpay] at hnew hd
  have hst' := hst.replacePayload (by simp only [Value.payload, length_cons, hlen]) hnew hd
  have hheader : n'.header = n.header := by
    refine header_of_sameOutside hd ?_
    have hlow := (hst.bounds (mem_of_getElem? hget)).1
    have hroom := hst.room
    simp only at hlow
    omega
  refine ⟨rfl, ⟨_, hst', ?_⟩,
    ?_, by rw [hheader]; exact h.parent, by rw [hheader]; exact h.generation⟩
  · rw [map_append, map_cons, map_append, map_cons, hxl, htail]
    rfl
  · have hfit := forall_mem_append.mp h.fits
    exact forall_mem_append.mpr ⟨hfit.1, forall_mem_cons.mpr ⟨trivial,
      (forall_mem_cons.mp hfit.2).2⟩⟩

theorem replaceValue_agrees (h : n.Embodies m es) (hs : Sorted es) (i : Nat) (new : Bytes) :
    Agrees (n.replaceValue i new) (m.replaceValue i new) := by
  rw [replaceValue, h.isLeaf_eq, if_neg (by decide), h.count_eq]
  by_cases hi : i < es.length
  case neg =>
    have hm : m.replaceValue i new = .error (.invalidIndex i) := by
      simp only [Node.replaceValue, h.body, List.getElem?_eq_none (not_lt.mp hi)]
    rw [if_pos (by omega), hm]
    rfl
  have hl := h.laid (sorted_ordered hs)
  have hi' : i < n.count := h.count_eq ▸ hi
  have hpay : n.offsetAt i + 4 + n.suffixLenAt i = n.payloadAt i := rfl
  have he := List.getElem?_eq_getElem hi
  rw [if_neg (by omega), slotOffset_ok hl.slots hi', ok_bind,
    entrySuffixLen_ok hl.slots hi' (hl.offsetAt_le hi'), ok_bind]
  simp only [hpay]
  obtain ⟨l, r, hcut, hil⟩ : ∃ l r, es = l ++ es[i] :: r ∧ i = l.length :=
    ⟨es.take i, es.drop (i + 1), by rw [getElem_cons_drop, take_append_drop], by simp; omega⟩
  generalize es[i] = e at he hcut
  obtain ⟨k, v⟩ := e
  subst hcut hil
  cases v with
  | blob p =>
    have hm : m.replaceValue l.length new = .error .wrongNodeType := by
      simp only [Node.replaceValue, h.body, he]
    rw [h.readType he rfl, ok_bind, if_pos (by decide), hm]
    rfl
  | tombstone =>
    have hm : m.replaceValue l.length new = .error .wrongNodeType := by
      simp only [Node.replaceValue, h.body, he]
    rw [h.readType he rfl, ok_bind, if_pos (by decide), hm]
    rfl
  | inline old =>
    have hstop := (h.reads he).stop
    simp only [encodeEntry, Value.payload, length_cons] at hstop
    have hold : n.stopAt l.length - (n.payloadAt l.length + 1) = old.length := by omega
    rw [h.readType he rfl, ok_bind, if_neg (by simp), hl.valueEnd_eq, ok_bind,
      if_neg (by omega), hold]
    by_cases hlen : new.length = old.length
    case neg =>
      have hm : m.replaceValue l.length new =
        .error (.valueSizeMismatch old.length new.length) := by
        simp only [Node.replaceValue, h.body, he]
        rw [if_pos hlen]
      rw [if_pos hlen, hm]
      rfl
    have hle := stopAt_le (i := l.length) fun i hi => (hl.inside i hi).2
    obtain ⟨n₁, hw₁, hs₁, hf₁⟩ := @write_ok n (n.payloadAt l.length + 1) new (by omega)
    obtain ⟨n₂, hw₂, hs₂, hf₂⟩ := @write_ok n₁ (n.payloadAt l.length) [ValueType.inline.code]
      (by rw [length_singleton]; omega)
    rw [length_singleton] at hs₂ hf₂
    rw [if_neg (not_not.mpr hlen), hw₁, ok_bind, hw₂, ok_bind,
      Node.replaceValue_eq h.body hlen.symm]
    refine ⟨n₂, _, rfl, h.replaceInline hlen ?_ ?_⟩
    · rw [Value.payload, length_cons, Nat.add_comm, slice_add, hs₂, hf₂.slice_eq (.inr le_rfl), hs₁]
      rfl
    · have hspan : (Value.inline new).payload.length = new.length + 1 := rfl
      exact hf₁.trans hf₂ (by omega) (by omega) le_rfl (by omega)

end Embodies

/-! ## Sequences of calls -/

/-- The public mutations of a leaf page. -/
inductive LeafCall where
  | insert (key value : Bytes)
  | insertTombstone (key : Bytes)
  | insertBlob (key : Bytes) (pointer : { p : BlobPointer // p.Fits })
  | replaceValue (index : Nat) (value : Bytes)
  | replaceValueResized (index : Nat) (value : Bytes)
  | removeEntry (index : Nat)

/-- A call that leaves the page as it was on an error. -/
def settle (n : RawNode) (r : Except Panic (Except InsertError RawNode)) :
    Except Panic (Except InsertError Unit × RawNode) := do
  match ← r with
  | .error e => return (.error e, n)
  | .ok n' => return (.ok (), n')

def LeafCall.run (n : RawNode) : LeafCall → Except Panic (Except InsertError Unit × RawNode)
  | .insert key value => n.settle (n.insert key value)
  | .insertTombstone key => n.insertTombstone key
  | .insertBlob key pointer => n.settle (n.insertBlob key pointer.1)
  | .replaceValue index value => n.settle (n.replaceValue index value)
  | .replaceValueResized index value => n.replaceValueResized index value
  | .removeEntry index => n.settle (n.removeEntry index)

/-- What a call that succeeds does to the sorted list of entries. -/
def LeafCall.effect (es : List (Bytes × Value)) : LeafCall → List (Bytes × Value)
  | .insert key value => upsert key (.inline value) es
  | .insertTombstone key => upsert key .tombstone es
  | .insertBlob key pointer => upsert key (.blob pointer.1) es
  | .replaceValue index value => es.modify index fun e => (e.1, .inline value)
  | .replaceValueResized index value => es.modify index fun e => (e.1, .inline value)
  | .removeEntry index => es.eraseIdx index

/-- The page after a sequence of calls. -/
def pageOf : List LeafCall → RawNode → Except Panic RawNode
  | [], n => return n
  | c :: cs, n => do pageOf cs (← c.run n).2

/-- What a call owes the list: the effect, or the page as it was. -/
def Obeys (n : RawNode) (es' : List (Bytes × Value))
    (x : Except Panic (Except InsertError Unit × RawNode)) :
    Prop :=
  ∃ r n', x = .ok (r, n') ∧ (r = .ok () → Sorted es' ∧ ∃ m', n'.Embodies m' es') ∧
    ∀ e, r = .error e → n' = n

theorem obeys_ok {x : Except Panic (Except InsertError Unit × RawNode)} {m' : Node}
    (hx : x = .ok (.ok (), n')) (hs : Sorted es) (he : n'.Embodies m' es) : Obeys n es x :=
  ⟨_, _, hx, fun _ => ⟨hs, m', he⟩, nofun⟩

theorem obeys_error {x : Except Panic (Except InsertError Unit × RawNode)} {e : InsertError}
    (hx : x = .ok (.error e, n)) : Obeys n es x :=
  ⟨_, _, hx, nofun, fun _ _ => rfl⟩

theorem Agrees.obeys {x : Except Panic (Except InsertError RawNode)} {s : Except InsertError Node}
    (h : Agrees x s) (hok : ∀ m', s = .ok m' → Sorted es ∧ m'.body = .leaf es) :
    Obeys n es (n.settle x) := by
  cases s with
  | error e =>
    refine obeys_error (e := e) ?_
    rw [settle, show x = .ok (.error e) from h]
    rfl
  | ok m' =>
    obtain ⟨n', es', rfl, he⟩ := h
    obtain ⟨hs, hbody⟩ := hok m' rfl
    obtain rfl : es = es' := Page.leaf.inj (hbody.symm.trans he.body)
    exact obeys_ok rfl hs he

theorem modify_length_append {α : Type} (f : α → α) (l : List α) (x : α) (r : List α) :
    (l ++ x :: r).modify l.length f = l ++ f x :: r := by
  induction l with
  | nil => rfl
  | cons a l ih => rw [cons_append, length_cons, modify_succ_cons, ih, cons_append]

/-- A slot in use cuts the page in two. -/
theorem cut_at (hs : Sorted es) (hi : i < es.length) :
    ∃ l r k w, es = l ++ (k, w) :: r ∧ i = l.length ∧ (∀ e ∈ l, e.1 < k) ∧ ∀ e ∈ r, k < e.1 := by
  have hcut : es = es.take i ++ es[i] :: es.drop (i + 1) := by
    rw [getElem_cons_drop, take_append_drop]
  refine ⟨es.take i, es.drop (i + 1), es[i].1, es[i].2, hcut, by simp; omega, ?_, ?_⟩
  · intro e he
    rw [hcut] at hs
    exact (sorted_append.mp hs).2.2 e he es[i] (.head _)
  · intro e he
    rw [hcut] at hs
    exact (sorted_cons.mp (sorted_append.mp hs).2.1).1 e he

namespace Embodies

theorem insertNew_obeys (h : n.Embodies m es) (hs : Sorted es) (k : Bytes) (hv : v.Fits) :
    Obeys n (upsert k v es) (n.settle (n.insertNew k v)) := by
  refine (h.insertNew_agrees hs k hv).obeys fun m' hm' => ⟨sorted_upsert hs, ?_⟩
  obtain ⟨l, r, hl, hr, rfl | ⟨w, rfl⟩⟩ := exists_cut hs k
  · rw [Node.insertNew_absent h.body h.room hl hr] at hm'
    rw [Node.ifFits_ok hm', upsert_of_not_mem_append hl hr]
  · rw [Node.insertNew_present h.body hl hr] at hm'
    cases hm'

theorem replaceValue_obeys (h : n.Embodies m es) (hs : Sorted es) (i : Nat) (new : Bytes) :
    Obeys n (es.modify i fun e => (e.1, .inline new)) (n.settle (n.replaceValue i new)) := by
  have hag := h.replaceValue_agrees hs i new
  by_cases hi : i < es.length
  · obtain ⟨l, r, k, w, rfl, rfl, hl, -⟩ := cut_at hs hi
    rw [modify_length_append, ← upsert_of_mem_append hl]
    refine hag.obeys fun m' hm' => ⟨sorted_upsert hs, ?_⟩
    have he : (l ++ (k, w) :: r)[l.length]? = some (k, w) := by simp
    simp only [Node.replaceValue, h.body, he] at hm'
    cases w with
    | blob p => cases hm'
    | tombstone => cases hm'
    | inline old =>
      simp only at hm'
      split at hm'
      · cases hm'
      · cases hm'
        rw [upsert_of_mem_append hl]
        simp
  · refine hag.obeys fun m' hm' => ?_
    simp only [Node.replaceValue, h.body, List.getElem?_eq_none (not_lt.mp hi)] at hm'
    cases hm'

theorem outside (h : n.Embodies m es) (hi : ¬ i < es.length) :
    (!n.isLeaf || decide (i ≥ n.count)) = true := by
  rw [h.count_eq, Bool.or_eq_true, decide_eq_true_iff]
  exact .inr (not_lt.mp hi)

theorem removeEntry_obeys (h : n.Embodies m es) (hs : Sorted es) (i : Nat) :
    Obeys n (es.eraseIdx i) (n.settle (n.removeEntry i)) := by
  by_cases hi : i < es.length
  · obtain ⟨n', hn', he⟩ := h.removeEntry_eq hs hi
    refine obeys_ok ?_ (Sorted.sublist (eraseIdx_sublist ..) hs) he
    rw [settle, hn']
    rfl
  · refine obeys_error (e := .wrongNodeType) ?_
    rw [settle, removeEntry, if_pos (h.outside hi)]
    rfl

theorem replaceValueResized_obeys (h : n.Embodies m es) (hs : Sorted es) (i : Nat) (new : Bytes) :
    Obeys n (es.modify i fun e => (e.1, .inline new)) (n.replaceValueResized i new) := by
  by_cases hi : i < es.length
  case neg =>
    refine obeys_error (e := .wrongNodeType) ?_
    rw [replaceValueResized, if_pos (h.outside hi)]
    rfl
  obtain ⟨l, r, k, w, rfl, rfl, hl, hr⟩ := cut_at hs hi
  obtain ⟨n₁, hn₁, h₁, hs₁⟩ := h.removeEntry_cut hs
  have hkey : n.key l.length = .ok (some k) := by
    rw [h.key_eq hs, Node.key, Node.keys_leaf h.body]
    simp
  -- no entry of the key is left, so the loop over duplicates stops at once
  have hsearch : n₁.search k = .ok (.error l.length) := by
    rw [h₁.search_eq hs₁, Node.search_absent (Node.keys_leaf h₁.body) hl hr]
  have hdup : removeDuplicates k n₁.count n₁ = .ok (.ok (), n₁) := by
    cases n₁.count with
    | zero => rfl
    | succ fuel => rw [removeDuplicates, hsearch, ok_bind]; rfl
  have hraw : n.replaceValueResized l.length new = (do
      match ← n₁.insert k new with
      | .error e => return (.error e, n)
      | .ok n' => return (.ok (), n')) := by
    rw [replaceValueResized, if_neg (by rw [h.isLeaf_eq, h.count_eq]; simp), hkey, ok_bind]
    simp only
    rw [hn₁, ok_bind]
    simp only
    rw [hdup]
    rfl
  have hput := h₁.insertNew_agrees (v := .inline new) hs₁ k trivial
  rw [modify_length_append, hraw, insert]
  refine hput.obeys (n := n) fun m' hm' => ⟨upsert_of_mem_append hl ▸ sorted_upsert hs, ?_⟩
  rw [Node.insertNew_absent h₁.body h₁.room hl hr] at hm'
  rw [Node.ifFits_ok hm']

theorem insertTombstone_obeys (h : n.Embodies m es) (hs : Sorted es) (k : Bytes) :
    Obeys n (upsert k .tombstone es) (n.insertTombstone k) := by
  rw [insertTombstone, h.isLeaf_eq, if_neg (by decide), h.search_eq hs, ok_bind]
  obtain ⟨l, r, hl, hr, rfl | ⟨w, rfl⟩⟩ := exists_cut hs k
  · rw [Node.search_absent (Node.keys_leaf h.body) hl hr]
    have hag := h.insertLeafValue_agrees (v := .tombstone) k trivial
    refine hag.obeys (n := n) fun m' hm' => ⟨sorted_upsert hs, ?_⟩
    rw [Node.insertLeafValue_cut h.body h.room] at hm'
    rw [Node.ifFits_ok hm', upsert_of_not_mem_append hl hr]
  -- the entry of the key leaves, and a tombstone always fits in its place
  obtain ⟨n₁, hn₁, h₁, hs₁⟩ := h.removeEntry_cut hs
  have hft : Node.leafFits (l ++ (k, .tombstone) :: r) :=
    Node.leafFits_replace (by simp [Node.leafEntrySize, Value.len]) h.room
  have hag := h₁.insertLeafValue_agrees (v := .tombstone) k trivial
  rw [Node.insertLeafValue_cut h₁.body h₁.room, Node.ifFits_of_fits (by simp) hft] at hag
  obtain ⟨n₂, es₂, hn₂, h₂⟩ := hag
  obtain rfl : l ++ (k, .tombstone) :: r = es₂ := Page.leaf.inj h₂.body
  rw [Node.search_present (Node.keys_leaf h.body) hl hr, upsert_of_mem_append hl]
  simp only
  refine obeys_ok ?_ (upsert_of_mem_append hl ▸ sorted_upsert hs) h₂
  rw [hn₁, ok_bind]
  simp only
  rw [h₁.search_eq hs₁, ok_bind, Node.search_absent (Node.keys_leaf h₁.body) hl hr]
  simp only [insertTombstone.finish]
  rw [hn₂, ok_bind]
  rfl

/-- Every call obeys its effect on the list. -/
theorem call_obeys (h : n.Embodies m es) (hs : Sorted es) (c : LeafCall) :
    Obeys n (c.effect es) (c.run n) := by
  cases c with
  | insert k v => exact h.insertNew_obeys hs k trivial
  | insertTombstone k => exact h.insertTombstone_obeys hs k
  | insertBlob k p => exact h.insertNew_obeys hs k p.2
  | replaceValue i v => exact h.replaceValue_obeys hs i v
  | replaceValueResized i v => exact h.replaceValueResized_obeys hs i v
  | removeEntry i => exact h.removeEntry_obeys hs i

theorem free_eq (h : n.Embodies m es) :
    ∃ lowest, n.minOffset n.count = .ok lowest ∧ n.header.freeSpace + n.slotEnd = lowest := by
  obtain ⟨xs, hst, -⟩ := h.stores
  have hfree := hst.free
  have hslot := hst.slotEnd_eq
  exact ⟨_, hst.minOffset_eq, by omega⟩

end Embodies

theorem pageOf_embodies (calls : List LeafCall) :
    ∀ {n : RawNode} {m : Node} {es : List (Bytes × Value)},
    n.Embodies m es → Sorted es → ∃ n' m' es', pageOf calls n = .ok n' ∧
      n'.Embodies m' es' ∧ Sorted es' := by
  induction calls with
  | nil => exact fun {n m es} h hs => ⟨n, m, es, rfl, h, hs⟩
  | cons c calls ih =>
    intro n m es h hs
    obtain ⟨r, n₁, hrun, hok, herr⟩ := h.call_obeys hs c
    have hstep : pageOf (c :: calls) n = pageOf calls n₁ := by
      rw [pageOf, hrun, ok_bind]
    rw [hstep]
    cases r with
    | ok u =>
      obtain ⟨hs₁, m₁, h₁⟩ := hok rfl
      exact ih h₁ hs₁
    | error e =>
      rw [herr e rfl]
      exact ih h hs

/-- **A leaf page refines a sorted list of entries.**  After any sequence of calls on a new
leaf page the entries read back are sorted by key, the recorded free space is the gap
between the slots and the lowest entry, and the page is accepted; the next call, if it
succeeds, has its effect on the entries read back, and otherwise changes nothing. -/
theorem pageOf_refines (calls : List LeafCall) :
    ∃ n es, pageOf calls newLeaf = .ok n ∧ n.readEntries (List.range n.count) = .ok (.ok es) ∧
      Sorted es ∧
      (∃ lowest, n.minOffset n.count = .ok lowest ∧ n.header.freeSpace + n.slotEnd = lowest) ∧
      n.Accepted ∧
      ∀ c : LeafCall, ∃ r n', c.run n = .ok (r, n') ∧
        (r = .ok () → n'.readEntries (List.range n'.count) = .ok (.ok (c.effect es))) ∧
        ∀ e, r = .error e → n' = n := by
  obtain ⟨n, m, es, hpage, h, hs⟩ := pageOf_embodies calls newLeaf_embodies List.Pairwise.nil
  refine ⟨n, es, hpage, h.readAll_eq hs, hs, h.free_eq, h.accepted (sorted_ordered hs), ?_⟩
  intro c
  obtain ⟨r, n', hrun, hok, herr⟩ := h.call_obeys hs c
  refine ⟨r, n', hrun, ?_, herr⟩
  intro hr
  obtain ⟨hs', m', h'⟩ := hok hr
  exact h'.readAll_eq hs'

end RawNode

end SeerDb
