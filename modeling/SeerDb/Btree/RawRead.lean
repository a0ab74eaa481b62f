/-
# `SeerDb.Btree.RawRead` — reading an accepted page

On a page that `from_bytes` accepted, whatever its origin, no accessor indexes outside the
page; the keys do not decrease in slot order, and the two searches return the places their
callers rely on.  Compressed keys and duplicate keys are included: the searches go by the
keys that `key` returns, not by what the entries hold of them.
-/
import SeerDb.Btree.RawAccept

namespace SeerDb

open Lib List

namespace RawNode

variable {n : RawNode} {i : Nat} {k : Bytes}

/-- `from_bytes` takes the page. -/
def Accepted (n : RawNode) : Prop := n.fromBytes = .ok (some n)

theorem fromBytes_cases (n : RawNode) :
    n.fromBytes = .ok (some n) ∧ (NodeHeader.tryFromBytes (slice n.data 0 headerSize)).isSome ∧
      n.Laid ∨ n.fromBytes = .ok none ∧
        ¬ ((NodeHeader.tryFromBytes (slice n.data 0 headerSize)).isSome ∧ n.Laid) := by
  rw [fromBytes]
  cases hh : NodeHeader.tryFromBytes (slice n.data 0 headerSize) with
  | none => exact .inr ⟨rfl, by simp⟩
  | some h =>
    obtain ⟨ok, hok, hiff⟩ := n.validateLayout_iff
    simp only [hok, ok_bind]
    cases ok with
    | true => exact .inl ⟨rfl, rfl, hiff.mp rfl⟩
    | false => exact .inr ⟨rfl, fun hl => Bool.false_ne_true (hiff.mpr hl.2)⟩

/-- What is accepted, and nothing else. -/
theorem accepted_iff : n.Accepted ↔
    (NodeHeader.tryFromBytes (slice n.data 0 headerSize)).isSome ∧ n.Laid := by
  rw [Accepted]
  obtain ⟨he, h⟩ | ⟨he, h⟩ := n.fromBytes_cases
  · exact iff_of_true he h
  · exact iff_of_false (by rw [he]; simp) h

theorem accepted_of_validate (h : (NodeHeader.tryFromBytes (slice n.data 0 headerSize)).isSome)
    (hv : n.validateLayout = .ok true) : n.Accepted := by
  obtain ⟨ok, hok, hiff⟩ := n.validateLayout_iff
  rw [hv] at hok
  cases hok
  exact accepted_iff.mpr ⟨h, hiff.mp rfl⟩

theorem Accepted.laid (h : n.Accepted) : n.Laid := (accepted_iff.mp h).2

/-! ## Keys -/

namespace Laid

theorem payloadAt_le (h : n.Laid) (hi : i < n.count) : n.payloadAt i ≤ pageSize :=
  (h.entry i hi).suffix_le.trans (stopAt_le fun i hi => (h.inside i hi).2)

theorem offsetAt_le (h : n.Laid) (hi : i < n.count) : n.offsetAt i + 4 ≤ pageSize := by
  have := h.payloadAt_le hi
  rw [payloadAt] at this
  omega

theorem key_eq (h : n.Laid) (hi : i < n.count) : n.key i = .ok (some (n.keyBefore (i + 1))) := by
  induction i with
  | zero =>
    rw [key, if_neg (by omega), entryPrefixLen_ok h.slots hi (h.offsetAt_le hi), ok_bind,
      entrySuffix_ok h.slots hi (h.payloadAt_le hi), ok_bind, keyBefore, keyBefore, take_nil]
    rfl
  | succ i ih =>
    rw [key, if_neg (by omega), entryPrefixLen_ok h.slots hi (h.offsetAt_le hi), ok_bind,
      entrySuffix_ok h.slots hi (h.payloadAt_le hi), ok_bind, keyBefore]
    by_cases h0 : n.prefixLenAt (i + 1) = 0
    · rw [if_pos h0, h0, take_zero]
      rfl
    rw [if_neg h0, ih (by omega), ok_bind]
    simp only
    rw [if_neg (not_lt.mpr (h.entry (i + 1) hi).prefix_le)]
    rfl

end Laid

theorem key_of_ge (hi : n.count ≤ i) : n.key i = .ok none := by
  cases i with
  | zero => rw [key, if_pos hi]; rfl
  | succ i => rw [key, if_pos hi]; rfl

/-- The keys of the page in slot order. -/
def keyList (n : RawNode) : List Bytes := (List.range n.count).map fun i => n.keyBefore (i + 1)

@[simp] theorem length_keyList : n.keyList.length = n.count := by simp [keyList]

@[simp] theorem getElem_keyList (hi : i < n.keyList.length) :
    n.keyList[i] = n.keyBefore (i + 1) := by
  simp [keyList]

namespace Laid

theorem keys_eq (h : n.Laid) : n.keys = .ok n.keyList := by
  have hkeys : (List.range n.count).mapM n.key
      = .ok ((List.range n.count).map fun i => some (n.keyBefore (i + 1))) :=
    mapM_ok fun i hi => h.key_eq (mem_range.mp hi)
  rw [keys, hkeys, ok_bind, pure_eq_ok, keyList, filterMap_map]
  exact congrArg Except.ok (filterMap_eq_map (f := fun i => n.keyBefore (i + 1)) ▸ rfl)

theorem keyBefore_mono (h : n.Laid) {i : Nat} : ∀ {j : Nat}, i ≤ j → j ≤ n.count →
    n.keyBefore i ≤ n.keyBefore j := by
  intro j hij
  induction j, hij using Nat.le_induction with
  | base => exact fun _ => le_rfl
  | succ j _ ih => exact fun hj => (ih (by omega)).trans (h.entry j (by omega)).ordered

theorem ordered (h : n.Laid) : n.keyList.Pairwise (· ≤ ·) := by
  rw [pairwise_iff_getElem]
  intro i j hi hj hij
  rw [getElem_keyList, getElem_keyList]
  rw [length_keyList] at hj
  exact h.keyBefore_mono (by omega) hj

/-! ## Values and children -/

theorem valueEnd_eq (h : n.Laid) : n.valueEnd i (n.offsetAt i) = .ok (n.stopAt i) := by
  have hoff : ((List.range n.count).filter (· ≠ i)).mapM n.slotOffset = _ :=
    slotOffsets_ok h.slots fun j hj => mem_range.mp (mem_filter.mp hj).1
  -- the entry's own offset is not above itself
  have hfilter : (((List.range n.count).filter (· ≠ i)).map n.offsetAt).filter (n.offsetAt i < ·)
      = n.offsets.filter (n.offsetAt i < ·) := by
    rw [offsets, filter_map, filter_map, filter_filter]
    congr 1
    refine filter_congr ?_
    intro j _
    by_cases hji : j = i
    · simp [hji]
    · simp [hji]
  rw [valueEnd, hoff, ok_bind, hfilter]
  rfl

end Laid

/-- The value behind the type byte of entry `i`. -/
def valueAt (n : RawNode) (i : Nat) : Option Value :=
  n.data[n.payloadAt i]?.bind fun valueType =>
    if valueType = ValueType.inline.code then
      some (.inline (slice n.data (n.payloadAt i + 1) (n.stopAt i - (n.payloadAt i + 1))))
    else if valueType = ValueType.blobPointer.code then
      some (.blob (.fromBytes (slice n.data (n.payloadAt i + 1) blobPointerSize)))
    else if valueType = ValueType.tombstone.code then some .tombstone
    else none

namespace Laid

theorem isInternal_of_leaf (hleaf : n.isLeaf = true) : n.isInternal = false := by
  simp only [isLeaf, isInternal, decide_eq_true_iff, decide_eq_false_iff_not] at hleaf ⊢
  simp [hleaf]

theorem value_eq (h : n.Laid) (hleaf : n.isLeaf = true) (hi : i < n.count) :
    n.value i = .ok (n.valueAt i) ∧ (n.valueAt i).isSome := by
  have hstop := stopAt_le (i := i) fun i hi => (h.inside i hi).2
  have hp := (h.entry i hi).payload
  rw [Payload, isInternal_of_leaf hleaf, if_neg Bool.false_ne_true] at hp
  obtain ⟨hlt, valueType, hget, htype⟩ := hp
  have hlen : n.payloadAt i < n.data.length := by rw [n.size]; omega
  have hread : readAt n.data (n.payloadAt i) = .ok valueType := by rw [readAt, hget]
  have hcond : ¬ ((decide (i ≥ n.count) || !n.isLeaf) = true) := by simp [hleaf, hi]
  have hpay : n.offsetAt i + 4 + n.suffixLenAt i = n.payloadAt i := rfl
  rw [value, if_neg hcond, slotOffset_ok h.slots hi, ok_bind,
    entrySuffixLen_ok h.slots hi (h.offsetAt_le hi), ok_bind]
  simp only [hpay]
  rw [hread, ok_bind, valueAt, hget, Option.bind_some]
  rcases htype with rfl | rfl | ⟨rfl, hroom⟩
  · rw [if_pos rfl, if_pos rfl, h.valueEnd_eq, ok_bind,
      readRange_ok (by omega) (by rw [n.size]; omega)]
    exact ⟨rfl, rfl⟩
  · exact ⟨rfl, rfl⟩
  · have hne : ¬ ValueType.blobPointer.code = ValueType.inline.code := by decide
    rw [if_neg hne, if_pos rfl, if_neg hne, if_pos rfl,
      readRange_ok (by omega) (by rw [n.size]; omega), Nat.add_sub_cancel_left]
    exact ⟨rfl, rfl⟩

theorem childId_eq (h : n.Laid) (hint : n.isInternal = true) (hi : i < n.count) :
    n.childId i = .ok (some (leAt n.data (n.payloadAt i) 8)) := by
  have hstop := stopAt_le (i := i) fun i hi => (h.inside i hi).2
  have hp := (h.entry i hi).payload
  rw [Payload, if_pos hint] at hp
  have hcond : ¬ ((decide (i ≥ n.count) || !n.isInternal) = true) := by simp [hint, hi]
  have hpay : n.offsetAt i + 4 + n.suffixLenAt i = n.payloadAt i := rfl
  rw [childId, if_neg hcond, slotOffset_ok h.slots hi, ok_bind,
    entrySuffixLen_ok h.slots hi (h.offsetAt_le hi), ok_bind]
  simp only [hpay]
  rw [if_neg (by omega), readRange_ok (by omega) (by rw [n.size]; omega), Nat.add_sub_cancel_left]
  rfl

end Laid

theorem value_of_outside (h : ¬ (i < n.count ∧ n.isLeaf = true)) : n.value i = .ok none := by
  have hcond : (decide (i ≥ n.count) || !n.isLeaf) = true := by
    rw [Bool.or_eq_true, decide_eq_true_iff, Bool.not_eq_true']
    by_cases hi : i < n.count
    · exact .inr (Bool.eq_false_iff.mpr fun hl => h ⟨hi, hl⟩)
    · exact .inl (not_lt.mp hi)
  rw [value, if_pos hcond]
  rfl

theorem childId_of_outside (h : ¬ (i < n.count ∧ n.isInternal = true)) :
    n.childId i = .ok none := by
  have hcond : (decide (i ≥ n.count) || !n.isInternal) = true := by
    rw [Bool.or_eq_true, decide_eq_true_iff, Bool.not_eq_true']
    by_cases hi : i < n.count
    · exact .inr (Bool.eq_false_iff.mpr fun hl => h ⟨hi, hl⟩)
    · exact .inl (not_lt.mp hi)
  rw [childId, if_pos hcond]
  rfl

/-! ## Searches -/

namespace Laid

/-- Both ways of comparing go by the key of the slot. -/
theorem compareKey_eq (h : n.Laid) (k : Bytes) (hi : i < n.count) :
    n.compareKey k i = .ok (some (order (n.keyBefore (i + 1)) k)) := by
  rw [compareKey, if_neg (not_le.mpr hi), entryPrefixLen_ok h.slots hi (h.offsetAt_le hi), ok_bind,
    entrySuffixLen_ok h.slots hi (h.offsetAt_le hi), ok_bind]
  by_cases h0 : n.prefixLenAt i = 0
  · have hle := h.payloadAt_le hi
    rw [payloadAt] at hle
    rw [if_pos h0, slotOffset_ok h.slots hi, ok_bind]
    simp only
    rw [if_pos (by rw [n.size]; omega), keyBefore, h0, take_zero, nil_append]
    rfl
  · rw [if_neg h0, h.key_eq hi, ok_bind]
    rfl

theorem search_eq (h : n.Laid) (k : Bytes) :
    n.search k = .ok (if k ∈ n.keyList then .ok (n.keyList.idxOf k)
      else .error (n.keyList.countP (· < k))) := by
  have hlb : LowerBound (fun i => order (n.keyBefore (i + 1)) k) (n.keyList.countP (· < k))
      n.keyList.length :=
    lowerBound_of_ordered h.ordered fun i hi => by rw [getElem_keyList]
  rw [length_keyList] at hlb
  rw [search]
  by_cases h0 : n.count = 0
  · have hnil : n.keyList = [] := eq_nil_of_length_eq_zero (by rw [length_keyList, h0])
    rw [if_pos h0, hnil]
    rfl
  rw [if_neg h0, bisectM_ok n.count 0 n.count none fun i hi => h.compareKey_eq k hi, ok_bind,
    bisect_eq hlb n.count 0 n.count none (Nat.zero_le _) hlb.le le_rfl (by omega)]
  by_cases hk : k ∈ n.keyList
  · have hlt : n.keyList.countP (· < k) < n.count := by
      rw [← idxOf_eq_countP h.ordered hk, ← length_keyList]
      exact idxOf_lt_length_of_mem hk
    have heq : order (n.keyBefore (n.keyList.countP (· < k) + 1)) k = .eq := by
      have hget : n.keyList[n.keyList.idxOf k]? = some k := List.getElem?_idxOf hk
      rw [idxOf_eq_countP h.ordered hk, List.getElem?_eq_getElem (by simpa using hlt),
        getElem_keyList] at hget
      rw [Option.some.inj hget, order_self]
    rw [if_pos ⟨hlt, heq⟩, if_pos hk, idxOf_eq_countP h.ordered hk]
    rfl
  · have hne : ¬ (n.keyList.countP (· < k) < n.count ∧
        order (n.keyBefore (n.keyList.countP (· < k) + 1)) k = .eq) := by
      rintro ⟨hlt, heq⟩
      rw [order] at heq
      split at heq
      · cases heq
      split at heq
      · rename_i hkey
        refine hk (mem_iff_getElem.mpr ⟨_, by simpa using hlt, ?_⟩)
        rw [getElem_keyList, hkey]
      · cases heq
    rw [if_neg hne, if_neg hk]
    rfl

theorem childForKey_eq (h : n.Laid) (hint : n.isInternal = true) (k : Bytes) :
    n.childForKey k = if n.keyList.countP (· ≤ k) = 0 then .ok (some n.leftmostChild)
      else n.childId (n.keyList.countP (· ≤ k) - 1) := by
  have hcmp : ∀ i < n.count, n.compareSeparator k i
      = .ok (some (if n.keyBefore (i + 1) ≤ k then .lt else .gt)) := by
    intro i hi
    rw [compareSeparator, h.compareKey_eq k hi, ok_bind, pure_eq_ok, Option.map_some]
    rcases lt_trichotomy (n.keyBefore (i + 1)) k with hlt | heq | hgt
    · rw [order_lt hlt, if_pos hlt.le]
    · rw [heq, order_self, if_pos le_rfl]
    · rw [order_gt hgt, if_neg (not_le.mpr hgt)]
  have hpp : PartitionPoint (fun i => if n.keyBefore (i + 1) ≤ k then .lt else .gt)
      (n.keyList.countP (· ≤ k)) n.keyList.length :=
    partitionPoint_of_ordered h.ordered fun i hi => by rw [getElem_keyList]
  have hlb := hpp.lowerBound
  rw [length_keyList] at hlb
  rw [childForKey, if_neg (by simp [hint]), bisectM_ok n.count 0 n.count none hcmp, ok_bind,
    bisect_eq hlb n.count 0 n.count none (Nat.zero_le _) hlb.le le_rfl (by omega)]
  rfl

end Laid

/-! ## Accepted pages -/

/-- **An accepted page is safe to read.**  No accessor indexes outside the page, for any
slot and any probe key; slots in use have a key, and a value or a child as the page type
says; the keys do not decrease in slot order. -/
theorem accepted_safe (n : RawNode) (h : n.Accepted) :
    (∀ i, ∃ r, n.key i = .ok r ∧ (r.isSome ↔ i < n.count)) ∧
    (∀ i, ∃ r, n.value i = .ok r ∧ (r.isSome ↔ i < n.count ∧ n.isLeaf)) ∧
    (∀ i, ∃ r, n.childId i = .ok r ∧ (r.isSome ↔ i < n.count ∧ n.isInternal)) ∧
    (∀ k, ∃ r, n.search k = .ok r) ∧
    (∀ k, ∃ r, n.childForKey k = .ok r) ∧
    (∀ i j a b, i ≤ j → n.key i = .ok (some a) → n.key j = .ok (some b) → a ≤ b) := by
  have hl := h.laid
  have hchild : ∀ i, ∃ r, n.childId i = .ok r ∧ (r.isSome ↔ i < n.count ∧ n.isInternal) := by
    intro i
    by_cases hi : i < n.count ∧ n.isInternal = true
    · exact ⟨_, hl.childId_eq hi.2 hi.1, iff_of_true rfl hi⟩
    · exact ⟨_, childId_of_outside hi, iff_of_false Bool.false_ne_true hi⟩
  refine ⟨?_, ?_, hchild, fun k => ⟨_, hl.search_eq k⟩, ?_, ?_⟩
  · intro i
    by_cases hi : i < n.count
    · exact ⟨_, hl.key_eq hi, iff_of_true rfl hi⟩
    · exact ⟨_, key_of_ge (not_lt.mp hi), iff_of_false Bool.false_ne_true hi⟩
  · intro i
    by_cases hi : i < n.count ∧ n.isLeaf = true
    · obtain ⟨he, hsome⟩ := hl.value_eq hi.2 hi.1
      exact ⟨_, he, iff_of_true hsome hi⟩
    · exact ⟨_, value_of_outside hi, iff_of_false Bool.false_ne_true hi⟩
  · intro k
    by_cases hint : n.isInternal = true
    · rw [hl.childForKey_eq hint]
      split
      · exact ⟨_, rfl⟩
      · obtain ⟨r, hr, -⟩ := hchild (n.keyList.countP (· ≤ k) - 1)
        exact ⟨r, hr⟩
    · exact ⟨none, by rw [childForKey, if_pos (by simpa using hint)]; rfl⟩
  · intro i j a b hij ha hb
    have hj : j < n.count := by
      by_contra hge
      rw [key_of_ge (not_lt.mp hge)] at hb
      cases hb
    rw [hl.key_eq (by omega), Except.ok.injEq, Option.some.injEq] at ha
    rw [hl.key_eq hj, Except.ok.injEq, Option.some.injEq] at hb
    rw [← ha, ← hb]
    exact hl.keyBefore_mono (by omega) hj

/-- An internal page of the older format: the separators `a`, `ab`, `ab`, each holding only
what its predecessor has not, in entries that are not in slot order and leave the end of
the page unused. -/
def compressedPage : RawNode where
  data := NodeHeader.toBytes ⟨pageMagic, pageVersion, .internal, 3, 0, 0, 0, 5, 0⟩ ++
      (toLe 2 72 ++ toLe 2 1) ++ (toLe 2 85 ++ toLe 2 2) ++ (toLe 2 60 ++ toLe 2 2) ++
      (toLe 2 2 ++ toLe 2 0 ++ toLe 8 8) ++
      (toLe 2 0 ++ toLe 2 1 ++ [97] ++ toLe 8 6) ++
      (toLe 2 1 ++ toLe 2 1 ++ [98] ++ toLe 8 7) ++
      List.replicate 3998 0
  size := by decide +kernel

theorem compressedPage_accepted : compressedPage.Accepted :=
  accepted_of_validate (by decide +kernel) (by decide +kernel)

theorem accepted_safe_compressed : compressedPage.Accepted ∧
    (∀ k, ∃ r, compressedPage.childForKey k = .ok r) :=
  ⟨compressedPage_accepted, (accepted_safe compressedPage compressedPage_accepted).2.2.2.2.1⟩

/-- **The searches are exact.**  On an accepted page, `search` finds the first slot of a key,
or else the number of smaller keys; `child_for_key` returns the child behind the last
separator not above the key. -/
theorem accepted_search (n : RawNode) (h : n.Accepted) :
    ∃ ks, n.keys = .ok ks ∧ ks.length = n.count ∧ (∀ i < n.count, n.key i = .ok ks[i]?) ∧ ∀ k,
        (∀ i, ks[i]? = some k → (∀ j < i, ks[j]? ≠ some k) → n.search k = .ok (.ok i)) ∧
        (k ∉ ks → n.search k = .ok (.error (ks.countP (· < k)))) ∧
        (n.isInternal → (∀ s ∈ ks, k < s) → n.childForKey k = .ok (some n.leftmostChild)) ∧
        (n.isInternal → ∀ i s, ks[i]? = some s → s ≤ k →
          (∀ j s', i < j → ks[j]? = some s' → k < s') → n.childForKey k = n.childId i) := by
  have hl := h.laid
  refine ⟨n.keyList, hl.keys_eq, length_keyList, ?_, ?_⟩
  · intro i hi
    rw [hl.key_eq hi, List.getElem?_eq_getElem (by simpa using hi), getElem_keyList]
  intro k
  refine ⟨?_, ?_, ?_, ?_⟩
  · intro i hi hfirst
    have hk : k ∈ n.keyList := mem_of_getElem? hi
    rw [hl.search_eq, if_pos hk]
    obtain ⟨hlt, hget⟩ := List.getElem?_eq_some_iff.mp hi
    -- the first place of `k` is neither before nor behind `i`
    have hle : n.keyList.idxOf k ≤ i := by
      by_contra hgt
      have hne := not_of_lt_findIdx (p := (· == k)) (not_le.mp hgt)
      simp only [hget, BEq.rfl, Bool.true_eq_false] at hne
    rcases hle.lt_or_eq with hlt' | rfl
    · exact absurd (List.getElem?_idxOf hk) (hfirst _ hlt')
    · rfl
  · intro hk
    rw [hl.search_eq, if_neg hk]
  · intro hint hall
    have hzero : n.keyList.countP (· ≤ k) = 0 := by
      rw [countP_eq_zero]
      intro s hs
      simpa using hall s hs
    rw [hl.childForKey_eq hint, if_pos hzero]
  · intro hint i s hi hsk hlast
    obtain ⟨hlt, rfl⟩ := List.getElem?_eq_some_iff.mp hi
    have hiff : ∀ {j} (hj : j < n.keyList.length), j < n.keyList.countP (· ≤ k) ↔
      n.keyList[j] ≤ k :=
      fun hj => lt_countP_iff (fun a b hab hb => hab.trans hb) hl.ordered hj
    have hcount : n.keyList.countP (· ≤ k) = i + 1 := by
      have hgt := (hiff hlt).mpr hsk
      by_contra hne
      have hlen : i + 1 < n.keyList.length :=
        lt_of_lt_of_le (by omega) (countP_le_length (p := (· ≤ k)))
      have hle := (hiff hlen).mp (by omega)
      exact absurd (hlast (i + 1) _ (Nat.lt_succ_self i) (List.getElem?_eq_getElem hlen))
        (not_lt.mpr hle)
    rw [hl.childForKey_eq hint, if_neg (by omega), hcount, Nat.add_sub_cancel]

theorem accepted_search_compressed : compressedPage.Accepted ∧
    ∃ ks, compressedPage.keys = .ok ks ∧ ∀ k ∉ ks,
      compressedPage.search k = .ok (.error (ks.countP (· < k))) := by
  obtain ⟨ks, hks, -, -, h⟩ := accepted_search compressedPage compressedPage_accepted
  exact ⟨compressedPage_accepted, ks, hks, fun k hk => (h k).2.1 hk⟩

end RawNode

end SeerDb
