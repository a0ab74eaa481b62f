/-
# `SeerDb.Btree.NodeSpec` — what the page operations compute on a valid page

A page is valid when its keys increase strictly and its entries leave room for
the slot array.  On valid pages the binary searches, the insertions and the
rebuild loops of `SeerDb.Btree.Node` compute what their names say, in terms of
the sorted lists of `SeerDb.Lib.SortedMap`.
-/
import SeerDb.Btree.Node
import Mathlib.Algebra.Order.BigOperators.Group.List
import Mathlib.Algebra.Order.Group.Nat

namespace SeerDb

open Lib List

namespace Node

/-! ## Which entries fit on a page -/

/-- Entries of these sizes, their slots, one spare slot and the header fit on a page. -/
def slotsFit {α : Type} (size : α → Nat) (xs : List α) : Bool :=
  decide ((xs.map size).sum + slotSize * xs.length + slotSize + headerSize ≤ pageSize)

variable {α β : Type} {size : α → Nat} {n : Node} {k : Bytes}

theorem slotsFit_sublist {l r : List α} (h : l.Sublist r)
    (hr : slotsFit size r) : slotsFit size l := by
  have h1 : (l.map size).sum ≤ (r.map size).sum :=
    (h.map size).sum_le_sum (fun _ _ => Nat.zero_le _)
  have h2 := Nat.mul_le_mul_left slotSize h.length_le
  simp only [slotsFit, decide_eq_true_eq] at hr ⊢
  omega

theorem slotsFit_perm {l r : List α} (h : l.Perm r) :
    slotsFit size l = slotsFit size r := by
  simp only [slotsFit, (h.map size).sum_eq, h.length_eq]

abbrev leafFits : List (Bytes × Value) → Bool := slotsFit leafEntrySize
abbrev innerFits : List (Bytes × Nat) → Bool := slotsFit internalEntrySize

/-- The layout every page of the tree obeys. -/
def layout : Layout Bytes Value where
  leafFits := leafFits
  innerFits := innerFits
  idLimit := u32Max
  leafFits_sublist := slotsFit_sublist
  innerFits_sublist := slotsFit_sublist

theorem insertIdx_length_append (l r : List α) (x : α) :
    (l ++ r).insertIdx l.length x = l ++ x :: r := by
  induction l with
  | nil => rfl
  | cons a l ih => simp [ih]

theorem eraseIdx_length_append (l r : List α) (x : α) :
    (l ++ x :: r).eraseIdx l.length = l ++ r := by
  rw [eraseIdx_append_of_length_le le_rfl, Nat.sub_self, eraseIdx_cons_zero]

/-- The admission check, on a page that fits: an entry larger than a page is
refused as such, and otherwise it is admitted exactly when the page still fits. -/
theorem admitEntry_eq {xs : List α} (hc : n.count = xs.length)
    (hb : n.entryBytes = (xs.map size).sum) (hf : slotsFit size xs) (x : α) :
    n.admitEntry (size x) = if size x > pageSize - headerSize - slotSize then .error .entryTooLarge
      else if slotsFit size (x :: xs) then .ok () else .error .pageFull := by
  have hfit : slotsFit size (x :: xs) = true ↔
      size x + (xs.map size).sum + slotSize * (xs.length + 1) + slotSize + headerSize ≤
        pageSize := by
    simp [slotsFit]
  simp only [slotsFit, decide_eq_true_eq] at hf
  rw [admitEntry, newEntryOffset, hc, hb]
  by_cases hbig : size x > pageSize - headerSize - slotSize
  · rw [if_pos hbig, if_pos hbig]
  rw [if_neg hbig, if_neg hbig]
  simp only [pageSize, headerSize, slotSize] at hf hbig hfit
  by_cases hok : slotsFit size (x :: xs) = true
  · -- the new entry ends at or above the slot array
    have := hfit.mp hok
    rw [if_pos hok]
    by_cases h0 : xs.length = 0
    · rw [if_pos h0]
      simp only
      rw [if_neg (by simp only [pageSize, headerSize, slotSize]; omega)]
    · rw [if_neg h0, if_neg (by simp only [pageSize]; omega)]
      simp only
      rw [if_neg (by simp only [pageSize, headerSize, slotSize]; omega)]
  · have := mt hfit.mpr hok
    rw [if_neg hok]
    by_cases h0 : xs.length = 0
    · have hnil := eq_nil_iff_length_eq_zero.mpr h0
      subst hnil
      simp only [map_nil, sum_nil, length_nil] at this
      rw [if_pos h0]
      simp only
      rw [if_pos (by simp only [pageSize, headerSize, slotSize]; omega)]
    rw [if_neg h0]
    split
    · rename_i hsome
      split at hsome
      · rfl
      · cases hsome
    · rename_i off hsome
      split at hsome
      · cases hsome
      · cases hsome
        rw [if_pos (by simp only [pageSize, headerSize, slotSize]; omega)]

/-- The page `n` with the new entry `x`, if its entries `xs` fit. -/
def ifFits (size : α → Nat) (x : α) (xs : List α) (n : Node) : Except InsertError Node :=
  if size x > pageSize - headerSize - slotSize then .error .entryTooLarge
  else if slotsFit size xs then .ok n else .error .pageFull

theorem not_tooLarge_of_fits {xs : List α} {x : α} (hx : x ∈ xs)
    (hf : slotsFit size xs) : ¬ size x > pageSize - headerSize - slotSize := by
  have h1 : size x ≤ (xs.map size).sum := single_le_sum (by simp) _ (mem_map_of_mem hx)
  have h2 : 1 ≤ xs.length := length_pos_of_mem hx
  simp only [slotsFit, decide_eq_true_eq] at hf
  simp only [pageSize, headerSize, slotSize] at hf ⊢
  omega

theorem ifFits_of_fits {xs : List α} {x : α} (hx : x ∈ xs) (hf : slotsFit size xs) :
    ifFits size x xs n = .ok n := by
  rw [ifFits, if_neg (not_tooLarge_of_fits hx hf), if_pos hf]

theorem ifFits_cases (size : α → Nat) (x : α) (xs : List α) (n : Node) :
    (size x > pageSize - headerSize - slotSize ∧ ifFits size x xs n = .error .entryTooLarge) ∨
      (slotsFit size xs = true ∧ ifFits size x xs n = .ok n) ∨
      (¬ slotsFit size xs = true ∧ ifFits size x xs n = .error .pageFull) := by
  rw [ifFits]
  split
  · rename_i hbig
    exact .inl ⟨hbig, rfl⟩
  split
  · rename_i hf
    exact .inr (.inl ⟨hf, rfl⟩)
  · rename_i hf
    exact .inr (.inr ⟨hf, rfl⟩)

theorem ifFits_ok {xs : List α} {x : α} {n' : Node} (h : ifFits size x xs n = .ok n') : n' = n := by
  rcases ifFits_cases size x xs n with ⟨-, he⟩ | ⟨-, he⟩ | ⟨-, he⟩ <;> cases he.symm.trans h
  rfl

theorem ifFits_refused {xs : List α} {x : α} {r : Except InsertError Node}
    (h : r = ifFits size x xs n) (hno : ¬ slotsFit size xs = true) : ∃ e, r = .error e := by
  rw [h]
  rcases ifFits_cases size x xs n with ⟨-, he⟩ | ⟨hf, -⟩ | ⟨-, he⟩
  · exact ⟨_, he⟩
  · exact absurd hf hno
  · exact ⟨_, he⟩

theorem admitted_eq {l r : List α} {x : α} (hc : n.count = (l ++ r).length)
    (hb : n.entryBytes = ((l ++ r).map size).sum) (hf : slotsFit size (l ++ r)) (y : Node) :
    (match n.admitEntry (size x) with
      | .error e => .error e
      | .ok () => .ok y) = ifFits size x (l ++ x :: r) y := by
  have hperm : slotsFit size (x :: (l ++ r)) = slotsFit size (l ++ x :: r) :=
    slotsFit_perm perm_middle.symm
  rw [admitEntry_eq hc hb hf, ifFits, hperm]
  split_ifs <;> rfl

/-! ## Searching a page -/

theorem compareKey_eq {xs : List (Bytes × β)} (hk : n.keys = xs.map Prod.fst)
    (k : Bytes) : ∀ i e, xs[i]? = some e → n.compareKey i k = order e.1 k := by
  intro i e he
  simp [compareKey, key, hk, he]

/-- `search` on a page without `k`: the insertion point. -/
theorem search_absent {l r : List (Bytes × β)} (hk : n.keys = (l ++ r).map Prod.fst)
    (hl : ∀ e ∈ l, e.1 < k) (hr : ∀ e ∈ r, k < e.1) :
    n.search k = .error l.length := by
  have hcount : n.count = (l ++ r).length := by simp [count, hk]
  have hp := (partitionPoint_of_cut hl hr (compareKey_eq hk k)).lowerBound
  rw [search, hcount, bisect_eq hp _ _ _ _ (Nat.zero_le _) hp.le le_rfl (by omega)]
  have hne : ¬ (l.length < (l ++ r).length ∧ n.compareKey l.length k = .eq) := by
    rintro ⟨h1, h2⟩
    have h0 : 0 < r.length := by simpa using h1
    rw [compareKey_eq hk k l.length r[0] (by simp [h0]), order_gt (hr _ (getElem_mem h0))] at h2
    cases h2
  rw [if_neg hne]
  split
  · rename_i h0
    have : l.length = 0 := by simp at h0; simp [h0.1]
    rw [this]
  · rfl

/-- `search` on a page with `k`: its first index. -/
theorem search_first {l r : List (Bytes × β)} {v : β}
    (hk : n.keys = (l ++ (k, v) :: r).map Prod.fst) (hl : ∀ e ∈ l, e.1 < k)
    (hr : ∀ e ∈ r, k ≤ e.1) : n.search k = .ok l.length := by
  have hcount : n.count = (l ++ (k, v) :: r).length := by simp [count, hk]
  have hp := lowerBound_of_cut hl hr (compareKey_eq hk k)
  rw [search, hcount, bisect_eq hp _ _ _ _ (Nat.zero_le _) hp.le le_rfl (by omega)]
  have heq : l.length < (l ++ (k, v) :: r).length ∧ n.compareKey l.length k = .eq := by
    refine ⟨by simp, ?_⟩
    rw [compareKey_eq hk k l.length (k, v) (by simp)]
    simp
  rw [if_pos heq, if_neg (by simp)]

theorem search_present {l r : List (Bytes × β)} {v : β}
    (hk : n.keys = (l ++ (k, v) :: r).map Prod.fst) (hl : ∀ e ∈ l, e.1 < k)
    (hr : ∀ e ∈ r, k < e.1) : n.search k = .ok l.length :=
  search_first hk hl fun e he => (hr e he).le

theorem route_append {C : Type} {k : Bytes} : ∀ {A B : List (Bytes × C)} {l : C},
    (∀ e ∈ A, e.1 ≤ k) → (∀ e ∈ B, k < e.1) →
    route k l (A ++ B) = (A.getLast?.map Prod.snd).getD l
  | [], [], _, _, _ => rfl
  | [], (s, c) :: B, l, _, hB => by
    simp [route, not_le.mpr (hB (s, c) (by simp))]
  | (s, c) :: A, B, l, hA, hB => by
    have hs : s ≤ k := hA (s, c) (by simp)
    have ih := route_append (l := c) (fun e he => hA e (.tail _ he)) hB
    rw [cons_append, route, if_pos hs, ih]
    cases A with
    | nil => rfl
    | cons a A => simp [List.getLast?_eq_some_getLast]

/-- `child_for_key` routes by separators that do not decrease. -/
theorem childForKey_ordered {l : Nat} {cs : List (Bytes × Nat)}
    (hb : n.body = .inner l cs) (hs : cs.Pairwise fun a b => a.1 ≤ b.1) (k : Bytes) :
    n.childForKey k = some (route k l cs) := by
  -- the separators up to `k`, and those above it
  obtain ⟨A, B, rfl, hA, hB⟩ := ordered_cut (P := fun s => s ≤ k)
    (fun _ _ hab hb => hab.trans hb) hs
  replace hB : ∀ e ∈ B, k < e.1 := fun e he => not_le.mp (hB e he)
  have hk : n.keys = (A ++ B).map Prod.fst := by simp [keys, hb]
  have hcount : n.count = (A ++ B).length := by simp [count, hk]
  have hcmp := compareKey_eq hk k
  have hp : PartitionPoint (n.compareSeparator k) A.length (A ++ B).length := by
    have hge : ∀ i, A.length ≤ i → i < (A ++ B).length → n.compareSeparator k i = .gt := by
      intro i h1 h2
      obtain ⟨j, rfl⟩ : ∃ j, i = A.length + j := ⟨i - A.length, by omega⟩
      have hj : j < B.length := by simp at h2; omega
      rw [compareSeparator, hcmp _ B[j] (by simp [hj]), order_gt (hB _ (getElem_mem hj))]
    refine ⟨by simp, ?_, ?_, ?_⟩
    · intro i hi
      rw [compareSeparator, hcmp i A[i] (by simp [List.getElem?_append_left hi])]
      have hle := hA _ (getElem_mem hi)
      rcases hle.lt_or_eq with h | h
      · rw [order_lt h]
      · rw [h, order_self]
    · intro h; rw [hge _ le_rfl h]; simp
    · intro i h1 h2; rw [hge i h1.le h2]
  rw [childForKey, hcount, bisect_eq hp.lowerBound _ _ _ _ (Nat.zero_le _) hp.le le_rfl (by omega),
    route_append hA hB]
  simp only [isInternal, hb, leftmostChild, childId, if_true]
  rcases eq_nil_or_concat A with rfl | ⟨A', a, rfl⟩
  · simp
  · simp

theorem childForKey_eq {l : Nat} {cs : List (Bytes × Nat)} (hb : n.body = .inner l cs)
    (hs : Sorted cs) (k : Bytes) : n.childForKey k = some (route k l cs) :=
  childForKey_ordered hb (hs.imp le_of_lt) k

/-! ## Leaf pages -/

section Leaf

variable {es l r : List (Bytes × Value)} {v w : Value}

theorem keys_leaf (hb : n.body = .leaf es) : n.keys = es.map Prod.fst := by simp [keys, hb]

theorem count_leaf (hb : n.body = .leaf es) : n.count = es.length := by simp [count, keys_leaf hb]

theorem entryBytes_leaf (hb : n.body = .leaf es) : n.entryBytes = (es.map leafEntrySize).sum := by
  simp [entryBytes, hb]

theorem isLeaf_leaf (hb : n.body = .leaf es) : n.isLeaf = true := by simp [isLeaf, hb]

/-- Inserting at the cut of `k`, on a page that fits. -/
theorem insertLeafValue_cut (hb : n.body = .leaf (l ++ r)) (hf : leafFits (l ++ r)) :
    n.insertLeafValue k v l.length = ifFits leafEntrySize (k, v) (l ++ (k, v) :: r)
        { n with body := .leaf (l ++ (k, v) :: r) } := by
  rw [insertLeafValue, hb]
  simp only [length_append]
  rw [if_neg (by omega), insertIdx_length_append]
  exact admitted_eq (count_leaf hb) (entryBytes_leaf hb) hf _

/-- `insert` and `insert_blob` on a page that has the key. -/
theorem insertNew_present (hb : n.body = .leaf (l ++ (k, w) :: r)) (hl : ∀ e ∈ l, e.1 < k)
    (hr : ∀ e ∈ r, k < e.1) : n.insertNew k v = .error (.duplicateKey l.length) := by
  rw [insertNew, isLeaf_leaf hb, search_present (keys_leaf hb) hl hr]
  rfl

/-- `insert` and `insert_blob` on a page without the key. -/
theorem insertNew_absent (hb : n.body = .leaf (l ++ r)) (hf : leafFits (l ++ r))
    (hl : ∀ e ∈ l, e.1 < k) (hr : ∀ e ∈ r, k < e.1) :
    n.insertNew k v = ifFits leafEntrySize (k, v) (l ++ (k, v) :: r)
        { n with body := .leaf (l ++ (k, v) :: r) } := by
  rw [insertNew, isLeaf_leaf hb, search_absent (keys_leaf hb) hl hr]
  exact insertLeafValue_cut hb hf

/-- The rebuild loop appends the entries it is given, in order. -/
theorem rebuildLeaf_eq : ∀ {es : List (Bytes × Value)} {n : Node} {pre : List (Bytes × Value)},
    n.body = .leaf pre → Sorted (pre ++ es) → leafFits (pre ++ es) →
    n.rebuildLeaf es = .ok { n with body := .leaf (pre ++ es) }
  | [], n, pre, hb, _, _ => by
    rw [rebuildLeaf, append_nil, ← hb]
  | (k, v) :: es, n, pre, hb, hs, hf => by
    have hlt : ∀ e ∈ pre, e.1 < k := fun e he => (sorted_append.mp hs).2.2 e he (k, v) (by simp)
    have hb' : n.body = .leaf (pre ++ []) := by simpa using hb
    have hup : n.upperBound k = pre.length := by
      rw [upperBound, search_absent (keys_leaf hb') hlt (by simp)]
      simp [keys_leaf hb, drop_eq_nil_of_le]
    have hfp : leafFits (pre ++ []) := slotsFit_sublist (by simp) hf
    have hf1 : leafFits (pre ++ [(k, v)]) := slotsFit_sublist (by simp) hf
    rw [rebuildLeaf, hup, insertLeafValue_cut hb' hfp, ifFits_of_fits (by simp) hf1]
    simp only
    rw [rebuildLeaf_eq rfl (by simpa using hs) (by simpa using hf)]
    simp

theorem removeEntry_eq (hb : n.body = .leaf (l ++ (k, w) :: r)) (hs : Sorted (l ++ (k, w) :: r))
    (hf : leafFits (l ++ (k, w) :: r)) :
    n.removeEntry l.length = .ok ⟨.leaf (l ++ r), n.parentId, 0⟩ := by
  have hsub : (l ++ r).Sublist (l ++ (k, w) :: r) :=
    (List.Sublist.refl l).append (sublist_cons_self _ _)
  rw [removeEntry, hb]
  simp only
  rw [if_neg (by simp), eraseIdx_length_append]
  exact @rebuildLeaf_eq (l ++ r) { newLeaf with parentId := n.parentId } [] rfl
    (Sorted.sublist hsub hs) (slotsFit_sublist hsub hf)

/-- Same-size inline replacement keeps the page's shape. -/
theorem replaceValue_eq {old new : Bytes} (hb : n.body = .leaf (l ++ (k, .inline old) :: r))
    (hlen : old.length = new.length) :
    n.replaceValue l.length new = .ok { n with body := .leaf (l ++ (k, .inline new) :: r) } := by
  rw [replaceValue, hb]
  simp [hlen, set_append_right]

theorem removeDuplicates_eq {fuel : Nat} (hb : n.body = .leaf (l ++ r)) (hl : ∀ e ∈ l, e.1 < k)
    (hr : ∀ e ∈ r, k < e.1) : removeDuplicates k fuel n = .ok n := by
  cases fuel with
  | zero => rfl
  | succ fuel => rw [removeDuplicates, search_absent (keys_leaf hb) hl hr]

/-- Replacing a value by one of another size: the entry leaves and comes back, if
there is room for it. -/
theorem replaceValueResized_eq {new : Bytes} (hb : n.body = .leaf (l ++ (k, w) :: r))
    (hs : Sorted (l ++ (k, w) :: r)) (hf : leafFits (l ++ (k, w) :: r))
    (hl : ∀ e ∈ l, e.1 < k) (hr : ∀ e ∈ r, k < e.1) :
    n.replaceValueResized l.length new = ifFits leafEntrySize (k, .inline new)
      (l ++ (k, .inline new) :: r) ⟨.leaf (l ++ (k, .inline new) :: r), n.parentId, 0⟩ := by
  have hkey : n.key l.length = some k := by simp [key, keys_leaf hb]
  have hcount : n.count = (l ++ (k, w) :: r).length := count_leaf hb
  have hfr : leafFits (l ++ r) :=
    slotsFit_sublist ((List.Sublist.refl l).append (sublist_cons_self _ _)) hf
  rw [replaceValueResized, isLeaf_leaf hb, hkey, hcount, removeEntry_eq hb hs hf]
  simp only [Bool.not_true, Bool.false_or, length_append, length_cons, ge_iff_le, decide_eq_true_eq]
  rw [if_neg (by omega), removeDuplicates_eq rfl hl hr]
  exact insertNew_absent rfl hfr hl hr

/-- A tombstone always fits where its entry was. -/
theorem leafFits_replace (hle : leafEntrySize (k, v) ≤ leafEntrySize (k, w))
    (hf : leafFits (l ++ (k, w) :: r)) : leafFits (l ++ (k, v) :: r) := by
  simp only [slotsFit, decide_eq_true_eq, map_append, map_cons, sum_append,
    sum_cons, length_append, length_cons] at hf ⊢
  omega

theorem insertTombstone_eq (hb : n.body = .leaf (l ++ (k, w) :: r))
    (hs : Sorted (l ++ (k, w) :: r)) (hf : leafFits (l ++ (k, w) :: r))
    (hl : ∀ e ∈ l, e.1 < k) (hr : ∀ e ∈ r, k < e.1) :
    n.insertTombstone k = (.ok (), ⟨.leaf (l ++ (k, .tombstone) :: r), n.parentId, 0⟩) := by
  have hfr : leafFits (l ++ r) :=
    slotsFit_sublist ((List.Sublist.refl l).append (sublist_cons_self _ _)) hf
  have hft : leafFits (l ++ (k, .tombstone) :: r) :=
    leafFits_replace (by simp [leafEntrySize, Value.len]) hf
  rw [insertTombstone, isLeaf_leaf hb, search_present (keys_leaf hb) hl hr]
  simp only [if_true]
  rw [removeEntry_eq hb hs hf]
  simp only
  rw [search_absent (keys_leaf rfl) hl hr]
  simp only [insertTombstone.finish]
  rw [insertLeafValue_cut rfl hfr, ifFits_of_fits (by simp) hft]

end Leaf

/-! ## Internal pages -/

section Inner

variable {p : Nat} {cs l r : List (Bytes × Nat)} {c : Nat}

theorem keys_inner (hb : n.body = .inner p cs) : n.keys = cs.map Prod.fst := by simp [keys, hb]

theorem count_inner (hb : n.body = .inner p cs) : n.count = cs.length := by
  simp [count, keys_inner hb]

theorem entryBytes_inner (hb : n.body = .inner p cs) :
    n.entryBytes = (cs.map internalEntrySize).sum := by simp [entryBytes, hb]

theorem isLeaf_inner (hb : n.body = .inner p cs) : n.isLeaf = false := by simp [isLeaf, hb]

/-- Taking a separator that is not on the page yet. -/
theorem insertChild_eq (hb : n.body = .inner p (l ++ r)) (hf : innerFits (l ++ r))
    (hl : ∀ e ∈ l, e.1 < k) (hr : ∀ e ∈ r, k < e.1) :
    n.insertChild k c = ifFits internalEntrySize (k, c) (l ++ (k, c) :: r)
        { n with body := .inner p (l ++ (k, c) :: r) } := by
  rw [insertChild, hb]
  simp only
  rw [search_absent (keys_inner hb) hl hr]
  simp only
  rw [insertIdx_length_append]
  exact admitted_eq (count_inner hb) (entryBytes_inner hb) hf _

theorem rebuildInternal_eq : ∀ {cs : List (Bytes × Nat)} {n : Node} {pre : List (Bytes × Nat)},
    n.body = .inner p pre → Sorted (pre ++ cs) → innerFits (pre ++ cs) →
    n.rebuildInternal cs = .ok { n with body := .inner p (pre ++ cs) }
  | [], n, pre, hb, _, _ => by
    rw [rebuildInternal, append_nil, ← hb]
  | (k, c) :: cs, n, pre, hb, hs, hf => by
    have hlt : ∀ e ∈ pre, e.1 < k := fun e he => (sorted_append.mp hs).2.2 e he (k, c) (by simp)
    have hb' : n.body = .inner p (pre ++ []) := by simpa using hb
    have hfp : innerFits (pre ++ []) := slotsFit_sublist (by simp) hf
    have hf1 : innerFits (pre ++ [(k, c)]) := slotsFit_sublist (by simp) hf
    rw [rebuildInternal, insertChild_eq hb' hfp hlt (by simp), ifFits_of_fits (by simp) hf1]
    simp only
    rw [rebuildInternal_eq rfl (by simpa using hs) (by simpa using hf)]
    simp

end Inner

/-! ## Splitting a page -/

theorem halve_none {es : List β} (h : halve es = none) : es.length < 2 := by
  rw [halve] at h
  split at h
  · assumption
  rename_i hlen
  split at h
  · cases h
  · rename_i hd
    have := drop_eq_nil_iff.mp hd
    omega

/-- The halves, as `split` takes them. -/
theorem halve_cut {es left right : List β} {m : β} (h : halve es = some (left, m, right)) :
    es[es.length / 2]? = some m ∧ es.take (es.length / 2) = left ∧
      es.drop (es.length / 2) = m :: right ∧
      es.drop (es.length / 2 + 1) = right ∧ ¬ es.length < 2 := by
  obtain ⟨rfl, hlen, h2⟩ := halve_eq h
  rw [← hlen, ← drop_drop, drop_left, take_left]
  exact ⟨by simp, rfl, rfl, rfl, not_lt.mpr h2⟩

theorem split_leaf {es : List (Bytes × Value)} (hb : n.body = .leaf es) (hs : Sorted es)
    (hf : leafFits es) :
    n.split = match halve es with
      | none => .error .tooFewKeys
      | some (left, m, right) =>
        .ok (m.1, ⟨.leaf left, n.parentId, 0⟩, ⟨.leaf (m :: right), 0, 0⟩) := by
  rcases hh : halve es with _ | ⟨left, m, right⟩
  · rw [split, count_leaf hb, if_pos (halve_none hh)]
  obtain ⟨hget, htake, hdrop, -, h2⟩ := halve_cut hh
  obtain ⟨rfl, -, -⟩ := halve_eq hh
  have hkey : n.key ((left ++ m :: right).length / 2) = some m.1 := by
    rw [key, keys_leaf hb, List.getElem?_map, hget, Option.map_some]
  have hR := @rebuildLeaf_eq (m :: right) newLeaf [] rfl
    (Sorted.sublist (sublist_append_right _ _) hs)
    (slotsFit_sublist (sublist_append_right _ _) hf)
  have hL := @rebuildLeaf_eq left { newLeaf with parentId := n.parentId } [] rfl
    (Sorted.sublist (sublist_append_left _ _) hs)
    (slotsFit_sublist (sublist_append_left _ _) hf)
  rw [split, count_leaf hb, if_neg h2, hkey, hb]
  simp only
  rw [htake, hdrop, hR, hL]
  rfl

theorem split_inner {p : Nat} {cs : List (Bytes × Nat)} (hb : n.body = .inner p cs)
    (hs : Sorted cs) (hf : innerFits cs) :
    n.split = match halve cs with
      | none => .error .tooFewKeys
      | some (left, m, right) =>
        .ok (m.1, ⟨.inner p left, n.parentId, 0⟩, ⟨.inner m.2 right, 0, 0⟩) := by
  rcases hh : halve cs with _ | ⟨left, m, right⟩
  · rw [split, count_inner hb, if_pos (halve_none hh)]
  obtain ⟨hget, htake, -, hdrop, h2⟩ := halve_cut hh
  obtain ⟨rfl, -, -⟩ := halve_eq hh
  have hkey : n.key ((left ++ m :: right).length / 2) = some m.1 := by
    rw [key, keys_inner hb, List.getElem?_map, hget, Option.map_some]
  have hchild : n.childId ((left ++ m :: right).length / 2) = some m.2 := by
    simp only [childId, hb, hget, Option.map_some]
  have hsub : right.Sublist (left ++ m :: right) :=
    (sublist_cons_self _ _).trans (sublist_append_right _ _)
  have hR := @rebuildInternal_eq m.2 right { newInternal with body := .inner m.2 [] } [] rfl
    (Sorted.sublist hsub hs) (slotsFit_sublist hsub hf)
  have hL := @rebuildInternal_eq p left ⟨.inner p [], n.parentId, 0⟩ [] rfl
    (Sorted.sublist (sublist_append_left _ _) hs)
    (slotsFit_sublist (sublist_append_left _ _) hf)
  rw [split, count_inner hb, if_neg h2, hkey, hb]
  simp only
  rw [hchild]
  simp only
  rw [htake, hdrop, hR, hL]
  rfl

end Node

end SeerDb
