/-
# `SeerDb.Lib.BinarySearch` — bisection over an ordered index space

`bisect f fuel lo hi found` is the loop

    while lo < hi { mid = lo + (hi - lo) / 2;
                    match f(mid) { Less => lo = mid + 1,
                                    Equal => { found = Some(mid); hi = mid },
                                    Greater => hi = mid } }

with one unit of fuel a turn; the interval shrinks every turn, so `hi - lo`
units are enough.  `bisect_eq` says what it computes: the lower bound of `f`, and
the first equal position if there is one.
-/
import SeerDb.Lib.SortedMap

namespace SeerDb.Lib

open List

/-- Three-way comparison in the linear order. -/
def order {α : Type} [LinearOrder α] (a b : α) : Ordering :=
  if a < b then .lt else if a = b then .eq else .gt

theorem order_lt {α : Type} [LinearOrder α] {a b : α} (h : a < b) : order a b = .lt := by
  simp [order, h]

@[simp] theorem order_self {α : Type} [LinearOrder α] (a : α) : order a a = .eq := by
  simp [order]

theorem order_gt {α : Type} [LinearOrder α] {a b : α} (h : b < a) : order a b = .gt := by
  simp [order, h.not_gt, h.ne']

def bisect (f : Nat → Ordering) : Nat → Nat → Nat → Option Nat → Nat × Option Nat
  | 0, lo, _, found => (lo, found)
  | fuel + 1, lo, hi, found =>
    if lo < hi then
      match f (lo + (hi - lo) / 2) with
      | .lt => bisect f fuel (lo + (hi - lo) / 2 + 1) hi found
      | .eq => bisect f fuel lo (lo + (hi - lo) / 2) (some (lo + (hi - lo) / 2))
      | .gt => bisect f fuel lo (lo + (hi - lo) / 2) found
    else (lo, found)

/-- The same loop over a comparison that can stop the program, or fail: `error mid` is
the position whose comparison failed. -/
def bisectM {ε : Type} (f : Nat → Except ε (Option Ordering)) :
    Nat → Nat → Nat → Option Nat → Except ε (Except Nat (Nat × Option Nat))
  | 0, lo, _, found => .ok (.ok (lo, found))
  | fuel + 1, lo, hi, found =>
    if lo < hi then
      match f (lo + (hi - lo) / 2) with
      | .error e => .error e
      | .ok none => .ok (.error (lo + (hi - lo) / 2))
      | .ok (some .lt) => bisectM f fuel (lo + (hi - lo) / 2 + 1) hi found
      | .ok (some .eq) => bisectM f fuel lo (lo + (hi - lo) / 2) (some (lo + (hi - lo) / 2))
      | .ok (some .gt) => bisectM f fuel lo (lo + (hi - lo) / 2) found
    else .ok (.ok (lo, found))

/-- A comparison that answers everywhere below `hi`. -/
theorem bisectM_ok {ε : Type} {f : Nat → Except ε (Option Ordering)} {g : Nat → Ordering} :
    ∀ (fuel lo hi : Nat) (found : Option Nat), (∀ i < hi, f i = .ok (some (g i))) →
      bisectM f fuel lo hi found = .ok (.ok (bisect g fuel lo hi found)) := by
  intro fuel
  induction fuel with
  | zero => intro lo hi found _; rfl
  | succ fuel ih =>
    intro lo hi found h
    rw [bisectM, bisect]
    by_cases hlt : lo < hi
    · have hmid : lo + (hi - lo) / 2 < hi := by omega
      have hleft := ih lo (lo + (hi - lo) / 2)
      rw [if_pos hlt, if_pos hlt, h _ hmid]
      cases g (lo + (hi - lo) / 2) with
      | lt => exact ih _ hi found h
      | eq => exact hleft _ fun i hi' => h i (hi'.trans hmid)
      | gt => exact hleft _ fun i hi' => h i (hi'.trans hmid)
    · rw [if_neg hlt, if_neg hlt]

/-- `n` is the first position below `m` at which `f` is not smaller; if a position
is equal, then `n` is. -/
structure LowerBound (f : Nat → Ordering) (n m : Nat) : Prop where
  le : n ≤ m
  below : ∀ i < n, f i = .lt
  from_ : ∀ i, n ≤ i → i < m → f i ≠ .lt
  first : ∀ i, n ≤ i → i < m → f i = .eq → f n = .eq

/-- `n` is the partition point of `f` below `m`: smaller before it, and after
it strictly greater, so that only position `n` itself can be equal. -/
structure PartitionPoint (f : Nat → Ordering) (n m : Nat) : Prop where
  le : n ≤ m
  below : ∀ i < n, f i = .lt
  at_ : n < m → f n ≠ .lt
  above : ∀ i, n < i → i < m → f i = .gt

theorem PartitionPoint.lowerBound {f : Nat → Ordering} {n m : Nat} (h : PartitionPoint f n m) :
    LowerBound f n m := by
  refine ⟨h.le, h.below, ?_, ?_⟩
  · intro i h1 h2
    rcases h1.eq_or_lt with rfl | h1
    · exact h.at_ h2
    · rw [h.above i h1 h2]
      simp
  · intro i h1 h2 hi
    rcases h1.eq_or_lt with rfl | h1
    · exact hi
    · rw [h.above i h1 h2] at hi
      cases hi

/-- The bisection ends at the lower bound and finds the first equal position. -/
theorem bisect_eq {f : Nat → Ordering} {n m : Nat} (h : LowerBound f n m) :
    ∀ (fuel lo hi : Nat) (found : Option Nat), lo ≤ n → n ≤ hi → hi ≤ m → hi - lo ≤ fuel →
      bisect f fuel lo hi found = (n, if n < hi ∧ f n = .eq then some n else found)
  | 0, lo, hi, found, h1, h2, _, h4 => by
    have hlo : lo = n := by omega
    have hhi : ¬ n < hi := by omega
    simp [bisect, hlo, hhi]
  | fuel + 1, lo, hi, found, h1, h2, h3, h4 => by
    rw [bisect]
    by_cases hlt : lo < hi
    · rw [if_pos hlt]
      generalize hmid : lo + (hi - lo) / 2 = mid
      have hm1 : lo ≤ mid := by omega
      have hm2 : mid < hi := by omega
      -- which side of `mid` the bound lies on
      rcases Nat.lt_or_ge mid n with hc | hc
      · rw [h.below mid hc]
        simp only
        rw [bisect_eq h fuel (mid + 1) hi found (by omega) h2 h3 (by omega)]
      have hn : n < hi := by omega
      cases hf : f mid with
      | lt => exact absurd hf (h.from_ mid hc (by omega))
      | eq =>
        have hfn : f n = .eq := h.first mid hc (by omega) hf
        simp only
        rw [bisect_eq h fuel lo mid (some mid) h1 hc (by omega) (by omega)]
        rcases hc.eq_or_lt with rfl | hc
        · simp [hn, hfn]
        · simp [hn, hfn, hc]
      | gt =>
        simp only
        rw [bisect_eq h fuel lo mid found h1 hc (by omega) (by omega)]
        rcases hc.eq_or_lt with rfl | hc
        · simp [hf]
        · simp [hn, hc]
    · have h5 : n = lo := by omega
      simp [hlt, h5]

section Cut

variable {α β : Type} [LinearOrder α] {l r : List (α × β)} {k : α} {f : Nat → Ordering}

theorem compare_left (hl : ∀ e ∈ l, e.1 < k)
    (hf : ∀ i e, (l ++ r)[i]? = some e → f i = order e.1 k) : ∀ i < l.length, f i = .lt := by
  intro i hi
  rw [hf i l[i] (by simp [List.getElem?_append_left hi])]
  exact order_lt (hl _ (getElem_mem hi))

/-- On entries without `k`, "compared with `k`" has its partition point at the cut. -/
theorem partitionPoint_of_cut (hl : ∀ e ∈ l, e.1 < k) (hr : ∀ e ∈ r, k < e.1)
    (hf : ∀ i e, (l ++ r)[i]? = some e → f i = order e.1 k) :
    PartitionPoint f l.length (l ++ r).length := by
  have hright : ∀ i, l.length ≤ i → i < (l ++ r).length → f i = .gt := by
    intro i h1 h2
    obtain ⟨j, rfl⟩ : ∃ j, i = l.length + j := ⟨i - l.length, by omega⟩
    have hj : j < r.length := by simp at h2; omega
    rw [hf _ r[j] (by simp [hj])]
    exact order_gt (hr _ (getElem_mem hj))
  refine ⟨by simp, compare_left hl hf, ?_, ?_⟩
  · intro h
    rw [hright _ le_rfl h]
    simp
  · intro i h1 h2
    exact hright i h1.le h2

/-- On entries with `k`, the lower bound is its first place. -/
theorem lowerBound_of_cut {v : β} (hl : ∀ e ∈ l, e.1 < k) (hr : ∀ e ∈ r, k ≤ e.1)
    (hf : ∀ i e, (l ++ (k, v) :: r)[i]? = some e → f i = order e.1 k) :
    LowerBound f l.length (l ++ (k, v) :: r).length := by
  refine ⟨by simp, compare_left hl hf, ?_, ?_⟩
  · intro i h1 h2
    obtain ⟨j, rfl⟩ : ∃ j, i = l.length + j := ⟨i - l.length, by omega⟩
    have hj : j < ((k, v) :: r).length := by simp only [length_append] at h2; omega
    have hget : (l ++ (k, v) :: r)[l.length + j]? = some ((k, v) :: r)[j] := by
      rw [List.getElem?_append_right (by omega), Nat.add_sub_cancel_left,
        List.getElem?_eq_getElem hj]
    rw [hf _ _ hget]
    have hle : k ≤ (((k, v) :: r)[j]).1 := by
      rcases mem_cons.mp (getElem_mem hj) with h | h
      · rw [h]
      · exact hr _ h
    rcases hle.lt_or_eq with h | h
    · simp [order_gt h]
    · simp [← h]
  · intro i _ _ _
    rw [hf l.length (k, v) (by simp)]
    exact order_self k

end Cut

/-! ## Searching a list that does not decrease -/

section Ordered

variable {α : Type} [LinearOrder α] {ks : List α} {k : α} {f : Nat → Ordering}

/-- The elements with a downward closed property are the first ones. -/
theorem lt_countP_iff {P : α → Prop} [DecidablePred P] (hP : ∀ a b, a ≤ b → P b → P a)
    (hs : ks.Pairwise (· ≤ ·)) : ∀ {i : Nat} (hi : i < ks.length), i < ks.countP P ↔ P ks[i] := by
  induction ks with
  | nil => intro i hi; cases hi
  | cons a ks ih =>
    intro i hi
    obtain ⟨hle, hs'⟩ := pairwise_cons.mp hs
    by_cases ha : P a
    · rw [countP_cons_of_pos (by simpa using ha)]
      cases i with
      | zero => simp [ha]
      | succ i => simpa using ih hs' (Nat.lt_of_succ_lt_succ hi)
    have hnone : ∀ b ∈ a :: ks, ¬ P b := by
      intro b hb hPb
      rcases mem_cons.mp hb with rfl | hb
      · exact ha hPb
      · exact ha (hP a b (hle b hb) hPb)
    rw [countP_eq_zero.mpr (by simpa using hnone)]
    exact iff_of_false (Nat.not_lt_zero i) (hnone _ (getElem_mem hi))

/-- The first place of an element comes after the smaller ones. -/
theorem idxOf_eq_countP [BEq α] [LawfulBEq α] [DecidablePred (· < k)] (hs : ks.Pairwise (· ≤ ·))
    (hk : k ∈ ks) :
    ks.idxOf k = ks.countP (· < k) := by
  induction ks with
  | nil => cases hk
  | cons a ks ih =>
    obtain ⟨hle, hs'⟩ := pairwise_cons.mp hs
    by_cases ha : a = k
    · subst ha
      have hnone : ∀ b ∈ a :: ks, ¬ b < a := by
        intro b hb
        rcases mem_cons.mp hb with rfl | hb
        · exact lt_irrefl b
        · exact not_lt.mpr (hle b hb)
      rw [idxOf_cons_self, countP_eq_zero.mpr (by simpa using hnone)]
    · have hmem : k ∈ ks := (mem_cons.mp hk).resolve_left (Ne.symm ha)
      have hlt : a < k := lt_of_le_of_ne (hle k hmem) ha
      rw [idxOf_cons_ne _ ha, countP_cons_of_pos (by simpa using hlt), ih hs' hmem]

theorem lowerBound_of_ordered [DecidablePred (· < k)] (hs : ks.Pairwise (· ≤ ·))
    (hf : ∀ i (h : i < ks.length), f i = order ks[i] k) :
    LowerBound f (ks.countP (· < k)) ks.length := by
  have hiff : ∀ {i} (hi : i < ks.length), i < ks.countP (· < k) ↔ ks[i] < k :=
    fun hi => lt_countP_iff (fun a b hab hb => hab.trans_lt hb) hs hi
  refine ⟨countP_le_length, ?_, ?_, ?_⟩
  · intro i hi
    have hi' := hi.trans_le (countP_le_length)
    rw [hf i hi', order_lt ((hiff hi').mp hi)]
  · intro i hge hi he
    have hnot : ¬ ks[i] < k := fun h => absurd ((hiff hi).mpr h) (not_lt.mpr hge)
    rw [hf i hi, order, if_neg hnot] at he
    split at he <;> cases he
  · intro i hge hi he
    have hn : ks.countP (· < k) < ks.length := hge.trans_lt hi
    have hik : ks[i] = k := by
      rw [hf i hi, order] at he
      split at he
      · cases he
      · split at he
        · assumption
        · cases he
    have hle : ks[ks.countP (· < k)] ≤ k := by
      rcases hge.eq_or_lt with hEq | hlt
      · simp only [hEq, hik, le_refl]
      · exact hik ▸ pairwise_iff_getElem.mp hs _ i hn hi hlt
    have hnot : ¬ ks[ks.countP (· < k)] < k := fun h => lt_irrefl _ ((hiff hn).mpr h)
    rw [hf _ hn, le_antisymm hle (not_lt.mp hnot), order_self]

/-- A search that takes equal elements for smaller ones. -/
theorem partitionPoint_of_ordered [DecidablePred (· ≤ k)] (hs : ks.Pairwise (· ≤ ·))
    (hf : ∀ i (h : i < ks.length), f i = if ks[i] ≤ k then .lt else .gt) :
    PartitionPoint f (ks.countP (· ≤ k)) ks.length := by
  have hiff : ∀ {i} (hi : i < ks.length), i < ks.countP (· ≤ k) ↔ ks[i] ≤ k :=
    fun hi => lt_countP_iff (fun a b hab hb => hab.trans hb) hs hi
  have habove : ∀ i, ks.countP (· ≤ k) ≤ i → i < ks.length → f i = .gt := by
    intro i hge hi
    rw [hf i hi, if_neg fun h => absurd ((hiff hi).mpr h) (not_lt.mpr hge)]
  refine ⟨countP_le_length, ?_, ?_, fun i hi => habove i hi.le⟩
  · intro i hi
    have hi' := hi.trans_le (countP_le_length)
    rw [hf i hi', if_pos ((hiff hi').mp hi)]
  · intro h he
    rw [habove _ le_rfl h] at he
    cases he

end Ordered

end SeerDb.Lib
