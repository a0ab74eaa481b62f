/-
# `SeerDb.Lib.Buffer` — ranges of a buffer

A program that keeps structured data in a flat buffer reads and writes ranges of it.
`slice` is what a range holds, `splice` the buffer after a range was overwritten; a
range that was not touched holds what it held.

The checked reads stop with `Panic` outside the buffer, as an indexing expression does.
The lemmas about them say when they do not stop, and replace them by `slice`.
-/
import Mathlib.Algebra.GroupWithZero.Nat
import Mathlib.Algebra.Order.Group.Nat
import Mathlib.Data.List.Pairwise
import Mathlib.Data.List.Sort

namespace SeerDb.Lib

open List

section Slices

variable {α : Type*} {l r data bytes : List α} {start len a m : Nat}

/-- `data[start..start + len]`. -/
def slice (data : List α) (start len : Nat) : List α := (data.drop start).take len

theorem slice_skip (h : l.length ≤ start) :
    slice (l ++ r) start len = slice r (start - l.length) len := by
  rw [slice, drop_append, drop_of_length_le h, nil_append, slice]

theorem slice_head (h : l.length = len) : slice (l ++ r) 0 len = l := by
  rw [slice, drop_zero, ← h, take_left]

theorem slice_all (h : l.length = len) : slice l 0 len = l := by
  rw [slice, drop_zero, ← h, take_length]

theorem length_slice (h : start + len ≤ data.length) : (slice data start len).length = len := by
  rw [slice, length_take, length_drop]
  omega

/-- A slice of a slice. -/
theorem slice_slice (h : a + m ≤ len) :
    slice (slice data start len) a m = slice data (start + a) m := by
  simp only [slice, drop_take, drop_drop, take_take]
  congr 1
  omega

/-- A part of what a range holds. -/
theorem slice_of_slice {image : List α} (h : slice data start len = image) (hle : a + m ≤ len) :
    slice data (start + a) m = slice image a m := by
  rw [← h, slice_slice hle]

theorem getElem?_slice (data : List α) (start len : Nat) {j : Nat} (h : j < len) :
    (slice data start len)[j]? = data[start + j]? := by
  rw [slice, List.getElem?_take, if_pos h, List.getElem?_drop]

theorem slice_add (data : List α) (start len m : Nat) :
    slice data start (len + m) = slice data start len ++ slice data (start + len) m := by
  simp only [slice, take_add, drop_drop]

/-! ## Writing -/

/-- The buffer after `bytes` were copied to `data[start..]`. -/
def splice (data : List α) (start : Nat) (bytes : List α) : List α :=
  data.take start ++ bytes ++ data.drop (start + bytes.length)

theorem length_splice (h : start + bytes.length ≤ data.length) :
    (splice data start bytes).length = data.length := by
  simp only [splice, length_append, length_take, length_drop]
  omega

theorem slice_splice_self (h : start ≤ data.length) :
    slice (splice data start bytes) start bytes.length = bytes := by
  have hlen : (data.take start).length = start := by simp [h]
  rw [splice, append_assoc, slice_skip (Nat.le_of_eq hlen), hlen, Nat.sub_self, slice_head rfl]

theorem slice_splice_before (h : a + m ≤ start) (hs : start ≤ data.length) :
    slice (splice data start bytes) a m = slice data a m := by
  simp only [slice, splice, append_assoc]
  rw [drop_append_of_le_length (by simp; omega), take_append_of_le_length (by simp; omega),
    drop_take, take_take]
  congr 1
  omega

theorem slice_splice_after (h : start + bytes.length ≤ a) (hs : start ≤ data.length) :
    slice (splice data start bytes) a m = slice data a m := by
  have hlen : (data.take start ++ bytes).length = start + bytes.length := by simp [hs]
  rw [splice, slice_skip (by omega), hlen, slice, drop_drop, slice]
  congr 2
  omega

/-- Writing leaves every range apart from the written one as it was. -/
theorem slice_splice_apart (h : a + m ≤ start ∨ start + bytes.length ≤ a)
    (hs : start ≤ data.length) :
    slice (splice data start bytes) a m = slice data a m := by
  rcases h with h | h
  · exact slice_splice_before h hs
  · exact slice_splice_after h hs

/-- The buffers agree outside `[a, b)`. -/
structure SameOutside (data data' : List α) (a b : Nat) : Prop where
  length : data'.length = data.length
  slice_eq : ∀ {start len : Nat}, start + len ≤ a ∨ b ≤ start →
    slice data' start len = slice data start len

theorem sameOutside_splice (h : start + bytes.length ≤ data.length) :
    SameOutside data (splice data start bytes) start (start + bytes.length) :=
  ⟨length_splice h, fun h' => slice_splice_apart h' (Nat.le_trans (Nat.le_add_right _ _) h)⟩

theorem SameOutside.refl (data : List α) (a b : Nat) :
    SameOutside data data a b := ⟨rfl, fun _ => rfl⟩

/-- Two changes, both inside a larger range. -/
theorem SameOutside.trans {data₁ data₂ data₃ : List α} {a₁ b₁ a₂ b₂ a b : Nat}
    (h₁ : SameOutside data₁ data₂ a₁ b₁) (h₂ : SameOutside data₂ data₃ a₂ b₂)
    (ha₁ : a ≤ a₁) (hb₁ : b₁ ≤ b) (ha₂ : a ≤ a₂) (hb₂ : b₂ ≤ b) : SameOutside data₁ data₃ a b where
  length := h₂.length.trans h₁.length
  slice_eq h := (h₂.slice_eq (by omega)).trans (h₁.slice_eq (by omega))

end Slices

/-! ## Checked access -/

/-- An access outside the buffer, or a difference below zero: the program stops. -/
inductive Panic where
  | outOfBounds
  | overflow
deriving DecidableEq, Repr

section Checked

variable {α β : Type} {data : List α} {ε : Type}

theorem ok_bind (a : α) (f : α → Except ε β) : (Except.ok a >>= f) = f a := rfl

theorem bind_eq_ok {x : Except ε α} {f : α → Except ε β} {b : β} :
    (x >>= f) = .ok b ↔ ∃ a, x = .ok a ∧ f a = .ok b := by
  constructor
  · intro h
    cases x with
    | error e => cases h
    | ok a => exact ⟨a, rfl, h⟩
  · rintro ⟨a, rfl, h⟩
    exact h

theorem pure_eq_ok (a : α) : (pure a : Except ε α) = .ok a := rfl

/-- `data[i]`. -/
def readAt (data : List α) (i : Nat) : Except Panic α := match data[i]? with
  | some x => .ok x
  | none => .error .outOfBounds

/-- `data[start..stop]`. -/
def readRange (data : List α) (start stop : Nat) : Except Panic (List α) :=
  if start ≤ stop ∧ stop ≤ data.length then .ok (slice data start (stop - start))
  else .error .outOfBounds

/-- `a - b` in an unsigned type. -/
def checkedSub (a b : Nat) : Except Panic Nat := if b ≤ a then .ok (a - b) else .error .overflow

theorem checkedSub_ok {a b : Nat} (h : b ≤ a) : checkedSub a b = .ok (a - b) := if_pos h

theorem readAt_ok {i : Nat} (h : i < data.length) : readAt data i = .ok data[i] := by
  simp [readAt, h]

theorem readRange_ok {start stop : Nat} (h1 : start ≤ stop) (h2 : stop ≤ data.length) :
    readRange data start stop = .ok (slice data start (stop - start)) := by
  simp [readRange, h1, h2]

/-- A loop of reads none of which stops. -/
theorem mapM_ok {f : α → Except ε β} {g : α → β} : ∀ {l : List α},
    (∀ x ∈ l, f x = .ok (g x)) → l.mapM f = .ok (l.map g)
  | [], _ => rfl
  | x :: l, h => by
    rw [mapM_cons, h x (.head _), ok_bind, mapM_ok fun y hy => h y (.tail _ hy)]
    rfl

end Checked

/-! ## Where a record ends

Records without a stored length end where the next one begins.
-/

section Next

variable {l r : List Nat} {x y stop : Nat}

/-- The smallest of `l` above `x`, or `stop`. -/
def nextAbove (l : List Nat) (x stop : Nat) : Nat := (l.filter (x < ·)).min?.getD stop

theorem nextAbove_cases (l : List Nat) (x stop : Nat) :
    (nextAbove l x stop = stop ∧ ∀ z ∈ l, z ≤ x) ∨
      (x < nextAbove l x stop ∧ nextAbove l x stop ∈ l ∧ ∀ z ∈ l, x < z →
        nextAbove l x stop ≤ z) := by
  rw [nextAbove]
  cases hm : (l.filter (x < ·)).min? with
  | none =>
    rw [List.min?_eq_none_iff, filter_eq_nil_iff] at hm
    exact .inl ⟨rfl, fun z hz => by simpa using hm z hz⟩
  | some a =>
    rw [List.min?_eq_some_iff] at hm
    obtain ⟨hmem, hle⟩ := hm
    rw [mem_filter, decide_eq_true_eq] at hmem
    refine .inr ⟨hmem.2, hmem.1, ?_⟩
    intro z hz hxz
    exact hle z (mem_filter.mpr ⟨hz, by simpa using hxz⟩)

theorem lt_nextAbove (h : x < stop) : x < nextAbove l x stop := by
  rcases nextAbove_cases l x stop with ⟨he, -⟩ | ⟨hlt, -⟩
  · rwa [he]
  · exact hlt

theorem nextAbove_le (h : ∀ z ∈ l, z < stop) : nextAbove l x stop ≤ stop := by
  rcases nextAbove_cases l x stop with ⟨he, -⟩ | ⟨-, hmem, -⟩
  · exact Nat.le_of_eq he
  · exact Nat.le_of_lt (h _ hmem)

theorem nextAbove_eq_of_mem (hy : y ∈ l) (hxy : x < y) (hle : ∀ z ∈ l, x < z → y ≤ z) :
    nextAbove l x stop = y := by
  rcases nextAbove_cases l x stop with ⟨-, hall⟩ | ⟨hlt, hmem, hmin⟩
  · exact absurd (hall y hy) (Nat.not_le.mpr hxy)
  · exact Nat.le_antisymm (hmin y hy hxy) (hle _ hmem hlt)

theorem nextAbove_eq_stop (h : ∀ z ∈ l, z ≤ x) : nextAbove l x stop = stop := by
  rcases nextAbove_cases l x stop with ⟨he, -⟩ | ⟨hlt, hmem, -⟩
  · exact he
  · exact absurd (h _ hmem) (Nat.not_le.mpr hlt)

theorem nextAbove_perm (h : l.Perm r) : nextAbove l x stop = nextAbove r x stop := by
  rcases nextAbove_cases l x stop with ⟨he, hall⟩ | ⟨hlt, hmem, hmin⟩
  · rw [he, nextAbove_eq_stop fun z hz => hall z (h.mem_iff.mpr hz)]
  · exact (nextAbove_eq_of_mem (h.mem_iff.mp hmem) hlt fun z hz => hmin z (h.mem_iff.mpr hz)).symm

/-- In an increasing list the next one stands one place further. -/
theorem nextAbove_of_sorted (hs : l.Pairwise (· < ·)) {j : Nat} (hj : j < l.length) :
    nextAbove l l[j] stop = l[j + 1]?.getD stop := by
  have hmono := pairwise_iff_getElem.mp hs
  by_cases hnext : j + 1 < l.length
  · rw [List.getElem?_eq_getElem hnext, Option.getD_some]
    refine nextAbove_eq_of_mem (getElem_mem hnext)
      (hmono j (j + 1) hj hnext (Nat.lt_succ_self j)) ?_
    intro z hz hlt
    obtain ⟨k, hk, rfl⟩ := mem_iff_getElem.mp hz
    -- an element above `l[j]` stands behind it
    rcases Nat.lt_trichotomy k (j + 1) with hkj | rfl | hkj
    · rcases Nat.lt_or_ge k j with hkj' | hkj'
      · exact absurd (hmono k j hk hj hkj') (Nat.lt_asymm hlt)
      · obtain rfl : k = j := Nat.le_antisymm (Nat.lt_succ_iff.mp hkj) hkj'
        exact absurd hlt (Nat.lt_irrefl _)
    · exact Nat.le_refl _
    · exact Nat.le_of_lt (hmono (j + 1) k hnext hk hkj)
  · rw [List.getElem?_eq_none (Nat.not_lt.mp hnext), Option.getD_none]
    refine nextAbove_eq_stop ?_
    intro z hz
    obtain ⟨k, hk, rfl⟩ := mem_iff_getElem.mp hz
    rcases Nat.lt_or_ge k j with hkj | hkj
    · exact Nat.le_of_lt (hmono k j hk hj hkj)
    · obtain rfl : k = j := by omega
      exact Nat.le_refl _

end Next

/-! ## Records back to back -/

section Packed

variable {R : Type*} {size : R → Nat} {stop a : Nat} {l : List (Nat × R)} {x y : Nat × R}

/-- The records of `l`, each with its offset, fill the buffer from `a` to `stop`. -/
def Packed (size : R → Nat) (stop : Nat) : Nat → List (Nat × R) → Prop
  | a, [] => a = stop
  | a, x :: l => x.1 = a ∧ Packed size stop (a + size x.2) l

namespace Packed

theorem le_stop : ∀ {l : List (Nat × R)} {a : Nat}, Packed size stop a l → a ≤ stop := by
  intro l
  induction l with
  | nil => exact fun h => Nat.le_of_eq h
  | cons x l ih => exact fun h => Nat.le_trans (Nat.le_add_right _ _) (ih h.2)

theorem bounds : ∀ {l : List (Nat × R)} {a : Nat}, Packed size stop a l → x ∈ l →
    a ≤ x.1 ∧ x.1 + size x.2 ≤ stop := by
  intro l
  induction l with
  | nil => intro a _ hx; cases hx
  | cons y l ih =>
    intro a h hx
    obtain ⟨rfl, h⟩ := h
    rcases mem_cons.mp hx with rfl | hx
    · exact ⟨Nat.le_refl _, h.le_stop⟩
    · obtain ⟨h1, h2⟩ := ih h hx
      exact ⟨Nat.le_trans (Nat.le_add_right _ _) h1, h2⟩

theorem increasing : ∀ {l : List (Nat × R)} {a : Nat}, Packed size stop a l →
    l.Pairwise fun x y => x.1 + size x.2 ≤ y.1 := by
  intro l
  induction l with
  | nil => exact fun _ => List.Pairwise.nil
  | cons x l ih =>
    intro a h
    obtain ⟨rfl, h⟩ := h
    exact pairwise_cons.mpr ⟨fun y hy => (h.bounds hy).1, ih h⟩

/-- A record ends where the next one begins. -/
theorem nextAbove_eq (hpos : ∀ r, 0 < size r) : ∀ {l : List (Nat × R)} {a : Nat},
    Packed size stop a l → x ∈ l → nextAbove (l.map Prod.fst) x.1 stop = x.1 + size x.2 := by
  intro l
  induction l with
  | nil => intro a _ hx; cases hx
  | cons y l ih =>
    intro a h hx
    obtain ⟨rfl, h⟩ := h
    rcases mem_cons.mp hx with rfl | hx
    · cases l with
      | nil =>
        refine (nextAbove_eq_stop ?_).trans (Eq.symm h)
        intro z hz
        exact Nat.le_of_eq (by simpa using hz)
      | cons w l =>
        have hw : w.1 = x.1 + size x.2 := h.1
        have hlt := hpos x.2
        rw [← hw]
        refine nextAbove_eq_of_mem (by simp) (by omega) ?_
        intro z hz hlt'
        rcases mem_cons.mp hz with rfl | hz
        · exact absurd hlt' (Nat.lt_irrefl _)
        · obtain ⟨v, hv, rfl⟩ := mem_map.mp hz
          have := (h.bounds hv).1
          omega
    · -- the first record lies below
      have hy : y.1 ≤ x.1 := Nat.le_trans (Nat.le_add_right _ _) (h.bounds hx).1
      rw [← ih h hx, nextAbove, nextAbove, map_cons, filter_cons_of_neg (by simpa using hy)]

/-- Two records do not overlap. -/
theorem apart (h : Packed size stop a l) (hx : x ∈ l) (hy : y ∈ l)
    (hne : x ≠ y) : x.1 + size x.2 ≤ y.1 ∨ y.1 + size y.2 ≤ x.1 := by
  have hsymm : l.Pairwise fun x y => x.1 + size x.2 ≤ y.1 ∨ y.1 + size y.2 ≤ x.1 :=
    h.increasing.imp .inl
  have : Std.Symm fun x y : Nat × R => x.1 + size x.2 ≤ y.1 ∨ y.1 + size y.2 ≤ x.1 :=
    ⟨fun _ _ => Or.symm⟩
  exact hsymm.forall hx hy hne

/-- A record may be replaced by one of its size. -/
theorem replace {r' : R} : ∀ {l l' : List (Nat × R)} {a : Nat}, Packed size stop a (l ++ x :: l') →
    size r' = size x.2 → Packed size stop a (l ++ (x.1, r') :: l') := by
  intro l l'
  induction l with
  | nil => exact fun h hsize => ⟨h.1, by rw [hsize]; exact h.2⟩
  | cons y l ih => exact fun h hsize => ⟨h.1, ih h.2 hsize⟩

theorem nodup (hpos : ∀ r, 0 < size r) (h : Packed size stop a l) : (l.map Prod.fst).Nodup := by
  refine pairwise_map.mpr (h.increasing.imp ?_)
  intro x y hxy
  have := hpos x.2
  omega

end Packed

end Packed

end SeerDb.Lib
