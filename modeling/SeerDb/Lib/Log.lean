/-
# `SeerDb.Lib.Log` — append-only files of checksummed records

A log file is the list of its readable records followed by a tail of bytes that
no reader accepts (a cut record, or the zero filler of an extended file), with
the number of leading records known to be durable.  A crash keeps every durable
record, cuts the rest at an arbitrary point, and leaves whatever part of the cut
record had reached the disk as the tail.  That a cut record is never accepted is
the assumption on the checksum that protects it.
-/
import Mathlib.Algebra.GroupWithZero.Nat
import Mathlib.Algebra.Order.Group.Nat
import Mathlib.Tactic.Common
import Mathlib.Algebra.BigOperators.Group.List.Basic

namespace SeerDb.Lib

open List

structure LogFile (R : Type) where
  records : List R
  torn : Nat
  synced : Nat
deriving DecidableEq, Repr

namespace LogFile

variable {R : Type} (size : R → Nat)

def empty : LogFile R := ⟨[], 0, 0⟩

/-- Bytes of a list of records. -/
def bytes (rs : List R) : Nat := (rs.map size).sum

/-- Length of the file. -/
def length (l : LogFile R) : Nat := bytes size l.records + l.torn

/-- Behind an unreadable tail a record is unreadable too. -/
def append (l : LogFile R) (r : R) : LogFile R :=
  if l.torn = 0 then { l with records := l.records ++ [r] }
  else { l with torn := l.torn + size r }

def appendAll (l : LogFile R) (rs : List R) : LogFile R := rs.foldl (append size) l

def sync (l : LogFile R) : LogFile R := { l with synced := l.records.length }

/-- The leading records that lie within the first `len` bytes. -/
def within : Nat → List R → List R
  | _, [] => []
  | len, r :: rs => if size r ≤ len then r :: within (len - size r) rs else []

/-- Cut or extend the file to `len` bytes. -/
def truncate (l : LogFile R) (len : Nat) : LogFile R :=
  let kept := within size len l.records
  ⟨kept, len - bytes size kept, min l.synced kept.length⟩

/-- What a crash leaves of the file. -/
def Crash (l l' : LogFile R) : Prop :=
  ∃ k t, l.synced ≤ k ∧ k ≤ l.records.length ∧
    t ≤ bytes size (l.records.drop k) + l.torn ∧ l' = ⟨l.records.take k, t, k⟩

/-! ## The operations on a file without a tail -/

section
variable {size : R → Nat} {l : LogFile R}

@[simp] theorem bytes_nil : bytes size [] = 0 := rfl

@[simp] theorem bytes_cons (r : R) (rs : List R) :
    bytes size (r :: rs) = size r + bytes size rs := by
  simp [bytes]

@[simp] theorem bytes_append (rs rs' : List R) :
    bytes size (rs ++ rs') = bytes size rs + bytes size rs' := by
  simp [bytes]

@[simp] theorem sync_records : l.sync.records = l.records := rfl

@[simp] theorem sync_torn : l.sync.torn = l.torn := rfl

theorem append_of_clean (h : l.torn = 0) (r : R) :
    append size l r = { l with records := l.records ++ [r] } := by
  rw [append, if_pos h]

theorem appendAll_of_clean (h : l.torn = 0) (rs : List R) :
    appendAll size l rs = { l with records := l.records ++ rs } := by
  induction rs generalizing l with
  | nil => simp [appendAll]
  | cons r rs ih =>
    have := ih (l := { l with records := l.records ++ [r] }) h
    simp only [appendAll, foldl_cons, append_of_clean h] at this ⊢
    rw [this]
    simp

theorem within_bytes_append (hpos : ∀ r, 0 < size r) (rs rs' : List R) :
    within size (bytes size rs) (rs ++ rs') = rs := by
  induction rs with
  | nil =>
    cases rs' with
    | nil => rfl
    | cons r rs' =>
      have := hpos r
      simp [within]
      omega
  | cons r rs ih =>
    simp only [cons_append, within, bytes_cons, Nat.le_add_right, if_pos,
      Nat.add_sub_cancel_left, ih]

theorem within_append (cut : Nat) : ∀ rs : List R, ∃ post, rs = within size cut rs ++ post := by
  intro rs
  induction rs generalizing cut with
  | nil => exact ⟨[], rfl⟩
  | cons r rs ih =>
    rw [within]
    split
    · obtain ⟨post, hpost⟩ := ih (cut - size r)
      exact ⟨post, by rw [cons_append, ← hpost]⟩
    · exact ⟨r :: rs, rfl⟩

/-- The bytes of a file up to `cut`: the records within it, and the beginning of the next one. -/
theorem take_flatMap {α : Type} {encode : R → List α} : ∀ {rs : List R} {cut : Nat},
    (∀ r ∈ rs, (encode r).length = size r) → cut ≤ bytes size rs →
      ∃ k, cut = bytes size (within size cut rs) + k ∧
      ((k = 0 ∧ (rs.flatMap encode).take cut = (within size cut rs).flatMap encode) ∨
        ∃ r ∈ rs, 0 < k ∧ k < size r ∧ (rs.flatMap encode).take cut =
          (within size cut rs).flatMap encode ++ (encode r).take k) := by
  intro rs
  induction rs with
  | nil =>
    intro cut _ hcut
    obtain rfl := Nat.le_zero.mp hcut
    exact ⟨0, rfl, .inl ⟨rfl, rfl⟩⟩
  | cons r rs ih =>
    intro cut hsize hcut
    have hr := hsize r (.head _)
    rw [bytes_cons] at hcut
    rw [flatMap_cons, take_append, hr, within]
    split
    · rename_i hle
      obtain ⟨k, hk, htake⟩ := @ih (cut - size r) (fun x hx => hsize x (.tail _ hx)) (by omega)
      have hcut' : cut = size r + (cut - size r) := (Nat.add_sub_cancel' hle).symm
      refine ⟨k, by rw [bytes_cons, Nat.add_assoc, ← hk]; exact hcut', ?_⟩
      rw [take_of_length_le (hr.trans_le hle), flatMap_cons]
      rcases htake with ⟨hk0, heq⟩ | ⟨x, hx, hpos, hlt, heq⟩
      · exact .inl ⟨hk0, by rw [heq]⟩
      · exact .inr ⟨x, .tail _ hx, hpos, hlt, by rw [heq, append_assoc]⟩
    rename_i hlt
    refine ⟨cut, (Nat.zero_add cut).symm, ?_⟩
    rw [show cut - size r = 0 by omega, take_zero, append_nil]
    rcases Nat.eq_zero_or_pos cut with rfl | hpos
    · exact .inl ⟨rfl, take_zero⟩
    · exact .inr ⟨r, .head _, hpos, Nat.lt_of_not_le hlt, rfl⟩

/-- Cutting a file at the end of one of its records. -/
theorem truncate_bytes (hpos : ∀ r, 0 < size r) {rs rs' : List R} (h : l.records = rs ++ rs') :
    truncate size l (bytes size rs) = ⟨rs, 0, min l.synced rs.length⟩ := by
  simp [truncate, h, within_bytes_append hpos]

end

end LogFile

end SeerDb.Lib
