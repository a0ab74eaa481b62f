/-
# `SeerDb.Lib.Framing` — files of framed records

A file of frames, one behind the other.  A reader `next` takes one frame off the head of
what is left, or finds none there; `scan` reads until it finds none.  For a framing (what
is written is read back, and no cut frame is taken for one) the scan of a file returns the
frames that were written as a whole, whatever part of a further one follows them.
-/
import Mathlib.Algebra.GroupWithZero.Nat
import Mathlib.Algebra.Order.Group.Nat
import Mathlib.Data.List.Basic
import Mathlib.Tactic.Common

namespace SeerDb.Lib

open List

/-! ## Scans -/

section Scan

variable {α R ε : Type}

/-- The frames at the head of a file, and the length they take. -/
def scan (next : List α → Except ε (Option (R × Nat))) : Nat → List α → Except ε (List R × Nat)
  | 0, _ => .ok ([], 0)
  | fuel + 1, data => match next data with
    | .error e => .error e
    | .ok none => .ok ([], 0)
    | .ok (some (r, len)) => match scan next fuel (data.drop len) with
      | .error e => .error e
      | .ok (rs, rest) => .ok (r :: rs, len + rest)

/-- `next` reads what `encode` writes of a valid frame, and nothing less. -/
structure Framing (next : List α → Except ε (Option (R × Nat))) (encode : R → List α)
    (Valid : R → Prop) : Prop where
  empty : next [] = .ok none
  pos : ∀ {r}, Valid r → 0 < (encode r).length
  whole : ∀ {r}, Valid r → ∀ rest, next (encode r ++ rest) = .ok (some (r, (encode r).length))
  torn : ∀ {r}, Valid r → ∀ {k}, k < (encode r).length → next ((encode r).take k) = .ok none

namespace Framing

variable {next : List α → Except ε (Option (R × Nat))} {encode : R → List α} {Valid : R → Prop}
  {rs : List R} {r : R} {tail : List α}

theorem length_le (h : Framing next encode Valid) (hv : ∀ r ∈ rs, Valid r) :
    rs.length ≤ (rs.flatMap encode).length := by
  induction rs with
  | nil => simp
  | cons r rs ih =>
    have hpos := h.pos (hv r (.head _))
    have hle := ih fun x hx => hv x (.tail _ hx)
    simp only [flatMap_cons, length_append, length_cons]
    omega

/-- **The scan of a file.** -/
theorem scan_eq (h : Framing next encode Valid) (ht : next tail = .ok none) :
    ∀ {rs : List R} {fuel : Nat}, (∀ r ∈ rs, Valid r) → rs.length < fuel →
      scan next fuel (rs.flatMap encode ++ tail) = .ok (rs, (rs.flatMap encode).length) := by
  intro rs
  induction rs with
  | nil =>
    intro fuel _ hfuel
    obtain ⟨fuel, rfl⟩ := Nat.exists_eq_succ_of_ne_zero (Nat.ne_of_gt hfuel)
    simp only [scan, flatMap_nil, nil_append, ht, length_nil]
  | cons r rs ih =>
    intro fuel hv hfuel
    obtain ⟨fuel, rfl⟩ := Nat.exists_eq_succ_of_ne_zero (Nat.ne_of_gt (Nat.zero_lt_of_lt hfuel))
    have hr := hv r (.head _)
    have hrest := ih (fun x hx => hv x (.tail _ hx)) (Nat.lt_of_succ_lt_succ hfuel)
    simp only [scan, flatMap_cons, append_assoc, h.whole hr, drop_left, hrest, length_append]

end Framing

end Scan

end SeerDb.Lib
