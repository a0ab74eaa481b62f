/-
# `SeerDb.Encoding` — integers and checksums as bytes

`to_le_bytes`, `from_le_bytes` and `crc32c`, which every layout of the database is built from.
-/
import SeerDb.Btree.Node
import SeerDb.Lib.Buffer

namespace SeerDb

open Lib

/-- `to_le_bytes` of an unsigned integer of `width` bytes. -/
def toLe : Nat → Nat → Bytes
  | 0, _ => []
  | width + 1, n => UInt8.ofNat (n % 256) :: toLe width (n / 256)

/-- `from_le_bytes`. -/
def ofLe : Bytes → Nat
  | [] => 0
  | b :: bs => b.toNat + 256 * ofLe bs

@[simp] theorem length_toLe (width n : Nat) : (toLe width n).length = width := by
  induction width generalizing n with
  | zero => rfl
  | succ width ih => simp [toLe, ih]

/-- A number that does not fit is cut. -/
theorem ofLe_toLe_mod (width n : Nat) : ofLe (toLe width n) = n % 256 ^ width := by
  induction width generalizing n with
  | zero => simp [toLe, ofLe, Nat.mod_one]
  | succ width ih =>
    rw [toLe, ofLe, ih, Nat.pow_succ', Nat.mod_mul]
    simp [UInt8.toNat_ofNat']

theorem ofLe_toLe (width n : Nat) (h : n < 256 ^ width) : ofLe (toLe width n) = n := by
  rw [ofLe_toLe_mod, Nat.mod_eq_of_lt h]

theorem toLe_ofLe (bs : Bytes) : toLe bs.length (ofLe bs) = bs := by
  induction bs with
  | nil => rfl
  | cons b bs ih =>
    have hb := b.toNat_lt
    rw [List.length_cons, ofLe, toLe, show (b.toNat + 256 * ofLe bs) % 256 = b.toNat by omega,
      show (b.toNat + 256 * ofLe bs) / 256 = ofLe bs by omega, ih, UInt8.ofNat_toNat]

theorem ofLe_lt (bs : Bytes) : ofLe bs < 256 ^ bs.length := by
  induction bs with
  | nil => simp [ofLe]
  | cons b bs ih =>
    have hb := b.toNat_lt
    simp only [ofLe, List.length_cons, Nat.pow_succ]
    omega

/-- `from_le_bytes` of the field at `start`. -/
def leAt (data : Bytes) (start width : Nat) : Nat := ofLe (slice data start width)

theorem leAt_lt (data : Bytes) (start width : Nat) : leAt data start width < 256 ^ width := by
  have hlen : (slice data start width).length ≤ width := by simp [slice]
  exact (ofLe_lt _).trans_le (Nat.pow_le_pow_right (by decide) hlen)

section

variable {l r : Bytes} {start width n : Nat}

theorem leAt_skip (h : l.length ≤ start) :
    leAt (l ++ r) start width = leAt r (start - l.length) width := by
  rw [leAt, slice_skip h, leAt]

theorem leAt_head (h : n < 256 ^ width) : leAt (toLe width n ++ r) 0 width = n := by
  rw [leAt, slice_head (length_toLe width n), ofLe_toLe width n h]

theorem leAt_all (h : n < 256 ^ width) : leAt (toLe width n) 0 width = n := by
  rw [leAt, slice_all (length_toLe width n), ofLe_toLe width n h]

end

/-! ## Checksums -/

/-- One bit of the reflected Castagnoli polynomial. -/
def crc32cBit (crc : Nat) : Nat :=
  if crc % 2 = 1 then (crc / 2) ^^^ 0x82F63B78 else crc / 2

def crc32cByte (crc : Nat) (b : UInt8) : Nat :=
  crc32cBit <| crc32cBit <| crc32cBit <| crc32cBit <|
    crc32cBit <| crc32cBit <| crc32cBit <| crc32cBit (crc ^^^ b.toNat)

def crc32c (bytes : Bytes) : Nat := bytes.foldl crc32cByte 0xFFFFFFFF ^^^ 0xFFFFFFFF

-- the check value of the CRC-32C standard: the digits "123456789"
example : crc32c [49, 50, 51, 52, 53, 54, 55, 56, 57] = 0xE3069283 := by decide +kernel

/-- The checksum stands behind what it covers. -/
def withChecksum (buf : Bytes) : Bytes := buf ++ toLe 4 (crc32c buf)

theorem crc32cBit_lt {c : Nat} (h : c < 2 ^ 32) : crc32cBit c < 2 ^ 32 := by
  have hhalf : c / 2 < 2 ^ 32 := lt_of_le_of_lt (Nat.div_le_self c 2) h
  rw [crc32cBit]
  split
  · exact Nat.xor_lt_two_pow hhalf (by decide)
  · exact hhalf

theorem crc32cByte_lt {c : Nat} (b : UInt8) (h : c < 2 ^ 32) : crc32cByte c b < 2 ^ 32 := by
  have hb : b.toNat < 2 ^ 32 := b.toNat_lt.trans (by decide)
  have hx : c ^^^ b.toNat < 2 ^ 32 := Nat.xor_lt_two_pow h hb
  unfold crc32cByte
  iterate 8 apply crc32cBit_lt
  exact hx

theorem crc32c_lt (bytes : Bytes) : crc32c bytes < 256 ^ 4 := by
  have hfold : ∀ c : Nat, c < 2 ^ 32 → bytes.foldl crc32cByte c < 2 ^ 32 := by
    induction bytes with
    | nil => exact fun c hc => hc
    | cons b bytes ih => exact fun c hc => ih _ (crc32cByte_lt b hc)
  exact Nat.xor_lt_two_pow (n := 32) (hfold _ (by decide)) (by decide)

@[simp] theorem length_withChecksum (buf : Bytes) : (withChecksum buf).length = buf.length + 4 := by
  simp [withChecksum]

/-- The checksum is the last field. -/
theorem checksum_field {buf : Bytes} {n : Nat} (h : n = buf.length) :
    leAt (withChecksum buf) n 4 = crc32c ((withChecksum buf).take n) := by
  subst h
  rw [withChecksum, leAt_skip le_rfl, Nat.sub_self, leAt_all (crc32c_lt buf), List.take_left]

end SeerDb
