/-
Byte strings read at offsets, as slice-based code reads them.
- `byteAt`, `slice`: a byte and a window of bytes; both shift with a string put in front.
- `be32`, `readBE`: a 32-bit number in big-endian order, written and read back (`readBE_be32`); `be64`, `readBE64` are
  the same for 64 bits.
- `zeros`, `allZero`: padding.
-/
import Mathlib

namespace Kdb

open List

/-- byte strings -/
abbrev Bytes := List UInt8

namespace Bytes

variable (a b : Bytes) (i j n : ℕ)

/-- the byte at an offset; callers check that it is there -/
def byteAt (b : Bytes) (i : ℕ) : UInt8 := b.getD i 0

/-- `b[i:j]` -/
def slice (b : Bytes) (i j : ℕ) : Bytes := (b.drop i).take (j - i)

/-- padding -/
def zeros (n : ℕ) : Bytes := List.replicate n 0

/-- nothing but zero bytes -/
def allZero (b : Bytes) : Bool := b.all (· == 0)

/-- a 32-bit number, most significant byte first -/
def be32 (v : ℕ) : Bytes :=
  [UInt8.ofNat (v >>> 24), UInt8.ofNat (v >>> 16), UInt8.ofNat (v >>> 8), UInt8.ofNat v]

/-- the 32-bit number at an offset -/
def readBE (b : Bytes) (o : ℕ) : ℕ :=
  (byteAt b o).toNat <<< 24 ||| (byteAt b (o + 1)).toNat <<< 16 ||| (byteAt b (o + 2)).toNat <<< 8 |||
    (byteAt b (o + 3)).toNat

/-- a 64-bit number, most significant byte first -/
def be64 (v : ℕ) : Bytes := be32 (v >>> 32) ++ be32 v

/-- the 64-bit number at an offset -/
def readBE64 (b : Bytes) (o : ℕ) : ℕ := readBE b o <<< 32 ||| readBE b (o + 4)

/-! ## Offsets -/

theorem byteAt_append : byteAt (a ++ b) (a.length + i) = byteAt b i := by
  simp [byteAt, List.getElem?_append_right]

theorem byteAt_append_left (h : i < a.length) : byteAt (a ++ b) i = byteAt a i := by
  simp [byteAt, List.getElem?_append_left h]

theorem readBE_append : readBE (a ++ b) (a.length + i) = readBE b i := by
  simp only [readBE, Nat.add_assoc, byteAt_append]

theorem readBE_append_left (h : i + 4 ≤ a.length) : readBE (a ++ b) i = readBE a i := by
  simp only [readBE]
  rw [byteAt_append_left, byteAt_append_left, byteAt_append_left, byteAt_append_left] <;> omega

theorem slice_append : slice (a ++ b) (a.length + i) (a.length + j) = slice b i j := by
  have hlen : a.length + j - (a.length + i) = j - i := by omega
  rw [slice, slice, hlen, drop_append, drop_of_length_le (by omega), nil_append, Nat.add_sub_cancel_left]

theorem slice_zero : slice b 0 j = b.take j := by
  simp [slice]

theorem slice_mid (c : Bytes) : slice (a ++ (b ++ c)) a.length (a.length + b.length) = b := by
  have h := slice_append a (b ++ c) 0 b.length
  rw [slice_zero, take_left] at h
  exact h

theorem length_zeros : (zeros n).length = n := length_replicate

/-! ## Zero bytes -/

theorem byteAt_zeros : byteAt (zeros n) i = 0 := by
  simp only [byteAt, zeros, getD_eq_getElem?_getD, List.getElem?_replicate]
  split <;> rfl

theorem allZero_iff : allZero b = true ↔ b = zeros b.length := by
  simp [allZero, zeros, eq_replicate_iff]

theorem allZero_zeros : allZero (zeros n) = true := by
  rw [allZero_iff, length_zeros]

/-! ## Numbers -/

theorem or_shift {x y k : ℕ} (h : y < 2 ^ k) : x <<< k ||| y = x * 2 ^ k + y := by
  rw [← Nat.shiftLeft_add_eq_or_of_lt h, Nat.shiftLeft_eq]

theorem readBE_eq (o : ℕ) : readBE b o = (byteAt b o).toNat * 2 ^ 24 + (byteAt b (o + 1)).toNat * 2 ^ 16 +
    (byteAt b (o + 2)).toNat * 2 ^ 8 + (byteAt b (o + 3)).toNat := by
  have h1 := (byteAt b (o + 1)).toNat_lt
  have h2 := (byteAt b (o + 2)).toNat_lt
  have h3 := (byteAt b (o + 3)).toNat_lt
  unfold readBE
  generalize (byteAt b o).toNat = x0, (byteAt b (o + 1)).toNat = x1, (byteAt b (o + 2)).toNat = x2,
    (byteAt b (o + 3)).toNat = x3 at *
  calc x0 <<< 24 ||| x1 <<< 16 ||| x2 <<< 8 ||| x3
      = x0 <<< 24 ||| (x1 <<< 16 ||| (x2 <<< 8 ||| x3)) := by rw [Nat.or_assoc, Nat.or_assoc]
    _ = x0 <<< 24 ||| (x1 <<< 16 ||| (x2 * 2 ^ 8 + x3)) := by rw [or_shift (x := x2) (by omega)]
    _ = x0 <<< 24 ||| (x1 * 2 ^ 16 + (x2 * 2 ^ 8 + x3)) := by rw [or_shift (x := x1) (by omega)]
    _ = x0 * 2 ^ 24 + (x1 * 2 ^ 16 + (x2 * 2 ^ 8 + x3)) := by rw [or_shift (by omega)]
    _ = x0 * 2 ^ 24 + x1 * 2 ^ 16 + x2 * 2 ^ 8 + x3 := by ring

theorem readBE_be32_mod (v : ℕ) : readBE (be32 v ++ b) 0 = v % 2 ^ 32 := by
  rw [readBE_eq]
  simp only [be32, byteAt, cons_append, getD_cons_zero, getD_cons_succ, UInt8.toNat_ofNat']
  omega

/-- **Round trip.** A 32-bit number reads back. -/
theorem readBE_be32 {v : ℕ} (h : v < 2 ^ 32) : readBE (be32 v ++ b) 0 = v := by
  rw [readBE_be32_mod, Nat.mod_eq_of_lt h]

theorem readBE64_append : readBE64 (a ++ b) (a.length + i) = readBE64 b i := by
  simp only [readBE64, Nat.add_assoc, readBE_append]

/-- A 64-bit number reads back. -/
theorem readBE64_be64 {v : ℕ} (h : v < 2 ^ 64) : readBE64 (be64 v ++ b) 0 = v := by
  have hhigh : readBE (be64 v ++ b) 0 = v / 2 ^ 32 := by
    rw [be64, append_assoc, readBE_be32_mod]
    omega
  have hlow : readBE (be64 v ++ b) (0 + 4) = v % 2 ^ 32 := by
    exact (readBE_append (be32 (v >>> 32)) (be32 v ++ b) 0).trans (readBE_be32_mod b v)
  rw [readBE64, hhigh, hlow, or_shift (Nat.mod_lt _ (by decide)), Nat.mul_comm, Nat.div_add_mod]

end Bytes

end Kdb
