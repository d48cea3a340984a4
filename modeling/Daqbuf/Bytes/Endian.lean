import Mathlib.Data.Nat.Basic
import Mathlib.Tactic.Ring
/-!
# Byte Orders

Unsigned integers as byte sequences of a fixed length, in the little-endian and in the big-endian
order, and slices of byte sequences.

Main results:

- Theorems {lit}`ofLe_leBytes` and {lit}`ofBe_beBytes`: reading what was written gives the number,
  modulo the size of the field.
- Theorems {lit}`ofLe_lt` and {lit}`ofBe_lt`: what is read fits into a field of that length.
- Theorem {lit}`u32OfLe_u32LeBytes`: the round trip of a 32-bit word.
- Theorem {lit}`slice_middle`: the slice between two positions of a concatenation.
-/

namespace Bytes

/-- The {lit}`n` low bytes of a number, the lowest first. -/
def leBytes : ℕ → ℕ → List UInt8
  | 0, _ => []
  | n + 1, v => UInt8.ofNat v :: leBytes n (v / 256)

/-- The number whose bytes are given, the lowest first. -/
def ofLe : List UInt8 → ℕ
  | [] => 0
  | b :: bs => b.toNat + 256 * ofLe bs

/-- The {lit}`n` low bytes of a number, the highest first. -/
def beBytes (n v : ℕ) : List UInt8 := (leBytes n v).reverse

/-- The number whose bytes are given, the highest first. -/
def ofBe (bs : List UInt8) : ℕ := ofLe bs.reverse

@[simp]
theorem length_leBytes (n v : ℕ) : (leBytes n v).length = n := by
  induction n generalizing v with
  | zero => rfl
  | succ n ih => simp [leBytes, ih]

@[simp]
theorem length_beBytes (n v : ℕ) : (beBytes n v).length = n := by
  simp [beBytes]

/-- Reading what was written, in the little-endian order. -/
theorem ofLe_leBytes (n v : ℕ) : ofLe (leBytes n v) = v % 256 ^ n := by
  induction n generalizing v with
  | zero => simp [leBytes, ofLe, Nat.mod_one]
  | succ n ih =>
      have hsplit : v % 256 ^ (n + 1) = v % 256 + 256 * (v / 256 % 256 ^ n) := by
        rw [pow_succ', Nat.mod_mul]
      have hbyte : (UInt8.ofNat v).toNat = v % 256 := by simp
      rw [leBytes, ofLe, ih, hbyte, hsplit]

/-- Reading what was written, in the big-endian order. -/
theorem ofBe_beBytes (n v : ℕ) : ofBe (beBytes n v) = v % 256 ^ n := by
  rw [ofBe, beBytes, List.reverse_reverse, ofLe_leBytes]

/-- A number that fits is read back, in the little-endian order. -/
theorem ofLe_leBytes_of_lt {n v : ℕ} (hlt : v < 256 ^ n) : ofLe (leBytes n v) = v := by
  rw [ofLe_leBytes, Nat.mod_eq_of_lt hlt]

/-- A number that fits is read back, in the big-endian order. -/
theorem ofBe_beBytes_of_lt {n v : ℕ} (hlt : v < 256 ^ n) : ofBe (beBytes n v) = v := by
  rw [ofBe_beBytes, Nat.mod_eq_of_lt hlt]

/-- A number read from bytes fits into a field of their length. -/
theorem ofLe_lt (bs : List UInt8) : ofLe bs < 256 ^ bs.length := by
  induction bs with
  | nil => simp [ofLe]
  | cons b bs ih =>
      have hb := b.toNat_lt
      rw [ofLe, List.length_cons, pow_succ']
      omega

theorem ofBe_lt (bs : List UInt8) : ofBe bs < 256 ^ bs.length := by
  simpa [ofBe] using ofLe_lt bs.reverse

/-! ## Machine words -/

/-- {lit}`u32::to_le_bytes` -/
def u32LeBytes (x : UInt32) : List UInt8 := leBytes 4 x.toNat

/-- {lit}`u32::from_le_bytes` -/
def u32OfLe (bs : List UInt8) : UInt32 := UInt32.ofNat (ofLe bs)

@[simp]
theorem length_u32LeBytes (x : UInt32) : (u32LeBytes x).length = 4 := length_leBytes 4 x.toNat

/-- A 32-bit word is read back. -/
@[simp]
theorem u32OfLe_u32LeBytes (x : UInt32) : u32OfLe (u32LeBytes x) = x := by
  have hlt : x.toNat < 256 ^ 4 := by simpa using x.toNat_lt
  rw [u32OfLe, u32LeBytes, ofLe_leBytes_of_lt hlt, UInt32.ofNat_toNat]

/-! ## Slices -/

/-- The bytes from one position up to another. -/
def slice (bs : List UInt8) (beg fin : ℕ) : List UInt8 := (bs.take fin).drop beg

/-- A slice does not see what stands behind it. -/
theorem slice_append {as bs : List UInt8} {beg fin : ℕ} (hfin : fin ≤ as.length) :
    slice (as ++ bs) beg fin = slice as beg fin := by
  rw [slice, List.take_append_of_le_length hfin, slice]

/-- The part in the middle of a concatenation. -/
theorem slice_middle {as bs cs : List UInt8} {beg fin : ℕ} (hbeg : beg = as.length)
    (hfin : fin = as.length + bs.length) : slice (as ++ bs ++ cs) beg fin = bs := by
  subst hbeg hfin
  rw [slice, List.take_left' (by simp), List.drop_left]

end Bytes
