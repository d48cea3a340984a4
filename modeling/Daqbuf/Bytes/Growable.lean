import Mathlib.Data.List.Basic
import Mathlib.Order.MinMax
/-!
# Growable Queues of Bytes

A queue of bytes that grows as needed.  It has a capacity, which can be read, and which an implementation may choose:
it only has to be large enough.

Main results:

- Class {lit}`LawfulGrowableFifo`: what a buffer has to do to behave as such a queue.
- Instance for {lit}`TightFifo`: the queue that never has more capacity than it needs behaves so.
-/

namespace Bytes

/-- A byte buffer that grows: bytes are put at the end and taken from the front. -/
class GrowableFifo (B : Type) where
  withCapacity : ℕ → B
  capacity : B → ℕ
  data : B → List UInt8
  putSlice : B → List UInt8 → B
  reserve : B → ℕ → B
  advance : B → ℕ → B
  splitTo : B → ℕ → List UInt8 × B

namespace GrowableFifo

variable {B : Type} [GrowableFifo B]

/-- The number of bytes that are held -/
def len (b : B) : ℕ := (data b).length

end GrowableFifo

open GrowableFifo

/-- The buffer behaves as a growable queue.  Bytes are taken only where there are as many. -/
class LawfulGrowableFifo (B : Type) [GrowableFifo B] : Prop where
  data_withCapacity : ∀ n : ℕ, data (withCapacity n : B) = []
  len_le_capacity : ∀ b : B, len b ≤ capacity b
  data_putSlice : ∀ (b : B) (bs : List UInt8), data (putSlice b bs) = data b ++ bs
  /-- growing does not lower the capacity -/
  capacity_putSlice : ∀ (b : B) (bs : List UInt8), capacity b ≤ capacity (putSlice b bs)
  data_reserve : ∀ (b : B) (n : ℕ), data (reserve b n) = data b
  capacity_reserve : ∀ (b : B) (n : ℕ), capacity b ≤ capacity (reserve b n) ∧ len b + n ≤ capacity (reserve b n)
  data_advance : ∀ (b : B) (n : ℕ), n ≤ len b → data (advance b n) = (data b).drop n
  splitTo_spec : ∀ (b : B) (n : ℕ), n ≤ len b →
    (splitTo b n).1 = (data b).take n ∧ data (splitTo b n).2 = (data b).drop n

/-! ## The tight queue -/

/-- A queue with just the capacity that it was asked for. -/
structure TightFifo where
  data : List UInt8
  capacity : ℕ
  fits : data.length ≤ capacity
  deriving DecidableEq

namespace TightFifo

/-- Drops bytes from the front. -/
def drop (q : TightFifo) (n : ℕ) : TightFifo := ⟨q.data.drop n, (q.data.drop n).length, le_rfl⟩

/-- Puts bytes at the end. -/
def put (q : TightFifo) (bs : List UInt8) : TightFifo :=
  ⟨q.data ++ bs, max q.capacity (q.data ++ bs).length, le_max_right _ _⟩

/-- Makes room. -/
def grow (q : TightFifo) (n : ℕ) : TightFifo :=
  ⟨q.data, max q.capacity (q.data.length + n), q.fits.trans (le_max_left _ _)⟩

instance : GrowableFifo TightFifo where
  withCapacity n := ⟨[], n, Nat.zero_le n⟩
  capacity := capacity
  data := data
  putSlice := put
  reserve := grow
  advance := drop
  splitTo q n := (q.data.take n, q.drop n)

instance : LawfulGrowableFifo TightFifo where
  data_withCapacity _ := rfl
  len_le_capacity q := q.fits
  data_putSlice _ _ := rfl
  capacity_putSlice _ _ := le_max_left _ _
  data_reserve _ _ := rfl
  capacity_reserve _ _ := ⟨le_max_left _ _, le_max_right _ _⟩
  data_advance _ _ _ := rfl
  splitTo_spec _ _ _ := ⟨rfl, rfl⟩

theorem capacity_putSlice_eq (q : TightFifo) (bs : List UInt8) :
    GrowableFifo.capacity (putSlice q bs) = max (GrowableFifo.capacity q) (len q + bs.length) := by
  change max q.capacity (q.data ++ bs).length = _
  rw [List.length_append]
  rfl

theorem capacity_reserve_eq (q : TightFifo) (n : ℕ) :
    GrowableFifo.capacity (reserve q n) = max (GrowableFifo.capacity q) (len q + n) := rfl

end TightFifo

end Bytes
