import Mathlib.Data.List.Basic
/-!
# Bounded Queues of Bytes

A queue of bytes with a capacity: bytes are put at the end as long as they fit, and taken from the
front.

Main results:

- Theorem {lit}`adv_eq_some`: bytes can be taken exactly when there are as many.
- Class {lit}`LawfulByteQueue`: what a buffer has to do to behave as such a queue.
-/

namespace Bytes

/-- A queue of bytes with a capacity. -/
structure Fifo where
  cap : ℕ
  data : List UInt8
  fits : data.length ≤ cap
  deriving DecidableEq

namespace Fifo

/-- The empty queue. -/
def empty (cap : ℕ) : Fifo := ⟨cap, [], Nat.zero_le cap⟩

/-- The number of bytes that are held. -/
def len (q : Fifo) : ℕ := q.data.length

/-- Puts bytes at the end, if all of them fit. -/
def put (q : Fifo) (bs : List UInt8) : Option Fifo :=
  if hfits : (q.data ++ bs).length ≤ q.cap then some ⟨q.cap, q.data ++ bs, hfits⟩ else none

/-- The number of bytes that may be put, if {lit}`needMin` bytes fit. -/
def area (q : Fifo) (needMin : ℕ) : Option ℕ :=
  if q.len + needMin ≤ q.cap then some (q.cap - q.len) else none

/-- Drops bytes from the front, if there are so many. -/
def adv (q : Fifo) (n : ℕ) : Option Fifo :=
  if n ≤ q.len then
    some ⟨q.cap, q.data.drop n, by
      have hfits := q.fits
      rw [List.length_drop]
      omega⟩
  else
    none

@[simp]
theorem empty_data (cap : ℕ) : (empty cap).data = [] := rfl

@[simp]
theorem empty_cap (cap : ℕ) : (empty cap).cap = cap := rfl

/-- Bytes can be dropped exactly when there are so many. -/
theorem adv_eq_some {q q' : Fifo} {n : ℕ} :
    q.adv n = some q' ↔ n ≤ q.len ∧ q'.cap = q.cap ∧ q'.data = q.data.drop n := by
  unfold adv
  split <;> rename_i hle
  · rcases q' with ⟨cap', data', fits'⟩
    simp only [Option.some.injEq, Fifo.mk.injEq]
    constructor
    · rintro ⟨rfl, rfl⟩
      exact ⟨hle, rfl, rfl⟩
    · rintro ⟨_, rfl, rfl⟩
      exact ⟨rfl, rfl⟩
  · simp [hle]

end Fifo

/-! ## Buffers that behave as bounded queues -/

/-- A byte buffer: a writable area of at least some size can be asked for, its front can be filled, and
bytes can be dropped from the front of what is held. -/
class ByteQueue (B : Type*) where
  create : ℕ → B
  cap : B → ℕ
  data : B → List UInt8
  /-- the size of the writable area, and the buffer, which may have moved its bytes -/
  area : B → ℕ → Option (ℕ × B)
  fill : B → List UInt8 → Option B
  adv : B → ℕ → Option B

namespace ByteQueue

variable {B : Type*} [ByteQueue B]

/-- The number of bytes that are held. -/
def len (q : B) : ℕ := (data q).length

/-- Takes bytes from the front, if there are so many. -/
def take (q : B) (n : ℕ) : Option (List UInt8 × B) := (adv q n).map fun q' => ((data q).take n, q')

end ByteQueue

open ByteQueue

/-- The buffer behaves as a bounded queue. -/
class LawfulByteQueue (B : Type*) [ByteQueue B] : Prop where
  create_spec : ∀ n : ℕ, data (create n : B) = [] ∧ cap (create n : B) = n
  /-- a writable area is refused exactly when there is no room for it -/
  area_eq_none : ∀ (q : B) (n : ℕ), area q n = none ↔ cap q < len q + n
  area_spec : ∀ (q q' : B) (n a : ℕ), area q n = some (a, q') → n ≤ a ∧ cap q' = cap q ∧ data q' = data q ∧
    ∀ bs, bs.length ≤ a → ∃ q'', fill q' bs = some q'' ∧ cap q'' = cap q ∧ data q'' = data q ++ bs
  adv_eq_none : ∀ (q : B) (n : ℕ), adv q n = none ↔ len q < n
  adv_spec : ∀ (q q' : B) (n : ℕ), adv q n = some q' → cap q' = cap q ∧ data q' = (data q).drop n

instance : ByteQueue Fifo where
  create := .empty
  cap := Fifo.cap
  data := Fifo.data
  area q n := if q.len + n ≤ q.cap then some (q.cap - q.len, q) else none
  fill := Fifo.put
  adv := Fifo.adv

instance : LawfulByteQueue Fifo where
  create_spec n := ⟨rfl, rfl⟩
  area_eq_none q n := by
    simp only [area, ite_eq_right_iff, reduceCtorEq, imp_false, Nat.not_le]
    rfl
  area_spec q q' n a harea := by
    simp only [area, Option.ite_none_right_eq_some, Option.some.injEq, Prod.mk.injEq] at harea
    rcases harea with ⟨hroom, rfl, rfl⟩
    refine ⟨by omega, rfl, rfl, fun bs hbs => ?_⟩
    have hfits : (q.data ++ bs).length ≤ q.cap := by
      have hlen : q.len = q.data.length := rfl
      rw [List.length_append]
      omega
    exact ⟨⟨q.cap, q.data ++ bs, hfits⟩, dif_pos hfits, rfl, rfl⟩
  adv_eq_none q n := by
    simp only [adv, Fifo.adv, ite_eq_right_iff, reduceCtorEq, imp_false, Nat.not_le]
    rfl
  adv_spec q q' n hadv := (Fifo.adv_eq_some.mp hadv).2

section Lawful

variable {B : Type*} [ByteQueue B] [LawfulByteQueue B] {q : B} {n : ℕ}

/-- Where enough bytes are held, they can be taken. -/
theorem take_of_le (hle : n ≤ len q) :
    ∃ q', ByteQueue.take q n = some ((data q).take n, q') ∧ cap q' = cap q ∧ data q' = (data q).drop n := by
  cases hadv : adv q n with
  | none =>
      have hlt := (LawfulByteQueue.adv_eq_none q n).mp hadv
      omega
  | some q' =>
      rw [ByteQueue.take, hadv]
      exact ⟨q', rfl, LawfulByteQueue.adv_spec q q' n hadv⟩

/-- Where there is room, a writable area is given. -/
theorem area_of_le (hle : len q + n ≤ cap q) : ∃ a q', area q n = some (a, q') := by
  cases harea : area q n with
  | none =>
      have hlt := (LawfulByteQueue.area_eq_none q n).mp harea
      omega
  | some r => exact ⟨r.1, r.2, rfl⟩

end Lawful

end Bytes
