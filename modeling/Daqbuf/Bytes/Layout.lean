import Daqbuf.Bytes.Endian
import Mathlib.Data.List.Basic
/-!
# Layouts of Fixed Length

A layout lays values out in as many bytes each.  What is laid out one after another is read back by position.

Main results:

- Theorem {lit}`Layout.read_slice`: a value is read from its slice.
- Theorem {lit}`Layout.map_read_slice`: all values are read, each from its slice.
- Theorem {lit}`Layout.map_read_chunksExact`: so are the values in chunks of their size.
-/

namespace Bytes

/-- {lit}`chunks_exact`: the chunks of the given length, without the bytes that are left at the end -/
def chunksExact (size : ℕ) (bs : List UInt8) : List (List UInt8) :=
  (List.range (bs.length / size)).map fun i => slice bs (size * i) (size * (i + 1))

theorem length_of_mem_chunksExact {size : ℕ} {bs c : List UInt8} (hc : c ∈ chunksExact size bs) : c.length = size := by
  obtain ⟨i, hi, rfl⟩ := List.mem_map.mp hc
  have hle : size * (i + 1) ≤ bs.length :=
    (Nat.mul_le_mul_left size (List.mem_range.mp hi)).trans (Nat.mul_div_le bs.length size)
  rw [slice, List.length_drop, List.length_take_of_le hle]
  exact Nat.sub_eq_of_eq_add (by ring)

@[simp]
theorem length_chunksExact (size : ℕ) (bs : List UInt8) : (chunksExact size bs).length = bs.length / size := by
  rw [chunksExact, List.length_map, List.length_range]

/-- How values of one type stand in bytes, and how they are read from there -/
structure Layout (α : Type) where
  size : ℕ
  put : α → List UInt8
  read : List UInt8 → α
  size_pos : 0 < size
  length_put : ∀ x, (put x).length = size
  read_put : ∀ x, read (put x) = x

namespace Layout

variable {α : Type} (l : Layout α)

/-- Unsigned words, the low byte first -/
def ofWord (size : ℕ) (toNat : α → ℕ) (ofNat : ℕ → α) (hsize : 0 < size) (hlt : ∀ x, toNat x < 256 ^ size)
    (hof : ∀ x, ofNat (toNat x) = x) : Layout α where
  size := size
  put x := leBytes size (toNat x)
  read bs := ofNat (ofLe bs)
  size_pos := hsize
  length_put x := length_leBytes size (toNat x)
  read_put x := by rw [ofLe_leBytes_of_lt (hlt x), hof]

/-- Values of a type that is another form of the first one -/
def iso {β : Type} (pack : α → β) (unpack : β → α) (hpack : ∀ y, pack (unpack y) = y) : Layout β where
  size := l.size
  put y := l.put (unpack y)
  read bs := pack (l.read bs)
  size_pos := l.size_pos
  length_put y := l.length_put (unpack y)
  read_put y := by rw [l.read_put, hpack]

theorem length_flatMap_put (xs : List α) : (xs.flatMap l.put).length = l.size * xs.length := by
  induction xs with
  | nil => rfl
  | cons x xs ih =>
      rw [List.flatMap_cons, List.length_append, l.length_put, ih, List.length_cons]
      ring

/-- A value is read from its slice. -/
theorem read_slice (header : List UInt8) (xs : List α) {i : ℕ} (hi : i < xs.length) :
    l.read (slice (header ++ xs.flatMap l.put) (header.length + l.size * i) (header.length + l.size * (i + 1))) =
      xs[i] := by
  have hsplit : xs = xs.take i ++ xs[i] :: xs.drop (i + 1) := by
    rw [← List.drop_eq_getElem_cons hi, List.take_append_drop]
  have hlen : (xs.take i).length = i := List.length_take_of_le hi.le
  have hbytes : header ++ xs.flatMap l.put =
      header ++ (xs.take i).flatMap l.put ++ l.put xs[i] ++ (xs.drop (i + 1)).flatMap l.put := by
    conv_lhs => rw [hsplit]
    rw [List.flatMap_append, List.flatMap_cons]
    simp only [List.append_assoc]
  rw [hbytes, slice_middle, l.read_put]
  · rw [List.length_append, l.length_flatMap_put, hlen]
  · rw [List.length_append, l.length_flatMap_put, hlen, l.length_put]
    ring

/-- All values are read, each from its slice. -/
theorem map_read_slice (header : List UInt8) (xs : List α) :
    ((List.range xs.length).map fun i => l.read (slice (header ++ xs.flatMap l.put)
      (header.length + l.size * i) (header.length + l.size * (i + 1)))) = xs := by
  apply List.ext_getElem
  · rw [List.length_map, List.length_range]
  · intro i hi hxs
    rw [List.getElem_map, List.getElem_range]
    exact l.read_slice header xs hxs

/-- All values are read from the chunks of their size. -/
theorem map_read_chunksExact (xs : List α) : (chunksExact l.size (xs.flatMap l.put)).map l.read = xs := by
  have hall := l.map_read_slice [] xs
  simp only [List.nil_append, List.length_nil, Nat.zero_add] at hall
  rw [chunksExact, List.map_map, length_flatMap_put, Nat.mul_div_cancel_left _ l.size_pos]
  exact hall

end Layout

end Bytes
