import Mathlib
/-!
# Deques with a Capacity

A double-ended queue in an allocation of some capacity.  An element that does not fit makes the allocation grow; how far
is not fixed, only that there is room for the element then.

Main results:

- Theorem {lit}`Deque.capacity_push_of_lt`: the allocation stays as it is where there is room.
- Theorem {lit}`Deque.popFront_eq_some`: what is taken from the front, and what is left.
-/

namespace Slots

/-- How an allocation grows. -/
structure Growth where
  grow : ℕ → ℕ
  lt_grow : ∀ n, n < grow n

/-- The elements from front to back, in an allocation that holds them -/
structure Deque (α : Type*) where
  items : List α
  capacity : ℕ
  fits : items.length ≤ capacity
  deriving DecidableEq

namespace Deque

variable {α : Type*} (g : Growth)

/-- An empty deque with room for so many elements -/
def withCapacity (n : ℕ) : Deque α := ⟨[], n, Nat.zero_le n⟩

/-- An empty deque without an allocation -/
def empty : Deque α := withCapacity 0

def length (d : Deque α) : ℕ := d.items.length

/-- The allocation with room for one more element -/
def reserved (d : Deque α) : ℕ := if d.length < d.capacity then d.capacity else g.grow d.capacity

theorem lt_reserved (d : Deque α) : d.length < d.reserved g := by
  unfold reserved
  split
  · assumption
  · exact d.fits.trans_lt (g.lt_grow _)

def pushBack (x : α) (d : Deque α) : Deque α where
  items := d.items ++ [x]
  capacity := d.reserved g
  fits := by
    rw [List.length_append]
    exact d.lt_reserved g

def pushFront (x : α) (d : Deque α) : Deque α where
  items := x :: d.items
  capacity := d.reserved g
  fits := d.lt_reserved g

def popFront (d : Deque α) : Option (α × Deque α) :=
  match h : d.items with
  | [] => none
  | x :: rest =>
    some (x, ⟨rest, d.capacity, by
      have hfits := d.fits
      rw [h, List.length_cons] at hfits
      exact Nat.le_of_succ_le hfits⟩)

variable {g} {d : Deque α} {x : α}

@[simp]
theorem items_withCapacity (n : ℕ) : (withCapacity n : Deque α).items = [] := rfl

@[simp]
theorem capacity_withCapacity (n : ℕ) : (withCapacity n : Deque α).capacity = n := rfl

@[simp]
theorem items_pushBack : (d.pushBack g x).items = d.items ++ [x] := rfl

@[simp]
theorem items_pushFront : (d.pushFront g x).items = x :: d.items := rfl

@[simp]
theorem length_pushBack : (d.pushBack g x).length = d.length + 1 := List.length_append

@[simp]
theorem length_pushFront : (d.pushFront g x).length = d.length + 1 := rfl

/-- With room for another element, the allocation stays as it is. -/
theorem capacity_push_of_lt (h : d.length < d.capacity) :
    (d.pushBack g x).capacity = d.capacity ∧ (d.pushFront g x).capacity = d.capacity :=
  ⟨if_pos h, if_pos h⟩

theorem popFront_eq_some {e : Deque α} :
    d.popFront = some (x, e) ↔ d.items = x :: e.items ∧ e.capacity = d.capacity := by
  obtain ⟨items, capacity, fits⟩ := d
  obtain ⟨items', capacity', fits'⟩ := e
  cases items with
  | nil => simp [popFront]
  | cons y rest =>
      simp only [popFront, Option.some.injEq, Prod.mk.injEq, Deque.mk.injEq, List.cons.injEq, and_assoc]
      exact and_congr_right fun _ => and_congr_right fun _ => eq_comm

theorem popFront_eq_none : d.popFront = none ↔ d.items = [] := by
  obtain ⟨items, capacity, fits⟩ := d
  cases items <;> simp [popFront]

end Deque

end Slots
