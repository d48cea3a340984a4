import Mathlib
/-!
# Unordered Buffering of Futures

{lit}`buffer_unordered` drives the futures of a list concurrently, at most a given number of them at any time, and
gives their results as they complete.  The futures are started in the order of the list.  Thus the ones in flight are
the first ones of those that have not completed yet, and any of them may complete next.

Main results:

- Theorem {lit}`Completes.perm`: every future completes once.
- Theorem {lit}`Completes.eq_of_le_one`: with one future at a time there is one order.
- Theorem {lit}`completes_last`: with two or more any future may be the last one.
-/

namespace Daqbuf
namespace Streams

variable {α : Type*} {n : ℕ} {xs ys pre post out : List α} {x : α}

/-- The orders in which the futures of a list may complete, with at most so many in flight -/
inductive Completes (n : ℕ) : List α → List α → Prop
  | nil : Completes n [] []
  | next {pre post out : List α} {x : α} (inFlight : pre.length < n) (rest : Completes n (pre ++ post) out) :
      Completes n (pre ++ x :: post) (x :: out)

/-- Every future completes once. -/
theorem Completes.perm (h : Completes n xs ys) : ys.Perm xs := by
  induction h with
  | nil => exact .nil
  | next _ _ ih => exact (ih.cons _).trans List.perm_middle.symm

/-- The first future in flight may always be the next one. -/
theorem completes_cons (hn : 0 < n) (h : Completes n xs ys) : Completes n (x :: xs) (x :: ys) := by
  have hfirst : Completes n ([] ++ x :: xs) (x :: ys) := .next hn h
  exact hfirst

/-- The futures may complete in the order of the list. -/
theorem completes_self (hn : 0 < n) (xs : List α) : Completes n xs xs := by
  induction xs with
  | nil => exact .nil
  | cons x xs ih => exact completes_cons hn ih

/-- With one future at a time they complete in the order of the list. -/
theorem Completes.eq_of_le_one (h : Completes n xs ys) (hn : n ≤ 1) : ys = xs := by
  induction h with
  | nil => rfl
  | @next pre post out x hlt _ ih =>
      obtain rfl : pre = [] := List.length_eq_zero_iff.mp (by omega)
      rw [ih]
      rfl

/-- The first future may stay in flight while all others complete. -/
theorem completes_hold (hn : 2 ≤ n) (x : α) (xs : List α) : Completes n (x :: xs) (xs ++ [x]) := by
  induction xs with
  | nil => exact completes_self (by omega) [x]
  | cons y xs ih =>
      have hsecond : Completes n ([x] ++ y :: xs) (y :: (xs ++ [x])) := .next hn ih
      exact hsecond

/-- Any future may be the last one. -/
theorem completes_last (hn : 2 ≤ n) (xs ys : List α) (x : α) : Completes n (xs ++ x :: ys) (xs ++ ys ++ [x]) := by
  induction xs with
  | nil => exact completes_hold hn x ys
  | cons y xs ih => exact completes_cons (by omega) ih

end Streams
end Daqbuf
