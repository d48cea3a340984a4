import Mathlib
/-!
# Iterators

An iterator is a state with a function that gives the next item and the state after it, or ends.

Main results:

- Theorem {lit}`Yields.unique`: an iterator that ends yields one list of items.
- Theorem {lit}`yields_range'`: an iterator that counts yields the items of the numbers that it counts.
-/

namespace Iter

variable {σ α : Type*} {next : σ → Option (α × σ)} {s s' : σ} {x : α} {xs ys : List α}

/-- The iterator ends after these items. -/
inductive Yields (next : σ → Option (α × σ)) : σ → List α → Prop
  | done {s : σ} (hnext : next s = none) : Yields next s []
  | item {s s' : σ} {x : α} {xs : List α} (hnext : next s = some (x, s')) (hrest : Yields next s' xs) :
    Yields next s (x :: xs)

/-- An iterator that ends yields one list of items. -/
theorem Yields.unique (hxs : Yields next s xs) (hys : Yields next s ys) : xs = ys := by
  induction hxs generalizing ys with
  | done hnext =>
      cases hys with
      | done _ => rfl
      | item hnext' _ => cases hnext.symm.trans hnext'
  | item hnext _ ih =>
      cases hys with
      | done hnext' => cases hnext'.symm.trans hnext
      | item hnext' hrest =>
          obtain ⟨rfl, rfl⟩ := Prod.mk.inj (Option.some.inj (hnext.symm.trans hnext'))
          rw [ih hrest]

/-- An iterator that counts up to a number. -/
theorem yields_range' (state : ℕ → σ) {f : ℕ → α} {k n : ℕ} (hle : k ≤ n)
    (hstep : ∀ i, k ≤ i → i < n → next (state i) = some (f i, state (i + 1))) (hend : next (state n) = none) :
    Yields next (state k) ((List.range' k (n - k)).map f) := by
  induction hcount : n - k generalizing k with
  | zero =>
      obtain rfl : k = n := by omega
      exact Yields.done hend
  | succ count ih =>
      rw [List.range'_succ, List.map_cons]
      refine Yields.item (hstep k le_rfl (by omega)) (ih (by omega) ?_ (by omega))
      intro i hi hlt
      exact hstep i (by omega) hlt

end Iter
