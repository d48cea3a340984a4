import Mathlib
/-!
# Nearest Entries

Which entry of a list of numbers is the nearest one to a given number: one of the two entries between which that
number lies.

Main results:

- Theorems {lit}`Neighbours.nearest_left_iff` and {lit}`Neighbours.nearest_right_iff`: which of two neighbours is
  nearest.
- Theorem {lit}`Neighbours.eq_of_between`: a number lies between two neighbours only.
-/

namespace Search

variable {grid : List ℕ} {q v w x : ℕ}

/-- No entry is nearer to {lit}`q`. -/
def Nearest (grid : List ℕ) (q v : ℕ) : Prop := v ∈ grid ∧ ∀ x ∈ grid, Nat.dist v q ≤ Nat.dist x q

/-- Two entries without another one between them -/
structure Neighbours (grid : List ℕ) (v w : ℕ) : Prop where
  left_mem : v ∈ grid
  right_mem : w ∈ grid
  lt : v < w
  apart : ∀ x ∈ grid, x ≤ v ∨ w ≤ x

/-- The least entry is nearest to what is not above it. -/
theorem nearest_of_le (hv : v ∈ grid) (hle : q ≤ v) (hleast : ∀ x ∈ grid, v ≤ x) : Nearest grid q v := by
  refine ⟨hv, fun x hx => ?_⟩
  have := hleast x hx
  simp only [Nat.dist]
  omega

/-- The greatest entry is nearest to what is not below it. -/
theorem nearest_of_ge (hv : v ∈ grid) (hle : v ≤ q) (hgreatest : ∀ x ∈ grid, x ≤ v) : Nearest grid q v := by
  refine ⟨hv, fun x hx => ?_⟩
  have := hgreatest x hx
  simp only [Nat.dist]
  omega

namespace Neighbours

/-- Of two neighbours the lower one is nearest to what is not above their middle. -/
theorem nearest_left_iff (h : Neighbours grid v w) (hvq : v ≤ q) (hqw : q ≤ w) :
    Nearest grid q v ↔ 2 * q ≤ v + w := by
  constructor
  · rintro ⟨-, hall⟩
    have := hall w h.right_mem
    simp only [Nat.dist] at this
    omega
  · intro hmiddle
    refine ⟨h.left_mem, fun x hx => ?_⟩
    simp only [Nat.dist]
    rcases h.apart x hx with hx | hx <;> omega

/-- Of two neighbours the upper one is nearest to what is not below their middle. -/
theorem nearest_right_iff (h : Neighbours grid v w) (hvq : v ≤ q) (hqw : q ≤ w) :
    Nearest grid q w ↔ v + w ≤ 2 * q := by
  constructor
  · rintro ⟨-, hall⟩
    have := hall v h.left_mem
    simp only [Nat.dist] at this
    omega
  · intro hmiddle
    refine ⟨h.right_mem, fun x hx => ?_⟩
    simp only [Nat.dist]
    rcases h.apart x hx with hx | hx <;> omega

/-- What is nearest to a number between two neighbours is one of them. -/
theorem eq_or_eq_of_nearest (h : Neighbours grid v w) (hvq : v ≤ q) (hqw : q ≤ w) (hx : Nearest grid q x) :
    x = v ∨ x = w := by
  have hleft := hx.2 v h.left_mem
  have hright := hx.2 w h.right_mem
  simp only [Nat.dist] at hleft hright
  rcases h.apart x hx.1 with hle | hle <;> omega

/-- A number that is no entry lies between two neighbours only. -/
theorem eq_of_between {v' w' : ℕ} (h : Neighbours grid v w) (h' : Neighbours grid v' w') (hvq : v < q) (hqw : q ≤ w)
    (hvq' : v' < q) (hqw' : q < w') : v' = v ∧ w' = w := by
  have := h.apart v' h'.left_mem
  have := h.apart w' h'.right_mem
  have := h'.apart v h.left_mem
  have := h'.apart w h.right_mem
  omega

end Neighbours

end Search
