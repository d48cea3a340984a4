import Mathlib
/-!
# Checked Arithmetic

Arithmetic on unsigned numbers of a given width.  An operation has no result where the exact result is no
such number: a build with overflow checks panics there, and one without wraps around.

Main results:

- Theorems {lit}`checkedAdd_eq_some`, {lit}`checkedSub_eq_some`, {lit}`checkedMul_eq_some` and
  {lit}`checkedDiv_eq_some`: a result is the exact one, and when there is one.
- Theorem {lit}`mapM_eq_some_iff`: a fallible function over a column has a result where it has one for each entry.
-/

namespace Arith

/-- The sum of two numbers of {lit}`w` bits -/
def checkedAdd (w a b : ℕ) : Option ℕ := if a + b < 2 ^ w then some (a + b) else none

/-- The difference of two unsigned numbers -/
def checkedSub (a b : ℕ) : Option ℕ := if b ≤ a then some (a - b) else none

/-- The product of two numbers of {lit}`w` bits -/
def checkedMul (w a b : ℕ) : Option ℕ := if a * b < 2 ^ w then some (a * b) else none

/-- The quotient of two unsigned numbers -/
def checkedDiv (a b : ℕ) : Option ℕ := if b = 0 then none else some (a / b)

section Results

variable {w a b c : ℕ}

theorem checkedAdd_eq_some : checkedAdd w a b = some c ↔ a + b < 2 ^ w ∧ a + b = c := by
  simp [checkedAdd]

theorem checkedSub_eq_some : checkedSub a b = some c ↔ b ≤ a ∧ a - b = c := by
  simp [checkedSub]

theorem checkedMul_eq_some : checkedMul w a b = some c ↔ a * b < 2 ^ w ∧ a * b = c := by
  simp [checkedMul]

theorem checkedDiv_eq_some : checkedDiv a b = some c ↔ b ≠ 0 ∧ a / b = c := by
  simp [checkedDiv]

theorem checkedAdd_of_lt (h : a + b < 2 ^ w) : checkedAdd w a b = some (a + b) := if_pos h

theorem checkedSub_of_le (h : b ≤ a) : checkedSub a b = some (a - b) := if_pos h

theorem checkedMul_of_lt (h : a * b < 2 ^ w) : checkedMul w a b = some (a * b) := if_pos h

theorem checkedDiv_of_ne (h : b ≠ 0) : checkedDiv a b = some (a / b) := if_neg h

theorem checkedSub_of_lt (h : a < b) : checkedSub a b = none := if_neg (not_le.mpr h)

end Results

/-! ## Columns -/

section Columns

variable {α β : Type*} {f : α → Option β} {g : α → β} {xs : List α} {ys : List β}

/-- A fallible function over a column has a result where it has one for each entry. -/
theorem mapM_eq_some_iff : xs.mapM f = some ys ↔ List.Forall₂ (fun x y => f x = some y) xs ys := by
  induction xs generalizing ys with
  | nil => simp [List.forall₂_nil_left_iff, eq_comm]
  | cons x xs ih =>
      rw [List.mapM_cons, List.forall₂_cons_left_iff]
      constructor
      · intro h
        obtain ⟨y, hy, h⟩ := Option.bind_eq_some_iff.mp h
        obtain ⟨zs, hzs, h⟩ := Option.bind_eq_some_iff.mp h
        exact ⟨y, zs, hy, ih.mp hzs, (Option.some.inj h).symm⟩
      · rintro ⟨y, zs, hy, hzs, rfl⟩
        rw [hy, ih.mpr hzs]
        rfl

/-- A function that succeeds on each entry maps the column. -/
theorem mapM_of_forall (h : ∀ x ∈ xs, f x = some (g x)) : xs.mapM f = some (xs.map g) := by
  rw [mapM_eq_some_iff, List.forall₂_map_right_iff, List.forall₂_same]
  exact h

/-- A function that fails on an entry fails on the column. -/
theorem mapM_eq_none {x : α} (hx : x ∈ xs) (hf : f x = none) : xs.mapM f = none := by
  rw [Option.eq_none_iff_forall_ne_some]
  intro ys hys
  obtain ⟨i, hi, rfl⟩ := List.mem_iff_getElem.mp hx
  have hall := mapM_eq_some_iff.mp hys
  have hget := hall.get hi (hall.length_eq ▸ hi)
  rw [List.get_eq_getElem, hf] at hget
  cases hget

end Columns

end Arith
