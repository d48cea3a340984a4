import Mathlib
/-!
# The Last Match of a Stable Sort

Elements are sorted by their times, and the last one with a property is looked for.  It has the latest time of those
with the property.

Main results:

- Theorem {lit}`le_of_find?_reverse_byTime`: no element with the property has a later time than the one found.
- Theorem {lit}`le_of_getLast?_byTime`: no element has a later time than the last one.
-/

namespace Search

variable {α : Type*}

/-- The elements sorted by their times, where those of the same time stay in order -/
def byTime (time : α → ℕ) (xs : List α) : List α := xs.mergeSort fun a b => time a ≤ time b

variable {time : α → ℕ} {p : α → Bool} {xs : List α} {x y : α}

theorem time_trans (a b c : α) (hab : decide (time a ≤ time b) = true) (hbc : decide (time b ≤ time c) = true) :
    decide (time a ≤ time c) = true :=
  decide_eq_true ((of_decide_eq_true hab).trans (of_decide_eq_true hbc))

theorem time_total (a b : α) : (decide (time a ≤ time b) || decide (time b ≤ time a)) = true := by
  rw [Bool.or_eq_true, decide_eq_true_iff, decide_eq_true_iff]
  exact Nat.le_total _ _

theorem mem_byTime : x ∈ byTime time xs ↔ x ∈ xs := List.mem_mergeSort

theorem pairwise_byTime : (byTime time xs).Pairwise fun a b => time a ≤ time b :=
  (List.pairwise_mergeSort time_trans time_total xs).imp of_decide_eq_true

/-- No element with the property has a later time than the one found. -/
theorem le_of_find?_reverse_byTime (h : (byTime time xs).reverse.find? p = some x) (hy : y ∈ xs) (hp : p y) :
    time y ≤ time x := by
  obtain ⟨-, as, bs, hsplit, has⟩ := List.find?_eq_some_iff_append.mp h
  have hmem : y ∈ (byTime time xs).reverse := List.mem_reverse.mpr (mem_byTime.mpr hy)
  have hsorted : (byTime time xs).reverse.Pairwise fun a b => time b ≤ time a :=
    List.pairwise_reverse.mpr pairwise_byTime
  rw [hsplit] at hmem hsorted
  rcases List.mem_append.mp hmem with hbefore | hafter
  · have hnot := has y hbefore
    rw [hp] at hnot
    cases hnot
  · rcases List.mem_cons.mp hafter with rfl | hafter
    · exact le_rfl
    · exact List.rel_of_pairwise_cons (List.pairwise_append.mp hsorted).2.1 hafter

theorem mem_of_find?_reverse_byTime (h : (byTime time xs).reverse.find? p = some x) : x ∈ xs ∧ p x :=
  ⟨mem_byTime.mp (List.mem_reverse.mp (List.mem_of_find?_eq_some h)), List.find?_some h⟩

/-- The last element has the latest time. -/
theorem le_of_getLast?_byTime (h : (byTime time xs).getLast? = some x) (hy : y ∈ xs) : time y ≤ time x := by
  apply le_of_find?_reverse_byTime (p := fun _ => true) _ hy rfl
  rw [← List.head?_filter, List.filter_true, List.head?_reverse]
  exact h

end Search
