import Mathlib
/-!
# Partition Points

Binary search for the boundary between the elements that satisfy a predicate and those that do not,
on sequences where the satisfying elements come first.  The result is defined as the length of the
longest satisfying prefix, which is the documented result on every such sequence.

Main results:

- Theorems {lit}`take_partitionPoint` and {lit}`drop_partitionPoint`: cutting at the partition point
  separates the elements that satisfy the predicate from those that do not.
- Theorem {lit}`cut_of_sorted`: on a sequence ordered by a key, cutting at a bound on the key is
  filtering by it.
- Theorems {lit}`SortedBy.below_partitionPoint` and {lit}`SortedBy.at_partitionPoint`: the neighbours of a bound.
-/

namespace Search

variable {α β : Type*}

/-! ## Partitioned lists -/

/-- The elements that satisfy {lit}`p` come before the others. -/
def Partitioned (p : α → Bool) (xs : List α) : Prop :=
  xs.Pairwise fun a b => p b = true → p a = true

/-- The number of elements before the first one that fails {lit}`p`. -/
def partitionPoint (p : α → Bool) (xs : List α) : ℕ :=
  (xs.takeWhile p).length

/-- A partition point is an index of the list or its length. -/
theorem partitionPoint_le_length (p : α → Bool) (xs : List α) :
    partitionPoint p xs ≤ xs.length :=
  (List.takeWhile_prefix p).length_le

/-- The elements before the partition point are the longest satisfying prefix. -/
theorem take_partitionPoint_eq_takeWhile (p : α → Bool) (xs : List α) :
    xs.take (partitionPoint p xs) = xs.takeWhile p := by
  induction xs with
  | nil => rfl
  | cons x xs ih =>
      by_cases hx : p x = true
      · simpa [partitionPoint, hx] using ih
      · simp [partitionPoint, hx]

/-- On a partitioned list the longest satisfying prefix has all satisfying elements. -/
theorem takeWhile_eq_filter {p : α → Bool} {xs : List α} (hpart : Partitioned p xs) :
    xs.takeWhile p = xs.filter p := by
  induction xs with
  | nil => rfl
  | cons x xs ih =>
      rcases List.pairwise_cons.mp hpart with ⟨hhead, htail⟩
      by_cases hx : p x = true
      · simp [hx, ih htail]
      · have hnone : xs.filter p = [] := by
          rw [List.filter_eq_nil_iff]
          intro y hy hpy
          exact hx (hhead y hy hpy)
        simp [hx, hnone]

/-- Cutting off at the partition point keeps the satisfying elements. -/
theorem take_partitionPoint {p : α → Bool} {xs : List α} (hpart : Partitioned p xs) :
    xs.take (partitionPoint p xs) = xs.filter p := by
  rw [take_partitionPoint_eq_takeWhile, takeWhile_eq_filter hpart]

/-- Dropping up to the partition point keeps the other elements. -/
theorem drop_partitionPoint {p : α → Bool} {xs : List α} (hpart : Partitioned p xs) :
    xs.drop (partitionPoint p xs) = xs.filter fun x => !p x := by
  induction xs with
  | nil => rfl
  | cons x xs ih =>
      rcases List.pairwise_cons.mp hpart with ⟨hhead, htail⟩
      by_cases hx : p x = true
      · simpa [partitionPoint, hx] using ih htail
      · have hall : xs.filter (fun x => !p x) = xs := by
          rw [List.filter_eq_self]
          intro y hy
          by_contra hpy
          exact hx (hhead y hy (by simpa using hpy))
        simp [partitionPoint, hx, hall]

/-- A partition point at the end of the list means that every element satisfies the predicate. -/
theorem length_le_partitionPoint_iff (p : α → Bool) (xs : List α) :
    xs.length ≤ partitionPoint p xs ↔ ∀ x ∈ xs, p x = true := by
  rw [← List.all_eq_true]
  induction xs with
  | nil => simp [partitionPoint]
  | cons x xs ih =>
      by_cases hx : p x = true
      · simpa [partitionPoint, hx] using ih
      · simp [partitionPoint, hx]

/-- A partition point at the start of a partitioned list means that no element satisfies the
predicate. -/
theorem partitionPoint_eq_zero_iff {p : α → Bool} {xs : List α} (hpart : Partitioned p xs) :
    partitionPoint p xs = 0 ↔ ∀ x ∈ xs, p x = false := by
  unfold partitionPoint
  rw [takeWhile_eq_filter hpart, List.length_eq_zero_iff, List.filter_eq_nil_iff]
  simp

/-- The elements in front of a partition point satisfy the predicate. -/
theorem of_lt_partitionPoint {p : α → Bool} {xs : List α} {x : α} {i : ℕ} (hi : i < partitionPoint p xs)
    (hx : xs[i]? = some x) : p x = true := by
  apply List.mem_takeWhile_imp (l := xs)
  rw [← take_partitionPoint_eq_takeWhile]
  apply List.mem_of_getElem? (i := i)
  rw [List.getElem?_take, if_pos hi, hx]

/-- Elements that satisfy the predicate come before the partition point of what is behind them. -/
theorem partitionPoint_append {p : α → Bool} {xs ys : List α} (hxs : ∀ x ∈ xs, p x = true) :
    partitionPoint p (xs ++ ys) = xs.length + partitionPoint p ys := by
  unfold partitionPoint
  rw [List.takeWhile_append_of_pos hxs, List.length_append]

/-- A binary search as it is documented: on a list that is not partitioned its result can be anything. -/
structure BinarySearch (α : Type*) where
  pp : (α → Bool) → List α → ℕ
  pp_eq : ∀ (p : α → Bool) (xs : List α), Partitioned p xs → pp p xs = partitionPoint p xs

/-- The search for the end of the longest satisfying prefix. -/
def BinarySearch.prefixEnd : BinarySearch α := ⟨partitionPoint, fun _ _ _ => rfl⟩

/-! ## Lists ordered by a key -/

section Sorted

variable [LinearOrder β]

/-- The keys do not decrease along the list. -/
def SortedBy (key : α → β) (xs : List α) : Prop :=
  xs.Pairwise fun a b => key a ≤ key b

/-- The keys increase along the list. -/
def StrictlySortedBy (key : α → β) (xs : List α) : Prop :=
  xs.Pairwise fun a b => key a < key b

variable {key : α → β} {xs ys : List α}

/-- A strictly ordered list is ordered. -/
theorem StrictlySortedBy.sorted (hsorted : StrictlySortedBy key xs) : SortedBy key xs :=
  List.Pairwise.imp (fun hlt => hlt.le) hsorted

@[simp]
theorem sortedBy_nil : SortedBy key ([] : List α) := List.Pairwise.nil

@[simp]
theorem strictlySortedBy_nil : StrictlySortedBy key ([] : List α) := List.Pairwise.nil

theorem sortedBy_append :
    SortedBy key (xs ++ ys) ↔
      SortedBy key xs ∧ SortedBy key ys ∧ ∀ x ∈ xs, ∀ y ∈ ys, key x ≤ key y :=
  List.pairwise_append

theorem strictlySortedBy_append :
    StrictlySortedBy key (xs ++ ys) ↔
      StrictlySortedBy key xs ∧ StrictlySortedBy key ys ∧ ∀ x ∈ xs, ∀ y ∈ ys, key x < key y :=
  List.pairwise_append

/-- Sublists of ordered lists are ordered. -/
theorem SortedBy.sublist (hsorted : SortedBy key xs) (hsub : ys.Sublist xs) : SortedBy key ys :=
  List.Pairwise.sublist hsub hsorted

/-- Sublists of strictly ordered lists are strictly ordered. -/
theorem StrictlySortedBy.sublist (hsorted : StrictlySortedBy key xs) (hsub : ys.Sublist xs) :
    StrictlySortedBy key ys :=
  List.Pairwise.sublist hsub hsorted

/-- In an ordered list the elements with a key below a bound come first. -/
theorem SortedBy.partitioned_lt (hsorted : SortedBy key xs) (bound : β) :
    Partitioned (fun x => decide (key x < bound)) xs :=
  List.Pairwise.imp (fun hle => by simpa using hle.trans_lt) hsorted

/-- In an ordered list the elements with a key up to a bound come first. -/
theorem SortedBy.partitioned_le (hsorted : SortedBy key xs) (bound : β) :
    Partitioned (fun x => decide (key x ≤ bound)) xs :=
  List.Pairwise.imp (fun hle => by simpa using hle.trans) hsorted

/-- Filtering a partitioned list by the predicate and by its negation splits it. -/
theorem Partitioned.cut {p q : α → Bool} (hpart : Partitioned p xs) (hq : ∀ x, q x = !p x) :
    xs.filter p ++ xs.filter q = xs := by
  have hdrop : xs.filter q = xs.drop (partitionPoint p xs) := by
    rw [drop_partitionPoint hpart]
    exact List.filter_congr fun x _ => hq x
  rw [hdrop, ← take_partitionPoint hpart, List.take_append_drop]

/-- Filtering an ordered list below and from a bound splits it. -/
theorem cut_of_sorted (hsorted : SortedBy key xs) (bound : β) :
    xs.filter (fun x => key x < bound) ++ xs.filter (fun x => bound ≤ key x) = xs :=
  (hsorted.partitioned_lt bound).cut fun x => by
    rw [← decide_not, decide_eq_decide, not_lt]

/-- Filtering an ordered list up to and above a bound splits it. -/
theorem cut_le_of_sorted (hsorted : SortedBy key xs) (bound : β) :
    xs.filter (fun x => key x ≤ bound) ++ xs.filter (fun x => bound < key x) = xs :=
  (hsorted.partitioned_le bound).cut fun x => by
    rw [← decide_not, decide_eq_decide, not_le]

/-- The first key of an ordered list is its least. -/
theorem SortedBy.head_le {x y : α} (hsorted : SortedBy key (x :: xs)) (hy : y ∈ x :: xs) :
    key x ≤ key y := by
  rcases List.mem_cons.mp hy with rfl | hy
  · exact le_rfl
  · exact (List.pairwise_cons.mp hsorted).1 y hy

theorem SortedBy.le_of_head? {x y : α} (hsorted : SortedBy key xs) (hx : xs.head? = some x)
    (hy : y ∈ xs) : key x ≤ key y := by
  rcases List.head?_eq_some_iff.mp hx with ⟨rest, rfl⟩
  exact hsorted.head_le hy

/-- The last key of an ordered list is its greatest. -/
theorem SortedBy.le_getLast {y : α} (hsorted : SortedBy key xs) (hy : y ∈ xs) :
    ∀ z ∈ xs.getLast?, key y ≤ key z := by
  intro z hz
  rcases List.getLast?_eq_some_iff.mp hz with ⟨zs, rfl⟩
  rcases List.mem_append.mp hy with hy | hy
  · exact (sortedBy_append.mp hsorted).2.2 y hy z (by simp)
  · simp_all

/-- The element in front of the partition point is the greatest one below the bound. -/
theorem SortedBy.below_partitionPoint {bound : β} {x y : α} {i : ℕ} (hsorted : SortedBy key xs)
    (hi : partitionPoint (fun x => decide (key x < bound)) xs = i + 1) (hx : xs[i]? = some x) :
    key x < bound ∧ (y ∈ xs → key y < bound → key y ≤ key x) := by
  have htake := take_partitionPoint (hsorted.partitioned_lt bound)
  rw [hi] at htake
  have hlast : (xs.filter fun x => decide (key x < bound)).getLast? = some x := by
    rw [← htake, List.getLast?_take, if_neg (Nat.succ_ne_zero i), Nat.add_sub_cancel, hx]
    rfl
  refine ⟨by simpa using List.of_mem_filter (List.mem_of_getLast? hlast), fun hy hlt => ?_⟩
  have hbelow : y ∈ xs.filter fun x => decide (key x < bound) := List.mem_filter.mpr ⟨hy, by simpa using hlt⟩
  exact (hsorted.sublist List.filter_sublist).le_getLast hbelow x hlast

/-- The element at the partition point is the least one that is not below the bound. -/
theorem SortedBy.at_partitionPoint {bound : β} {x y : α} (hsorted : SortedBy key xs)
    (hx : xs[partitionPoint (fun x => decide (key x < bound)) xs]? = some x) :
    bound ≤ key x ∧ (y ∈ xs → bound ≤ key y → key x ≤ key y) := by
  have hdrop := drop_partitionPoint (hsorted.partitioned_lt bound)
  have hhead : (xs.filter fun x => !decide (key x < bound)).head? = some x := by
    rw [← hdrop, List.head?_drop, hx]
  refine ⟨by simpa using List.of_mem_filter (List.mem_of_head? hhead), fun hy hle => ?_⟩
  have habove : y ∈ xs.filter fun x => !decide (key x < bound) := List.mem_filter.mpr ⟨hy, by simpa using hle⟩
  exact (hsorted.sublist List.filter_sublist).le_of_head? hhead habove

end Sorted

end Search
