import Daqbuf.Search.PartitionPoint
/-!
# Successors in an Ordered List

Each element of a list ordered by a key is paired with the key of the element behind it.  Among elements with the same
key only the last one meets the next larger key.

Main results:

- Theorem {lit}`reverse_withLast_reverse`: a pass from the back that remembers the last key finds the pairs.
- Theorem {lit}`withNext_cases`: what is met is the same key, or the next larger one.
- Theorem {lit}`exists_isNext`: the next larger key is met by one of the elements with the same key.
-/

namespace Search

variable {α β : Type*} [LinearOrder β] {key : α → β} {x y : α} {xs : List α} {k : β} {n : Option β}

/-- Each element, with the key of the one behind it -/
def withNext (key : α → β) : List α → List (α × Option β)
  | [] => []
  | x :: xs => (x, xs.head?.map key) :: withNext key xs

/-- Each element, with the key of the one before it, and with the given key the first -/
def withLast (key : α → β) : Option β → List α → List (α × Option β)
  | _, [] => []
  | last, x :: xs => (x, last) :: withLast key (some (key x)) xs

/-- The least key of the list that is larger than the given one, if there is one -/
def IsNext (key : α → β) (xs : List α) (k : β) : Option β → Prop
  | none => ∀ y ∈ xs, key y ≤ k
  | some n => k < n ∧ (∃ y ∈ xs, key y = n) ∧ ∀ y ∈ xs, key y ≤ k ∨ n ≤ key y

/-- A key that is not larger does not matter. -/
theorem IsNext.cons (h : IsNext key xs k n) (hx : key x ≤ k) : IsNext key (x :: xs) k n := by
  cases n with
  | none => exact List.forall_mem_cons.mpr ⟨hx, h⟩
  | some n =>
      obtain ⟨hlt, ⟨y, hy, hkey⟩, hall⟩ := h
      exact ⟨hlt, ⟨y, List.mem_cons_of_mem x hy, hkey⟩, List.forall_mem_cons.mpr ⟨.inl hx, hall⟩⟩

/-- There is at most one next key. -/
theorem IsNext.unique {n' : Option β} (h : IsNext key xs k n) (h' : IsNext key xs k n') : n = n' := by
  cases n with
  | none =>
      cases n' with
      | none => rfl
      | some b =>
          obtain ⟨hlt, ⟨y, hy, rfl⟩, -⟩ := h'
          exact absurd (h y hy) (not_le.mpr hlt)
  | some a =>
      obtain ⟨hlt, ⟨y, hy, rfl⟩, hall⟩ := h
      cases n' with
      | none => exact absurd (h' y hy) (not_le.mpr hlt)
      | some b =>
          obtain ⟨hlt', ⟨z, hz, rfl⟩, hall'⟩ := h'
          have hyz : key y ≤ key z := (hall z hz).resolve_left (not_le.mpr hlt')
          have hzy : key z ≤ key y := (hall' y hy).resolve_left (not_le.mpr hlt)
          rw [hyz.antisymm hzy]

/-- The next key depends on the keys only. -/
theorem IsNext.of_keys {γ : Type*} {key' : γ → β} {ys : List γ} (h : IsNext key xs k n)
    (hkeys : xs.map key ⊆ ys.map key') (hkeys' : ys.map key' ⊆ xs.map key) : IsNext key' ys k n := by
  have hback : ∀ y ∈ ys, ∃ x ∈ xs, key x = key' y := by
    intro y hy
    exact List.mem_map.mp (hkeys' (List.mem_map_of_mem hy))
  cases n with
  | none =>
      intro y hy
      obtain ⟨x, hx, heq⟩ := hback y hy
      exact heq ▸ h x hx
  | some n =>
      obtain ⟨hlt, ⟨x, hx, hkey⟩, hall⟩ := h
      have hmem : n ∈ ys.map key' := hkeys (hkey ▸ List.mem_map_of_mem hx)
      refine ⟨hlt, List.mem_map.mp hmem, ?_⟩
      intro y hy
      obtain ⟨z, hz, heq⟩ := hback y hy
      exact heq ▸ hall z hz

omit [LinearOrder β] in
theorem withLast_append_singleton (last : Option β) :
    withLast key last (xs ++ [x]) = withLast key last xs ++ [(x, (xs.getLast?.map key).or last)] := by
  induction xs generalizing last with
  | nil => rfl
  | cons y ys ih =>
      rw [List.cons_append, withLast, ih, withLast, List.cons_append, List.getLast?_cons]
      cases ys.getLast? <;> rfl

omit [LinearOrder β] in
/-- A pass from the back that remembers the last key finds the key of the element behind each one. -/
theorem reverse_withLast_reverse : (withLast key none xs.reverse).reverse = withNext key xs := by
  induction xs with
  | nil => rfl
  | cons x xs ih =>
      rw [List.reverse_cons, withLast_append_singleton, List.reverse_append, ih, List.getLast?_reverse, Option.or_none]
      rfl

omit [LinearOrder β] in
@[simp]
theorem map_fst_withNext (key : α → β) (xs : List α) : (withNext key xs).map Prod.fst = xs := by
  induction xs with
  | nil => rfl
  | cons x xs ih => rw [withNext, List.map_cons, ih]

omit [LinearOrder β] in
theorem mem_of_mem_withNext (h : (x, n) ∈ withNext key xs) : x ∈ xs := by
  have hmem := List.mem_map_of_mem (f := Prod.fst) h
  rwa [map_fst_withNext] at hmem

/-- The first element of an ordered list meets its own key, or the next larger one. -/
theorem next_head (hsorted : SortedBy key (x :: xs)) :
    xs.head?.map key = some (key x) ∨ IsNext key (x :: xs) (key x) (xs.head?.map key) := by
  cases xs with
  | nil =>
      have hall : ∀ y ∈ [x], key y ≤ key x := by simp
      exact .inr hall
  | cons y ys =>
      obtain ⟨hx, hys⟩ := List.pairwise_cons.mp hsorted
      obtain heq | hlt := (hx y List.mem_cons_self).eq_or_lt
      · left
        rw [heq]
        rfl
      · right
        refine IsNext.cons ⟨hlt, ⟨y, List.mem_cons_self, rfl⟩, ?_⟩ le_rfl
        intro z hz
        exact .inr (SortedBy.head_le hys hz)

/-- What an element of an ordered list meets is its own key, or the next larger one. -/
theorem withNext_cases (hsorted : SortedBy key xs) (h : (x, n) ∈ withNext key xs) :
    n = some (key x) ∨ IsNext key xs (key x) n := by
  induction xs with
  | nil => cases h
  | cons y ys ih =>
      obtain ⟨hy, hys⟩ := List.pairwise_cons.mp hsorted
      obtain heq | h := List.mem_cons.mp h
      · cases heq
        exact next_head hsorted
      · obtain hsame | hnext := ih hys h
        · exact .inl hsame
        · exact .inr (hnext.cons (hy x (mem_of_mem_withNext h)))

/-- The next larger key is met by one of the elements with the same key. -/
theorem exists_isNext (hsorted : SortedBy key xs) (hx : x ∈ xs) :
    ∃ y n, (y, n) ∈ withNext key xs ∧ key y = key x ∧ IsNext key xs (key x) n := by
  induction xs generalizing x with
  | nil => cases hx
  | cons y ys ih =>
      obtain ⟨hy, hys⟩ := List.pairwise_cons.mp hsorted
      -- An element of the tail with the same key has one behind it.
      have htail : ∀ z ∈ ys, key z = key x →
          ∃ w n, (w, n) ∈ withNext key (y :: ys) ∧ key w = key x ∧ IsNext key (y :: ys) (key x) n := by
        intro z hz hkey
        obtain ⟨w, n, hw, hkeyw, hnext⟩ := ih hys hz
        rw [hkey] at hkeyw hnext
        exact ⟨w, n, List.mem_cons_of_mem _ hw, hkeyw, hnext.cons (hkey ▸ hy z hz)⟩
      obtain rfl | hx := List.mem_cons.mp hx
      · obtain hsame | hnext := next_head hsorted
        · obtain ⟨z, hz, hkey⟩ := Option.map_eq_some_iff.mp hsame
          exact htail z (List.mem_of_mem_head? hz) hkey
        · exact ⟨x, _, List.mem_cons_self, rfl, hnext⟩
      · exact htail x hx rfl

/-- A sort of which the order of elements with the same key is not known, as {lit}`sort_unstable_by_key` -/
structure UnstableSort where
  sortBy : {α : Type} → (α → ℕ) → List α → List α
  perm : ∀ {α : Type} (key : α → ℕ) (xs : List α), (sortBy key xs).Perm xs
  sorted : ∀ {α : Type} (key : α → ℕ) (xs : List α), SortedBy key (sortBy key xs)

/-- A sort that keeps the order of elements with the same key -/
def UnstableSort.stable : UnstableSort where
  sortBy key xs := xs.mergeSort fun a b => decide (key a ≤ key b)
  perm _ xs := List.mergeSort_perm xs _
  sorted key xs := by
    have htrans : ∀ a b c, decide (key a ≤ key b) → decide (key b ≤ key c) → decide (key a ≤ key c) := by
      intro a b c
      simpa using le_trans
    have htotal : ∀ a b, decide (key a ≤ key b) || decide (key b ≤ key a) := by
      intro a b
      simpa using le_total (key a) (key b)
    exact (List.pairwise_mergeSort htrans htotal xs).imp of_decide_eq_true

end Search
