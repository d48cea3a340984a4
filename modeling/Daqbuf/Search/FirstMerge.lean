import Daqbuf.Search.PartitionPoint
/-!
# Merging by Rank

Sequences whose keys increase strictly are merged into one.  Where several of them have an element of a key, the
element of the first of these sequences is taken, and the others are dropped.

Main results:

- Theorem {lit}`FirstMerged.start`: before anything is taken, everything is left.
- Theorem {lit}`FirstMerged.take`: the first of the least elements is taken.
- Theorem {lit}`FirstMerged.mergesFirst`: when nothing is left, the sequences are merged.
-/

namespace Search

variable {α β : Type*} [LinearOrder β]

/-- The element is in one of the sequences, and those before it have none of its key. -/
def FromFirst (key : α → β) (inputs : List (List α)) (x : α) : Prop :=
  ∃ pre input post, inputs = pre ++ input :: post ∧ x ∈ input ∧ ∀ other ∈ pre, ∀ y ∈ other, key y ≠ key x

/-- The output has each key of the inputs once, in order, with the element of the first input that has it. -/
structure MergesFirst (key : α → β) (inputs : List (List α)) (out : List α) : Prop where
  strict : StrictlySortedBy key out
  keys : ∀ k, k ∈ out.map key ↔ ∃ input ∈ inputs, k ∈ input.map key
  first : ∀ x ∈ out, FromFirst key inputs x

/-- What is later than all of the output -/
def later (key : α → β) (out : List α) (input : List α) : List α :=
  input.filter fun y => out.all fun x => key x < key y

/-- The elements with a greater key -/
def above (key : α → β) (k : β) (input : List α) : List α := input.filter fun y => k < key y

variable {key : α → β} {inputs : List (List α)} {input out : List α} {x y : α}

theorem mem_later : y ∈ later key out input ↔ y ∈ input ∧ ∀ x ∈ out, key x < key y := by
  simp [later]

theorem above_later : above key (key x) (later key out input) = later key (out ++ [x]) input := by
  unfold above later
  rw [List.filter_filter]
  apply List.filter_congr
  intro y _
  rw [List.all_append, Bool.and_comm]
  simp

/-- {lit}`out` is what was taken so far of {lit}`inputs`, and {lit}`rests` is what is left of each. -/
structure FirstMerged (key : α → β) (inputs : List (List α)) (out : List α) (rests : List (List α)) : Prop where
  strict : StrictlySortedBy key out
  rests_eq : rests = inputs.map (later key out)
  first : ∀ x ∈ out, FromFirst key inputs x
  covered : ∀ input ∈ inputs, ∀ y ∈ input, (∃ x ∈ out, key x = key y) ∨ ∀ x ∈ out, key x < key y

/-- Before anything is taken, everything is left. -/
theorem FirstMerged.start (key : α → β) (inputs : List (List α)) : FirstMerged key inputs [] inputs where
  strict := strictlySortedBy_nil
  rests_eq := by
    have hid : later key ([] : List α) = id := by
      funext input
      exact List.filter_eq_self.mpr fun y _ => rfl
    rw [hid, List.map_id]
  first := by simp
  covered := by simp

theorem FirstMerged.rest_strict {rests : List (List α)} (h : FirstMerged key inputs out rests)
    (hinputs : ∀ input ∈ inputs, StrictlySortedBy key input) : ∀ rest ∈ rests, StrictlySortedBy key rest := by
  intro rest hrest
  rw [h.rests_eq] at hrest
  obtain ⟨input, hinput, rfl⟩ := List.mem_map.mp hrest
  exact (hinputs input hinput).sublist List.filter_sublist

/-- The first of the least elements is taken, and the others of its key are dropped. -/
theorem FirstMerged.take {pre post : List (List α)} {rest : List α}
    (h : FirstMerged key inputs out (pre ++ (x :: rest) :: post))
    (hpre : ∀ other ∈ pre, ∀ y ∈ other, key x < key y)
    (hle : ∀ other ∈ pre ++ (x :: rest) :: post, ∀ y ∈ other, key x ≤ key y) :
    FirstMerged key inputs (out ++ [x]) ((pre ++ rest :: post).map (above key (key x))) := by
  obtain ⟨ipre, irest, hinputs, hpre_eq, hrest⟩ := List.map_eq_append_iff.mp h.rests_eq.symm
  obtain ⟨input, ipost, rfl, hinput, -⟩ := List.map_eq_cons_iff.mp hrest
  have hx : x ∈ input ∧ ∀ z ∈ out, key z < key x := by
    rw [← mem_later, hinput]
    exact List.mem_cons_self
  have hmem : ∀ i ∈ inputs, ∀ y ∈ i, (∀ z ∈ out, key z < key y) → key x ≤ key y := by
    intro i hi y hy hlater
    refine hle (later key out i) ?_ y (mem_later.mpr ⟨hy, hlater⟩)
    rw [h.rests_eq]
    exact List.mem_map_of_mem hi
  refine ⟨?_, ?_, ?_, ?_⟩
  · refine strictlySortedBy_append.mpr ⟨h.strict, List.pairwise_singleton _ _, ?_⟩
    intro z hz y hy
    rw [List.mem_singleton.mp hy]
    exact hx.2 z hz
  · calc (pre ++ rest :: post).map (above key (key x))
        = (pre ++ (x :: rest) :: post).map (above key (key x)) := by
          simp [above]
      _ = (inputs.map (later key out)).map (above key (key x)) := by rw [h.rests_eq]
      _ = inputs.map (later key (out ++ [x])) := by
          rw [List.map_map]
          exact List.map_congr_left fun i _ => above_later
  · intro z hz
    rcases List.mem_append.mp hz with hz | hz
    · exact h.first z hz
    · obtain rfl := List.mem_singleton.mp hz
      refine ⟨ipre, input, ipost, hinputs, hx.1, ?_⟩
      intro other hother y hy heq
      -- an earlier element of this key would still be left
      have hleft : y ∈ later key out other := mem_later.mpr ⟨hy, by rw [heq]; exact hx.2⟩
      refine (hpre (later key out other) ?_ y hleft).ne' heq
      rw [← hpre_eq]
      exact List.mem_map_of_mem hother
  · intro i hi y hy
    rcases h.covered i hi y hy with ⟨z, hz, heq⟩ | hlater
    · exact Or.inl ⟨z, List.mem_append_left _ hz, heq⟩
    · rcases (hmem i hi y hy hlater).eq_or_lt with heq | hlt
      · exact Or.inl ⟨x, by simp, heq⟩
      · refine Or.inr fun z hz => ?_
        rcases List.mem_append.mp hz with hz | hz
        · exact hlater z hz
        · rw [List.mem_singleton.mp hz]
          exact hlt

/-- When nothing is left, the inputs are merged. -/
theorem FirstMerged.mergesFirst {rests : List (List α)} (h : FirstMerged key inputs out rests)
    (hnil : ∀ rest ∈ rests, rest = []) : MergesFirst key inputs out where
  strict := h.strict
  first := h.first
  keys := by
    intro k
    constructor
    · intro hk
      obtain ⟨x, hx, rfl⟩ := List.mem_map.mp hk
      obtain ⟨pre, input, post, rfl, hmem, -⟩ := h.first x hx
      exact ⟨input, by simp, List.mem_map_of_mem hmem⟩
    · intro ⟨input, hinput, hk⟩
      obtain ⟨y, hy, rfl⟩ := List.mem_map.mp hk
      rcases h.covered input hinput y hy with ⟨x, hx, heq⟩ | hlater
      · exact List.mem_map.mpr ⟨x, hx, heq⟩
      · have hrest : later key out input = [] := by
          apply hnil
          rw [h.rests_eq]
          exact List.mem_map_of_mem hinput
        have hleft : y ∈ later key out input := mem_later.mpr ⟨hy, hlater⟩
        rw [hrest] at hleft
        cases hleft

end Search
