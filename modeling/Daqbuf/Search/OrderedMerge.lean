import Daqbuf.Search.PartitionPoint
/-!
# Ordered Merging

Sequences whose keys increase strictly are merged into one by moving prefixes: a prefix of one
sequence may move to the output when no other sequence has an earlier element, and what has the key
of the last moved element is then dropped from the others.  Sequences with repeated keys are merged in the
same way, with nothing dropped.

Main results:

- Theorem {lit}`Merged.start`: before anything moved, nothing is merged.
- Theorem {lit}`Merged.take`: moving a prefix keeps the sequences merged so far.
- Theorem {lit}`Merged.mem_keys_iff`: when nothing is left, the output has exactly the keys of the
  inputs.
- Theorem {lit}`Interleaved.take`: a prefix moves and nothing is dropped.
-/

namespace Search

variable {α β : Type*} [LinearOrder β]

/-- {lit}`out` is what was merged so far of {lit}`inputs`, and {lit}`rests` is what is left. -/
structure Merged (key : α → β) (inputs : List (List α)) (out : List α) (rests : List (List α)) :
    Prop where
  strict : StrictlySortedBy key out
  rest_strict : ∀ rest ∈ rests, StrictlySortedBy key rest
  before : ∀ x ∈ out, ∀ rest ∈ rests, ∀ y ∈ rest, key x < key y
  out_sound : ∀ x ∈ out, ∃ input ∈ inputs, x ∈ input
  rest_sound : ∀ rest ∈ rests, ∀ x ∈ rest, ∃ input ∈ inputs, x ∈ input
  covered : ∀ input ∈ inputs, ∀ x ∈ input,
    (∃ y ∈ out, key y = key x) ∨ ∃ rest ∈ rests, x ∈ rest

variable {key : α → β} {inputs rests : List (List α)} {out : List α}

/-- Before anything moved, nothing is merged. -/
theorem Merged.start (hstrict : ∀ input ∈ inputs, StrictlySortedBy key input) :
    Merged key inputs [] inputs where
  strict := strictlySortedBy_nil
  rest_strict := hstrict
  before := by simp
  out_sound := by simp
  rest_sound := fun rest hrest x hx => ⟨rest, hrest, hx⟩
  covered := fun input hinput x hx => .inr ⟨input, hinput, hx⟩

/-- A prefix of one sequence moves to the output, and the others lose what is not later. -/
theorem Merged.take {pre post : List (List α)} {init rest : List α} {last : α}
    (hmerged : Merged key inputs out (pre ++ (init ++ last :: rest) :: post))
    (hlowest : ∀ other ∈ pre ++ post, ∀ y ∈ other, key last ≤ key y) :
    Merged key inputs (out ++ (init ++ [last]))
      ((pre ++ rest :: post).map fun r => r.filter fun y => key last < key y) := by
  rcases hmerged with ⟨hstrict, hrests, hbefore, hout, hsound, hcovered⟩
  have hmem : init ++ last :: rest ∈ pre ++ (init ++ last :: rest) :: post := by simp
  have hlane := hrests _ hmem
  have hlane' : StrictlySortedBy key ((init ++ [last]) ++ rest) := by simpa using hlane
  rcases strictlySortedBy_append.mp hlane' with ⟨hmoved, _, hcross⟩
  have hle : ∀ x ∈ init ++ [last], key x ≤ key last := fun x hx =>
    hmoved.sorted.le_getLast hx last (by simp)
  -- what is left of any sequence was left before, and is later than the last moved element
  have hleft : ∀ r ∈ (pre ++ rest :: post).map (fun r => r.filter fun y => key last < key y),
      ∀ y ∈ r, key last < key y ∧ ∃ r' ∈ pre ++ (init ++ last :: rest) :: post, y ∈ r' := by
    intro r hr y hy
    rcases List.mem_map.mp hr with ⟨r', hr', rfl⟩
    rcases List.mem_filter.mp hy with ⟨hy, hlt⟩
    refine ⟨by simpa using hlt, ?_⟩
    rcases List.mem_append.mp hr' with hr' | hr'
    · exact ⟨r', by simp [hr'], hy⟩
    · rcases List.mem_cons.mp hr' with rfl | hr'
      · exact ⟨_, hmem, by simp [hy]⟩
      · exact ⟨r', by simp [hr'], hy⟩
  refine ⟨?_, ?_, ?_, ?_, ?_, ?_⟩
  · refine strictlySortedBy_append.mpr ⟨hstrict, hmoved, fun x hx y hy => ?_⟩
    exact hbefore x hx _ hmem y (by
      rcases List.mem_append.mp hy with hy | hy
      · simp [hy]
      · simp [List.mem_singleton.mp hy])
  · intro r hr
    rcases List.mem_map.mp hr with ⟨r', hr', rfl⟩
    refine StrictlySortedBy.sublist ?_ List.filter_sublist
    rcases List.mem_append.mp hr' with hr' | hr'
    · exact hrests r' (by simp [hr'])
    · rcases List.mem_cons.mp hr' with rfl | hr'
      · exact (strictlySortedBy_append.mp hlane').2.1
      · exact hrests r' (by simp [hr'])
  · intro x hx r hr y hy
    rcases hleft r hr y hy with ⟨hlt, r', hr', hy'⟩
    rcases List.mem_append.mp hx with hx | hx
    · exact hbefore x hx r' hr' y hy'
    · exact (hle x hx).trans_lt hlt
  · intro x hx
    rcases List.mem_append.mp hx with hx | hx
    · exact hout x hx
    · exact hsound _ hmem x (by
        rcases List.mem_append.mp hx with hx | hx
        · simp [hx]
        · simp [List.mem_singleton.mp hx])
  · intro r hr y hy
    rcases hleft r hr y hy with ⟨_, r', hr', hy'⟩
    exact hsound r' hr' y hy'
  · intro input hinput x hx
    rcases hcovered input hinput x hx with ⟨y, hy, hkey⟩ | ⟨r, hr, hxr⟩
    · exact .inl ⟨y, by simp [hy], hkey⟩
    · -- what is not kept either moved or has the key of the last moved element
      have hkeep : ∀ r' ∈ pre ++ rest :: post, x ∈ r' → key last < key x →
          ∃ r ∈ (pre ++ rest :: post).map (fun r => r.filter fun y => key last < key y), x ∈ r :=
        fun r' hr' hx' hlt =>
          ⟨_, List.mem_map_of_mem hr', List.mem_filter.mpr ⟨hx', by simpa using hlt⟩⟩
      have hother : r ∈ pre ++ post →
          (∃ y ∈ out ++ (init ++ [last]), key y = key x) ∨
            ∃ r ∈ (pre ++ rest :: post).map (fun r => r.filter fun y => key last < key y), x ∈ r := by
        intro hr'
        rcases (hlowest r hr' x hxr).lt_or_eq with hlt | heq
        · refine .inr (hkeep r ?_ hxr hlt)
          rcases List.mem_append.mp hr' with hr' | hr' <;> simp [hr']
        · exact .inl ⟨last, by simp, heq⟩
      rcases List.mem_append.mp hr with hr | hr
      · exact hother (List.mem_append_left _ hr)
      · rcases List.mem_cons.mp hr with rfl | hr
        · rw [← List.singleton_append, ← List.append_assoc] at hxr
          rcases List.mem_append.mp hxr with hx' | hx'
          · exact .inl ⟨x, List.mem_append_right _ hx', rfl⟩
          · exact .inr (hkeep rest (by simp) hx' (hcross last (by simp) x hx'))
        · exact hother (List.mem_append_right _ hr)

/-- When nothing is left, the output has exactly the keys of the inputs. -/
theorem Merged.mem_keys_iff (hmerged : Merged key inputs out rests)
    (hnil : ∀ rest ∈ rests, rest = []) (k : β) :
    k ∈ out.map key ↔ ∃ input ∈ inputs, k ∈ input.map key := by
  constructor
  · intro hk
    rcases List.mem_map.mp hk with ⟨x, hx, rfl⟩
    rcases hmerged.out_sound x hx with ⟨input, hinput, hx'⟩
    exact ⟨input, hinput, List.mem_map_of_mem hx'⟩
  · rintro ⟨input, hinput, hk⟩
    rcases List.mem_map.mp hk with ⟨x, hx, rfl⟩
    rcases hmerged.covered input hinput x hx with ⟨y, hy, hkey⟩ | ⟨rest, hrest, hx'⟩
    · exact List.mem_map.mpr ⟨y, hy, hkey⟩
    · simp [hnil rest hrest] at hx'

/-! ## Merging with repeated keys -/

/-- {lit}`out` is what was taken so far of all the elements {lit}`all`, in order, and {lit}`rests` is what
is left. -/
structure Interleaved (key : α → β) (all : List α) (out : List α) (rests : List (List α)) : Prop where
  sorted : SortedBy key out
  rest_sorted : ∀ rest ∈ rests, SortedBy key rest
  before : ∀ x ∈ out, ∀ rest ∈ rests, ∀ y ∈ rest, key x ≤ key y
  perm : (out ++ rests.flatten).Perm all

/-- Before anything is taken, everything is left. -/
theorem Interleaved.start (hsorted : ∀ input ∈ inputs, SortedBy key input) :
    Interleaved key inputs.flatten [] inputs where
  sorted := sortedBy_nil
  rest_sorted := hsorted
  before := by simp
  perm := List.Perm.refl _

/-- A prefix of one sequence moves to the output when no other sequence has an earlier element. -/
theorem Interleaved.take {all : List α} {pre post : List (List α)} {init rest : List α}
    (hleft : Interleaved key all out (pre ++ (init ++ rest) :: post))
    (hlowest : ∀ x ∈ init, ∀ other ∈ pre ++ post, ∀ y ∈ other, key x ≤ key y) :
    Interleaved key all (out ++ init) (pre ++ rest :: post) := by
  rcases hleft with ⟨hout, hrests, hbefore, hperm⟩
  have hmem : init ++ rest ∈ pre ++ (init ++ rest) :: post := by simp
  rcases sortedBy_append.mp (hrests _ hmem) with ⟨hinit, hrest, hcross⟩
  have hothers : ∀ other ∈ pre ++ post, other ∈ pre ++ (init ++ rest) :: post := by
    intro other hother
    rcases List.mem_append.mp hother with hother | hother <;> simp [hother]
  have hcases : ∀ r ∈ pre ++ rest :: post, r = rest ∨ r ∈ pre ++ post := by
    intro r hr
    rcases List.mem_append.mp hr with hr | hr
    · exact .inr (List.mem_append_left _ hr)
    · rcases List.mem_cons.mp hr with hr | hr
      · exact .inl hr
      · exact .inr (List.mem_append_right _ hr)
  constructor
  · apply sortedBy_append.mpr
    exact ⟨hout, hinit, fun x hx y hy => hbefore x hx _ hmem y (List.mem_append_left _ hy)⟩
  · intro r hr
    rcases hcases r hr with rfl | hr
    · exact hrest
    · exact hrests r (hothers r hr)
  · intro x hx r hr y hy
    rcases List.mem_append.mp hx with hx | hx
    · rcases hcases r hr with rfl | hr
      · exact hbefore x hx _ hmem y (List.mem_append_right _ hy)
      · exact hbefore x hx r (hothers r hr) y hy
    · rcases hcases r hr with rfl | hr
      · exact hcross x hx y hy
      · exact hlowest x hx r hr y hy
  · apply List.Perm.trans ?_ hperm
    simp only [List.flatten_append, List.flatten_cons, List.append_assoc]
    apply List.Perm.append_left
    exact List.perm_append_comm_assoc init pre.flatten (rest ++ post.flatten)

/-- A sequence of which nothing is left can go. -/
theorem Interleaved.drop_nil {all : List α} (hleft : Interleaved key all out rests) {kept : List (List α)}
    (hsub : kept.Sublist rests) (hflat : kept.flatten = rests.flatten) :
    Interleaved key all out kept where
  sorted := hleft.sorted
  rest_sorted := fun rest hrest => hleft.rest_sorted rest (hsub.subset hrest)
  before := fun x hx rest hrest => hleft.before x hx rest (hsub.subset hrest)
  perm := by rw [hflat]; exact hleft.perm

end Search
