import Daqbuf.Binning.Bins
import Daqbuf.Search.FirstMerge
/-!
# Prebinned Data of the Stores

{lit}`scylla_read_prebinned_f32` merges the bins of the three stores.  Each round takes the bin that comes first, and
discards what is not later from the others; but from a container that has nothing later, nothing is discarded.

Main results:

- Theorem {lit}`mergeRound_cases`: what one round of the loop does.
- Theorem {lit}`mergeLoop_of_inv`: the loop ends, and an invariant of the rounds holds when it does.
- Theorem {lit}`scyllaReadPrebinnedF32_iff`: when every bin is there once, from the shortest store that has it.
-/

namespace Daqbuf
namespace Scylla

open Binning Search

variable {V R : Type}

/-! ## Containers -/

/-- {lit}`ContainerBins`, by rows -/
abbrev ContainerBins (V R : Type) := List (Bin V R)

namespace ContainerBins

variable (c : ContainerBins V R)

/-- {lit}`ts_min` -/
def tsMin : Option ℕ := c.head?.map Bin.ts1

/-- {lit}`find_lowest_index_gt` -/
def findLowestIndexGt (ts : ℕ) : Option ℕ :=
  let x := partitionPoint (fun bin => decide (bin.ts1 ≤ ts)) c
  if c.length ≤ x then none else some x

/-- {lit}`drain_into`, of a range from the front: what is left, and the destination -/
def drainInto (dst : ContainerBins V R) (fin : ℕ) : ContainerBins V R × ContainerBins V R :=
  (c.drop fin, dst ++ c.take fin)

end ContainerBins

/-! ## The loop -/

/-- The least start so far, with the index of its container, and the start of the next container -/
def lower (i : ℕ) : Option (ℕ × ℕ) → Option ℕ → Option (ℕ × ℕ)
  | low, none => low
  | none, some min => some (i, min)
  | some (ix, min2), some min => if min < min2 then some (i, min) else some (ix, min2)

/-- The search for the container with the least start, and for this start, from an index on -/
def leastStart : ℕ → Option (ℕ × ℕ) → List (Option ℕ) → Option (ℕ × ℕ)
  | _, low, [] => low
  | i, low, min :: mins => leastStart (i + 1) (lower i low min) mins

/-- What is drained into {lit}`dmp` is gone. -/
def discard (min2 : ℕ) (c : ContainerBins V R) : ContainerBins V R :=
  match c.findLowestIndexGt min2 with
  | some pp => (c.drainInto [] pp).1
  | none => c

/-- A round of the loop; it has no result where the loop ends. -/
def mergeRound (res : List (ContainerBins V R)) (out : ContainerBins V R) :
    Option (List (ContainerBins V R) × ContainerBins V R) :=
  match leastStart 0 none (res.map ContainerBins.tsMin) with
  | some (ix, min2) =>
    let (front, out) := (res.getD ix []).drainInto out 1
    some ((res.set ix front).map (discard min2), out)
  | none => none

/-- The loop, for a number of rounds -/
def mergeLoop : ℕ → List (ContainerBins V R) → ContainerBins V R → Option (ContainerBins V R)
  | 0, _, _ => none
  | n + 1, res, out =>
    match mergeRound res out with
    | some (res, out) => mergeLoop n res out
    | none => some out

/-- {lit}`scylla_read_prebinned_f32`, after the three reads -/
def scyllaReadPrebinnedF32 (n : ℕ) (short medium long : ContainerBins V R) : Option (Option (ContainerBins V R)) :=
  (mergeLoop n [short, medium, long] []).map fun out => if out.length = 0 then none else some out

/-! ## A round -/

/-- What the search found in the starts that it has seen -/
def Lowest (seen : List (Option ℕ)) : Option (ℕ × ℕ) → Prop
  | none => ∀ min ∈ seen, min = none
  | some (ix, min2) => ∃ pre post, seen = pre ++ some min2 :: post ∧ pre.length = ix ∧
      (∀ min, some min ∈ pre → min2 < min) ∧ ∀ min, some min ∈ seen → min2 ≤ min

/-- One more start is seen. -/
theorem Lowest.lower {seen : List (Option ℕ)} {low : Option (ℕ × ℕ)} (hlow : Lowest seen low) (min : Option ℕ) :
    Lowest (seen ++ [min]) (lower seen.length low min) := by
  cases min with
  | none =>
      cases low with
      | none =>
          intro x hx
          rcases List.mem_append.mp hx with hx | hx
          · exact hlow x hx
          · exact List.mem_singleton.mp hx
      | some low =>
          obtain ⟨pre, post, rfl, hix, hpre, hle⟩ := hlow
          refine ⟨pre, post ++ [none], by simp, hix, hpre, ?_⟩
          intro x hx
          rcases List.mem_append.mp hx with hx | hx
          · exact hle x hx
          · cases List.mem_singleton.mp hx
  | some min =>
      cases low with
      | none =>
          have hnone : ∀ x, some x ∉ seen := by
            intro x hx
            cases hlow (some x) hx
          refine ⟨seen, [], rfl, rfl, fun x hx => absurd hx (hnone x), ?_⟩
          intro x hx
          rcases List.mem_append.mp hx with hx | hx
          · exact absurd hx (hnone x)
          · cases List.mem_singleton.mp hx
            exact le_rfl
      | some low =>
          obtain ⟨ix, min2⟩ := low
          obtain ⟨pre, post, hseen, hix, hpre, hle⟩ := hlow
          rw [Scylla.lower]
          split_ifs with hlt
          · refine ⟨seen, [], rfl, rfl, fun x hx => hlt.trans_le (hle x hx), ?_⟩
            intro x hx
            rcases List.mem_append.mp hx with hx | hx
            · exact hlt.le.trans (hle x hx)
            · cases List.mem_singleton.mp hx
              exact le_rfl
          · refine ⟨pre, post ++ [some min], by simp [hseen], hix, hpre, ?_⟩
            intro x hx
            rcases List.mem_append.mp hx with hx | hx
            · exact hle x hx
            · cases List.mem_singleton.mp hx
              exact not_lt.mp hlt

theorem Lowest.leastStart {seen : List (Option ℕ)} {low : Option (ℕ × ℕ)} (mins : List (Option ℕ))
    (hlow : Lowest seen low) : Lowest (seen ++ mins) (leastStart seen.length low mins) := by
  induction mins generalizing seen low with
  | nil =>
      rw [List.append_nil]
      exact hlow
  | cons min mins ih =>
      have hnext := ih (hlow.lower min)
      rw [List.length_append] at hnext
      rw [List.append_cons]
      exact hnext

/-- What is left of a container once the bins up to a start are discarded: they stay where nothing is later. -/
theorem discard_eq {c : ContainerBins V R} (hc : StrictlySortedBy Bin.ts1 c) (min2 : ℕ) :
    discard min2 c = if ∃ bin ∈ c, min2 < bin.ts1 then above Bin.ts1 min2 c else c := by
  have hpart := hc.sorted.partitioned_le min2
  have hdrop : c.drop (partitionPoint (fun bin => decide (bin.ts1 ≤ min2)) c) = above Bin.ts1 min2 c := by
    rw [drop_partitionPoint hpart, above]
    apply List.filter_congr
    intro bin _
    rw [← decide_not, decide_eq_decide, not_le]
  have hall : c.length ≤ partitionPoint (fun bin => decide (bin.ts1 ≤ min2)) c ↔ ¬ ∃ bin ∈ c, min2 < bin.ts1 := by
    rw [length_le_partitionPoint_iff]
    simp
  rw [discard, ContainerBins.findLowestIndexGt]
  by_cases hlater : ∃ bin ∈ c, min2 < bin.ts1
  · rw [if_neg (hall.not.mpr (not_not_intro hlater)), if_pos hlater]
    exact hdrop
  · rw [if_pos (hall.mpr hlater), if_neg hlater]

/-- A round ends the loop when nothing is left.  Else it takes the first of the bins with the least start. -/
theorem mergeRound_cases {res : List (ContainerBins V R)} (hres : ∀ c ∈ res, StrictlySortedBy Bin.ts1 c)
    (out : ContainerBins V R) :
    (mergeRound res out = none ∧ ∀ c ∈ res, c = []) ∨
    ∃ pre bin rest post, res = pre ++ (bin :: rest) :: post ∧
      (∀ c ∈ pre, ∀ y ∈ c, bin.ts1 < y.ts1) ∧ (∀ c ∈ res, ∀ y ∈ c, bin.ts1 ≤ y.ts1) ∧
      mergeRound res out = some ((pre ++ rest :: post).map (discard bin.ts1), out ++ [bin]) := by
  have hstart : Lowest [] none := fun _ hmin => absurd hmin List.not_mem_nil
  have hlow : Lowest (res.map ContainerBins.tsMin) (leastStart 0 none (res.map ContainerBins.tsMin)) :=
    hstart.leastStart (res.map ContainerBins.tsMin)
  have hhead : ∀ c : ContainerBins V R, StrictlySortedBy Bin.ts1 c → ∀ y ∈ c, ∃ min, c.tsMin = some min ∧ min ≤ y.ts1 := by
    intro c hc y hy
    cases c with
    | nil => cases hy
    | cons x c => exact ⟨x.ts1, rfl, hc.sorted.head_le hy⟩
  rw [mergeRound]
  cases hleast : leastStart 0 none (res.map ContainerBins.tsMin) with
  | none =>
      rw [hleast] at hlow
      refine Or.inl ⟨rfl, ?_⟩
      intro c hc
      have hmin : c.tsMin = none := hlow _ (List.mem_map_of_mem hc)
      exact List.head?_eq_none_iff.mp (Option.map_eq_none_iff.mp hmin)
  | some low =>
      obtain ⟨ix, min2⟩ := low
      rw [hleast] at hlow
      obtain ⟨mpre, mpost, hmins, hix, hpre, hle⟩ := hlow
      obtain ⟨pre, cs, rfl, rfl, hcs⟩ := List.map_eq_append_iff.mp hmins
      obtain ⟨c, post, rfl, hc, rfl⟩ := List.map_eq_cons_iff.mp hcs
      rw [List.length_map] at hix
      cases c with
      | nil => cases hc
      | cons bin rest =>
          obtain rfl : bin.ts1 = min2 := Option.some.inj hc
          refine Or.inr ⟨pre, bin, rest, post, rfl, ?_, ?_, ?_⟩
          · intro c hc y hy
            obtain ⟨min, hmin, hy⟩ := hhead c (hres c (by simp [hc])) y hy
            exact (hpre min (hmin ▸ List.mem_map_of_mem hc)).trans_le hy
          · intro c hc y hy
            obtain ⟨min, hmin, hy⟩ := hhead c (hres c hc) y hy
            exact (hle min (hmin ▸ List.mem_map_of_mem hc)).trans hy
          · subst hix
            simp [ContainerBins.drainInto]

/-! ## Runs of the loop -/

/-- What is left, in all containers -/
def size (res : List (ContainerBins V R)) : ℕ := (res.map List.length).sum

theorem size_map_discard_le (res : List (ContainerBins V R)) (min2 : ℕ) : size (res.map (discard min2)) ≤ size res := by
  unfold size
  rw [List.map_map]
  refine List.sum_le_sum fun c _ => ?_
  show (discard min2 c).length ≤ c.length
  rw [discard]
  split
  · exact (List.drop_sublist _ _).length_le
  · exact le_rfl

/-- The loop ends after at most as many rounds as there are bins, and once more.  What holds at its start and is kept
by each round holds when it ends. -/
theorem mergeLoop_of_inv {P : List (ContainerBins V R) → ContainerBins V R → Prop} {Q : ContainerBins V R → Prop}
    (hsorted : ∀ res out, P res out → ∀ c ∈ res, StrictlySortedBy Bin.ts1 c)
    (hstep : ∀ pre bin rest post out, P (pre ++ (bin :: rest) :: post) out → (∀ c ∈ pre, ∀ y ∈ c, bin.ts1 < y.ts1) →
      (∀ c ∈ pre ++ (bin :: rest) :: post, ∀ y ∈ c, bin.ts1 ≤ y.ts1) →
      P ((pre ++ rest :: post).map (discard bin.ts1)) (out ++ [bin]))
    (hend : ∀ res out, P res out → (∀ c ∈ res, c = []) → Q out) {n : ℕ} {res : List (ContainerBins V R)}
    {out : ContainerBins V R} (hn : size res < n) (hres : P res out) :
    ∃ out', mergeLoop n res out = some out' ∧ Q out' := by
  induction n generalizing res out with
  | zero => exact absurd hn (Nat.not_lt_zero _)
  | succ n ih =>
      rw [mergeLoop]
      rcases mergeRound_cases (hsorted res out hres) out with ⟨hround, hnil⟩ | ⟨pre, bin, rest, post, rfl, hpre, hle, hround⟩
      · rw [hround]
        exact ⟨out, rfl, hend res out hres hnil⟩
      · rw [hround]
        refine ih ?_ (hstep pre bin rest post out hres hpre hle)
        have hsize : size (pre ++ (bin :: rest) :: post) = size (pre ++ rest :: post) + 1 := by
          simp only [size, List.map_append, List.map_cons, List.sum_append, List.sum_cons, List.length_cons]
          omega
        have hmap := size_map_discard_le (pre ++ rest :: post) bin.ts1
        omega

/-! ## Merging the stores -/

/-- The last bin of the second container has no bin of the same start in the first. -/
def Apart (c c' : ContainerBins V R) : Prop := ∀ last ∈ c'.getLast?, ∀ y ∈ c, y.ts1 ≠ last.ts1

instance (c c' : ContainerBins V R) : Decidable (Apart c c') := inferInstanceAs (Decidable (∀ last ∈ c'.getLast?, _))

/-- The last bin of a container has no bin of the same start in a container before it. -/
def LastsApart (res : List (ContainerBins V R)) : Prop := res.Pairwise Apart

instance (res : List (ContainerBins V R)) : Decidable (LastsApart res) := inferInstanceAs (Decidable (List.Pairwise _ _))

section Apart

variable {c c' d d' : ContainerBins V R} {min2 : ℕ}

theorem Apart.of_suffix (h : Apart c c') (hd : d <:+ c) (hd' : d' <:+ c') : Apart d d' := by
  intro last hlast y hy
  obtain ⟨t, rfl⟩ := hd'
  refine h last ?_ y (hd.subset hy)
  rw [List.getLast?_append, Option.mem_def.mp hlast]
  rfl

/-- What is left of a container is an end of it. -/
theorem discard_suffix (min2 : ℕ) (c : ContainerBins V R) : discard min2 c <:+ c := by
  rw [discard]
  split
  · exact List.drop_suffix _ _
  · exact List.suffix_rfl

theorem mem_discard (hc : StrictlySortedBy Bin.ts1 c) {y : Bin V R} (hy : y ∈ c) (hlt : min2 < y.ts1) :
    y ∈ discard min2 c := by
  rw [discard_eq hc, if_pos ⟨y, hy, hlt⟩]
  exact List.mem_filter.mpr ⟨hy, decide_eq_true hlt⟩

/-- The last bin is never discarded. -/
theorem getLast?_discard (hc : StrictlySortedBy Bin.ts1 c) : (discard min2 c).getLast? = c.getLast? := by
  rw [discard_eq hc]
  split_ifs with hlater
  · obtain ⟨y, hy, hlt⟩ := hlater
    cases hlast : c.getLast? with
    | none =>
        rw [List.getLast?_eq_none_iff.mp hlast] at hy
        cases hy
    | some last =>
        obtain ⟨init, rfl⟩ := List.getLast?_eq_some_iff.mp hlast
        have hle := hc.sorted.le_getLast hy last hlast
        simp [above, hlt.trans_le hle]
  · rfl

/-- Where the last bin is later, what is discarded is everything up to the start. -/
theorem discard_eq_above (hc : StrictlySortedBy Bin.ts1 c) (hlast : ∀ last ∈ c.getLast?, min2 < last.ts1) :
    discard min2 c = above Bin.ts1 min2 c := by
  rw [discard_eq hc]
  split_ifs with hlater
  · rfl
  · cases hlast' : c.getLast? with
    | none => rw [List.getLast?_eq_none_iff.mp hlast', above, List.filter_nil]
    | some last => exact absurd ⟨last, List.mem_of_getLast? hlast', hlast last hlast'⟩ hlater

/-- What is later tells containers apart. -/
theorem Apart.of_discard (hc : StrictlySortedBy Bin.ts1 c) (hc' : StrictlySortedBy Bin.ts1 c')
    (hlast : ∀ last ∈ c'.getLast?, min2 < last.ts1) (h : Apart (discard min2 c) (discard min2 c')) : Apart c c' := by
  intro last hmem y hy heq
  refine h last ?_ y (mem_discard hc hy ?_) heq
  · rw [getLast?_discard hc']
    exact hmem
  · rw [heq]
    exact hlast last hmem

end Apart

section Merge

variable {inputs pre post : List (ContainerBins V R)} {rest out : ContainerBins V R} {bin : Bin V R}

/-- Where the last bins are apart, a round takes the first of the least bins and drops the others of its start. -/
theorem firstMerged_round (hinputs : ∀ c ∈ inputs, StrictlySortedBy Bin.ts1 c)
    (h : FirstMerged Bin.ts1 inputs out (pre ++ (bin :: rest) :: post))
    (hapart : LastsApart (pre ++ (bin :: rest) :: post)) (hpre : ∀ c ∈ pre, ∀ y ∈ c, bin.ts1 < y.ts1)
    (hle : ∀ c ∈ pre ++ (bin :: rest) :: post, ∀ y ∈ c, bin.ts1 ≤ y.ts1) :
    FirstMerged Bin.ts1 inputs (out ++ [bin]) ((pre ++ rest :: post).map (discard bin.ts1)) ∧
      LastsApart ((pre ++ rest :: post).map (discard bin.ts1)) := by
  have hsorted := h.rest_strict hinputs
  obtain ⟨happre, hapcons, hcross⟩ := List.pairwise_append.mp hapart
  obtain ⟨haphead, hapost⟩ := List.pairwise_cons.mp hapcons
  have hrest := List.pairwise_cons.mp (hsorted (bin :: rest) (by simp))
  have hlater : ∀ c ∈ pre ++ rest :: post, StrictlySortedBy Bin.ts1 c ∧ ∀ last ∈ c.getLast?, bin.ts1 < last.ts1 := by
    intro c hc
    rcases List.mem_append.mp hc with hc | hc
    · exact ⟨hsorted c (by simp [hc]), fun last hlast => hpre c hc last (List.mem_of_getLast? hlast)⟩
    · rcases List.mem_cons.mp hc with rfl | hc
      · exact ⟨hrest.2, fun last hlast => hrest.1 last (List.mem_of_getLast? hlast)⟩
      · refine ⟨hsorted c (by simp [hc]), fun last hlast => ?_⟩
        have hne := haphead c hc last hlast bin List.mem_cons_self
        exact lt_of_le_of_ne (hle c (by simp [hc]) last (List.mem_of_getLast? hlast)) hne
  constructor
  · have habove : (pre ++ rest :: post).map (discard bin.ts1) = (pre ++ rest :: post).map (above Bin.ts1 bin.ts1) :=
      List.map_congr_left fun c hc => discard_eq_above (hlater c hc).1 (hlater c hc).2
    rw [habove]
    exact h.take hpre hle
  · have htail : rest <:+ bin :: rest := List.suffix_cons _ _
    have htaken : LastsApart (pre ++ rest :: post) := by
      refine List.pairwise_append.mpr ⟨happre, List.pairwise_cons.mpr ⟨?_, hapost⟩, ?_⟩
      · intro c hc
        exact (haphead c hc).of_suffix htail List.suffix_rfl
      · intro c hc c' hc'
        rcases List.mem_cons.mp hc' with rfl | hc'
        · exact (hcross c hc _ List.mem_cons_self).of_suffix List.suffix_rfl htail
        · exact hcross c hc c' (List.mem_cons_of_mem _ hc')
    refine List.pairwise_map.mpr (htaken.imp fun hab => ?_)
    exact Apart.of_suffix hab (discard_suffix _ _) (discard_suffix _ _)

/-- Some start comes twice: it is twice in the output, it is there and is still left, or the last bin of a container
has it. -/
structure Doubled (res : List (ContainerBins V R)) (out : ContainerBins V R) : Prop where
  sorted : ∀ c ∈ res, StrictlySortedBy Bin.ts1 c
  before : ∀ x ∈ out, ∀ c ∈ res, ∀ y ∈ c, x.ts1 ≤ y.ts1
  doubled : ¬ LastsApart res ∨ (∃ x ∈ out, ∃ c ∈ res, ∃ y ∈ c, y.ts1 = x.ts1) ∨ ¬ StrictlySortedBy Bin.ts1 out

/-- Where the last bins are apart after a round, and nothing is left of the start that was taken, they were apart
before. -/
theorem lastsApart_of_round (hsorted : ∀ c ∈ pre ++ (bin :: rest) :: post, StrictlySortedBy Bin.ts1 c)
    (hpre : ∀ c ∈ pre, ∀ y ∈ c, bin.ts1 < y.ts1) (hle : ∀ c ∈ pre ++ (bin :: rest) :: post, ∀ y ∈ c, bin.ts1 ≤ y.ts1)
    (hapart : LastsApart ((pre ++ rest :: post).map (discard bin.ts1)))
    (hgone : ∀ c ∈ (pre ++ rest :: post).map (discard bin.ts1), ∀ y ∈ c, y.ts1 ≠ bin.ts1) :
    LastsApart (pre ++ (bin :: rest) :: post) := by
  have hrest := List.pairwise_cons.mp (hsorted (bin :: rest) (by simp))
  have hspre : ∀ c ∈ pre, StrictlySortedBy Bin.ts1 c := fun c hc => hsorted c (by simp [hc])
  have hspost : ∀ c ∈ post, StrictlySortedBy Bin.ts1 c := fun c hc => hsorted c (by simp [hc])
  have hlpre : ∀ c ∈ pre, ∀ last ∈ c.getLast?, bin.ts1 < last.ts1 :=
    fun c hc last hlast => hpre c hc last (List.mem_of_getLast? hlast)
  have hlrest : ∀ last ∈ rest.getLast?, bin.ts1 < last.ts1 :=
    fun last hlast => hrest.1 last (List.mem_of_getLast? hlast)
  have hlpost : ∀ c ∈ post, ∀ last ∈ c.getLast?, bin.ts1 < last.ts1 := by
    intro c hc last hlast
    refine lt_of_le_of_ne (hle c (by simp [hc]) last (List.mem_of_getLast? hlast)) (Ne.symm ?_)
    refine hgone (discard bin.ts1 c) (List.mem_map_of_mem (by simp [hc])) last (List.mem_of_getLast? ?_)
    rw [getLast?_discard (hspost c hc)]
    exact hlast
  obtain ⟨happre, hapcons, hcross⟩ := List.pairwise_append.mp (List.pairwise_map.mp hapart)
  obtain ⟨haphead, hapost⟩ := List.pairwise_cons.mp hapcons
  refine List.pairwise_append.mpr ⟨?_, List.pairwise_cons.mpr ⟨?_, ?_⟩, ?_⟩
  · exact happre.imp_of_mem fun hc hc' h => h.of_discard (hspre _ hc) (hspre _ hc') (hlpre _ hc')
  · intro c hc last hlast y hy
    rcases List.mem_cons.mp hy with rfl | hy
    · exact (hlpost c hc last hlast).ne
    · exact (haphead c hc).of_discard hrest.2 (hspost c hc) (hlpost c hc) last hlast y hy
  · exact hapost.imp_of_mem fun hc hc' h => h.of_discard (hspost _ hc) (hspost _ hc') (hlpost _ hc')
  · intro c hc c' hc'
    rcases List.mem_cons.mp hc' with rfl | hc'
    · intro last hlast y hy
      cases hrest' : rest.getLast? with
      | none =>
          obtain rfl := List.getLast?_eq_none_iff.mp hrest'
          obtain rfl : bin = last := Option.some.inj hlast
          exact (hpre c hc y hy).ne'
      | some last' =>
          obtain rfl : last' = last := by
            rw [List.getLast?_cons, hrest'] at hlast
            exact Option.some.inj hlast
          exact (hcross c hc rest List.mem_cons_self).of_discard (hspre c hc) hrest.2 hlrest last' hrest' y hy
    · exact (hcross c hc c' (List.mem_cons_of_mem _ hc')).of_discard (hspre c hc) (hspost c' hc') (hlpost c' hc')

theorem Doubled.not_strict {res : List (ContainerBins V R)} (h : Doubled res out) (hnil : ∀ c ∈ res, c = []) :
    ¬ StrictlySortedBy Bin.ts1 out := by
  rcases h.doubled with hapart | ⟨x, -, c, hc, y, hy, -⟩ | hout
  · refine absurd (List.pairwise_of_forall_mem_list ?_) hapart
    intro c hc c' hc' last hlast
    rw [hnil c' hc'] at hlast
    cases hlast
  · rw [hnil c hc] at hy
    cases hy
  · exact hout

theorem Doubled.start (hinputs : ∀ c ∈ inputs, StrictlySortedBy Bin.ts1 c) (hapart : ¬ LastsApart inputs) :
    Doubled inputs [] where
  sorted := hinputs
  before := by simp
  doubled := Or.inl hapart

/-- A start that comes twice does so after the next round as well. -/
theorem Doubled.round (h : Doubled (pre ++ (bin :: rest) :: post) out) (hpre : ∀ c ∈ pre, ∀ y ∈ c, bin.ts1 < y.ts1)
    (hle : ∀ c ∈ pre ++ (bin :: rest) :: post, ∀ y ∈ c, bin.ts1 ≤ y.ts1) :
    Doubled ((pre ++ rest :: post).map (discard bin.ts1)) (out ++ [bin]) := by
  have hrest := List.pairwise_cons.mp (h.sorted (bin :: rest) (by simp))
  have hkept : ∀ c ∈ pre ++ rest :: post, StrictlySortedBy Bin.ts1 c ∧ ∃ c' ∈ pre ++ (bin :: rest) :: post, c <:+ c' := by
    intro c hc
    rcases List.mem_append.mp hc with hc | hc
    · exact ⟨h.sorted c (by simp [hc]), c, by simp [hc], List.suffix_rfl⟩
    · rcases List.mem_cons.mp hc with rfl | hc
      · exact ⟨hrest.2, bin :: c, by simp, List.suffix_cons _ _⟩
      · exact ⟨h.sorted c (by simp [hc]), c, by simp [hc], List.suffix_rfl⟩
  have hmem : ∀ c ∈ (pre ++ rest :: post).map (discard bin.ts1),
      StrictlySortedBy Bin.ts1 c ∧ ∃ c' ∈ pre ++ (bin :: rest) :: post, c <:+ c' := by
    intro c hc
    obtain ⟨d, hd, rfl⟩ := List.mem_map.mp hc
    obtain ⟨hsorted, c', hc', hsuffix⟩ := hkept d hd
    have hdiscard := discard_suffix bin.ts1 d
    exact ⟨hsorted.sublist hdiscard.sublist, c', hc', hdiscard.trans hsuffix⟩
  refine ⟨fun c hc => (hmem c hc).1, ?_, ?_⟩
  · intro x hx c hc y hy
    obtain ⟨c', hc', hsuffix⟩ := (hmem c hc).2
    rcases List.mem_append.mp hx with hx | hx
    · exact h.before x hx c' hc' y (hsuffix.subset hy)
    · rw [List.mem_singleton.mp hx]
      exact hle c' hc' y (hsuffix.subset hy)
  · rcases h.doubled with hapart | ⟨x, hx, c, hc, y, hy, heq⟩ | hout
    · by_contra hnot
      obtain ⟨hapart', hleft⟩ := not_or.mp hnot
      obtain ⟨hleft, -⟩ := not_or.mp hleft
      refine hapart (lastsApart_of_round h.sorted hpre hle (not_not.mp hapart') ?_)
      intro c hc y hy heq
      exact hleft ⟨bin, by simp, c, hc, y, hy, heq⟩
    · -- the bin that is taken has this start
      have hstart : x.ts1 = bin.ts1 :=
        le_antisymm (h.before x hx (bin :: rest) (by simp) bin List.mem_cons_self) (heq ▸ hle c hc y hy)
      refine Or.inr (Or.inr fun hstrict => ?_)
      exact ((strictlySortedBy_append.mp hstrict).2.2 x hx bin (by simp)).ne hstart
    · exact Or.inr (Or.inr fun hstrict => hout (strictlySortedBy_append.mp hstrict).1)

end Merge

/-- The stores are merged: every start is there once, with the bin of the shortest store that has it. -/
def MergesStores (short medium long : ContainerBins V R) (res : Option (ContainerBins V R)) : Prop :=
  MergesFirst Bin.ts1 [short, medium, long] (res.getD [])

/-- The merge of three containers in order ends.  It has every start once, with the bin of the shortest store that has
it, exactly if no container ends with a start that a container before it has. -/
theorem scyllaReadPrebinnedF32_iff {short medium long : ContainerBins V R} (hshort : StrictlySortedBy Bin.ts1 short)
    (hmedium : StrictlySortedBy Bin.ts1 medium) (hlong : StrictlySortedBy Bin.ts1 long) {n : ℕ}
    (hn : short.length + medium.length + long.length < n) :
    ∃ res, scyllaReadPrebinnedF32 n short medium long = some res ∧
      (MergesStores short medium long res ↔ LastsApart [short, medium, long]) := by
  have hinputs : ∀ c ∈ [short, medium, long], StrictlySortedBy Bin.ts1 c := by simp [hshort, hmedium, hlong]
  have hsize : size [short, medium, long] < n := by
    simp only [size, List.map_cons, List.map_nil, List.sum_cons, List.sum_nil]
    omega
  have hres : ∀ out : ContainerBins V R, (if out.length = 0 then none else some out).getD [] = out := by
    intro out
    split_ifs with hlen
    · exact (List.length_eq_zero_iff.mp hlen).symm
    · rfl
  by_cases hapart : LastsApart [short, medium, long]
  · obtain ⟨out, hloop, hmerged⟩ := mergeLoop_of_inv (P := fun res out => FirstMerged Bin.ts1 [short, medium, long] out res ∧ LastsApart res)
      (Q := MergesFirst Bin.ts1 [short, medium, long]) (fun res out h => h.1.rest_strict hinputs)
      (fun pre bin rest post out h hpre hle => firstMerged_round hinputs h.1 h.2 hpre hle)
      (fun res out h hnil => h.1.mergesFirst hnil) hsize ⟨FirstMerged.start _ _, hapart⟩
    refine ⟨_, by rw [scyllaReadPrebinnedF32, hloop]; rfl, iff_of_true ?_ hapart⟩
    rw [MergesStores, hres]
    exact hmerged
  · obtain ⟨out, hloop, hdoubled⟩ := mergeLoop_of_inv (P := Doubled) (Q := fun out => ¬ StrictlySortedBy Bin.ts1 out)
      (fun res out h => h.sorted) (fun pre bin rest post out h hpre hle => h.round hpre hle)
      (fun res out h hnil => h.not_strict hnil) hsize (Doubled.start hinputs hapart)
    refine ⟨_, by rw [scyllaReadPrebinnedF32, hloop]; rfl, iff_of_false ?_ hapart⟩
    rw [MergesStores, hres]
    exact fun h => hdoubled h.strict

/-- A bin of 10 seconds, with its count -/
def binAt (k cnt : ℕ) : Bin ℕ ℕ where
  ts1 := 10 * k
  ts2 := 10 * k + 10
  cnt := cnt
  min := 0
  max := 0
  agg := 0
  lst := 0
  fnl := true

/-- A bin that is in all stores, and in the short and medium term stores not as the last one -/
theorem scyllaReadPrebinnedF32_iff_three :
    ∃ res, scyllaReadPrebinnedF32 7 [binAt 1 1, binAt 2 1] [binAt 1 2, binAt 3 2] [binAt 1 3, binAt 4 3] = some res ∧
      (MergesStores [binAt 1 1, binAt 2 1] [binAt 1 2, binAt 3 2] [binAt 1 3, binAt 4 3] res ↔
        LastsApart [[binAt 1 1, binAt 2 1], [binAt 1 2, binAt 3 2], [binAt 1 3, binAt 4 3]]) :=
  scyllaReadPrebinnedF32_iff (by simp [StrictlySortedBy, binAt]) (by simp [StrictlySortedBy, binAt])
    (by simp [StrictlySortedBy, binAt]) (by decide)

/-- The only bin is in the short and in the medium term store, and comes twice. -/
theorem not_mergesStores_tail :
    ¬ ∃ n res, scyllaReadPrebinnedF32 n [binAt 1 1] [binAt 1 2] [] = some res ∧
      MergesStores [binAt 1 1] [binAt 1 2] [] res := by
  intro ⟨n, res, hread, hmerges⟩
  have htwice : ∀ n res, scyllaReadPrebinnedF32 n [binAt 1 1] [binAt 1 2] [] = some res →
      res = some [binAt 1 1, binAt 1 2] := by
    intro n res hread
    match n with
    | 0 | 1 | 2 => cases show (none : Option (Option (ContainerBins ℕ ℕ))) = some res from hread
    | n + 3 => exact (Option.some.inj hread).symm
  rw [htwice n res hread] at hmerges
  exact absurd hmerges.strict (by simp [StrictlySortedBy, binAt])

end Scylla
end Daqbuf
