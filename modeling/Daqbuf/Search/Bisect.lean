import Daqbuf.Search.PartitionPoint
/-!
# Bisection

A search that narrows a bracket of two positions until nothing lies between them.  The positions need
not be indices: they can be any places from which a key is read, and a reading can fail.

Main results:

- Theorem {lit}`Bisection.loop_eq`: on keys of which the ones below the target come first, the search
  ends and its bracket is around the partition point.
- Theorem {lit}`halve_eq`: on strictly increasing keys, the search by halving ends and finds the target between its
  ends.
-/

namespace Search

variable {α κ ε : Type*}

/-! ## Positions of a partition point -/

/-- The elements before the partition point are the ones that satisfy the predicate. -/
theorem lt_partitionPoint_iff {p : α → Bool} {xs : List α} (hpart : Partitioned p xs) {i : ℕ} {x : α}
    (hx : xs[i]? = some x) : i < partitionPoint p xs ↔ p x = true := by
  induction xs generalizing i with
  | nil => simp at hx
  | cons a xs ih =>
      rcases List.pairwise_cons.mp hpart with ⟨hhead, htail⟩
      by_cases ha : p a = true
      · have hcons : partitionPoint p (a :: xs) = partitionPoint p xs + 1 := by
          simp [partitionPoint, ha]
        cases i with
        | zero =>
            have hax : a = x := by simpa using hx
            simp [hcons, ← hax, ha]
        | succ i =>
            have hi : i < partitionPoint p xs ↔ p x = true := ih htail (by simpa using hx)
            rw [hcons, ← hi]
            omega
      · have hcons : partitionPoint p (a :: xs) = 0 := by simp [partitionPoint, ha]
        have hmem : x ∈ a :: xs := List.mem_of_getElem? hx
        rw [hcons]
        constructor
        · intro hlt
          omega
        · intro hpx
          rcases List.mem_cons.mp hmem with rfl | hmem
          · exact absurd hpx ha
          · exact absurd (hhead x hmem hpx) ha

/-- The first element that fails the predicate is the one at the partition point. -/
theorem find?_eq_getElem?_partitionPoint (p : α → Bool) (xs : List α) :
    xs.find? (fun x => !p x) = xs[partitionPoint p xs]? := by
  induction xs with
  | nil => rfl
  | cons a xs ih =>
      by_cases ha : p a = true
      · simpa [partitionPoint, ha] using ih
      · simp [partitionPoint, ha]

/-- The last element that satisfies the predicate is the one before the partition point. -/
theorem getLast?_filter_eq_getElem? {p : α → Bool} {xs : List α} (hpart : Partitioned p xs)
    (hpos : 0 < partitionPoint p xs) :
    (xs.filter p).getLast? = xs[partitionPoint p xs - 1]? := by
  have hle := partitionPoint_le_length p xs
  rw [← take_partitionPoint hpart, List.getLast?_eq_getElem?, List.length_take,
    min_eq_left hle, List.getElem?_take]
  simp [hpos]

/-! ## The search -/

/-- Two positions, the keys that were read there, and how many keys were read so far. -/
structure Bracket (κ : Type*) where
  j : ℕ
  k : ℕ
  x : κ
  y : κ
  nreads : ℕ
  deriving DecidableEq, Repr

/-- What a search does in each round: the check it makes first, when it stops, where it reads next,
and which keys move the lower position. -/
structure Bisection (κ ε : Type*) where
  guard : Bracket κ → Except ε Unit
  tight : ℕ → ℕ → Bool
  mid : ℕ → ℕ → ℕ
  read : ℕ → Except ε κ
  below : κ → Bool
  /-- what a search is reported as that has not ended within the rounds it was given -/
  endless : ε

/-- The rounds of the search. -/
def Bisection.loop (s : Bisection κ ε) : ℕ → Bracket κ → Except ε (Bracket κ)
  | 0, _ => .error s.endless
  | rounds + 1, b =>
    match s.guard b with
    | .error e => .error e
    | .ok _ =>
      if s.tight b.j b.k then .ok b
      else
        match s.read (s.mid b.j b.k) with
        | .error e => .error e
        | .ok e =>
          if s.below e then
            s.loop rounds { b with j := s.mid b.j b.k, x := e, nreads := b.nreads + 1 }
          else s.loop rounds { b with k := s.mid b.j b.k, y := e, nreads := b.nreads + 1 }

/-- The search runs over a list of keys, of which the key with index {lit}`i` is read at
{lit}`pos i`. -/
structure Bisection.Over (s : Bisection κ ε) (keys : List κ) (pos : ℕ → ℕ) : Prop where
  read : ∀ i e, keys[i]? = some e → s.read (pos i) = .ok e
  mid : ∀ i j, i + 2 ≤ j → j < keys.length → ∃ m, i < m ∧ m < j ∧ s.mid (pos i) (pos j) = pos m
  tight : ∀ i j, i < j → j < keys.length → (s.tight (pos i) (pos j) = true ↔ j < i + 2)
  guard : ∀ i j x y n, i < j → keys[i]? = some x → keys[j]? = some y → s.below x = true →
    s.below y = false → s.guard ⟨pos i, pos j, x, y, n⟩ = .ok ()

/-- The search ends with the bracket around the partition point. -/
theorem Bisection.loop_eq {s : Bisection κ ε} {keys : List κ} {pos : ℕ → ℕ} (hover : s.Over keys pos)
    (hpart : Partitioned s.below keys) {rounds i j n : ℕ} {x y : κ} (hij : i < j)
    (hx : keys[i]? = some x) (hy : keys[j]? = some y) (hbelow : s.below x = true)
    (habove : s.below y = false) (hrounds : j - i ≤ rounds) :
    ∃ c x' y' n', c + 1 = partitionPoint s.below keys ∧ keys[c]? = some x' ∧
      keys[c + 1]? = some y' ∧
      s.loop rounds ⟨pos i, pos j, x, y, n⟩ = .ok ⟨pos c, pos (c + 1), x', y', n'⟩ := by
  induction rounds generalizing i j x y n with
  | zero => omega
  | succ rounds ih =>
      have hj : j < keys.length := (List.getElem?_eq_some_iff.mp hy).1
      have htight := hover.tight i j hij hj
      have hguard := hover.guard i j x y n hij hx hy hbelow habove
      by_cases hnext : j < i + 2
      · have hjsucc : j = i + 1 := by omega
        subst hjsucc
        have hleft : i < partitionPoint s.below keys := (lt_partitionPoint_iff hpart hx).mpr hbelow
        have hright : ¬ i + 1 < partitionPoint s.below keys := by
          rw [lt_partitionPoint_iff hpart hy, habove]
          simp
        refine ⟨i, x, y, n, by omega, hx, hy, ?_⟩
        simp [loop, hguard, htight.mpr hnext]
      · rcases hover.mid i j (by omega) hj with ⟨m, him, hmj, hmid⟩
        have hm : m < keys.length := by omega
        have hkey : keys[m]? = some keys[m] := List.getElem?_eq_getElem hm
        have hread := hover.read m keys[m] hkey
        have hloose : s.tight (pos i) (pos j) = false := by
          rw [← Bool.not_eq_true, htight]
          exact hnext
        by_cases hside : s.below keys[m] = true
        · rcases ih (n := n + 1) hmj hkey hy hside habove (by omega) with ⟨c, x', y', n', hc⟩
          refine ⟨c, x', y', n', hc.1, hc.2.1, hc.2.2.1, ?_⟩
          simp only [loop, hguard, hloose, hmid, hread, hside, if_true, Bool.false_eq_true, if_false]
          exact hc.2.2.2
        · have hside : s.below keys[m] = false := by simpa using hside
          rcases ih (n := n + 1) him hx hkey hbelow hside (by omega) with ⟨c, x', y', n', hc⟩
          refine ⟨c, x', y', n', hc.1, hc.2.1, hc.2.2.1, ?_⟩
          simp only [loop, hguard, hloose, hmid, hread, hside, Bool.false_eq_true, if_false]
          exact hc.2.2.2

/-! ## Search for one key -/

section Halve

variable [LinearOrder κ] {β : Type*}

/-- The middle of two positions that are more than one step apart lies between them. -/
theorem halve_mid {step p1 p2 : ℕ} (hmod : (p2 - p1) % step = 0) (hlt : step < p2 - p1) :
    p1 < p1 + (p2 - p1) / step / 2 * step ∧ p1 + (p2 - p1) / step / 2 * step < p2 := by
  obtain ⟨n, hn⟩ := Nat.dvd_of_mod_eq_zero hmod
  have hstep : 0 < step := by
    by_contra hzero
    simp [Nat.eq_zero_of_not_pos hzero] at hn
    omega
  have hdiv : (p2 - p1) / step = n := by rw [hn, Nat.mul_div_cancel_left n hstep]
  have htwo : 2 ≤ n := by
    by_contra hfew
    have hle : step * n ≤ step * 1 := Nat.mul_le_mul_left step (by omega)
    omega
  have hbelow : n / 2 * step < n * step := Nat.mul_lt_mul_of_pos_right (by omega) hstep
  have habove : 0 < n / 2 * step := Nat.mul_pos (by omega) hstep
  rw [hdiv]
  rw [mul_comm] at hn
  omega

/-- A search that reads in the middle of two positions, a number of steps behind the first one, until it reads the
target or the positions are one step apart. -/
def halve (step : ℕ) (apart : ε) (read : ℕ → Except ε β) (key : β → κ) (target : κ) (p1 p2 : ℕ) :
    Except ε (Option β) :=
  if _hmod : (p2 - p1) % step ≠ 0 then .error apart
  else if _hle : p2 - p1 ≤ step then .ok none
  else
    let m := p1 + (p2 - p1) / step / 2 * step
    match read m with
    | .error e => .error e
    | .ok z =>
        if key z = target then .ok (some z)
        else if target < key z then halve step apart read key target p1 m
        else halve step apart read key target m p2
termination_by p2 - p1
decreasing_by
  all_goals have hmid := halve_mid (not_ne_iff.mp _hmod) (not_le.mp _hle)
  all_goals omega

variable {key : β → κ} {target : κ} {xs : List β} {x : β}

/-- In a strictly ordered list there is one element with a key. -/
theorem find?_of_mem (hsorted : StrictlySortedBy key xs) (hx : x ∈ xs) (hkey : key x = target) :
    xs.find? (fun y => key y = target) = some x := by
  induction xs with
  | nil => cases hx
  | cons y ys ih =>
      obtain ⟨hy, hys⟩ := List.pairwise_cons.mp hsorted
      obtain rfl | hx := List.mem_cons.mp hx
      · exact List.find?_cons_of_pos (by simpa using hkey)
      · rw [List.find?_cons_of_neg, ih hys hx]
        simpa [hkey] using (hy x hx).ne

theorem StrictlySortedBy.lt_of_lt (hsorted : StrictlySortedBy key xs) {i j : ℕ} {y : β} (hij : i < j)
    (hx : xs[i]? = some x) (hy : xs[j]? = some y) : key x < key y := by
  obtain ⟨hi, rfl⟩ := List.getElem?_eq_some_iff.mp hx
  obtain ⟨hj, rfl⟩ := List.getElem?_eq_some_iff.mp hy
  exact List.pairwise_iff_getElem.mp hsorted i j hi hj hij

/-- Between neighbours there is no element. -/
theorem find?_eq_none_of_between (hsorted : StrictlySortedBy key xs) {i : ℕ} {y : β} (hx : xs[i]? = some x)
    (hy : xs[i + 1]? = some y) (hbelow : key x < target) (habove : target < key y) :
    xs.find? (fun z => key z = target) = none := by
  rw [List.find?_eq_none]
  intro z hz hkey
  obtain ⟨k, hk⟩ := List.mem_iff_getElem?.mp hz
  have heq : key z = target := of_decide_eq_true hkey
  obtain hlt | rfl | hgt := lt_trichotomy k i
  · exact absurd (hsorted.lt_of_lt hlt hk hx) (not_lt.mpr (heq ▸ hbelow.le))
  · obtain rfl := Option.some.inj (hk.symm.trans hx)
    exact hbelow.ne heq
  · obtain rfl | hgt := (Nat.succ_le_of_lt hgt).eq_or_lt
    · obtain rfl := Option.some.inj (hk.symm.trans hy)
      exact habove.ne' heq
    · exact absurd (hsorted.lt_of_lt hgt hy hk) (not_lt.mpr (heq ▸ habove.le))

/-- On strictly increasing keys, of which each is read at its position, the search ends and finds the target. -/
theorem halve_eq {step base : ℕ} {apart : ε} {read : ℕ → Except ε β} (hstep : 0 < step)
    (hsorted : StrictlySortedBy key xs) (hread : ∀ i y, xs[i]? = some y → read (base + step * i) = .ok y) {i j : ℕ}
    {y : β} (hij : i < j) (hx : xs[i]? = some x) (hy : xs[j]? = some y) (hbelow : key x < target)
    (habove : target < key y) :
    halve step apart read key target (base + step * i) (base + step * j) =
      .ok (xs.find? fun z => key z = target) := by
  induction hn : j - i using Nat.strong_induction_on generalizing i j x y with
  | _ n ih =>
      have hdist : base + step * j - (base + step * i) = step * (j - i) := by
        rw [Nat.add_sub_add_left, Nat.mul_sub]
      rw [halve, hdist, dif_neg (by simp)]
      by_cases hnext : j = i + 1
      · subst hnext
        rw [dif_pos (by simp), find?_eq_none_of_between hsorted hx hy hbelow habove]
      · have hmore : ¬ step * (j - i) ≤ step := by
          have hle : step * 2 ≤ step * (j - i) := Nat.mul_le_mul_left step (by omega)
          omega
        have hj : j < xs.length := (List.getElem?_eq_some_iff.mp hy).1
        have hmid : base + step * i + step * (j - i) / step / 2 * step = base + step * (i + (j - i) / 2) := by
          rw [Nat.mul_div_cancel_left _ hstep]
          ring
        have hm : xs[i + (j - i) / 2]? = some xs[i + (j - i) / 2] := List.getElem?_eq_getElem (by omega)
        rw [dif_neg hmore, hmid]
        dsimp only
        rw [hread _ _ hm]
        dsimp only
        split
        · rename_i heq
          rw [find?_of_mem hsorted (List.mem_of_getElem? hm) heq]
        · rename_i hne
          split
          · rename_i hlt
            exact ih _ (by omega) (by omega) hx hm hbelow hlt rfl
          · rename_i hge
            exact ih _ (by omega) (by omega) hm hy (lt_of_le_of_ne (not_lt.mp hge) hne) habove rfl

end Halve

end Search
