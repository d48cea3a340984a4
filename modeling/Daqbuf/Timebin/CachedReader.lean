import Daqbuf.Netpod.CoveringRange
import Daqbuf.Poll.Loop
import Daqbuf.Series.Msp
/-!
# Reading Stored Bins

{lit}`CachedReader` reads the bins of a range from the store, one partition after the other.  The store is asked for a
partition and a range of offsets in it; what it answers, and after how many pending polls, is arbitrary.

The reads that were issued are kept in the state, though the reader itself does not look at them.

Main results:

- Theorem {lit}`nextRead_eq`: the read that begins at a bin, and the bin at which the next one begins.
- Theorem {lit}`Standing.drains`: on a range that fits, the reader ends, and what it has read by then.
- Theorem {lit}`partitions_iff`: when the reads partition the range.
-/

namespace Daqbuf
namespace Timebin

open Arith Netpod Poll Series

/-- The arguments of {lit}`CacheReadProvider::read` -/
structure Read where
  series : ℕ
  binLen : ℕ
  msp : ℕ
  beg : ℕ
  fin : ℕ
  deriving DecidableEq, Repr

/-- The keys of the bins that a read asks for -/
def Read.names (r : Read) : List (ℤ × ℤ) :=
  (List.range' r.beg (r.fin - r.beg)).map fun off : ℕ => ((r.msp : ℤ), (off : ℤ))

/-- {lit}`CacheReading`: so many polls are pending before the result is ready. -/
structure CacheReading (B ε : Type) where
  pendings : ℕ
  result : Except ε (Option B)

/-- The reads that were issued before and the one that is issued now determine what the store answers. -/
abbrev CacheReadProvider (B ε : Type) := List Read → Read → CacheReading B ε

/-- {lit}`CachedReader`, with the reads that it has issued -/
structure CachedReader (B ε : Type) where
  series : ℕ
  range : BinnedRange
  ts1next : ℕ
  binLen : ℕ
  reading : Option (CacheReading B ε) := none
  reads : List Read := []

namespace CachedReader

variable {B ε : Type}

/-- {lit}`new` -/
def new (series : ℕ) (range : BinnedRange) : Option (CachedReader B ε) := do
  let ts1next ← checkedMul 64 range.binLen range.binOff
  return { series := series, range := range, ts1next := ts1next, binLen := tsMs range.binLen }

/-- {lit}`nano_end` of the range -/
def nanoEnd (s : CachedReader B ε) : Option ℕ := do
  let n ← checkedAdd 64 s.range.binOff s.range.binCnt
  checkedMul 64 s.range.binLen n

/-- The next read, and the time at which the one behind it begins.  The second offset is cut to 32 bits. -/
def nextRead (s : CachedReader B ε) (partt : PrebinnedPartitioning) : Option (Read × ℕ) := do
  let binlen ← dtNs s.binLen
  let div ← dtNs partt.patchDt
  let msp ← checkedDiv s.ts1next div
  let start ← checkedMul 64 div msp
  let d1 ← checkedSub s.ts1next start
  let off1 ← checkedDiv d1 binlen
  let fin ← s.nanoEnd
  let d2 ← checkedSub fin start
  let off2 ← checkedDiv d2 binlen
  let off2 := min partt.patchLen (off2 % 2 ^ 32)
  let width ← checkedMul 64 binlen off2
  let ts1next ← checkedAdd 64 width start
  return (⟨s.series, s.binLen, msp, off1 % 2 ^ 32, off2⟩, ts1next)

/-- Sets up the next read, or ends. -/
def setupNext (provider : CacheReadProvider B ε) (s : CachedReader B ε) : Pass (CachedReader B ε) (Except ε B) :=
  match s.nanoEnd with
  | none => .panic
  | some fin =>
      if s.ts1next < fin then
        match PrebinnedPartitioning.tryFrom (tsMs s.range.binLen) with
        | none => .done s
        | some partt =>
            match s.nextRead partt with
            | none => .panic
            | some (read, ts1next) => .again { s with
                ts1next := ts1next
                reading := some (provider s.reads read)
                reads := s.reads ++ [read] }
      else .done s

/-- One pass of {lit}`poll_next` -/
def pollNext (provider : CacheReadProvider B ε) (s : CachedReader B ε) : Pass (CachedReader B ε) (Except ε B) :=
  match s.reading with
  | some fut =>
      match fut.pendings with
      | n + 1 => .pending { s with reading := some { fut with pendings := n } }
      | 0 =>
          match fut.result with
          | .ok (some bins) => .item (.ok bins) { s with reading := none }
          | .ok none => .again { s with reading := none }
          | .error e => .item (.error e) { s with reading := none }
  | none => s.setupNext provider

/-! ## One read -/

variable {p : PrebinnedPartitioning} {range : BinnedRange} {k : ℕ} {s t : CachedReader B ε}
  {provider : CacheReadProvider B ε}

/-- The index of the bin behind the last one of the range -/
def last (range : BinnedRange) : ℕ := range.binOff + range.binCnt

/-- How many bins there are from the begin of the partition of a bin to the end of the range -/
def remaining (p : PrebinnedPartitioning) (range : BinnedRange) (k : ℕ) : ℕ := last range - p.patchLen * (k / p.patchLen)

/-- The offset at which a read that begins at a bin ends -/
def offEnd (p : PrebinnedPartitioning) (range : BinnedRange) (k : ℕ) : ℕ := min p.patchLen (remaining p range k % 2 ^ 32)

/-- The bin at which the next read begins -/
def nextBin (p : PrebinnedPartitioning) (range : BinnedRange) (k : ℕ) : ℕ :=
  p.patchLen * (k / p.patchLen) + offEnd p range k

/-- A range with bins of a supported length that ends below 2^64 -/
structure Supported (p : PrebinnedPartitioning) (range : BinnedRange) : Prop where
  binLen_eq : range.binLen = p.binLen * 1000000
  fits : range.nanoEnd < 2 ^ 64

/-- The reader is going to read from a bin of the range on, or is at its end. -/
structure Standing (p : PrebinnedPartitioning) (range : BinnedRange) (k : ℕ) (s : CachedReader B ε) : Prop where
  range_eq : s.range = range
  binLen_eq : s.binLen = p.binLen
  ts1next_eq : s.ts1next = range.binLen * k
  le_last : k ≤ last range

theorem Supported.last_lt (h : Supported p range) : last range < 2 ^ 64 := by
  have hbin := p.binLen_pos
  have hfits := h.fits
  rw [BinnedRange.nanoEnd, h.binLen_eq] at hfits
  have hle : 1 * last range ≤ p.binLen * 1000000 * last range := Nat.mul_le_mul_right _ (by omega)
  unfold last at hle ⊢
  omega

theorem Supported.nanoEnd_eq (h : Supported p range) (hrange : s.range = range) :
    s.nanoEnd = some (range.binLen * last range) := by
  have hlast := h.last_lt
  unfold nanoEnd
  rw [hrange, checkedAdd_of_lt hlast]
  exact checkedMul_of_lt h.fits

theorem dtNs_binLen (p : PrebinnedPartitioning) : dtNs p.binLen = some (p.binLen * 1000000) := by
  rw [Nat.mul_comm]
  exact checkedMul_of_lt (by rw [Nat.mul_comm]; exact p.binLen_lt)

theorem dtNs_patchDt (p : PrebinnedPartitioning) : dtNs p.patchDt = some (p.binLen * 1000000 * p.patchLen) := by
  have heq : p.binLen * 1000000 * p.patchLen = 1000000 * p.patchDt := by
    rw [PrebinnedPartitioning.patchDt]
    ring
  rw [heq]
  exact checkedMul_of_lt (by rw [Nat.mul_comm]; exact p.patchDt_lt)

theorem offEnd_le_patchLen : offEnd p range k ≤ p.patchLen := min_le_left _ _

theorem offEnd_le_remaining : offEnd p range k ≤ remaining p range k :=
  (min_le_right _ _).trans (Nat.mod_le _ _)

theorem nextBin_le_last (hk : k ≤ last range) : nextBin p range k ≤ last range := by
  have hoff : offEnd p range k ≤ remaining p range k := offEnd_le_remaining
  have hdiv := Nat.mul_div_le k p.patchLen
  unfold nextBin
  unfold remaining at hoff
  omega

/-- The read that begins at a bin, and the bin at which the next one begins. -/
theorem nextRead_eq (h : Supported p range) (hs : Standing p range k s) :
    s.nextRead p = some (⟨s.series, p.binLen, k / p.patchLen, k % p.patchLen, offEnd p range k⟩,
      range.binLen * nextBin p range k) := by
  have hlen : 0 < range.binLen := by
    have := p.binLen_pos
    have := h.binLen_eq
    omega
  have hmul : ∀ {a : ℕ}, a ≤ last range → range.binLen * a < 2 ^ 64 := fun ha =>
    (Nat.mul_le_mul_left _ ha).trans_lt h.fits
  have hdiv := Nat.mul_div_le k p.patchLen
  have hmsp : range.binLen * k / (range.binLen * p.patchLen) = k / p.patchLen := Nat.mul_div_mul_left _ _ hlen
  have hstart : checkedMul 64 (range.binLen * p.patchLen) (k / p.patchLen) =
      some (range.binLen * (p.patchLen * (k / p.patchLen))) := by
    rw [checkedMul, Nat.mul_assoc, if_pos (hmul (hdiv.trans hs.le_last))]
  have hoffset : ∀ {a : ℕ}, p.patchLen * (k / p.patchLen) ≤ a →
      ((checkedSub (range.binLen * a) (range.binLen * (p.patchLen * (k / p.patchLen)))).bind fun d =>
        checkedDiv d range.binLen) = some (a - p.patchLen * (k / p.patchLen)) := by
    intro a ha
    rw [checkedSub_of_le (Nat.mul_le_mul_left _ ha), Option.bind_some, checkedDiv_of_ne hlen.ne', ← Nat.mul_sub,
      Nat.mul_div_cancel_left _ hlen]
  have hnext : ((checkedMul 64 range.binLen (offEnd p range k)).bind fun width =>
      checkedAdd 64 width (range.binLen * (p.patchLen * (k / p.patchLen)))) =
        some (range.binLen * nextBin p range k) := by
    have hwidth : offEnd p range k ≤ last range := offEnd_le_remaining.trans (Nat.sub_le _ _)
    rw [checkedMul_of_lt (hmul hwidth), Option.bind_some, checkedAdd, ← Nat.mul_add, Nat.add_comm]
    exact if_pos (hmul (nextBin_le_last hs.le_last))
  have hoff1 : (k - p.patchLen * (k / p.patchLen)) % 2 ^ 32 = k % p.patchLen := by
    rw [← Nat.mod_eq_sub_mul_div]
    exact Nat.mod_eq_of_lt ((Nat.mod_lt k p.patchLen_pos).trans (p.patchLen_lt.trans (by decide)))
  have hpos : range.binLen * p.patchLen ≠ 0 := (Nat.mul_pos hlen p.patchLen_pos).ne'
  unfold nextRead
  rw [hs.binLen_eq, dtNs_binLen, dtNs_patchDt, ← h.binLen_eq, hs.ts1next_eq, h.nanoEnd_eq hs.range_eq]
  simp only [Option.bind_eq_bind, Option.bind_some, checkedDiv_of_ne hpos, hmsp, hstart]
  rw [← Option.bind_assoc, hoffset hdiv, Option.bind_some, ← Option.bind_assoc, hoffset (hdiv.trans hs.le_last),
    Option.bind_some, ← Option.bind_assoc]
  change (((checkedMul 64 range.binLen (offEnd p range k)).bind _).bind _) = _
  rw [hnext, hoff1]
  rfl

/-- The read that begins at a bin -/
def readAt (p : PrebinnedPartitioning) (range : BinnedRange) (series k : ℕ) : Read :=
  ⟨series, p.binLen, k / p.patchLen, k % p.patchLen, offEnd p range k⟩

/-- Before the end of the range, the next read is set up. -/
theorem setupNext_lt (h : Supported p range) (hs : Standing p range k s) (hlt : k < last range) :
    s.setupNext provider = .again { s with
      ts1next := range.binLen * nextBin p range k
      reading := some (provider s.reads (readAt p range s.series k))
      reads := s.reads ++ [readAt p range s.series k] } := by
  have hlen : 0 < range.binLen := by
    have := p.binLen_pos
    have := h.binLen_eq
    omega
  have hms : tsMs range.binLen = p.binLen := by
    rw [h.binLen_eq]
    exact Nat.mul_div_cancel _ (by decide)
  unfold setupNext
  rw [h.nanoEnd_eq hs.range_eq]
  simp only
  rw [if_pos (hs.ts1next_eq ▸ Nat.mul_lt_mul_of_pos_left hlt hlen), hs.range_eq, hms, p.tryFrom_binLen]
  simp only
  rw [nextRead_eq h hs]
  rfl

/-- At the end of the range, nothing is set up. -/
theorem setupNext_last (h : Supported p range) (hs : Standing p range (last range) s) :
    s.setupNext provider = .done s := by
  unfold setupNext
  rw [h.nanoEnd_eq hs.range_eq]
  exact if_neg (by rw [hs.ts1next_eq]; exact lt_irrefl _)

theorem Standing.next (h : Standing p range k s) (fut : Option (CacheReading B ε)) (reads : List Read) :
    Standing p range (nextBin p range k) { s with
      ts1next := range.binLen * nextBin p range k
      reading := fut
      reads := reads } :=
  ⟨h.range_eq, h.binLen_eq, rfl, nextBin_le_last h.le_last⟩

theorem Standing.wait (h : Standing p range k s) (fut : Option (CacheReading B ε)) :
    Standing p range k { s with reading := fut } :=
  ⟨h.range_eq, h.binLen_eq, h.ts1next_eq, h.le_last⟩

/-- While an answer is awaited, a pass neither issues a read nor moves on. -/
theorem pollNext_reading {fut : CacheReading B ε} (hreading : s.reading = some fut) (xs : List (Except ε B)) :
    (pollNext provider s).Ensures xs fun _ t =>
      (t.reading = none ∨ ∃ n < fut.pendings, t.reading = some { fut with pendings := n }) ∧
        t = { s with reading := t.reading } := by
  unfold pollNext
  rw [hreading]
  simp only
  cases hpend : fut.pendings with
  | succ n => exact ⟨.inr ⟨n, Nat.lt_succ_self n, rfl⟩, rfl⟩
  | zero =>
      cases fut.result with
      | error e => exact ⟨.inl rfl, rfl⟩
      | ok bins =>
          cases bins with
          | none => exact ⟨.inl rfl, rfl⟩
          | some b => exact ⟨.inl rfl, rfl⟩

/-- The reader ends when nothing is awaited and nothing is set up. -/
theorem setupNext_of_done {u : CachedReader B ε} (hdone : pollNext provider s = .done u) :
    s.reading = none ∧ s.setupNext provider = .done u := by
  cases hreading : s.reading with
  | none =>
      refine ⟨rfl, ?_⟩
      rwa [pollNext, hreading] at hdone
  | some fut =>
      rw [pollNext, hreading] at hdone
      simp only at hdone
      split at hdone
      · cases hdone
      · split at hdone <;> cases hdone

/-! ## The reads of a run -/

/-- The key that a bin is stored under, by its index -/
def keyOf (p : PrebinnedPartitioning) (k : ℕ) : ℤ × ℤ := (((k / p.patchLen : ℕ) : ℤ), ((k % p.patchLen : ℕ) : ℤ))

theorem keyOf_injective (p : PrebinnedPartitioning) : Function.Injective (keyOf p) := by
  intro i j hij
  obtain ⟨hdiv, hmod⟩ := Prod.mk.inj hij
  rw [← Nat.div_add_mod i p.patchLen, ← Nat.div_add_mod j p.patchLen, Nat.cast_injective hdiv, Nat.cast_injective hmod]

/-- A read names the bins from the one at which it begins to the one at which the next read begins. -/
theorem names_readAt {series : ℕ} (hoff : k % p.patchLen ≤ offEnd p range k) :
    (readAt p range series k).names = (List.range' k (nextBin p range k - k)).map (keyOf p) := by
  have hdiv := Nat.div_add_mod k p.patchLen
  have hcount : nextBin p range k - k = offEnd p range k - k % p.patchLen := by
    unfold nextBin
    omega
  unfold Read.names readAt
  simp only
  rw [hcount, List.range'_eq_map_range, List.range'_eq_map_range, List.map_map, List.map_map]
  apply List.map_congr_left
  intro i hi
  have hlt : k % p.patchLen + i < p.patchLen := by
    have hle : offEnd p range k ≤ p.patchLen := offEnd_le_patchLen
    have := List.mem_range.mp hi
    omega
  have hsplit : k + i = p.patchLen * (k / p.patchLen) + (k % p.patchLen + i) := by omega
  simp only [Function.comp_apply, keyOf, hsplit]
  rw [Nat.mul_add_div p.patchLen_pos, Nat.div_eq_of_lt hlt, Nat.mul_add_mod, Nat.mod_eq_of_lt hlt, Nat.add_zero]

/-- The reads partition a range: each stays in one partition, no bin is named twice, and the bins that are named are
those of the range, under the keys they are stored under. -/
structure Partitions (p : PrebinnedPartitioning) (range : BinnedRange) (reads : List Read) : Prop where
  inPartition : ∀ r ∈ reads, r.beg ≤ r.fin ∧ r.fin ≤ p.patchLen
  disjoint : (reads.flatMap Read.names).Nodup
  everyBin : reads.flatMap Read.names =
    (List.range' range.binOff range.binCnt).map fun k => p.storedKey (range.binLen * k)

/-- The reads so far name the bins of the range up to one of them. -/
structure Covered (p : PrebinnedPartitioning) (range : BinnedRange) (k : ℕ) (reads : List Read) : Prop where
  le : range.binOff ≤ k
  inPartition : ∀ r ∈ reads, r.beg ≤ r.fin ∧ r.fin ≤ p.patchLen
  names : reads.flatMap Read.names = (List.range' range.binOff (k - range.binOff)).map (keyOf p)

theorem covered_nil : Covered p range range.binOff [] :=
  ⟨le_rfl, List.forall_mem_nil _, by rw [Nat.sub_self]; rfl⟩

/-- The next read begins behind the bin at which this one begins, where not too many bins remain. -/
theorem lt_nextBin (hfew : remaining p range k < 2 ^ 32) (hlt : k < last range) :
    k % p.patchLen < offEnd p range k ∧ k < nextBin p range k := by
  have hdiv := Nat.div_add_mod k p.patchLen
  have hmod := Nat.mod_lt k p.patchLen_pos
  have hoff : k % p.patchLen < offEnd p range k := by
    rw [offEnd, Nat.mod_eq_of_lt hfew]
    apply lt_min hmod
    unfold remaining
    omega
  refine ⟨hoff, ?_⟩
  unfold nextBin
  omega

theorem Covered.next {reads : List Read} {series : ℕ} (h : Covered p range k reads)
    (hfew : remaining p range k < 2 ^ 32) (hlt : k < last range) :
    Covered p range (nextBin p range k) (reads ++ [readAt p range series k]) := by
  obtain ⟨hoff, hnext⟩ := lt_nextBin hfew hlt
  have hle := h.le
  refine ⟨hle.trans hnext.le, ?_, ?_⟩
  · intro r hr
    rcases List.mem_append.mp hr with hr | hr
    · exact h.inPartition r hr
    · obtain rfl := List.mem_singleton.mp hr
      exact ⟨hoff.le, offEnd_le_patchLen⟩
  · have hsplit : nextBin p range k - range.binOff = (k - range.binOff) + (nextBin p range k - k) := by omega
    rw [List.flatMap_append, List.flatMap_singleton, h.names, names_readAt hoff.le, ← List.map_append, hsplit,
      ← List.range'_append_1, Nat.add_sub_cancel' hle]

/-- When the reads have covered the range, they partition it. -/
theorem Covered.partitions {reads : List Read} (hsup : Supported p range) (h : Covered p range (last range) reads) :
    Partitions p range reads := by
  have hcount : last range - range.binOff = range.binCnt := Nat.add_sub_cancel_left _ _
  have hnames := h.names
  rw [hcount] at hnames
  refine ⟨h.inPartition, ?_, ?_⟩
  · rw [hnames]
    exact List.Nodup.map (keyOf_injective p) List.nodup_range'
  · rw [hnames]
    apply List.map_congr_left
    intro k hk
    rw [List.mem_range'_1] at hk
    have hlt : k ≤ last range := hk.2.le
    have hfits : p.binLen * 1000000 * k < 2 ^ 64 := by
      rw [← hsup.binLen_eq]
      exact (Nat.mul_le_mul_left _ hlt).trans_lt hsup.fits
    rw [hsup.binLen_eq, PrebinnedPartitioning.storedKey_eq p hfits]
    rfl

/-- Not more bins remain from a later bin on. -/
theorem remaining_le {j : ℕ} (hle : j ≤ k) : remaining p range k ≤ remaining p range j :=
  Nat.sub_le_sub_left (Nat.mul_le_mul_left _ (Nat.div_le_div_right hle)) _

/-- The reader ends with reads that partition the range, if less than 2^32 bins remain from the begin of the first
partition on. -/
theorem Standing.drains (provider : CacheReadProvider B ε) (hsup : Supported p range)
    (hfew : remaining p range range.binOff < 2 ^ 32) (hs : Standing p range range.binOff s) (hreads : s.reads = []) :
    ∃ xs t u, Reaches (pollNext provider) s xs t ∧ pollNext provider t = .done u ∧ Partitions p range t.reads := by
  let pendings (s : CachedReader B ε) : ℕ := s.reading.elim 0 fun fut => fut.pendings + 1
  obtain ⟨xs, t, u, hrun, ⟨k, ht, hcovered⟩, hdone⟩ : ∃ xs t u, Reaches (pollNext provider) s xs t ∧
      (∃ k, Standing p range k t ∧ Covered p range k t.reads) ∧ pollNext provider t = .done u := drains_of_measure
    (fun s => toLex (range.binLen * last range - s.ts1next, pendings s))
    (I := fun _ t => ∃ k, Standing p range k t ∧ Covered p range k t.reads)
    ⟨range.binOff, hs, hreads ▸ covered_nil⟩ (by
      rintro ys v - ⟨k, hv, hcovered⟩
      cases hreading : v.reading with
      | some fut =>
          refine (pollNext_reading hreading ys).mono ?_
          rintro zs w ⟨hw, heq⟩
          have hpend : pendings w < pendings v := by
            rcases hw with hw | ⟨n, hn, hw⟩
            · simp [pendings, hw, hreading]
            · simp [pendings, hw, hreading, hn]
          rw [heq]
          refine ⟨⟨k, hv.wait _, hcovered⟩, ?_⟩
          rw [← heq]
          have hsame : w.ts1next = v.ts1next := by rw [heq]
          exact Prod.Lex.toLex_lt_toLex.mpr (.inr ⟨by rw [hsame], hpend⟩)
      | none =>
          have hpass : pollNext provider v = v.setupNext provider := by
            unfold pollNext
            rw [hreading]
          rw [hpass]
          rcases hv.le_last.lt_or_eq with hlt | rfl
          · have hfew' := (remaining_le hcovered.le).trans_lt hfew
            rw [setupNext_lt hsup hv hlt]
            refine ⟨⟨_, hv.next _ _, hcovered.next hfew' hlt⟩, ?_⟩
            apply Prod.Lex.toLex_lt_toLex.mpr
            left
            have hlen : 0 < range.binLen := by
              have := p.binLen_pos
              have := hsup.binLen_eq
              omega
            have hmul := Nat.mul_lt_mul_of_pos_left (lt_nextBin hfew' hlt).2 hlen
            have hmul' := Nat.mul_lt_mul_of_pos_left hlt hlen
            rw [hv.ts1next_eq]
            simp only
            omega
          · rw [setupNext_last hsup hv]
            trivial)
  refine ⟨xs, t, u, hrun, hdone, ?_⟩
  have hlast : k = last range := by
    by_contra hne
    have hlt := lt_of_le_of_ne ht.le_last hne
    obtain ⟨-, hsetup⟩ := setupNext_of_done hdone
    rw [setupNext_lt hsup ht hlt] at hsetup
    cases hsetup
  exact (hlast ▸ hcovered).partitions hsup

/-! ## Ranges with many bins -/

/-- From the begin of the partition of a bin on 2^32 bins or more remain. -/
structure Stuck (p : PrebinnedPartitioning) (range : BinnedRange) (k : ℕ) (s : CachedReader B ε) : Prop
    extends Standing p range k s where
  lt_last : k < last range
  many : 2 ^ 32 ≤ remaining p range k

/-- Where many bins remain the next read begins either in the next partition, or in the same one and at the same bin
for ever; many bins remain in both cases. -/
theorem many_nextBin (hmany : 2 ^ 32 ≤ remaining p range k) :
    nextBin p range k < last range ∧ 2 ^ 32 ≤ remaining p range (nextBin p range k) := by
  have hpatch := p.patchLen_lt
  have hpos := p.patchLen_pos
  have hle : offEnd p range k ≤ p.patchLen := offEnd_le_patchLen
  have hlt : nextBin p range k < last range := by
    unfold nextBin
    unfold remaining at hmany
    omega
  refine ⟨hlt, ?_⟩
  rcases hle.lt_or_eq with hsame | hfull
  · have hdiv : nextBin p range k / p.patchLen = k / p.patchLen := by
      rw [nextBin, Nat.mul_add_div hpos, Nat.div_eq_of_lt hsame, Nat.add_zero]
    rwa [remaining, hdiv]
  · have hdiv : nextBin p range k / p.patchLen = k / p.patchLen + 1 := by
      rw [nextBin, hfull, Nat.mul_add_div hpos, Nat.div_self hpos]
    have hmod : p.patchLen ≤ remaining p range k % 2 ^ 32 := hfull ▸ min_le_right _ _
    have hnext : remaining p range (nextBin p range k) = remaining p range k - p.patchLen := by
      rw [remaining, hdiv, Nat.mul_succ, remaining, Nat.sub_sub]
    omega

/-- With many bins the reader never ends. -/
theorem Stuck.not_done (hsup : Supported p range) (hs : Stuck p range k s) {xs : List (Except ε B)}
    (hrun : Reaches (pollNext provider) s xs t) (u : CachedReader B ε) : pollNext provider t ≠ .done u := by
  have hstuck : ∃ k, Stuck p range k t := by
    refine hrun.inv (I := fun _ t => ∃ k, Stuck p range k t) ⟨k, hs⟩ ?_
    rintro ys v - ⟨k, hv⟩
    right
    cases hreading : v.reading with
    | some fut =>
        refine (pollNext_reading hreading ys).mono ?_
        rintro zs w ⟨-, heq⟩
        rw [heq]
        exact ⟨k, hv.toStanding.wait _, hv.lt_last, hv.many⟩
    | none =>
        obtain ⟨hlt, hmany⟩ := many_nextBin hv.many
        have hpass : pollNext provider v = v.setupNext provider := by
          unfold pollNext
          rw [hreading]
        rw [hpass, setupNext_lt hsup hv.toStanding hv.lt_last]
        exact ⟨_, hv.toStanding.next _ _, hlt, hmany⟩
  intro hdone
  obtain ⟨k, ht⟩ := hstuck
  obtain ⟨-, hsetup⟩ := setupNext_of_done hdone
  rw [setupNext_lt hsup ht.toStanding ht.lt_last] at hsetup
  cases hsetup

/-! ## From the start -/

/-- The reader for a range ends, with reads that partition the range. -/
def ReadsPartition (provider : CacheReadProvider B ε) (p : PrebinnedPartitioning) (series : ℕ) (range : BinnedRange) :
    Prop :=
  ∃ s xs t u, new series range = some s ∧ Reaches (pollNext provider) s xs t ∧ pollNext provider t = .done u ∧
    Partitions p range t.reads

theorem new_standing {series : ℕ} (hlen : range.binLen = p.binLen * 1000000) (hnew : new series range = some s) :
    Standing p range range.binOff s ∧ s.reading = none ∧ s.reads = [] := by
  obtain ⟨x, hx, hs⟩ := Option.bind_eq_some_iff.mp hnew
  obtain ⟨-, rfl⟩ := checkedMul_eq_some.mp hx
  obtain rfl := Option.some.inj hs
  have hms : tsMs range.binLen = p.binLen := by
    rw [hlen]
    exact Nat.mul_div_cancel _ (by decide)
  exact ⟨⟨rfl, hms, rfl, Nat.le_add_right _ _⟩, rfl, rfl⟩

/-- Where the range ends at 2^64 or later the first pass panics. -/
theorem pollNext_eq_panic (provider : CacheReadProvider B ε) (hrange : s.range = range) (hreading : s.reading = none)
    (hover : 2 ^ 64 ≤ range.nanoEnd) :
    pollNext provider s = .panic := by
  have hnone : s.nanoEnd = none := by
    rw [Option.eq_none_iff_forall_ne_some]
    intro x hx
    obtain ⟨n, hn, hx⟩ := Option.bind_eq_some_iff.mp hx
    obtain ⟨-, rfl⟩ := checkedAdd_eq_some.mp hn
    obtain ⟨hlt, -⟩ := checkedMul_eq_some.mp hx
    rw [hrange] at hlt
    exact absurd hlt (not_lt.mpr hover)
  unfold pollNext setupNext
  rw [hreading, hnone]

/-- With many bins the reads do not partition the range. -/
theorem not_readsPartition_of_many {series : ℕ} (hsup : Supported p range)
    (hmany : 2 ^ 32 ≤ remaining p range range.binOff) : ¬ ReadsPartition provider p series range := by
  rintro ⟨s, xs, t, u, hnew, hrun, hdone, -⟩
  have hlt : range.binOff < last range := by
    have hmod := Nat.div_add_mod range.binOff p.patchLen
    have := Nat.mod_lt range.binOff p.patchLen_pos
    have := p.patchLen_lt
    unfold remaining at hmany
    omega
  have hstuck : Stuck p range range.binOff s := ⟨(new_standing hsup.binLen_eq hnew).1, hlt, hmany⟩
  exact hstuck.not_done hsup hrun u hdone

/-- The reads partition a range with bins of a supported length if and only if the range ends below 2^64, and from the
begin of its first partition to its end there are less than 2^32 bins. -/
theorem partitions_iff (provider : CacheReadProvider B ε) (p : PrebinnedPartitioning) (series : ℕ) (range : BinnedRange)
    (hlen : range.binLen = p.binLen * 1000000) :
    ReadsPartition provider p series range ↔
      range.nanoEnd < 2 ^ 64 ∧
        range.binOff + range.binCnt - p.patchLen * (range.binOff / p.patchLen) < 2 ^ 32 := by
  constructor
  · intro hreads
    have hfits : range.nanoEnd < 2 ^ 64 := by
      by_contra hover
      obtain ⟨s, xs, t, u, hnew, hrun, hdone, -⟩ := hreads
      obtain ⟨hs, hreading, -⟩ := new_standing hlen hnew
      have hpanic := pollNext_eq_panic provider hs.range_eq hreading (not_lt.mp hover)
      rcases hrun.cases_head with ⟨-, rfl⟩ | ⟨v, hv | hv, -⟩ | ⟨x, v, zs, hv, -, -⟩ <;> simp_all
    refine ⟨hfits, ?_⟩
    by_contra hmany
    exact not_readsPartition_of_many ⟨hlen, hfits⟩ (not_lt.mp hmany) hreads
  · rintro ⟨hfits, hfew⟩
    have hbeg : checkedMul 64 range.binLen range.binOff = some (range.binLen * range.binOff) :=
      checkedMul_of_lt (range.nanoBeg_le_nanoEnd.trans_lt hfits)
    have hnew : new series range =
        some ({ series := series, range := range, ts1next := range.binLen * range.binOff,
                binLen := tsMs range.binLen } : CachedReader B ε) := by
      unfold new
      rw [hbeg]
      rfl
    obtain ⟨hs, -, hreads⟩ := new_standing hlen hnew
    obtain ⟨xs, t, u, hrun, hdone, hpart⟩ := hs.drains provider ⟨hlen, hfits⟩ hfew hreads
    exact ⟨_, xs, t, u, hnew, hrun, hdone, hpart⟩

/-- Two partitions of seconds, of a store that is empty -/
theorem partitions_iff_two : ReadsPartition (fun _ _ => ⟨1, .ok none⟩ : CacheReadProvider Unit Unit) .sec1 7
    ⟨1000000000, 1100, 200⟩ :=
  (partitions_iff _ .sec1 7 ⟨1000000000, 1100, 200⟩ rfl).mpr (by decide)

/-- The seconds of more than 136 years -/
theorem not_partitions_many : ¬ ReadsPartition (fun _ _ => ⟨0, .ok none⟩ : CacheReadProvider Unit Unit) .sec1 7
    ⟨1000000000, 0, 2 ^ 32⟩ :=
  not_readsPartition_of_many ⟨rfl, by decide⟩ (by decide)

end CachedReader

end Timebin
end Daqbuf
