import Daqbuf.Arith.Checked
import Daqbuf.Netpod.Range
import Daqbuf.Netpod.Time
import Daqbuf.Search.Nearest
import Daqbuf.Search.PartitionPoint
/-!
# Covering Ranges

How a request for bins becomes a range of bins on the grid: either a number of bins is asked for, or the length of
the bins.  The bins have one of the supported lengths, and the range that is asked for is widened to whole bins.

Times, lengths and counts are numbers of 64 bits, and an operation that leaves them is a panic.

Main results:

- Theorem {lit}`coveringRangeTy_eq_ok`: which range is made for a number of bins, and when one is made.
- Theorem {lit}`covers_iff`: when there is a range that covers the wanted one with enough bins.
- Theorem {lit}`fittingBinLen_chosen`: which supported length is taken for a wanted one.
- Theorem {lit}`fits_iff`: when it is the nearest one, and the range fits.
-/

namespace Daqbuf
namespace Netpod

open Arith Search

/-! ## Supported lengths -/

open Timeunits in
/-- {lit}`TIME_BIN_THRESHOLDS` -/
def timeBinThresholds : List ℕ :=
  [ms * 20, ms * 50, ms * 100, ms * 200, ms * 500, sec, sec * 2, sec * 5, sec * 10, sec * 20, Timeunits.min,
    Timeunits.min * 2, Timeunits.min * 5, Timeunits.min * 10, Timeunits.min * 20, hour, hour * 2, hour * 4, hour * 12,
    day, day * 2, day * 4, day * 8, day * 16, day * 32, day * 64]

/-- {lit}`PULSE_BIN_THRESHOLDS` -/
def pulseBinThresholds : List ℕ :=
  [10, 20, 40, 80, 100, 200, 400, 800, 1000, 2000, 4000, 8000, 10000, 20000, 40000, 80000, 100000,
    200000, 400000, 800000, 1000000, 2000000, 4000000, 8000000, 10000000]

/-- {lit}`BinnedRangeEnum` -/
inductive BinnedRangeEnum where
  | time (r : BinnedRange)
  | pulse (r : BinnedRange)
  deriving DecidableEq, Repr

/-- {lit}`SeriesRange` -/
inductive SeriesRange where
  | timeRange (r : NanoRange)
  | pulseRange (r : NanoRange)
  deriving DecidableEq, Repr

/-- The types that implement {lit}`Dim0Index`.  Both are numbers of 64 bits with the same arithmetic. -/
inductive Dim0Kind where
  | time
  | pulse
  deriving DecidableEq, Repr

namespace Dim0Kind

/-- {lit}`binned_bin_len_opts` -/
def binnedBinLenOpts : Dim0Kind → List ℕ
  | time => timeBinThresholds
  | pulse => pulseBinThresholds

/-- {lit}`to_binned_range_enum` -/
def toBinnedRangeEnum : Dim0Kind → BinnedRange → BinnedRangeEnum
  | time => .time
  | pulse => .pulse

end Dim0Kind

/-- The errors of {lit}`covering_range`, and a panic -/
inductive CoverFault where
  | binCountTooSmall
  | binCountTooLarge
  | timelikeBinWidthImpossibleForPulseRange
  | panicked
  deriving DecidableEq, Repr

/-- Arithmetic that panics where it has no result -/
def orPanic {α : Type} : Option α → Except CoverFault α
  | some x => .ok x
  | none => .error .panicked

@[simp]
theorem orPanic_some {α : Type} (x : α) : orPanic (some x) = .ok x := rfl

@[simp]
theorem orPanic_none {α : Type} : orPanic (none : Option α) = .error .panicked := rfl

/-! ## A number of bins -/

/-- {lit}`i32::MAX` -/
def i32Max : ℕ := 2 ^ 31 - 1

/-- The bins of a length that cover a range: the offset of the first bin and the number of the bins -/
def alignedBins (beg fin bl : ℕ) : Option BinnedRange := do
  let off1 ← checkedDiv beg bl
  let sum ← checkedAdd 64 fin bl
  let top ← checkedSub sum 1
  let off2 ← checkedDiv top bl
  let cnt ← checkedSub off2 off1
  return ⟨bl, off1, cnt⟩

/-- {lit}`covering_range_ty` -/
def coveringRangeTy (kind : Dim0Kind) (a b minBinCount : ℕ) : Except CoverFault BinnedRangeEnum := do
  if minBinCount < 1 then throw .binCountTooSmall
  if i32Max < minBinCount then throw .binCountTooLarge
  let du ← orPanic (checkedSub b a)
  let maxBinLen ← orPanic (checkedDiv du minBinCount)
  let foundBinLen := kind.binnedBinLenOpts.reverse.find? fun bl => decide (bl ≤ maxBinLen)
  let r ← orPanic (alignedBins a b (foundBinLen.getD maxBinLen))
  return kind.toBinnedRangeEnum r

/-- {lit}`BinnedRangeEnum::covering_range` -/
def coveringRange (range : SeriesRange) (minBinCount : ℕ) : Except CoverFault BinnedRangeEnum :=
  match range with
  | .timeRange k => coveringRangeTy .time k.beg k.fin minBinCount
  | .pulseRange k => coveringRangeTy .pulse k.beg k.fin minBinCount

variable {beg fin bl n : ℕ} {r : BinnedRange}

/-- There are bins of a length if it is not zero, the end of the range leaves room for one more bin, and the range
does not end in a bin before the one it begins in. -/
theorem alignedBins_eq_some : alignedBins beg fin bl = some r ↔
    (bl ≠ 0 ∧ fin + bl < 2 ^ 64 ∧ beg / bl ≤ (fin + bl - 1) / bl) ∧
      r = ⟨bl, beg / bl, (fin + bl - 1) / bl - beg / bl⟩ := by
  unfold alignedBins
  simp only [Option.bind_eq_bind, Option.bind_eq_some_iff, checkedDiv_eq_some, checkedAdd_eq_some, checkedSub_eq_some,
    Option.pure_def, Option.some.injEq]
  constructor
  · rintro ⟨off1, ⟨hbl, rfl⟩, sum, ⟨hsum, rfl⟩, top, ⟨-, rfl⟩, off2, ⟨-, rfl⟩, cnt, ⟨hle, rfl⟩, rfl⟩
    exact ⟨⟨hbl, hsum, hle⟩, rfl⟩
  · rintro ⟨⟨hbl, hsum, hle⟩, rfl⟩
    exact ⟨_, ⟨hbl, rfl⟩, _, ⟨hsum, rfl⟩, _, ⟨by omega, rfl⟩, _, ⟨hbl, rfl⟩, _, ⟨hle, rfl⟩, rfl⟩

/-- Bins that cover a range begin at most at its begin, and end at least at its end, by less than a bin. -/
theorem alignedBins_spec (h : alignedBins beg fin bl = some r) :
    r.binLen = bl ∧ r.nanoBeg ≤ beg ∧ beg < r.nanoBeg + bl ∧ fin ≤ r.nanoEnd ∧ r.nanoEnd < fin + bl := by
  obtain ⟨⟨hbl, -, hle⟩, rfl⟩ := alignedBins_eq_some.mp h
  have hpos : 0 < bl := Nat.pos_of_ne_zero hbl
  have hbeg := Nat.div_add_mod beg bl
  have hmod := Nat.mod_lt beg hpos
  have hend := Nat.div_add_mod (fin + bl - 1) bl
  have hmod' := Nat.mod_lt (fin + bl - 1) hpos
  have hoff : beg / bl + ((fin + bl - 1) / bl - beg / bl) = (fin + bl - 1) / bl := Nat.add_sub_cancel' hle
  simp only [BinnedRange.nanoBeg, BinnedRange.nanoEnd, hoff]
  exact ⟨trivial, by omega, by omega, by omega, by omega⟩

/-- A range that is not inverted does not end in a bin before the one it begins in. -/
theorem div_le_of_le (hle : beg ≤ fin) (hpos : 0 < bl) : beg / bl ≤ (fin + bl - 1) / bl :=
  Nat.div_le_div_right (by omega)

/-! ### The length of the bins -/

theorem sorted_thresholds : SortedBy (fun x : ℕ => x) timeBinThresholds := by
  unfold SortedBy
  decide

theorem thresholds_pos : ∀ x ∈ timeBinThresholds, 0 < x := by decide

/-- The longest supported length up to a bound, or the bound itself -/
def longestUpTo (maxBinLen : ℕ) : ℕ :=
  (timeBinThresholds.reverse.find? fun bl => decide (bl ≤ maxBinLen)).getD maxBinLen

/-- Either the length is supported and no longer one would do, or even the shortest supported length is too long. -/
theorem longestUpTo_cases (m : ℕ) :
    (longestUpTo m ∈ timeBinThresholds ∧ longestUpTo m ≤ m ∧ ∀ t ∈ timeBinThresholds, t ≤ m → t ≤ longestUpTo m) ∨
      (longestUpTo m = m ∧ ∀ t ∈ timeBinThresholds, m < t) := by
  unfold longestUpTo
  cases hfind : timeBinThresholds.reverse.find? fun bl => decide (bl ≤ m) with
  | none =>
      right
      refine ⟨rfl, fun t ht => ?_⟩
      simpa using List.find?_eq_none.mp hfind t (List.mem_reverse.mpr ht)
  | some bl =>
      left
      obtain ⟨hle, longer, shorter, hsplit, hlonger⟩ := List.find?_eq_some_iff_append.mp hfind
      have hrev : timeBinThresholds = shorter.reverse ++ bl :: longer.reverse := by
        rw [← List.reverse_reverse timeBinThresholds, hsplit]
        simp
      refine ⟨by rw [hrev]; simp, by simpa using hle, fun t ht htm => ?_⟩
      have hsorted := sorted_thresholds
      rw [hrev] at ht hsorted
      rcases List.mem_append.mp ht with ht | ht
      · exact (sortedBy_append.mp hsorted).2.2 t ht bl List.mem_cons_self
      · rcases List.mem_cons.mp ht with rfl | ht
        · exact le_rfl
        · exact absurd htm (by simpa using hlonger t (List.mem_reverse.mp ht))

/-- A range is made from the longest supported length of which enough bins fit, if that is possible at all. -/
theorem coveringRangeTy_eq_ok {e : BinnedRangeEnum} (hn : 1 ≤ n) (hmax : n ≤ i32Max) (hle : beg ≤ fin) :
    coveringRangeTy .time beg fin n = .ok e ↔
      ∃ r, alignedBins beg fin (longestUpTo ((fin - beg) / n)) = some r ∧ e = .time r := by
  unfold coveringRangeTy
  rw [if_neg (by omega), if_neg (by omega), checkedSub_of_le hle]
  change (orPanic (checkedDiv (fin - beg) n) >>= fun m => orPanic (alignedBins beg fin (longestUpTo m)) >>= fun r =>
    pure (.time r)) = .ok e ↔ _
  rw [checkedDiv_of_ne (by omega)]
  change (orPanic (alignedBins beg fin (longestUpTo ((fin - beg) / n))) >>= fun r => pure (.time r)) = .ok e ↔ _
  cases alignedBins beg fin (longestUpTo ((fin - beg) / n)) with
  | none => exact iff_of_false nofun (by rintro ⟨r, hr, -⟩; cases hr)
  | some r =>
      constructor
      · rintro ⟨⟩
        exact ⟨r, rfl, rfl⟩
      · rintro ⟨r', hr, rfl⟩
        cases hr
        rfl

/-- The range has whole bins of a supported length, or of one that is shorter than all of them if of none of them
enough bins fit; it contains the wanted range and has at least the wanted number of bins. -/
structure Covers (range : NanoRange) (n : ℕ) (r : BinnedRange) : Prop where
  aligned : 0 < r.binLen ∧
    (r.binLen ∈ timeBinThresholds ∨ ∀ t ∈ timeBinThresholds, range.fin - range.beg < n * t)
  contains : r.nanoBeg ≤ range.beg ∧ range.fin ≤ r.nanoEnd
  representable : r.nanoEnd < 2 ^ 64
  enough : n ≤ r.binCnt

/-- Bins of a length of which enough fit into the range cover it. -/
theorem covers_of_alignedBins (h : alignedBins beg fin bl = some r) (hfit : n * bl ≤ fin - beg) (hle : beg ≤ fin)
    (hgrid : bl ∈ timeBinThresholds ∨ ∀ t ∈ timeBinThresholds, fin - beg < n * t) : Covers ⟨beg, fin⟩ n r := by
  obtain ⟨hlen, hbeg, -, hend, hlt⟩ := alignedBins_spec h
  obtain ⟨⟨hbl, hsum, -⟩, -⟩ := alignedBins_eq_some.mp h
  have hpos : 0 < bl := Nat.pos_of_ne_zero hbl
  refine ⟨⟨hlen ▸ hpos, hlen ▸ hgrid⟩, ⟨hbeg, hend⟩, by omega, ?_⟩
  have hspan := r.nanoEnd_eq
  rw [hlen] at hspan
  have hmul : bl * n ≤ bl * r.binCnt := by
    rw [Nat.mul_comm bl n]
    omega
  exact Nat.le_of_mul_le_mul_left hmul hpos

/-- A range of nanoseconds is covered with enough bins if and only if it has at least one nanosecond for each of
them, and its end leaves room for one more bin below 2^64. -/
theorem covers_iff (range : NanoRange) (n : ℕ) (hn : 1 ≤ n) (hmax : n ≤ i32Max) (hle : range.beg ≤ range.fin) :
    (∃ r, coveringRange (.timeRange range) n = .ok (.time r) ∧ Covers range n r) ↔
      n ≤ range.fin - range.beg ∧
        (∀ t ∈ timeBinThresholds, n * t ≤ range.fin - range.beg → range.fin + t < 2 ^ 64) ∧
          ((∀ t ∈ timeBinThresholds, range.fin - range.beg < n * t) →
            range.fin + (range.fin - range.beg) / n < 2 ^ 64) := by
  obtain ⟨beg, fin⟩ := range
  simp only at hle ⊢
  have hle_iff : ∀ t, t ≤ (fin - beg) / n ↔ n * t ≤ fin - beg := fun t => by
    rw [Nat.le_div_iff_mul_le hn, Nat.mul_comm]
  have hlt_iff : ∀ t, (fin - beg) / n < t ↔ fin - beg < n * t := fun t => by
    rw [← not_le, hle_iff, not_le]
  have hpos_iff : (fin - beg) / n ≠ 0 ↔ n ≤ fin - beg := by
    rw [Nat.div_ne_zero_iff]
    omega
  have hcases := longestUpTo_cases ((fin - beg) / n)
  simp only [hle_iff, hlt_iff] at hcases
  constructor
  · rintro ⟨r, hr, -⟩
    obtain ⟨r', hbins, -⟩ := (coveringRangeTy_eq_ok hn hmax hle).mp hr
    obtain ⟨⟨hbl, hsum, -⟩, -⟩ := alignedBins_eq_some.mp hbins
    rcases hcases with ⟨hmem, hfit, hlongest⟩ | ⟨heq, hall⟩
    · have hone : n * 1 ≤ n * longestUpTo ((fin - beg) / n) := Nat.mul_le_mul_left n (Nat.pos_of_ne_zero hbl)
      refine ⟨by omega, fun t ht htfit => ?_, fun hall => absurd hfit (not_le.mpr (hall _ hmem))⟩
      have := hlongest t ht htfit
      omega
    · rw [heq] at hbl hsum
      exact ⟨hpos_iff.mp hbl, fun t ht htfit => absurd htfit (not_le.mpr (hall t ht)), fun _ => hsum⟩
  · rintro ⟨hspan, hroom, hroom'⟩
    have hfit : n * longestUpTo ((fin - beg) / n) ≤ fin - beg := by
      rcases hcases with ⟨-, hfit, -⟩ | ⟨heq, -⟩
      · exact hfit
      · rw [heq]
        exact Nat.mul_div_le _ _
    have hgrid : longestUpTo ((fin - beg) / n) ∈ timeBinThresholds ∨ ∀ t ∈ timeBinThresholds, fin - beg < n * t :=
      hcases.imp And.left And.right
    have hbl : longestUpTo ((fin - beg) / n) ≠ 0 ∧ fin + longestUpTo ((fin - beg) / n) < 2 ^ 64 := by
      rcases hcases with ⟨hmem, hfit, -⟩ | ⟨heq, hall⟩
      · exact ⟨(thresholds_pos _ hmem).ne', hroom _ hmem hfit⟩
      · rw [heq]
        exact ⟨hpos_iff.mpr hspan, hroom' hall⟩
    have hbins := alignedBins_eq_some.mpr
      ⟨⟨hbl.1, hbl.2, div_le_of_le hle (Nat.pos_of_ne_zero hbl.1)⟩, rfl⟩
    exact ⟨_, (coveringRangeTy_eq_ok hn hmax hle).mpr ⟨_, hbins, rfl⟩, covers_of_alignedBins hbins hfit hle hgrid⟩

/-- Ten bins in the hour from 72 h to 73 h -/
theorem covers_iff_hour : ∃ r, coveringRange (.timeRange ⟨72 * Timeunits.hour, 73 * Timeunits.hour⟩) 10 = .ok (.time r) ∧
    Covers ⟨72 * Timeunits.hour, 73 * Timeunits.hour⟩ 10 r :=
  (covers_iff ⟨72 * Timeunits.hour, 73 * Timeunits.hour⟩ 10 (by decide) (by decide) (by decide)).mpr (by decide)

/-- Ten bins in five nanoseconds -/
theorem not_covers_short :
    ¬ ∃ r, coveringRange (.timeRange ⟨100, 105⟩) 10 = .ok (.time r) ∧ Covers ⟨100, 105⟩ 10 r := by
  rintro ⟨r, hr, -⟩
  have hpanic : coveringRange (.timeRange ⟨100, 105⟩) 10 = .error .panicked := by decide
  rw [hpanic] at hr
  cases hr

/-! ## A length of the bins -/

/-- {lit}`TsNano::ms` -/
def tsMs (ns : ℕ) : ℕ := ns / 1000000

/-- {lit}`DtMs::ns` -/
def dtNs (ms : ℕ) : Option ℕ := checkedMul 64 1000000 ms

/-- The supported length, in milliseconds, for a wanted one that is neither too short nor too long -/
def nearbyBinLen (binLenReq : ℕ) : Option ℕ := do
  let opts := timeBinThresholds
  let pv ← dtNs binLenReq
  let pi := partitionPoint (fun x => decide (x < pv)) opts
  if pi = 0 then return tsMs (opts.head?.getD 0)
  else
    let v1 := tsMs (opts[pi - 1]?.getD 0)
    match opts[pi]? with
    | none => return v1
    | some v2 =>
        let v2 := tsMs v2
        if binLenReq ≤ v1 ∨ v2 < binLenReq then none
        else
          let f1 ← checkedDiv (binLenReq - v1) binLenReq
          let f2 ← checkedDiv (v2 - binLenReq) binLenReq
          return if f1 < f2 then v1 else v2

/-- The supported length, in milliseconds, for a wanted one -/
def fittingBinLen (binLenReq : ℕ) : Option ℕ :=
  let opts := timeBinThresholds
  let shortest := tsMs (opts.head?.getD 0)
  let longest := tsMs (opts.getLast?.getD 0)
  let binLenReq := if binLenReq < shortest then shortest else binLenReq
  let binLenReq := if longest < binLenReq then longest else binLenReq
  nearbyBinLen binLenReq

/-- {lit}`BinnedRange::covering_range_time` -/
def coveringRangeTime (range : NanoRange) (binLenReq : ℕ) : Option BinnedRange := do
  let binLen ← fittingBinLen binLenReq
  let binLen ← dtNs binLen
  alignedBins range.beg range.fin binLen

/-- The length that is taken for a wanted one: the shortest or the longest, or else one of the neighbours of the
wanted one, and then the upper one if it is less than twice the wanted one. -/
inductive Chosen (q : ℕ) : ℕ → Prop
  | shortest {l : ℕ} (hl : l ∈ timeBinThresholds) (hle : q ≤ l) (hleast : ∀ x ∈ timeBinThresholds, l ≤ x) : Chosen q l
  | longest {l : ℕ} (hl : l ∈ timeBinThresholds) (hle : l ≤ q) (hgreatest : ∀ x ∈ timeBinThresholds, x ≤ l) :
      Chosen q l
  | between {v w : ℕ} (h : Neighbours timeBinThresholds v w) (hvq : v < q) (hqw : q ≤ w) :
      Chosen q (if 2 * q ≤ w then v else w)

theorem ns_tsMs : ∀ x ∈ timeBinThresholds, 1000000 * tsMs x = x := by decide

/-- The entries next to a wanted length are neighbours. -/
theorem neighbours_of_partitionPoint {pv v w k : ℕ}
    (hk : partitionPoint (fun x => decide (x < pv)) timeBinThresholds = k + 1)
    (hv : timeBinThresholds[k]? = some v) (hw : timeBinThresholds[k + 1]? = some w) :
    Neighbours timeBinThresholds v w ∧ v < pv ∧ pv ≤ w := by
  rw [← hk] at hw
  have hbelow := fun y => sorted_thresholds.below_partitionPoint (y := y) hk hv
  have hfrom := fun y => sorted_thresholds.at_partitionPoint (y := y) hw
  have hlt := (hbelow 0).1
  have hle := (hfrom 0).1
  refine ⟨⟨List.mem_of_getElem? hv, List.mem_of_getElem? hw, hlt.trans_le hle, fun x hx => ?_⟩, hlt, hle⟩
  by_cases hx' : x < pv
  · exact .inl ((hbelow x).2 hx hx')
  · exact .inr ((hfrom x).2 hx (not_lt.mp hx'))

/-- A wanted length between the supported ones gets one of its neighbours. -/
theorem nearbyBinLen_chosen {req : ℕ} (hlow : 20 ≤ req) (hhigh : req ≤ tsMs (64 * Timeunits.day)) :
    ∃ l, nearbyBinLen req = some l ∧ Chosen (1000000 * req) (1000000 * l) := by
  have hpv : dtNs req = some (1000000 * req) := by
    apply checkedMul_of_lt
    have : tsMs (64 * Timeunits.day) = 5529600000 := by decide
    omega
  have hlast : 64 * Timeunits.day ∈ timeBinThresholds := by decide
  have hlast_le : 1000000 * req ≤ 64 * Timeunits.day := by
    have : 1000000 * tsMs (64 * Timeunits.day) = 64 * Timeunits.day := by decide
    omega
  unfold nearbyBinLen
  rw [hpv]
  simp only [Option.bind_eq_bind, Option.bind_some]
  cases hpp : partitionPoint (fun x => decide (x < 1000000 * req)) timeBinThresholds with
  | zero =>
      have hleast : ∀ x ∈ timeBinThresholds, 20000000 ≤ x := by decide
      have hnone := (partitionPoint_eq_zero_iff (sorted_thresholds.partitioned_lt (1000000 * req))).mp hpp
      have hreq : 1000000 * req ≤ 20000000 := by
        simpa using hnone 20000000 (by decide)
      exact ⟨20, rfl, .shortest (by decide) hreq hleast⟩
  | succ k =>
      rw [if_neg (Nat.succ_ne_zero k), Nat.add_sub_cancel]
      have hlen := partitionPoint_le_length (fun x => decide (x < 1000000 * req)) timeBinThresholds
      rw [hpp] at hlen
      cases hw : timeBinThresholds[k + 1]? with
      | none =>
          exfalso
          have hall := (length_le_partitionPoint_iff (fun x => decide (x < 1000000 * req)) timeBinThresholds).mp
            (hpp ▸ List.getElem?_eq_none_iff.mp hw) _ hlast
          simp only [decide_eq_true_eq] at hall
          omega
      | some w =>
          have hv : timeBinThresholds[k]? = some timeBinThresholds[k] := List.getElem?_eq_getElem hlen
          obtain ⟨hneighbours, hlt, hle⟩ := neighbours_of_partitionPoint hpp hv hw
          rw [hv, Option.getD_some]
          generalize timeBinThresholds[k] = v at hneighbours hlt
          have hvms := ns_tsMs v hneighbours.left_mem
          have hwms := ns_tsMs w hneighbours.right_mem
          have hvpos := thresholds_pos v hneighbours.left_mem
          simp only
          rw [if_neg (by omega), checkedDiv_of_ne (by omega), Option.bind_some, checkedDiv_of_ne (by omega),
            Option.bind_some, Nat.div_eq_of_lt (by omega)]
          refine ⟨_, rfl, ?_⟩
          have hchosen := Chosen.between hneighbours hlt hle
          have hdiv : 0 < (tsMs w - req) / req ↔ 2 * (1000000 * req) ≤ w := by
            rw [Nat.div_pos_iff]
            omega
          by_cases htwice : 2 * (1000000 * req) ≤ w
          · rw [if_pos htwice] at hchosen
            rwa [if_pos (hdiv.mpr htwice), hvms]
          · rw [if_neg htwice] at hchosen
            rwa [if_neg (mt hdiv.mp htwice), hwms]

/-- Which supported length is taken for a wanted one. -/
theorem fittingBinLen_chosen (req : ℕ) :
    ∃ l, fittingBinLen req = some l ∧ Chosen (1000000 * req) (1000000 * l) := by
  have hshortest : tsMs (timeBinThresholds.head?.getD 0) = 20 := by decide
  have hlongest : tsMs (timeBinThresholds.getLast?.getD 0) = tsMs (64 * Timeunits.day) := by decide
  have horder : 20 ≤ tsMs (64 * Timeunits.day) := by decide
  unfold fittingBinLen
  simp only [hshortest, hlongest]
  by_cases hlow : req < 20
  · rw [if_pos hlow, if_neg (by omega)]
    refine ⟨20, by decide, .shortest (by decide) (by omega) (by decide)⟩
  · rw [if_neg hlow]
    by_cases hhigh : tsMs (64 * Timeunits.day) < req
    · rw [if_pos hhigh]
      have : tsMs (64 * Timeunits.day) = 5529600000 := by decide
      exact ⟨5529600000, by decide, .longest (by decide) (by omega) (by decide)⟩
    · rw [if_neg hhigh]
      exact nearbyBinLen_chosen (not_lt.mp hlow) (not_lt.mp hhigh)

/-- The wanted length is not so far above the lower one of its neighbours that the upper one, which is taken though it
is not the nearest one, is less than twice as long. -/
def WellBetween (q : ℕ) : Prop :=
  ∀ v w, Neighbours timeBinThresholds v w → v < q → q < w → 2 * q ≤ w ∨ v + w ≤ 2 * q

/-- The length that is taken is the nearest one if and only if the wanted one is well between its neighbours. -/
theorem Chosen.nearest_iff {q l : ℕ} (h : Chosen q l) : Nearest timeBinThresholds q l ↔ WellBetween q := by
  cases h with
  | shortest hl hle hleast =>
      refine iff_of_true (nearest_of_le hl hle hleast) fun v w hvw hvq _ => ?_
      have := hleast v hvw.left_mem
      omega
  | longest hl hle hgreatest =>
      refine iff_of_true (nearest_of_ge hl hle hgreatest) fun v w hvw _ hqw => ?_
      have := hgreatest w hvw.right_mem
      omega
  | between hvw hvq hqw =>
      rename_i v w
      by_cases htwice : 2 * q ≤ w
      · rw [if_pos htwice, hvw.nearest_left_iff hvq.le hqw]
        refine iff_of_true (by omega) fun v' w' hvw' hvq' hqw' => ?_
        obtain ⟨rfl, rfl⟩ := hvw.eq_of_between hvw' hvq hqw hvq' hqw'
        exact .inl htwice
      · rw [if_neg htwice, hvw.nearest_right_iff hvq.le hqw]
        constructor
        · intro hmiddle v' w' hvw' hvq' hqw'
          obtain ⟨rfl, rfl⟩ := hvw.eq_of_between hvw' hvq hqw hvq' hqw'
          exact .inr hmiddle
        · intro hwell
          rcases hqw.eq_or_lt with rfl | hlt
          · omega
          · exact (hwell v w hvw hvq hlt).resolve_left htwice

/-- Of two lengths that are both nearest the longer one is taken. -/
theorem Chosen.greatest {q l x : ℕ} (h : Chosen q l) (hl : Nearest timeBinThresholds q l)
    (hx : Nearest timeBinThresholds q x) : x ≤ l := by
  cases h with
  | shortest hmem hle hleast =>
      have := hx.2 l hmem
      have := hleast x hx.1
      simp only [Nat.dist] at *
      omega
  | longest hmem hle hgreatest => exact hgreatest x hx.1
  | between hvw hvq hqw =>
      rename_i v w
      have hlt := hvw.lt
      by_cases htwice : 2 * q ≤ w
      · rw [if_pos htwice] at hl ⊢
        rcases hvw.eq_or_eq_of_nearest hvq.le hqw hx with rfl | rfl
        · exact le_rfl
        · have hpos := thresholds_pos v hvw.left_mem
          have := (hvw.nearest_right_iff hvq.le hqw).mp hx
          omega
      · rw [if_neg htwice] at hl ⊢
        rcases hvw.eq_or_eq_of_nearest hvq.le hqw hx with rfl | rfl
        · exact hlt.le
        · exact le_rfl

theorem Chosen.mem {q l : ℕ} (h : Chosen q l) : l ∈ timeBinThresholds := by
  cases h with
  | shortest hl _ _ => exact hl
  | longest hl _ _ => exact hl
  | between hvw _ _ =>
      split_ifs
      · exact hvw.left_mem
      · exact hvw.right_mem

/-- How far the ratio of a length to the wanted one is from one -/
def ratioGap (l req : ℕ) : ℚ := |(l : ℚ) / req - 1|

theorem ratioGap_eq {l req : ℕ} (hpos : 0 < req) : ratioGap l req = (Nat.dist l req : ℚ) / req := by
  have hreq : (0 : ℚ) < req := Nat.cast_pos.mpr hpos
  have hsub : (l : ℚ) / req - 1 = (l - req) / req := by
    rw [sub_div, div_self hreq.ne']
  rw [ratioGap, hsub, abs_div, abs_of_pos hreq]
  congr 1
  rcases le_total l req with hle | hle
  · rw [Nat.dist_eq_sub_of_le hle, Nat.cast_sub hle, abs_of_nonpos (sub_nonpos.mpr (Nat.cast_le.mpr hle)), neg_sub]
  · rw [Nat.dist_eq_sub_of_le_right hle, Nat.cast_sub hle, abs_of_nonneg (sub_nonneg.mpr (Nat.cast_le.mpr hle))]

/-- The range has whole bins of a supported length whose ratio to the wanted one, in milliseconds, is closest to one; it
contains the wanted range, and its first and its last bin overlap the wanted range. -/
structure Fits (range : NanoRange) (binLenReq : ℕ) (r : BinnedRange) : Prop where
  supported : r.binLen ∈ timeBinThresholds
  closest : ∀ x ∈ timeBinThresholds, ratioGap r.binLen (1000000 * binLenReq) ≤ ratioGap x (1000000 * binLenReq)
  contains : r.nanoBeg ≤ range.beg ∧ range.fin ≤ r.nanoEnd
  overlaps : range.beg < r.nanoBeg + r.binLen ∧ r.nanoEnd < range.fin + r.binLen

/-- The ratio of the length that is taken is closest to one if and only if it is the nearest one. -/
theorem Chosen.closest_iff {q l : ℕ} (h : Chosen q l) :
    (∀ x ∈ timeBinThresholds, ratioGap l q ≤ ratioGap x q) ↔ Nearest timeBinThresholds q l := by
  rcases Nat.eq_zero_or_pos q with rfl | hpos
  · have hwell : WellBetween 0 := fun v w _ hv _ => absurd hv (Nat.not_lt_zero v)
    exact iff_of_true (fun x _ => by simp [ratioGap]) (h.nearest_iff.mpr hwell)
  · have hq : (0 : ℚ) < q := Nat.cast_pos.mpr hpos
    rw [Nearest, and_iff_right h.mem]
    simp only [ratioGap_eq hpos, div_le_div_iff_of_pos_right hq, Nat.cast_le]

/-- The range fits if and only if the wanted length is well between its neighbours, the end of the wanted range leaves
room for one more bin below 2^64, and it is not so far before the begin that there is no bin at all. -/
theorem fits_iff (range : NanoRange) (binLenReq : ℕ) :
    (∃ r, coveringRangeTime range binLenReq = some r ∧ Fits range binLenReq r) ↔
      WellBetween (1000000 * binLenReq) ∧
        ∀ l, Nearest timeBinThresholds (1000000 * binLenReq) l →
          (∀ x, Nearest timeBinThresholds (1000000 * binLenReq) x → x ≤ l) →
            range.fin + l < 2 ^ 64 ∧ range.beg / l ≤ (range.fin + l - 1) / l := by
  obtain ⟨ms, hms, hchosen⟩ := fittingBinLen_chosen binLenReq
  have hns : dtNs ms = some (1000000 * ms) := by
    apply checkedMul_of_lt
    have : ∀ x ∈ timeBinThresholds, x < 2 ^ 64 := by decide
    exact this _ hchosen.mem
  have hrange : coveringRangeTime range binLenReq = alignedBins range.beg range.fin (1000000 * ms) := by
    rw [coveringRangeTime, hms]
    simp only [Option.bind_eq_bind, Option.bind_some, hns]
  rw [hrange, ← hchosen.nearest_iff]
  generalize 1000000 * ms = l at hchosen
  constructor
  · rintro ⟨r, hbins, hfits⟩
    obtain ⟨hlen, -⟩ := alignedBins_spec hbins
    have hnearest := hchosen.closest_iff.mp (hlen ▸ hfits.closest)
    refine ⟨hnearest, fun x hx hgreatest => ?_⟩
    obtain rfl : x = l := le_antisymm (hchosen.greatest hnearest hx) (hgreatest l hnearest)
    exact (alignedBins_eq_some.mp hbins).1.2
  · rintro ⟨hnearest, hroom⟩
    have hbins := alignedBins_eq_some.mpr ⟨⟨(thresholds_pos l hchosen.mem).ne',
      hroom l hnearest fun x hx => hchosen.greatest hnearest hx⟩, rfl⟩
    obtain ⟨hlen, hbeg, hbeg', hend, hend'⟩ := alignedBins_spec hbins
    exact ⟨_, hbins, hlen.symm ▸ hchosen.mem, hlen.symm ▸ hchosen.closest_iff.mpr hnearest, ⟨hbeg, hend⟩,
      hlen.symm ▸ ⟨hbeg', hend'⟩⟩

/-- For bins of 1.1 s in an hour the bins of 2 s are taken, though one second is nearer. -/
theorem not_fits_1100 :
    ¬ ∃ r, coveringRangeTime ⟨0, Timeunits.hour⟩ 1100 = some r ∧ Fits ⟨0, Timeunits.hour⟩ 1100 r := by
  rintro ⟨r, hr, hfits⟩
  have hrange : coveringRangeTime ⟨0, Timeunits.hour⟩ 1100 = some ⟨2000000000, 0, 1800⟩ := by decide
  obtain rfl := Option.some.inj (hrange.symm.trans hr)
  have hgap := hfits.closest 1000000000 (by decide)
  norm_num [ratioGap, abs_of_nonneg, abs_of_nonpos] at hgap

end Netpod
end Daqbuf
