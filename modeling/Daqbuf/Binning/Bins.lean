import Daqbuf.Items.ContainerEvents
import Daqbuf.Netpod.Time
/-!
# Bins and Aggregators

The values that the binners work on, the bins that they put out, and the aggregators that make the time
weighted average of a bin.

Averages are exact: a rational number, or {lit}`none` for what floating point calls NaN.  Durations are
{lit}`u64` numbers, and their arithmetic wraps around as it does in a release build.

Main results:

- Theorem {lit}`add_of_lt`: the sum of short durations is exact.
-/

namespace Daqbuf
namespace Binning

open Items (EventSingle)

/-! ## Durations -/

/-- The number of values of a {lit}`u64`. -/
def u64Size : ℕ := 2 ^ 64

/-- {lit}`DtNano::add` -/
def add (a b : ℕ) : ℕ := (a + b) % u64Size

theorem add_of_lt {a b : ℕ} (hlt : a + b < u64Size) : add a b = a + b := Nat.mod_eq_of_lt hlt

/-- {lit}`DtNano::fraction_f32_of` -/
def fractionOf (a b : ℕ) : ℚ := a / b

/-! ## Values -/

/-- {lit}`PartialOrdEvtA`: the comparison {lit}`cmp_a`, which has no result on a NaN. -/
class PartialOrdEvtA (V : Type) where
  cmpA : V → V → Option Ordering

instance (priority := low) {V : Type} [LinearOrder V] : PartialOrdEvtA V where
  cmpA a b := some (compare a b)

/-- {lit}`truncate_front` of {lit}`ContainerEvents`, on the events: the last {lit}`len` of them stay. -/
def truncateFront {V : Type} (evs : List (EventSingle V)) (len : ℕ) : List (EventSingle V) :=
  if len < evs.length then evs.drop (evs.length - len) else evs

theorem truncateFront_sub {V : Type} (evs : List (EventSingle V)) (n : ℕ) :
    truncateFront evs (evs.length - n) = evs.drop n := by
  unfold truncateFront
  by_cases hn : n ≤ evs.length
  · split
    · rw [Nat.sub_sub_self hn]
    · have hzero : n = 0 := by omega
      rw [hzero, List.drop_zero]
  · have hlen : evs.length - n = 0 := by omega
    rw [hlen, List.drop_of_length_le (le_of_not_ge hn), Nat.sub_zero, List.drop_length]
    split
    · rfl
    · rename_i hnil
      exact List.length_eq_zero_iff.mp (Nat.eq_zero_of_not_pos hnil)

/-- One entry of {lit}`ContainerBins` -/
structure Bin (V R : Type) where
  ts1 : ℕ
  ts2 : ℕ
  cnt : ℕ
  min : V
  max : V
  agg : R
  lst : V
  fnl : Bool
  deriving DecidableEq, Repr

/-! ## Aggregators -/

/-- {lit}`AggregatorTimeWeight`.  Every aggregator of the source is as new after a reset. -/
class AggregatorTimeWeight (G : Type) (V R : outParam Type) where
  new : G
  ingest : G → ℕ → ℕ → V → G
  resetForNewBin : G → G
  result : G → ℚ → R
  resetForNewBin_eq : ∀ g, resetForNewBin g = new

/-- {lit}`result_and_reset_for_new_bin` -/
def AggregatorTimeWeight.resultAndResetForNewBin {G V R : Type} [AggregatorTimeWeight G V R] (g : G)
    (filledWidthFraction : ℚ) : R × G :=
  (result g filledWidthFraction, resetForNewBin g)

/-- {lit}`AggregatorNumeric` -/
structure AggregatorNumeric where
  sum : ℚ
  deriving DecidableEq, Repr

instance : AggregatorTimeWeight AggregatorNumeric ℚ (Option ℚ) where
  new := ⟨0⟩
  ingest g dt bl val := ⟨g.sum + dt / bl * val⟩
  resetForNewBin _ := ⟨0⟩
  result g filledWidthFraction :=
    if filledWidthFraction = 0 then none else some (g.sum / filledWidthFraction)
  resetForNewBin_eq _ := rfl

/-- {lit}`AggBinValTw` -/
class AggBinValTw (H : Type) (R : outParam Type) where
  new : ℕ → H
  ingest : H → ℕ → R → H
  result : H → R
  resetForNewBin : H → H

end Binning
end Daqbuf
