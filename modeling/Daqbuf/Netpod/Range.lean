import Mathlib
/-!
# Times and Ranges

Half-open time ranges, and ranges made of grid-aligned bins.  Timestamps ({lit}`TsNano`) and durations
({lit}`DtNano`) are natural numbers of nanoseconds throughout.

Main results:

- Theorem {lit}`BinnedRange.nanoBeg_le_nanoEnd`: a binned range is not inverted.
- Theorem {lit}`BinnedRange.nanoEnd_eq`: it spans its bin count times its bin length.
-/

namespace Daqbuf
namespace Netpod

/-- {lit}`NanoRange`, the half-open interval from {lit}`beg` up to {lit}`fin`, which the source
calls {lit}`end`. -/
structure NanoRange where
  beg : ℕ
  fin : ℕ
  deriving DecidableEq, Repr

/-- {lit}`BinnedRange<TsNano>`: {lit}`binCnt` bins of length {lit}`binLen`, of which the first has
index {lit}`binOff` on the grid that begins at zero. -/
structure BinnedRange where
  binLen : ℕ
  binOff : ℕ
  binCnt : ℕ
  deriving DecidableEq, Repr

namespace BinnedRange

/-- {lit}`nano_beg` -/
def nanoBeg (r : BinnedRange) : ℕ := r.binLen * r.binOff

/-- {lit}`nano_end` -/
def nanoEnd (r : BinnedRange) : ℕ := r.binLen * (r.binOff + r.binCnt)

/-- {lit}`to_nano_range` -/
def toNanoRange (r : BinnedRange) : NanoRange where
  beg := r.binLen * r.binOff
  fin := r.binLen * (r.binOff + r.binCnt)

/-- {lit}`from_nano_range`: the bins that cover the given range. -/
def fromNanoRange (range : NanoRange) (binLen : ℕ) : BinnedRange :=
  let off1 := range.beg / binLen
  let off2 := (binLen - 1 + range.fin) / binLen
  { binLen := binLen, binOff := off1, binCnt := off2 - off1 }

/-- {lit}`from_beg_to_inf`: the bins from the given time on, up to forty days before the last time there is. -/
def fromBegToInf (beg binLen : ℕ) : BinnedRange :=
  let margin := 1000 * 1000 * 1000 * 60 * 60 * 24 * 40
  let fin := (2 ^ 64 - 1 - margin) / binLen * binLen
  fromNanoRange ⟨beg, fin⟩ binLen

/-- A binned range is not inverted. -/
theorem nanoBeg_le_nanoEnd (r : BinnedRange) : r.nanoBeg ≤ r.nanoEnd :=
  Nat.mul_le_mul_left _ (Nat.le_add_right _ _)

/-- A binned range spans its bin count times its bin length. -/
theorem nanoEnd_eq (r : BinnedRange) : r.nanoEnd = r.nanoBeg + r.binLen * r.binCnt :=
  Nat.mul_add _ _ _

end BinnedRange

end Netpod
end Daqbuf
