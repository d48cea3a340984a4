import Mathlib
/-!
# Times

Times are {lit}`u64` numbers of nanoseconds or of milliseconds.  Their differences wrap around, as they do in a release
build.

Main results:

- Theorem {lit}`delta_of_le`: on times in order the difference is exact.
- Theorem {lit}`add_delta`: a difference that wraps around leads to no time.
-/

namespace Daqbuf
namespace Netpod

/-! ## Times -/

namespace Timeunits

/-- {lit}`MU` -/
def mu : ℕ := 1000

/-- {lit}`MS` -/
def ms : ℕ := mu * 1000

/-- {lit}`SEC` -/
def sec : ℕ := ms * 1000

/-- {lit}`MIN` -/
def min : ℕ := sec * 60

/-- {lit}`HOUR` -/
def hour : ℕ := min * 60

/-- {lit}`DAY` -/
def day : ℕ := hour * 24

end Timeunits

/-- {lit}`TsNano::to_ts_ms` -/
def toTsMs (ts : ℕ) : ℕ := ts / 1000000

/-- {lit}`TsMs::ns` -/
def nsOfMs (ms : ℕ) : ℕ := 1000000 * ms

/-- {lit}`TsNano::delta` and {lit}`TsNano::sub` -/
def delta (ts v : ℕ) : ℕ := if v ≤ ts then ts - v else ts + 2 ^ 64 - v

theorem delta_of_le {ts v : ℕ} (hle : v ≤ ts) : delta ts v = ts - v := if_pos hle

/-- A difference that wraps around leads to no time at all. -/
theorem add_delta (ts v : ℕ) : v + delta ts v = ts ∨ 2 ^ 64 ≤ v + delta ts v := by
  unfold delta
  split_ifs
  · exact .inl (by omega)
  · exact .inr (by omega)

/-! ## Retention times -/

/-- {lit}`RetentionTime` -/
inductive RetentionTime where
  | short
  | medium
  | long
  deriving DecidableEq, Repr

namespace RetentionTime

/-- {lit}`ttl_ts_msp`, in seconds -/
def ttlTsMsp : RetentionTime → ℕ
  | short => 60 * 60 * 24 * 7
  | medium => 60 * 60 * 24 * 31 * 13
  | long => 60 * 60 * 24 * 31 * 12 * 17

/-- {lit}`msp_rollover_ivl`, in seconds -/
def mspRolloverIvl : RetentionTime → ℕ
  | short => 60 * 60 * 24 / 8
  | medium => 60 * 60 * 24 * 4
  | long => 60 * 60 * 24 * 30

/-- The whole seconds of {lit}`msp_rollover_ivl_on_read` -/
def mspRolloverIvlOnRead (rt : RetentionTime) : ℕ := rt.ttlTsMsp / 19

end RetentionTime
end Netpod
end Daqbuf
