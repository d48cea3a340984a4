import Daqbuf.Arith.Checked
import Daqbuf.Netpod.Time
/-!
# Offset Encoding of Timestamps and Pulses

For clients that read JSON, the columns of timestamps and of pulses are written as an anchor and the offsets from it.
A timestamp has an offset in milliseconds, and another one for the nanoseconds that are left.

Subtractions are checked: a difference that would be negative is no result.

Main results:

- Theorem {lit}`tsOffsFromAbsWithAnchor_eq`: from an anchor that is not later than any timestamp all offsets exist.
- Theorem {lit}`pulseOffsFromAbs_eq_none`: a pulse below the anchor has no offset.
- Theorem {lit}`lossless_iff`: the columns can be restored if and only if no pulse is below its anchor.
-/

namespace Daqbuf
namespace Items

open Arith
open Netpod

/-- {lit}`ts_offs_from_abs_with_anchor` -/
def tsOffsFromAbsWithAnchor (tsAnchorSec : ℕ) (tss : List UInt64) : Option (List ℕ × List ℕ) := do
  let tsAnchorNs ← checkedMul 64 tsAnchorSec Timeunits.sec
  let tsOffMs ← tss.mapM fun k => (checkedSub k.toNat tsAnchorNs).map (· / Timeunits.ms)
  let tsOffNs ← (tss.zip tsOffMs).mapM fun x => do
    let k ← checkedMul 64 x.2 Timeunits.ms
    let d ← checkedSub x.1.toNat tsAnchorNs
    checkedSub d k
  return (tsOffMs, tsOffNs)

/-- {lit}`ts_offs_from_abs` -/
def tsOffsFromAbs (tss : List UInt64) : Option (ℕ × List ℕ × List ℕ) := do
  let tsAnchorSec := (tss.head?.getD 0).toNat / Timeunits.sec
  let (tsOffMs, tsOffNs) ← tsOffsFromAbsWithAnchor tsAnchorSec tss
  return (tsAnchorSec, tsOffMs, tsOffNs)

/-- The anchor of a column of pulses -/
def pulseAnchor (pulses : List UInt64) : ℕ := (pulses.head?.getD 0).toNat / 10000 * 10000

/-- {lit}`pulse_offs_from_abs` -/
def pulseOffsFromAbs (pulses : List UInt64) : Option (ℕ × List ℕ) := do
  let pulseOff ← pulses.mapM fun k => checkedSub k.toNat (pulseAnchor pulses)
  return (pulseAnchor pulses, pulseOff)

/-- The columns of {lit}`ContainerEventsApi<PulsedVal<EVT>>`; the one with the values is not encoded. -/
structure PulsedColumns where
  tss : List UInt64
  pulses : List UInt64
  deriving DecidableEq, Repr

/-- The fields with the anchors and offsets that {lit}`into_fields` writes -/
structure OffsetFields where
  tsAnchor : ℕ
  tsMs : List ℕ
  tsNs : List ℕ
  pulseAnchor : ℕ
  pulseOff : List ℕ
  deriving DecidableEq, Repr

/-- {lit}`into_fields` of {lit}`ToJsonValue`, for these fields -/
def PulsedColumns.intoFields (c : PulsedColumns) : Option OffsetFields := do
  let (pulsesAnch, pulsesOffs) ← pulseOffsFromAbs c.pulses
  let (tsAnch, tsMs, tsNs) ← tsOffsFromAbs c.tss
  return ⟨tsAnch, tsMs, tsNs, pulsesAnch, pulsesOffs⟩

/-! ## Restoring the columns -/

/-- The timestamps that the anchor and the offsets stand for -/
def OffsetFields.tss (f : OffsetFields) : List ℕ :=
  List.zipWith (fun ms ns => f.tsAnchor * Timeunits.sec + ms * Timeunits.ms + ns) f.tsMs f.tsNs

/-- The pulses that the anchor and the offsets stand for -/
def OffsetFields.pulses (f : OffsetFields) : List ℕ := f.pulseOff.map (f.pulseAnchor + ·)

/-- No subtraction underflows, and the columns can be restored. -/
def PulsedColumns.Lossless (c : PulsedColumns) : Prop :=
  ∃ f, c.intoFields = some f ∧ f.tss = c.tss.map (·.toNat) ∧ f.pulses = c.pulses.map (·.toNat)

section Timestamps

variable {tsAnchorSec : ℕ} {tss pulses : List UInt64}

/-- What is left of a difference beside its whole units -/
private theorem rest_eq {ts anchor unit : ℕ} (hle : anchor ≤ ts) (hlt : ts < 2 ^ 64) :
    ((checkedMul 64 ((ts - anchor) / unit) unit).bind fun k =>
      (checkedSub ts anchor).bind fun d => checkedSub d k) = some ((ts - anchor) % unit) := by
  have hmul : (ts - anchor) / unit * unit ≤ ts - anchor := Nat.div_mul_le_self _ _
  rw [checkedMul_of_lt (by omega), Option.bind_some, checkedSub_of_le hle, Option.bind_some, checkedSub_of_le hmul,
    Nat.mod_eq_sub_div_mul]

/-- From an anchor that is not later than any timestamp all offsets exist. -/
theorem tsOffsFromAbsWithAnchor_eq (hanchor : tsAnchorSec * Timeunits.sec < 2 ^ 64)
    (hle : ∀ ts ∈ tss, tsAnchorSec * Timeunits.sec ≤ ts.toNat) :
    tsOffsFromAbsWithAnchor tsAnchorSec tss =
      some (tss.map fun ts => (ts.toNat - tsAnchorSec * Timeunits.sec) / Timeunits.ms,
        tss.map fun ts => (ts.toNat - tsAnchorSec * Timeunits.sec) % Timeunits.ms) := by
  unfold tsOffsFromAbsWithAnchor
  rw [checkedMul_of_lt hanchor]
  generalize tsAnchorSec * Timeunits.sec = anchor at hle
  have hms : tss.mapM (fun k => (checkedSub k.toNat anchor).map (· / Timeunits.ms)) =
      some (tss.map fun ts => (ts.toNat - anchor) / Timeunits.ms) := by
    apply mapM_of_forall
    intro ts hts
    rw [checkedSub_of_le (hle ts hts)]
    rfl
  have hns : (tss.zip (tss.map fun ts => (ts.toNat - anchor) / Timeunits.ms)).mapM
        (fun x => (checkedMul 64 x.2 Timeunits.ms).bind fun k =>
          (checkedSub x.1.toNat anchor).bind fun d => checkedSub d k) =
      some (tss.map fun ts => (ts.toNat - anchor) % Timeunits.ms) := by
    rw [← List.map_prod_left_eq_zip, mapM_eq_some_iff, List.forall₂_map_left_iff, List.forall₂_map_right_iff,
      List.forall₂_same]
    intro ts hts
    exact rest_eq (hle ts hts) ts.toNat_lt
  simp only [Option.bind_eq_bind, Option.bind_some, hms]
  rw [hns]
  rfl

/-- In a column in order, the second of the first timestamp is not later than any timestamp. -/
theorem anchor_le_of_sorted (hsorted : tss.Pairwise (· ≤ ·)) {ts : UInt64} (hts : ts ∈ tss) :
    (tss.head?.getD 0).toNat / Timeunits.sec * Timeunits.sec ≤ ts.toNat := by
  cases tss with
  | nil => cases hts
  | cons first rest =>
      have hfirst : first.toNat ≤ ts.toNat := by
        rcases List.mem_cons.mp hts with rfl | hrest
        · exact le_rfl
        · exact UInt64.le_iff_toNat_le.mp ((List.pairwise_cons.mp hsorted).1 ts hrest)
      exact (Nat.div_mul_le_self _ _).trans hfirst

/-- Timestamps in order have offsets. -/
theorem tsOffsFromAbs_eq (hsorted : tss.Pairwise (· ≤ ·)) :
    let anchor := (tss.head?.getD 0).toNat / Timeunits.sec
    tsOffsFromAbs tss =
      some (anchor, tss.map fun ts => (ts.toNat - anchor * Timeunits.sec) / Timeunits.ms,
        tss.map fun ts => (ts.toNat - anchor * Timeunits.sec) % Timeunits.ms) := by
  have hlt := (tss.head?.getD 0).toNat_lt
  have hle := Nat.div_mul_le_self (tss.head?.getD 0).toNat Timeunits.sec
  unfold tsOffsFromAbs
  simp only
  rw [tsOffsFromAbsWithAnchor_eq (by omega) fun ts hts => anchor_le_of_sorted hsorted hts]
  rfl

/-- Pulses at or above the anchor have offsets. -/
theorem pulseOffsFromAbs_eq (hle : ∀ p ∈ pulses, pulseAnchor pulses ≤ p.toNat) :
    pulseOffsFromAbs pulses =
      some (pulseAnchor pulses, pulses.map fun p => p.toNat - pulseAnchor pulses) := by
  unfold pulseOffsFromAbs
  rw [mapM_of_forall fun p hp => checkedSub_of_le (hle p hp)]
  rfl

/-- A pulse below the anchor has no offset. -/
theorem pulseOffsFromAbs_eq_none {p : UInt64} (hp : p ∈ pulses) (hlt : p.toNat < pulseAnchor pulses) :
    pulseOffsFromAbs pulses = none := by
  unfold pulseOffsFromAbs
  rw [mapM_eq_none hp (checkedSub_of_lt hlt)]
  rfl

end Timestamps

/-- The columns can be restored if and only if no pulse is below the first one, cut to a multiple of 10000. -/
theorem PulsedColumns.lossless_iff (c : PulsedColumns) (hsorted : c.tss.Pairwise (· ≤ ·)) :
    c.Lossless ↔ ∀ p ∈ c.pulses, (c.pulses.head?.getD 0).toNat / 10000 * 10000 ≤ p.toNat := by
  constructor
  · rintro ⟨f, hf, -, -⟩ p hp
    by_contra hlt
    rw [intoFields, pulseOffsFromAbs_eq_none hp (not_le.mp hlt)] at hf
    cases hf
  · intro hle
    have hfields := tsOffsFromAbs_eq hsorted
    have hpulses := pulseOffsFromAbs_eq hle
    simp only at hfields
    refine ⟨_, by rw [intoFields, hpulses, hfields]; rfl, ?_, ?_⟩
    · unfold OffsetFields.tss
      rw [List.zipWith_map, List.zipWith_self]
      apply List.map_congr_left
      intro ts hts
      have hle := anchor_le_of_sorted hsorted hts
      have hsplit := Nat.div_add_mod' (ts.toNat - (c.tss.head?.getD 0).toNat / Timeunits.sec * Timeunits.sec) Timeunits.ms
      simp only
      omega
    · unfold OffsetFields.pulses
      rw [List.map_map]
      apply List.map_congr_left
      intro p hp
      exact Nat.add_sub_cancel' (hle p hp)

/-- Two events of one second whose pulses are in order -/
theorem PulsedColumns.lossless_iff_two :
    (⟨[1500000000, 1500000001], [12345, 12346]⟩ : PulsedColumns).Lossless :=
  ((⟨[1500000000, 1500000001], [12345, 12346]⟩ : PulsedColumns).lossless_iff (by decide)).mpr (by simp)

/-- The second pulse is below the anchor. -/
theorem PulsedColumns.not_lossless_below_anchor :
    ¬ (⟨[1500000000, 1500000001], [20000, 19999]⟩ : PulsedColumns).Lossless := by
  rintro ⟨f, hf, -, -⟩
  have hpulse : pulseOffsFromAbs [20000, 19999] = none :=
    pulseOffsFromAbs_eq_none (p := 19999) (by decide) (by simp [pulseAnchor])
  rw [intoFields, hpulse] at hf
  cases hf

end Items
end Daqbuf
