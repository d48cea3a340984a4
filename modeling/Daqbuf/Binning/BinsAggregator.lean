import Daqbuf.Binning.Bins
/-!
# The Aggregators of Bin Values

An aggregator makes the value of a bin out of the values of shorter bins.  It adds up the values, each
weighted by its part of the bin, and in the end makes up for the part that was not filled.

Numbers are exact.  A division by zero is kept apart from the NaN that the aggregator gives on purpose.

Main results:

- Theorem {lit}`AggBinValTwNumeric.weightedMean_iff`: the result is the weighted mean exactly when the filled
  time is a millisecond or more, and its milliseconds stand for it as those of the bin do for the bin.
- Theorem {lit}`AggBinValTwNumeric.not_weightedMean`: a second and a half millisecond of ones come to more than one.
-/

namespace Daqbuf
namespace Binning

/-! ## Numbers -/

/-- A floating-point number, as far as it is exact. -/
inductive Num where
  | rat (q : ℚ)
  | nan
  | divByZero
  deriving DecidableEq, Repr

namespace Num

/-- The division of the source -/
def div (a b : ℚ) : Num := if b = 0 then .divByZero else .rat (a / b)

/-- Goes on with an exact number. -/
def bind (x : Num) (f : ℚ → Num) : Num :=
  match x with
  | .rat q => f q
  | .nan => .nan
  | .divByZero => .divByZero

@[simp]
theorem bind_rat (q : ℚ) (f : ℚ → Num) : (rat q).bind f = f q := rfl

@[simp]
theorem bind_divByZero (f : ℚ → Num) : divByZero.bind f = .divByZero := rfl

theorem div_of_ne {a b : ℚ} (hb : b ≠ 0) : div a b = .rat (a / b) := if_neg hb

end Num

/-! ## The aggregators -/

/-- What {lit}`AggBinValTwF32` and {lit}`AggBinValTwF64` hold. -/
structure AggBinValTwNumeric where
  binlen : ℕ
  filled : ℕ
  sum : Num
  deriving DecidableEq, Repr

namespace AggBinValTwNumeric

/-- {lit}`new` -/
def new (binlen : ℕ) : AggBinValTwNumeric := ⟨binlen, 0, .rat 0⟩

/-- {lit}`ingest` -/
def ingest (h : AggBinValTwNumeric) (dt : ℕ) (val : Num) : AggBinValTwNumeric :=
  { h with
    filled := add h.filled dt
    sum := (Num.div dt h.binlen).bind fun f => h.sum.bind fun sum => val.bind fun val => .rat (sum + f * val) }

/-- {lit}`result` -/
def result (h : AggBinValTwNumeric) : Num :=
  if h.filled = 0 then .nan
  else (Num.div (h.binlen / 1000000 : ℕ) (h.filled / 1000000 : ℕ)).bind fun f => h.sum.bind fun sum => .rat (sum * f)

/-- {lit}`reset_for_new_bin` -/
def resetForNewBin (h : AggBinValTwNumeric) : AggBinValTwNumeric := { h with filled := 0, sum := .rat 0 }

instance : AggBinValTw AggBinValTwNumeric Num where
  new := new
  ingest := ingest
  result := result
  resetForNewBin := resetForNewBin

end AggBinValTwNumeric

/-- {lit}`AggBinValTwF32` -/
abbrev AggBinValTwF32 := AggBinValTwNumeric

/-- {lit}`AggBinValTwF64` -/
abbrev AggBinValTwF64 := AggBinValTwNumeric

/-! ## The weighted mean -/

namespace AggBinValTwNumeric

/-- The aggregator after some bins, of which each has a duration and a value. -/
def ingestAll (h : AggBinValTwNumeric) (bins : List (ℕ × ℚ)) : AggBinValTwNumeric :=
  bins.foldl (fun h x => h.ingest x.1 (.rat x.2)) h

/-- The time that the bins fill -/
def total (bins : List (ℕ × ℚ)) : ℕ := (bins.map Prod.fst).sum

/-- The values of the bins, each times its duration -/
def weight (bins : List (ℕ × ℚ)) : ℚ := (bins.map fun x => (x.1 : ℚ) * x.2).sum

/-- The weighted mean of the values, which is not a number where there is no bin. -/
def weightedMean (bins : List (ℕ × ℚ)) : Num :=
  if bins = [] then .nan else .rat (weight bins / total bins)

theorem total_cons (x : ℕ × ℚ) (bins : List (ℕ × ℚ)) : total (x :: bins) = x.1 + total bins := rfl

theorem weight_cons (x : ℕ × ℚ) (bins : List (ℕ × ℚ)) :
    weight (x :: bins) = (x.1 : ℚ) * x.2 + weight bins := rfl

/-- Bins of positive durations fill some time. -/
theorem total_pos {bins : List (ℕ × ℚ)} (hpos : ∀ x ∈ bins, 0 < x.1) (hne : bins ≠ []) : 0 < total bins := by
  cases bins with
  | nil => exact absurd rfl hne
  | cons x bins =>
      have hx := hpos x List.mem_cons_self
      rw [total_cons]
      omega

theorem binlen_ingestAll (h : AggBinValTwNumeric) (bins : List (ℕ × ℚ)) :
    (h.ingestAll bins).binlen = h.binlen := by
  induction bins generalizing h with
  | nil => rfl
  | cons x bins ih => exact (ih _).trans rfl

/-- The filled time adds up. -/
theorem filled_ingestAll (h : AggBinValTwNumeric) {bins : List (ℕ × ℚ)}
    (hlt : h.filled + total bins < u64Size) : (h.ingestAll bins).filled = h.filled + total bins := by
  induction bins generalizing h with
  | nil => rfl
  | cons x bins ih =>
      rw [total_cons] at hlt ⊢
      have hadd : (h.ingest x.1 (.rat x.2)).filled = h.filled + x.1 := add_of_lt (by omega)
      have hnext := ih (h.ingest x.1 (.rat x.2)) (by rw [hadd]; omega)
      rw [hadd] at hnext
      exact hnext.trans (Nat.add_assoc _ _ _)

/-- The weighted values add up, in parts of the bin. -/
theorem sum_ingestAll {h : AggBinValTwNumeric} (hlen : h.binlen ≠ 0) {sum : ℚ} (hsum : h.sum = .rat sum)
    (bins : List (ℕ × ℚ)) : (h.ingestAll bins).sum = .rat (sum + weight bins / h.binlen) := by
  induction bins generalizing h sum with
  | nil => simpa [ingestAll, weight] using hsum
  | cons x bins ih =>
      have hlen' : (h.binlen : ℚ) ≠ 0 := Nat.cast_ne_zero.mpr hlen
      have hstep : (h.ingest x.1 (.rat x.2)).sum = .rat (sum + x.1 / h.binlen * x.2) := by
        simp [ingest, hsum, Num.div_of_ne hlen']
      have hnext : ((h.ingest x.1 (.rat x.2)).ingestAll bins).sum =
          .rat (sum + x.1 / h.binlen * x.2 + weight bins / h.binlen) :=
        ih (h := h.ingest x.1 (.rat x.2)) hlen hstep
      refine hnext.trans (congrArg Num.rat ?_)
      rw [weight_cons]
      ring

/-- Parts of a bin without length are not defined. -/
theorem sum_ingestAll_zero {h : AggBinValTwNumeric} (hlen : h.binlen = 0) {bins : List (ℕ × ℚ)}
    (hne : bins ≠ [] ∨ h.sum = .divByZero) : (h.ingestAll bins).sum = .divByZero := by
  induction bins generalizing h with
  | nil => exact hne.resolve_left (fun h => h rfl)
  | cons x bins ih => exact ih (h := h.ingest x.1 (.rat x.2)) hlen (.inr (by simp [ingest, hlen, Num.div]))

/-- The condition under which the result is the weighted mean: the filled time is at least a millisecond, and
the truncation to milliseconds cancels, or there is nothing to weigh. -/
def Cancels (binlen : ℕ) (bins : List (ℕ × ℚ)) : Prop :=
  bins = [] ∨ (binlen ≠ 0 ∧ 1000000 ≤ total bins ∧
    (weight bins = 0 ∨ binlen / 1000000 * total bins = total bins / 1000000 * binlen))

/-- Two quotients of one weight agree, where their factors do or the weight is zero. -/
theorem div_mul_div_eq_div_iff {w b t p q : ℚ} (hb : b ≠ 0) (ht : t ≠ 0) (hq : q ≠ 0) :
    w / b * (p / q) = w / t ↔ w = 0 ∨ p * t = q * b := by
  rw [div_mul_div_comm, div_eq_div_iff (mul_ne_zero hb hq) ht, mul_assoc, mul_eq_mul_left_iff, mul_comm b q]
  exact or_comm

/-- The result is the weighted mean, without a division by zero, exactly when the truncation to milliseconds
cancels. -/
theorem weightedMean_iff (binlen : ℕ) (bins : List (ℕ × ℚ)) (hpos : ∀ x ∈ bins, 0 < x.1)
    (htotal : total bins < u64Size) :
    ((new binlen).ingestAll bins).result = weightedMean bins ↔ Cancels binlen bins := by
  by_cases hne : bins = []
  · subst hne
    exact iff_of_true rfl (.inl rfl)
  have hfilled : ((new binlen).ingestAll bins).filled = total bins := by
    have hfits : (new binlen).filled + total bins < u64Size := (Nat.zero_add _).trans_lt htotal
    exact (filled_ingestAll (new binlen) hfits).trans (Nat.zero_add _)
  have hlen : ((new binlen).ingestAll bins).binlen = binlen := binlen_ingestAll _ _
  have htotal_pos := total_pos hpos hne
  rw [result, hfilled, hlen, if_neg htotal_pos.ne', weightedMean, if_neg hne]
  by_cases hms : total bins / 1000000 = 0
  · -- less than a millisecond: the source divides by zero
    rw [hms, Num.div, if_pos Nat.cast_zero, Num.bind_divByZero]
    refine iff_of_false nofun ?_
    rintro (h | ⟨-, h, -⟩)
    · exact hne h
    · omega
  · have hms' : ((total bins / 1000000 : ℕ) : ℚ) ≠ 0 := Nat.cast_ne_zero.mpr hms
    rw [Num.div_of_ne hms', Num.bind_rat]
    by_cases hzero : binlen = 0
    · rw [sum_ingestAll_zero (h := new binlen) hzero (.inl hne), Num.bind_divByZero]
      refine iff_of_false nofun ?_
      rintro (h | ⟨h, -⟩)
      · exact hne h
      · exact h hzero
    · have hbinlen : (binlen : ℚ) ≠ 0 := Nat.cast_ne_zero.mpr hzero
      have hfull : (total bins : ℚ) ≠ 0 := Nat.cast_ne_zero.mpr htotal_pos.ne'
      rw [sum_ingestAll (h := new binlen) hzero rfl bins, Num.bind_rat, zero_add, Num.rat.injEq,
        show (new binlen).binlen = binlen from rfl, div_mul_div_eq_div_iff hbinlen hfull hms']
      constructor
      · rintro (h | h)
        · exact .inr ⟨hzero, by omega, .inl h⟩
        · exact .inr ⟨hzero, by omega, .inr (by exact_mod_cast h)⟩
      · rintro (h | ⟨-, -, h | h⟩)
        · exact absurd h hne
        · exact .inl h
        · exact .inr (by exact_mod_cast h)

/-- A bin of two seconds that is filled by a second of two and a second of four. -/
theorem weightedMean_iff_two :
    ((new 2000000000).ingestAll [(1000000000, 2), (1000000000, 4)]).result =
        weightedMean [(1000000000, 2), (1000000000, 4)] ↔
      Cancels 2000000000 [(1000000000, 2), (1000000000, 4)] :=
  weightedMean_iff _ _ (by decide) (by decide)

/-- A second of ones and half a millisecond of ones come to more than one, and half a millisecond alone to a
division by zero. -/
theorem not_weightedMean :
    ((new 2000000000).ingestAll [(1000000000, 1), (500000, 1)]).result ≠
        weightedMean [(1000000000, 1), (500000, 1)] ∧
      ((new 2000000000).ingestAll [(500000, 1)]).result = .divByZero := by
  constructor
  · rw [weightedMean, if_neg (List.cons_ne_nil _ _)]
    norm_num [ingestAll, ingest, new, result, Num.div, add, u64Size, weight, total]
  · norm_num [ingestAll, ingest, new, result, Num.div, add, u64Size]

end AggBinValTwNumeric

end Binning
end Daqbuf
