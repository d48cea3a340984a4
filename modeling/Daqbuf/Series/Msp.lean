import Mathlib
/-!
# Partitions of Stored Bins

Bins of one of six supported lengths are stored in partitions of a fixed number of consecutive bins.  A bin is found
under the index of its partition, the {lit}`msp`, and its offset inside the partition, the {lit}`lsp`.

Main results:

- Theorem {lit}`storedKey_eq`: the key of a bin is the quotient and the remainder of its index by the partition length.
- Theorem {lit}`mspLsp_eq`: the key of a time, also where the first part of it is cut.
- Theorem {lit}`agrees`: splitting a time, putting it together and advancing to the next bin agree.
-/

namespace Daqbuf
namespace Series

/-- The number as a signed number of {lit}`w` bits -/
def asSigned (w x : ℕ) : ℤ := if x % 2 ^ w < 2 ^ (w - 1) then (x % 2 ^ w : ℕ) else (x % 2 ^ w : ℕ) - 2 ^ w

theorem asSigned_of_lt {w x : ℕ} (h : x < 2 ^ (w - 1)) : asSigned w x = x := by
  have hlt : x < 2 ^ w := h.trans_le (Nat.pow_le_pow_right (by omega) (Nat.sub_le w 1))
  rw [asSigned, Nat.mod_eq_of_lt hlt, if_pos h]

/-- {lit}`PrebinnedPartitioning` -/
inductive PrebinnedPartitioning where
  | sec1
  | sec10
  | min1
  | min10
  | hour1
  | day1
  deriving DecidableEq, Repr

namespace PrebinnedPartitioning

/-- {lit}`try_from`, from a length in milliseconds -/
def tryFrom (value : ℕ) : Option PrebinnedPartitioning :=
  if value = 1000 then some sec1
  else if value = 1000 * 10 then some sec10
  else if value = 1000 * 60 then some min1
  else if value = 1000 * 60 * 10 then some min10
  else if value = 1000 * 60 * 60 then some hour1
  else if value = 1000 * 60 * 60 * 24 then some day1
  else none

/-- {lit}`bin_len`, in milliseconds -/
def binLen : PrebinnedPartitioning → ℕ
  | sec1 => 1000 * 1
  | sec10 => 1000 * 10
  | min1 => 1000 * 60 * 1
  | min10 => 1000 * 60 * 10
  | hour1 => 1000 * 60 * 60 * 1
  | day1 => 1000 * 60 * 60 * 24

/-- {lit}`patch_len` -/
def patchLen : PrebinnedPartitioning → ℕ
  | sec1 => 1200
  | sec10 => 720
  | min1 => 720
  | min10 => 1008
  | hour1 => 960
  | day1 => 800

/-- {lit}`patch_dt`, in milliseconds -/
def patchDt (p : PrebinnedPartitioning) : ℕ := p.binLen * p.patchLen

/-- {lit}`msp_lsp`, of a time in milliseconds; both are cut to 32 bits. -/
def mspLsp (p : PrebinnedPartitioning) (valms : ℕ) : ℕ × ℕ :=
  let div1ms := p.patchDt
  let div2ms := p.binLen
  let qu1 := valms / div1ms
  let re1 := valms % div1ms
  let qu2 := re1 / div2ms
  (qu1 % 2 ^ 32, qu2 % 2 ^ 32)

/-- {lit}`uses_index_min10` -/
def usesIndexMin10 : PrebinnedPartitioning → Bool
  | sec1 => true
  | sec10 => true
  | min1 => true
  | min10 => false
  | hour1 => false
  | day1 => false

/-- {lit}`db_ix` -/
def dbIx : PrebinnedPartitioning → ℕ
  | sec1 => 1
  | sec10 => 2
  | min1 => 3
  | min10 => 4
  | hour1 => 5
  | day1 => 6

/-- {lit}`msp_lsp_to_ts`, in milliseconds -/
def mspLspToTs (p : PrebinnedPartitioning) (msp lsp : ℕ) : ℕ :=
  let n := (p.patchLen * msp % 2 ^ 64 + lsp) % 2 ^ 64
  p.binLen * n % 2 ^ 64

/-- {lit}`lsp_inc`; sums of 32 bits wrap around in the build for deployment. -/
def lspInc (p : PrebinnedPartitioning) (msp lsp : ℕ) : ℕ × ℕ :=
  let l2 := (lsp + 1) % 2 ^ 32
  if p.patchLen ≤ l2 then ((msp + 1) % 2 ^ 32, 0) else (msp, l2)

/-- The columns {lit}`msp` and {lit}`off` under which {lit}`handle_output_ready` of {lit}`BinWriter` stores the bin
that begins at a time in nanoseconds -/
def storedKey (p : PrebinnedPartitioning) (ts1 : ℕ) : ℤ × ℤ :=
  let (msp, lsp) := p.mspLsp (ts1 / 1000000)
  (asSigned 32 msp, asSigned 32 lsp)

variable (p : PrebinnedPartitioning)

theorem tryFrom_binLen : tryFrom p.binLen = some p := by
  cases p <;> decide

theorem binLen_pos : 1000 ≤ p.binLen := by
  cases p <;> decide

theorem patchLen_pos : 0 < p.patchLen := by
  cases p <;> decide

theorem patchLen_lt : p.patchLen < 2 ^ 31 := by
  cases p <;> decide

theorem binLen_lt : p.binLen * 1000000 < 2 ^ 64 := by
  cases p <;> decide

theorem patchDt_lt : p.patchDt * 1000000 < 2 ^ 64 := by
  cases p <;> decide

/-- The key of a bin is the quotient and the remainder of its index by the partition length. -/
theorem storedKey_eq {k : ℕ} (hk : p.binLen * 1000000 * k < 2 ^ 64) :
    p.storedKey (p.binLen * 1000000 * k) = (((k / p.patchLen : ℕ) : ℤ), ((k % p.patchLen : ℕ) : ℤ)) := by
  have hbin := p.binLen_pos
  have hpatch := p.patchLen_pos
  have hms : p.binLen * 1000000 * k / 1000000 = p.binLen * k := by
    rw [mul_right_comm]
    exact Nat.mul_div_cancel _ (by omega)
  have hqu1 : p.binLen * k / p.patchDt = k / p.patchLen := Nat.mul_div_mul_left _ _ (by omega)
  have hre1 : p.binLen * k % p.patchDt / p.binLen = k % p.patchLen := by
    rw [patchDt, Nat.mul_mod_mul_left]
    exact Nat.mul_div_cancel_left _ (by omega)
  have hmsp : k / p.patchLen < 2 ^ 31 := by
    have hmul : 1000 * 1000000 * k ≤ p.binLen * 1000000 * k := Nat.mul_le_mul_right _ (Nat.mul_le_mul_right _ hbin)
    have hlen : 720 ≤ p.patchLen := by
      cases p <;> decide
    have hdiv : k / p.patchLen ≤ k / 720 := Nat.div_le_div_left hlen (by omega)
    omega
  have hlsp : k % p.patchLen < 2 ^ 31 := (Nat.mod_lt _ hpatch).trans p.patchLen_lt
  simp only [storedKey, mspLsp, hms, hqu1, hre1]
  rw [Nat.mod_eq_of_lt (by omega), Nat.mod_eq_of_lt (by omega), asSigned_of_lt hmsp, asSigned_of_lt hlsp]

/-! ## Splitting, putting together and advancing -/

/-- The key of a bin, given its index -/
def keyAt (k : ℕ) : ℕ × ℕ := (k / p.patchLen, k % p.patchLen)

/-- The time has a key: it is a number of 64 bits, and the index of its partition one of 32 bits. -/
def Representable (ts : ℕ) : Prop := ts < 2 ^ 64 ∧ ts / p.patchDt < 2 ^ 32

instance (ts : ℕ) : Decidable (p.Representable ts) := inferInstanceAs (Decidable (_ ∧ _))

theorem patchLen_le : p.patchLen ≤ 1200 := by
  cases p <;> decide

theorem binLen_le : p.binLen ≤ 86400000 := by
  cases p <;> decide

theorem div_patchDt (ts : ℕ) : ts / p.patchDt = ts / p.binLen / p.patchLen := by
  rw [patchDt, Nat.div_div_eq_div_mul]

theorem mod_patchDt_div (ts : ℕ) : ts % p.patchDt / p.binLen = ts / p.binLen % p.patchLen :=
  Nat.mod_mul_right_div_self ts p.binLen p.patchLen

/-- The second part of a key is never cut. -/
theorem mspLsp_eq (ts : ℕ) :
    p.mspLsp ts = (ts / p.binLen / p.patchLen % 2 ^ 32, ts / p.binLen % p.patchLen) := by
  have hlsp : ts / p.binLen % p.patchLen < 2 ^ 32 :=
    (Nat.mod_lt _ p.patchLen_pos).trans_le (p.patchLen_le.trans (by decide))
  simp only [mspLsp, div_patchDt, mod_patchDt_div]
  rw [Nat.mod_eq_of_lt hlsp]

/-- Neither part of the key of a representable time is cut. -/
theorem mspLsp_of_representable {ts : ℕ} (hts : p.Representable ts) : p.mspLsp ts = p.keyAt (ts / p.binLen) := by
  have hmsp := hts.2
  rw [div_patchDt] at hmsp
  rw [mspLsp_eq, Nat.mod_eq_of_lt hmsp, keyAt]

theorem representable_of_lt {ms : ℕ} (hms : ms < 2 ^ 46) : p.Representable ms := by
  have hdt : 1000000 ≤ p.patchDt := by
    cases p <;> decide
  have hdiv : ms / p.patchDt ≤ ms / 1000000 := Nat.div_le_div_left hdt (by decide)
  constructor
  · omega
  · omega

/-- Every time in nanoseconds is representable. -/
theorem representable_of_ns {ns : ℕ} (hns : ns < 2 ^ 64) : p.Representable (ns / 1000000) :=
  p.representable_of_lt (by omega)

/-- Putting a key together gives the beginning of its bin. -/
theorem mspLspToTs_keyAt {k : ℕ} (hk : p.binLen * k < 2 ^ 64) :
    p.mspLspToTs (p.keyAt k).1 (p.keyAt k).2 = p.binLen * k := by
  have hsplit : p.patchLen * (k / p.patchLen) + k % p.patchLen = k := Nat.div_add_mod k p.patchLen
  have hlt : k < 2 ^ 64 := by
    have hle : 1000 * k ≤ p.binLen * k := Nat.mul_le_mul_right k p.binLen_pos
    omega
  have hmsp : p.patchLen * (k / p.patchLen) < 2 ^ 64 := by omega
  simp only [mspLspToTs, keyAt]
  rw [Nat.mod_eq_of_lt hmsp, hsplit, Nat.mod_eq_of_lt hlt, Nat.mod_eq_of_lt hk]

/-- The key of the next bin -/
theorem keyAt_succ (k : ℕ) :
    p.keyAt (k + 1) =
      if p.patchLen ≤ k % p.patchLen + 1 then (k / p.patchLen + 1, 0) else (k / p.patchLen, k % p.patchLen + 1) := by
  rw [keyAt]
  have hpos := p.patchLen_pos
  have hsplit := Nat.mod_add_div k p.patchLen
  have hlt := Nat.mod_lt k hpos
  split_ifs with hlast
  · have hnext : (k + 1) / p.patchLen = k / p.patchLen + 1 ∧ (k + 1) % p.patchLen = 0 := by
      refine (Nat.div_mod_unique hpos).mpr ⟨?_, hpos⟩
      rw [Nat.mul_add]
      omega
    rw [hnext.1, hnext.2]
  · have hnext : (k + 1) / p.patchLen = k / p.patchLen ∧ (k + 1) % p.patchLen = k % p.patchLen + 1 := by
      refine (Nat.div_mod_unique hpos).mpr ⟨?_, by omega⟩
      omega
    rw [hnext.1, hnext.2]

/-- The second part of a key does not wrap around. -/
theorem succ_lsp (k : ℕ) : (k % p.patchLen + 1) % 2 ^ 32 = k % p.patchLen + 1 := by
  have hlt := Nat.mod_lt k p.patchLen_pos
  have hle := p.patchLen_le
  exact Nat.mod_eq_of_lt (by omega)

/-- Advancing a key gives that of the next bin. -/
theorem lspInc_keyAt {k : ℕ} (hk : (k + 1) / p.patchLen < 2 ^ 32) :
    p.lspInc (p.keyAt k).1 (p.keyAt k).2 = p.keyAt (k + 1) := by
  have hnext := p.keyAt_succ k
  rw [keyAt] at hnext
  rw [keyAt, keyAt, lspInc, p.succ_lsp]
  split_ifs at hnext ⊢
  · rw [hnext, ← (Prod.mk.inj hnext).1, Nat.mod_eq_of_lt hk]
  · exact hnext.symm

/-- Advancing a key is adding a bin, also where the first part wraps around. -/
theorem mspLsp_succ (ts : ℕ) : p.mspLsp (ts + p.binLen) = p.lspInc (p.mspLsp ts).1 (p.mspLsp ts).2 := by
  have hbin : (ts + p.binLen) / p.binLen = ts / p.binLen + 1 :=
    Nat.add_div_right ts (Nat.zero_lt_of_lt p.binLen_pos)
  have hnext := p.keyAt_succ (ts / p.binLen)
  rw [keyAt] at hnext
  rw [mspLsp_eq, mspLsp_eq, hbin, lspInc, p.succ_lsp]
  split_ifs at hnext ⊢
  · rw [(Prod.mk.inj hnext).1, (Prod.mk.inj hnext).2, Nat.mod_add_mod]
  · rw [(Prod.mk.inj hnext).1, (Prod.mk.inj hnext).2]

/-- The three functions on keys agree at a time. -/
structure Agrees (ts : ℕ) : Prop where
  recomposed : p.mspLspToTs (p.mspLsp ts).1 (p.mspLsp ts).2 = ts / p.binLen * p.binLen
  lsp_lt : (p.mspLsp ts).2 < p.patchLen
  advanced : p.mspLsp (ts + p.binLen) = p.lspInc (p.mspLsp ts).1 (p.mspLsp ts).2
  uncut : p.mspLsp ts = (ts / p.patchDt, ts % p.patchDt / p.binLen)

/-- At every representable time, splitting, putting together and advancing agree, and nothing is cut. -/
theorem agrees {ts : ℕ} (hts : p.Representable ts) : p.Agrees ts := by
  have hkey := p.mspLsp_of_representable hts
  have hle : p.binLen * (ts / p.binLen) ≤ ts := Nat.mul_div_le ts p.binLen
  refine ⟨?_, ?_, p.mspLsp_succ ts, ?_⟩
  · rw [hkey, p.mspLspToTs_keyAt (hle.trans_lt hts.1), mul_comm]
  · rw [hkey]
    exact Nat.mod_lt _ p.patchLen_pos
  · rw [hkey, keyAt, div_patchDt, mod_patchDt_div]

/-- The last second of a partition -/
theorem agrees_last_second : sec1.Agrees 1199999 := sec1.agrees (by decide)

end PrebinnedPartitioning

end Series
end Daqbuf
