import Daqbuf.Netpod.Range
import Daqbuf.Scylla.MspLspIter
import Daqbuf.Serieswriter.Queue
/-!
# Planning the Read of Bins

{lit}`FromBinned` reads the index of the stored bins, which tells for each day the lengths of the bins that are stored.
For each day of the binned range it reads bins of the coarsest of these lengths, as far as it is supported and not
longer than what is asked for.

Main results:

- Theorem {lit}`handleCoarseIndex_eq`: what the index says about a day.
- Theorem {lit}`plans_buildDay1Jobs`: the jobs are in order and within the range, and cover what is indexed.
-/

namespace Daqbuf
namespace Scylla

open Series Iter Netpod

/-! ## The index -/

/-- {lit}`IndexRow`; the length of the bins is in milliseconds. -/
structure IndexRow where
  rt : RetentionTime
  msp : ℕ
  lsp : ℕ
  binlen : ℕ
  deriving DecidableEq, Repr

/-- The key of a row, which is that of a day -/
def IndexRow.key (row : IndexRow) : ℕ × ℕ := (row.msp, row.lsp)

/-- The order of {lit}`RetentionTime` -/
def rtRank : RetentionTime → ℕ
  | .short => 0
  | .medium => 1
  | .long => 2

/-- The order of the entries of the index: by the length of the bins, and then by the retention time -/
def ixLe (a b : ℕ × RetentionTime) : Bool := a.1 < b.1 || (a.1 == b.1 && rtRank a.2 ≤ rtRank b.2)

/-- {lit}`index_map` -/
abbrev IndexMap : Type := ℕ × ℕ → Option (List (ℕ × RetentionTime))

/-- The entry of a row is put behind those of its key. -/
def IndexMap.add (h : IndexMap) (e : IndexRow) : IndexMap :=
  match h e.key with
  | some v => Function.update h e.key (some (v ++ [(e.binlen, e.rt)]))
  | none => Function.update h e.key (some [(e.binlen, e.rt)])

/-- {lit}`handle_coarse_index`, of a map that is empty -/
def handleCoarseIndex (rows : List IndexRow) : IndexMap :=
  let h : IndexMap := rows.foldl IndexMap.add fun _ => none
  fun k => (h k).map fun v => v.mergeSort ixLe

/-! ## Jobs -/

/-- {lit}`FetchJob` -/
structure FetchJob where
  min : ℕ × ℕ
  max : ℕ × ℕ
  dbgTs1 : ℕ × ℕ
  dbgTs2 : ℕ × ℕ
  rt : RetentionTime
  pbp : PrebinnedPartitioning
  deriving DecidableEq, Repr

/-- {lit}`from_binlen` -/
def fromBinlen (binlen : ℕ) : Option PrebinnedPartitioning := PrebinnedPartitioning.tryFrom binlen

/-- The entry of a day that is used: the last one that is not too coarse, and supported -/
def findIx (r : BinnedRange) (ixs : List (ℕ × RetentionTime)) : Option (RetentionTime × PrebinnedPartitioning) :=
  ixs.reverse.findSome? fun ix =>
    if ix.1 ≤ r.binLen / 1000000 then (fromBinlen ix.1).map fun pbp2 => (ix.2, pbp2) else none

/-- The job of a day, with the part of the range that is in the day -/
def jobOfDay (r : BinnedRange) (day : ℕ × ℕ) (rt : RetentionTime) (pbp2 : PrebinnedPartitioning) : FetchJob :=
  let pbp1 := PrebinnedPartitioning.day1
  let rbeg := r.nanoBeg / 1000000
  let rend := r.nanoEnd / 1000000
  let gbeg := pbp1.mspLspToTs day.1 day.2
  let gend := gbeg + pbp1.binLen
  let beg := if gbeg < rbeg then rbeg else gbeg
  let fin := if rend < gend then rend else gend
  let it3 := MspLspIter.newCovering (1000000 * beg) (1000000 * fin) pbp2
  { min := it3.mins, max := it3.maxs, dbgTs1 := (beg, fin), dbgTs2 := (beg, fin), rt := rt, pbp := pbp2 }

/-- One turn of the loop of {lit}`build_day1_jobs` -/
def day1Job (indexMap : IndexMap) (r : BinnedRange) (day : ℕ × ℕ) : Option FetchJob :=
  match indexMap day with
  | some ixs => (findIx r ixs).map fun found => jobOfDay r day found.1 found.2
  | none => none

/-- {lit}`build_day1_jobs`, behind {lit}`handle_coarse_index` -/
def BuildDay1Jobs (rows : List IndexRow) (r : BinnedRange) (jobs : List FetchJob) : Prop :=
  ∃ days, Yields MspLspIter.next (MspLspIter.newCovering r.toNanoRange.beg r.toNanoRange.fin .day1) days ∧
    jobs = days.filterMap (day1Job (handleCoarseIndex rows) r)

namespace FetchJob

/-- {lit}`make_next_job`: the bins that are read for a job, chunk by chunk -/
def Reads (job : FetchJob) (keys : List (ℕ × ℕ)) : Prop :=
  ∃ items, Yields MspChunker.next (MspChunker.fromMinMax job.pbp job.min job.max) items ∧
    items.flatMap MspChunkerItem.keys = keys

/-- The time at which a job begins, in milliseconds -/
def begMs (job : FetchJob) : ℕ := job.pbp.mspLspToTs job.min.1 job.min.2

/-- The time at which a job ends -/
def endMs (job : FetchJob) : ℕ := job.pbp.mspLspToTs job.max.1 job.max.2

/-- The bin with this index is in the time of the job. -/
def Has (job : FetchJob) (k : ℕ) : Prop := job.begMs ≤ job.pbp.binLen * k ∧ job.pbp.binLen * (k + 1) ≤ job.endMs

end FetchJob

/-! ## Plans -/

/-- The bin with this index is in the covering of the range, also if the range is empty. -/
def InCovering (p : PrebinnedPartitioning) (beg fin k : ℕ) : Prop :=
  beg < p.binLen * 1000000 * (k + 1) ∧ p.binLen * 1000000 * k < fin

/-- The bin is in the day with this index. -/
def InDay (p : PrebinnedPartitioning) (d k : ℕ) : Prop :=
  PrebinnedPartitioning.day1.binLen * d ≤ p.binLen * k ∧
    p.binLen * (k + 1) ≤ PrebinnedPartitioning.day1.binLen * (d + 1)

/-- The index has bins of this length for the day, which are usable and not longer than what is asked for. -/
def Indexed (usable : ℕ → Prop) (rows : List IndexRow) (r : BinnedRange) (d len : ℕ) : Prop :=
  ∃ row ∈ rows, row.key = PrebinnedPartitioning.day1.keyAt d ∧ row.binlen = len ∧ len * 1000000 ≤ r.binLen ∧ usable len

/-- The coarsest of these lengths -/
def Coarsest (usable : ℕ → Prop) (rows : List IndexRow) (r : BinnedRange) (d len : ℕ) : Prop :=
  Indexed usable rows r d len ∧ ∀ len', Indexed usable rows r d len' → len' ≤ len

/-- The jobs for a range from {lit}`beg` to {lit}`fin`: one after the other, in the covering of the range, and of every
day that overlaps it all bins of the coarsest length. -/
structure Plans (usable : ℕ → Prop) (rows : List IndexRow) (r : BinnedRange) (beg fin : ℕ) (jobs : List FetchJob) :
    Prop where
  increasing : jobs.Pairwise fun a b => a.endMs ≤ b.begMs
  reads : ∀ job ∈ jobs, ∃ keys, job.Reads keys ∧ ∀ key, key ∈ keys ↔ ∃ k, job.Has k ∧ job.pbp.keyAt k = key
  within : ∀ job ∈ jobs, ∀ k, job.Has k → InCovering job.pbp beg fin k
  covers : ∀ d, Overlaps .day1 beg fin d → ∀ len, Coarsest usable rows r d len →
    ∃ job ∈ jobs, job.pbp.binLen = len ∧ ∀ k, Overlaps job.pbp beg fin k → InDay job.pbp d k → job.Has k

/-! ## What the index says about a day -/

section Index

variable {rows : List IndexRow} {k : ℕ × ℕ}

/-- The entries of the rows with a key -/
def entriesOf (rows : List IndexRow) (k : ℕ × ℕ) : List (ℕ × RetentionTime) :=
  (rows.filter fun row => row.key = k).map fun row => (row.binlen, row.rt)

theorem IndexMap.add_apply (h : IndexMap) (e : IndexRow) (k : ℕ × ℕ) :
    h.add e k = if k = e.key then some ((h k).getD [] ++ [(e.binlen, e.rt)]) else h k := by
  rw [IndexMap.add]
  split_ifs with hk
  · subst hk
    cases h e.key <;> simp
  · cases h e.key <;> simp [Function.update_of_ne hk]

theorem foldl_add (rows : List IndexRow) (k : ℕ × ℕ) :
    rows.foldl IndexMap.add (fun _ => none) k =
      if entriesOf rows k = [] then none else some (entriesOf rows k) := by
  induction rows using List.reverseRecOn with
  | nil => rfl
  | append_singleton rows e ih =>
      have hentries : entriesOf (rows ++ [e]) k =
          entriesOf rows k ++ if k = e.key then [(e.binlen, e.rt)] else [] := by
        rw [entriesOf, List.filter_append, List.map_append, entriesOf]
        by_cases hk : k = e.key
        · simp [hk]
        · simp [hk, Ne.symm hk]
      rw [List.foldl_append, List.foldl_cons, List.foldl_nil, IndexMap.add_apply, ih, hentries]
      by_cases hk : k = e.key
      · rw [if_pos hk, if_pos hk, if_neg (List.append_ne_nil_of_right_ne_nil _ (by simp))]
        by_cases hnil : entriesOf rows k = []
        · rw [if_pos hnil, hnil]
          rfl
        · rw [if_neg hnil]
          rfl
      · rw [if_neg hk, if_neg hk, List.append_nil]

/-- What the index says about a day are the entries of its rows, in order. -/
theorem handleCoarseIndex_eq (rows : List IndexRow) (k : ℕ × ℕ) :
    handleCoarseIndex rows k =
      if entriesOf rows k = [] then none else some ((entriesOf rows k).mergeSort ixLe) := by
  show (rows.foldl IndexMap.add (fun _ => none) k).map _ = _
  rw [foldl_add]
  split_ifs <;> rfl

theorem mem_entriesOf {ix : ℕ × RetentionTime} :
    ix ∈ entriesOf rows k ↔ ∃ row ∈ rows, row.key = k ∧ (row.binlen, row.rt) = ix := by
  simp only [entriesOf, List.mem_map, List.mem_filter, decide_eq_true_eq, and_assoc]

theorem ixLe_trans (a b c : ℕ × RetentionTime) (hab : ixLe a b = true) (hbc : ixLe b c = true) : ixLe a c = true := by
  simp only [ixLe, Bool.or_eq_true, decide_eq_true_eq, Bool.and_eq_true, beq_iff_eq] at *
  omega

theorem ixLe_total (a b : ℕ × RetentionTime) : (ixLe a b || ixLe b a) = true := by
  simp only [ixLe, Bool.or_eq_true, decide_eq_true_eq, Bool.and_eq_true, beq_iff_eq]
  omega

theorem le_of_ixLe {a b : ℕ × RetentionTime} (hab : ixLe a b = true) : a.1 ≤ b.1 := by
  simp only [ixLe, Bool.or_eq_true, decide_eq_true_eq, Bool.and_eq_true, beq_iff_eq] at hab
  omega

theorem fromBinlen_eq_some {len : ℕ} {p : PrebinnedPartitioning} : fromBinlen len = some p ↔ len = p.binLen := by
  constructor
  · intro h
    unfold fromBinlen PrebinnedPartitioning.tryFrom at h
    split_ifs at h with h1 h2 h3 h4 h5 h6 <;> obtain rfl := Option.some.inj h <;> assumption
  · rintro rfl
    exact p.tryFrom_binLen

/-- The lengths of bins that the reader supports -/
def Supported (len : ℕ) : Prop := (fromBinlen len).isSome

/-- The entry of the index can be used for a range. -/
theorem useIx_eq_some {r : BinnedRange} {ix : ℕ × RetentionTime} {rt : RetentionTime} {p : PrebinnedPartitioning} :
    (if ix.1 ≤ r.binLen / 1000000 then (fromBinlen ix.1).map fun pbp2 => (ix.2, pbp2) else none) = some (rt, p) ↔
      ix = (p.binLen, rt) ∧ p.binLen ≤ r.binLen / 1000000 := by
  obtain ⟨len, rt'⟩ := ix
  split_ifs with hle
  · rw [Option.map_eq_some_iff]
    simp only [fromBinlen_eq_some, Prod.mk.injEq]
    constructor
    · rintro ⟨q, rfl, rfl, rfl⟩
      exact ⟨⟨rfl, rfl⟩, hle⟩
    · rintro ⟨⟨rfl, rfl⟩, -⟩
      exact ⟨p, rfl, rfl, rfl⟩
  · simp only [Prod.mk.injEq, false_iff]
    rintro ⟨⟨rfl, -⟩, hle'⟩
    exact hle hle'

/-- The entry that is used has the coarsest length that is usable. -/
theorem findIx_mergeSort {r : BinnedRange} {xs : List (ℕ × RetentionTime)} {rt : RetentionTime}
    {p : PrebinnedPartitioning} (h : findIx r (xs.mergeSort ixLe) = some (rt, p)) :
    (p.binLen, rt) ∈ xs ∧ p.binLen ≤ r.binLen / 1000000 ∧
      ∀ ix ∈ xs, ix.1 ≤ r.binLen / 1000000 → Supported ix.1 → ix.1 ≤ p.binLen := by
  obtain ⟨after, ix, before, hsplit, hix, hafter⟩ := List.findSome?_eq_some_iff.mp h
  obtain ⟨rfl, hle⟩ := useIx_eq_some.mp hix
  have hmem : ∀ ix, ix ∈ xs ↔ ix ∈ after ++ (p.binLen, rt) :: before := by
    intro ix
    rw [← hsplit, List.mem_reverse, List.mem_mergeSort]
  have hsorted : (after ++ (p.binLen, rt) :: before).Pairwise fun a b => ixLe b a = true := by
    rw [← hsplit]
    exact List.pairwise_reverse.mpr (List.pairwise_mergeSort ixLe_trans ixLe_total xs)
  refine ⟨(hmem _).mpr (List.mem_append_right _ List.mem_cons_self), hle, ?_⟩
  intro ix hix hle' hsupp
  rcases List.mem_append.mp ((hmem ix).mp hix) with hin | hin
  · -- it would have been used before
    obtain ⟨q, hq⟩ := Option.isSome_iff_exists.mp hsupp
    have hnone := hafter ix hin
    rw [if_pos hle', hq] at hnone
    cases hnone
  · rcases List.mem_cons.mp hin with rfl | hin
    · exact le_rfl
    · exact le_of_ixLe (List.rel_of_pairwise_cons (List.pairwise_append.mp hsorted).2.1 hin)

theorem findIx_isSome {r : BinnedRange} {xs : List (ℕ × RetentionTime)} {ix : ℕ × RetentionTime} (hix : ix ∈ xs)
    (hle : ix.1 ≤ r.binLen / 1000000) (hsupp : Supported ix.1) : (findIx r (xs.mergeSort ixLe)).isSome := by
  rw [findIx, List.findSome?_isSome_iff]
  refine ⟨ix, List.mem_reverse.mpr (List.mem_mergeSort.mpr hix), ?_⟩
  rw [if_pos hle, Option.isSome_map]
  exact hsupp

end Index

/-! ## The job of a day -/

section Day

variable {rows : List IndexRow} {r : BinnedRange} {d : ℕ}

theorem le_div_million_iff {len ns : ℕ} : len ≤ ns / 1000000 ↔ len * 1000000 ≤ ns :=
  Nat.le_div_iff_mul_le (by decide)

/-- A day has a job for the coarsest length that can be used, if there is one. -/
theorem day1Job_cases (rows : List IndexRow) (r : BinnedRange) (d : ℕ) :
    (∃ rt p, Coarsest Supported rows r d p.binLen ∧
      day1Job (handleCoarseIndex rows) r (PrebinnedPartitioning.day1.keyAt d) =
        some (jobOfDay r (PrebinnedPartitioning.day1.keyAt d) rt p)) ∨
    ((∀ len, ¬ Indexed Supported rows r d len) ∧
      day1Job (handleCoarseIndex rows) r (PrebinnedPartitioning.day1.keyAt d) = none) := by
  rw [day1Job, handleCoarseIndex_eq]
  by_cases hnil : entriesOf rows (PrebinnedPartitioning.day1.keyAt d) = []
  · refine Or.inr ⟨?_, by rw [if_pos hnil]⟩
    rintro len ⟨row, hrow, hkey, -⟩
    have hmem := mem_entriesOf.mpr ⟨row, hrow, hkey, rfl⟩
    rw [hnil] at hmem
    cases hmem
  · rw [if_neg hnil]
    dsimp only
    cases hfound : findIx r ((entriesOf rows (PrebinnedPartitioning.day1.keyAt d)).mergeSort ixLe) with
    | none =>
        refine Or.inr ⟨?_, rfl⟩
        rintro len ⟨row, hrow, hkey, rfl, hle, hsupp⟩
        have hsome := findIx_isSome (mem_entriesOf.mpr ⟨row, hrow, hkey, rfl⟩) (le_div_million_iff.mpr hle) hsupp
        rw [hfound] at hsome
        cases hsome
    | some found =>
        obtain ⟨rt, p⟩ := found
        obtain ⟨hmem, hle, hmax⟩ := findIx_mergeSort hfound
        obtain ⟨row, hrow, hkey, heq⟩ := mem_entriesOf.mp hmem
        have hlen : row.binlen = p.binLen := (Prod.mk.inj heq).1
        have hsupp : Supported p.binLen := Option.isSome_iff_exists.mpr ⟨p, fromBinlen_eq_some.mpr rfl⟩
        refine Or.inl ⟨rt, p, ⟨⟨row, hrow, hkey, hlen, le_div_million_iff.mp hle, hsupp⟩, ?_⟩, rfl⟩
        rintro len ⟨row', hrow', hkey', rfl, hle', hsupp'⟩
        exact hmax _ (mem_entriesOf.mpr ⟨row', hrow', hkey', rfl⟩) (le_div_million_iff.mpr hle') hsupp'

/-! ### The time of a job -/

variable {p : PrebinnedPartitioning} {rt : RetentionTime}

/-- The index of the first bin of the job of a day -/
def fromIx (p : PrebinnedPartitioning) (r : BinnedRange) (d : ℕ) : ℕ :=
  max (r.nanoBeg / 1000000) (PrebinnedPartitioning.day1.binLen * d) / p.binLen

/-- The index behind the last bin of the job of a day -/
def toIx (p : PrebinnedPartitioning) (r : BinnedRange) (d : ℕ) : ℕ :=
  (min (r.nanoEnd / 1000000) (PrebinnedPartitioning.day1.binLen * (d + 1)) + (p.binLen - 1)) / p.binLen

/-- The day is enumerated for the range. -/
structure OnDay (r : BinnedRange) (d : ℕ) : Prop where
  fits : r.nanoEnd < 2 ^ 64
  before : r.nanoBeg / 1000000 < PrebinnedPartitioning.day1.binLen * (d + 1)
  behind : PrebinnedPartitioning.day1.binLen * d < r.nanoEnd / 1000000

theorem fromIx_le_iff {k : ℕ} : fromIx p r d ≤ k ↔
    r.nanoBeg / 1000000 < p.binLen * (k + 1) ∧ PrebinnedPartitioning.day1.binLen * d < p.binLen * (k + 1) := by
  have hbin := p.binLen_pos
  rw [fromIx, ← Nat.lt_succ_iff, Nat.div_lt_iff_lt_mul (by omega), mul_comm k.succ, max_lt_iff]

theorem lt_toIx_iff {k : ℕ} : k < toIx p r d ↔
    p.binLen * k < r.nanoEnd / 1000000 ∧ p.binLen * k < PrebinnedPartitioning.day1.binLen * (d + 1) := by
  have hbin := p.binLen_pos
  rw [toIx, Nat.lt_iff_add_one_le, Nat.le_div_iff_mul_le (by omega), Nat.add_mul, mul_comm k, ← lt_min_iff]
  omega

theorem binLen_dvd_day (p : PrebinnedPartitioning) : p.binLen ∣ PrebinnedPartitioning.day1.binLen := by
  cases p <;> decide

theorem OnDay.max_le_min (h : OnDay r d) :
    max (r.nanoBeg / 1000000) (PrebinnedPartitioning.day1.binLen * d) ≤
      min (r.nanoEnd / 1000000) (PrebinnedPartitioning.day1.binLen * (d + 1)) := by
  have hle : r.nanoBeg / 1000000 ≤ r.nanoEnd / 1000000 := Nat.div_le_div_right r.nanoBeg_le_nanoEnd
  have hday : PrebinnedPartitioning.day1.binLen * d ≤ PrebinnedPartitioning.day1.binLen * (d + 1) :=
    Nat.mul_le_mul_left _ (Nat.le_succ d)
  exact max_le (le_min hle h.before.le) (le_min h.behind.le hday)

theorem OnDay.fromIx_le_toIx (h : OnDay r d) : fromIx p r d ≤ toIx p r d := by
  exact Nat.div_le_div_right (h.max_le_min.trans (Nat.le_add_right _ _))

/-- A job is for the bins between two indexes. -/
theorem OnDay.jobOfDay_eq (h : OnDay r d) (rt : RetentionTime) (p : PrebinnedPartitioning) :
    (jobOfDay r (PrebinnedPartitioning.day1.keyAt d) rt p).min = p.keyAt (fromIx p r d) ∧
      (jobOfDay r (PrebinnedPartitioning.day1.keyAt d) rt p).max = p.keyAt (toIx p r d) := by
  have hfits := h.fits
  have hbehind := h.behind
  have hgbeg := PrebinnedPartitioning.day1.mspLspToTs_keyAt (k := d) (by omega)
  have hbeg : ∀ a b : ℕ, (if b < a then a else b) = max a b := fun a b => by
    rw [max_comm, max_def_lt]
  have hfin : ∀ a b : ℕ, (if a < b then a else b) = min a b := fun a b => (min_def_lt a b).symm
  have hgend : PrebinnedPartitioning.day1.binLen * d + PrebinnedPartitioning.day1.binLen =
      PrebinnedPartitioning.day1.binLen * (d + 1) := (Nat.mul_succ _ _).symm
  have hcover := covering_eq (p := p) (Nat.mul_le_mul_left 1000000 h.max_le_min) (by omega)
  simp only [jobOfDay, hgbeg, hbeg, hfin, hgend, MspLspIter.newCovering, hcover, firstIx, endIx,
    Nat.mul_div_cancel_left _ (show 0 < 1000000 by decide)]
  exact ⟨rfl, rfl⟩

theorem OnDay.times (h : OnDay r d) (rt : RetentionTime) (p : PrebinnedPartitioning) :
    (jobOfDay r (PrebinnedPartitioning.day1.keyAt d) rt p).begMs = p.binLen * fromIx p r d ∧
      (jobOfDay r (PrebinnedPartitioning.day1.keyAt d) rt p).endMs = p.binLen * toIx p r d := by
  obtain ⟨hmin, hmax⟩ := h.jobOfDay_eq rt p
  have hfits := h.fits
  have hbin := p.binLen_le
  have hto : p.binLen * toIx p r d ≤ _ := Nat.mul_div_le _ _
  have hend : min (r.nanoEnd / 1000000) (PrebinnedPartitioning.day1.binLen * (d + 1)) ≤ r.nanoEnd / 1000000 :=
    min_le_left _ _
  have hfrom : p.binLen * fromIx p r d ≤ p.binLen * toIx p r d := Nat.mul_le_mul_left _ h.fromIx_le_toIx
  rw [FetchJob.begMs, FetchJob.endMs, hmin, hmax]
  exact ⟨p.mspLspToTs_keyAt (by omega), p.mspLspToTs_keyAt (by omega)⟩

/-- The bins in the time of the job of a day -/
theorem OnDay.has_iff (h : OnDay r d) {k : ℕ} :
    (jobOfDay r (PrebinnedPartitioning.day1.keyAt d) rt p).Has k ↔ fromIx p r d ≤ k ∧ k < toIx p r d := by
  obtain ⟨hbeg, hend⟩ := h.times rt p
  have hpos : 0 < p.binLen := Nat.zero_lt_of_lt p.binLen_pos
  rw [FetchJob.Has, hbeg, hend]
  exact and_congr (Nat.mul_le_mul_left_iff hpos) (Nat.mul_le_mul_left_iff hpos)

/-- The time of the job of a day is in the day. -/
theorem OnDay.inDay (h : OnDay r d) :
    PrebinnedPartitioning.day1.binLen * d ≤ (jobOfDay r (PrebinnedPartitioning.day1.keyAt d) rt p).begMs ∧
      (jobOfDay r (PrebinnedPartitioning.day1.keyAt d) rt p).endMs ≤ PrebinnedPartitioning.day1.binLen * (d + 1) := by
  obtain ⟨hbeg, hend⟩ := h.times rt p
  obtain ⟨q, hq⟩ := binLen_dvd_day p
  have hpos : 0 < p.binLen := Nat.zero_lt_of_lt p.binLen_pos
  have hbegq : q * d ≤ fromIx p r d := by
    refine (Nat.le_div_iff_mul_le hpos).mpr ?_
    rw [mul_comm, ← Nat.mul_assoc, ← hq]
    exact le_max_right _ _
  have hendq : toIx p r d ≤ q * (d + 1) := by
    refine Nat.le_of_not_lt fun hlt => ?_
    have hbelow := (lt_toIx_iff.mp hlt).2
    rw [← Nat.mul_assoc, ← hq] at hbelow
    exact absurd hbelow (lt_irrefl _)
  rw [hbeg, hend, hq, Nat.mul_assoc, Nat.mul_assoc]
  exact ⟨Nat.mul_le_mul_left _ hbegq, Nat.mul_le_mul_left _ hendq⟩

/-- The bins that are read for the job of a day are those in its time. -/
theorem OnDay.reads (h : OnDay r d) :
    ∃ keys, (jobOfDay r (PrebinnedPartitioning.day1.keyAt d) rt p).Reads keys ∧
      ∀ key, key ∈ keys ↔
        ∃ k, (jobOfDay r (PrebinnedPartitioning.day1.keyAt d) rt p).Has k ∧ p.keyAt k = key := by
  obtain ⟨hmin, hmax⟩ := h.jobOfDay_eq rt p
  have hfits := h.fits
  have hbin := p.binLen_le
  have hend : min (r.nanoEnd / 1000000) (PrebinnedPartitioning.day1.binLen * (d + 1)) ≤ r.nanoEnd / 1000000 :=
    min_le_left _ _
  have hrep := (p.representable_of_lt (show
    min (r.nanoEnd / 1000000) (PrebinnedPartitioning.day1.binLen * (d + 1)) + (p.binLen - 1) < 2 ^ 46 by omega)).2
  rw [p.div_patchDt] at hrep
  obtain ⟨items, hyields, -, hkeys⟩ := MspChunker.yields_chunks h.fromIx_le_toIx hrep (p.keyAt (fromIx p r d))
  refine ⟨keysFrom p (fromIx p r d) (toIx p r d), ⟨items, ?_, hkeys⟩, ?_⟩
  · rw [hmin, hmax]
    exact hyields
  · intro key
    rw [mem_keysFrom]
    exact exists_congr fun k => and_congr_left fun _ => h.has_iff.symm

/-- A job is in the covering of the range, also of the range that is cut to milliseconds. -/
theorem OnDay.inCovering (h : OnDay r d) {k : ℕ}
    (hk : (jobOfDay r (PrebinnedPartitioning.day1.keyAt d) rt p).Has k) :
    InCovering p r.nanoBeg (r.nanoEnd / 1000000 * 1000000) k := by
  obtain ⟨hfrom, hto⟩ := h.has_iff.mp hk
  have hbeg := (fromIx_le_iff.mp hfrom).1
  have hend := (lt_toIx_iff.mp hto).1
  constructor
  · rw [mul_right_comm]
    omega
  · rw [mul_right_comm]
    omega

/-- A bin in the day that overlaps the range, cut to milliseconds, is in the time of the job of the day. -/
theorem OnDay.has_of_overlaps (h : OnDay r d) {k : ℕ} (hk : Overlaps p r.nanoBeg (r.nanoEnd / 1000000 * 1000000) k)
    (hday : InDay p d k) : (jobOfDay r (PrebinnedPartitioning.day1.keyAt d) rt p).Has k := by
  obtain ⟨t, hbeg, hend, hkbeg, hkend⟩ := hk
  obtain ⟨hdbeg, hdend⟩ := hday
  have hbin := p.binLen_pos
  rw [mul_right_comm] at hkbeg hkend
  rw [Nat.mul_succ] at hdend
  refine h.has_iff.mpr ⟨fromIx_le_iff.mpr ⟨by omega, ?_⟩, lt_toIx_iff.mpr ⟨by omega, by omega⟩⟩
  rw [Nat.mul_succ]
  omega

end Day

/-! ## All jobs -/

section Jobs

variable {rows : List IndexRow} {r : BinnedRange} {jobs : List FetchJob}

theorem onDay_of_mem (hfits : r.nanoEnd < 2 ^ 64) {d : ℕ} (hfirst : firstIx .day1 r.nanoBeg ≤ d)
    (hend : d < endIx .day1 r.nanoEnd) : OnDay r d where
  fits := hfits
  before := by
    have hbeg := firstIx_le_iff.mp hfirst
    rw [mul_right_comm] at hbeg
    omega
  behind := lt_endIx_iff.mp hend

/-- The jobs are those of the days that are enumerated. -/
theorem buildDay1Jobs_iff (hfits : r.nanoEnd < 2 ^ 64) :
    BuildDay1Jobs rows r jobs ↔ jobs = (List.range' (firstIx .day1 r.nanoBeg)
      (endIx .day1 r.nanoEnd - firstIx .day1 r.nanoBeg)).filterMap fun d =>
        day1Job (handleCoarseIndex rows) r (PrebinnedPartitioning.day1.keyAt d) := by
  have hyields := MspLspIter.yields_newCovering (p := .day1) r.nanoBeg_le_nanoEnd hfits
  have hmap : (keysFrom .day1 (firstIx .day1 r.nanoBeg) (endIx .day1 r.nanoEnd)).filterMap
      (day1Job (handleCoarseIndex rows) r) = _ := List.filterMap_map
  constructor
  · intro ⟨days, hdays, heq⟩
    obtain rfl := hyields.unique hdays
    exact heq.trans hmap
  · intro heq
    exact ⟨_, hyields, heq.trans hmap.symm⟩

/-- A day that overlaps the range, cut to milliseconds, is enumerated. -/
theorem mem_days_of_overlaps {d : ℕ} (hd : Overlaps .day1 r.nanoBeg (r.nanoEnd / 1000000 * 1000000) d) :
    firstIx .day1 r.nanoBeg ≤ d ∧ d < endIx .day1 r.nanoEnd := by
  obtain ⟨t, hbeg, hend, hdbeg, hdend⟩ := hd
  rw [firstIx_le_iff, lt_endIx_iff]
  rw [mul_right_comm] at hdbeg
  constructor
  · exact hbeg.trans_lt hdend
  · omega

theorem mem_days {d : ℕ} :
    d ∈ List.range' (firstIx .day1 r.nanoBeg) (endIx .day1 r.nanoEnd - firstIx .day1 r.nanoBeg) ↔
      firstIx .day1 r.nanoBeg ≤ d ∧ d < endIx .day1 r.nanoEnd := by
  have hle := firstIx_le_endIx (p := .day1) r.nanoBeg_le_nanoEnd
  rw [List.mem_range'_1]
  omega

/-- The job of a day is for the coarsest length that can be used. -/
theorem eq_jobOfDay {d : ℕ} {job : FetchJob}
    (hjob : day1Job (handleCoarseIndex rows) r (PrebinnedPartitioning.day1.keyAt d) = some job) :
    ∃ rt p, job = jobOfDay r (PrebinnedPartitioning.day1.keyAt d) rt p := by
  rcases day1Job_cases rows r d with ⟨rt, p, -, heq⟩ | ⟨-, heq⟩
  · exact ⟨rt, p, Option.some.inj (hjob.symm.trans heq)⟩
  · cases hjob.symm.trans heq

/-- The jobs of a binned range are one after the other and in the covering of the range, and every day with bins of a
length that is supported and not longer than what is asked for is covered with bins of the coarsest one.  The end of the
range is cut to milliseconds. -/
theorem plans_buildDay1Jobs (rows : List IndexRow) (r : BinnedRange) (hfits : r.nanoEnd < 2 ^ 64) :
    ∃ jobs, (∀ jobs', BuildDay1Jobs rows r jobs' ↔ jobs' = jobs) ∧
      Plans Supported rows r r.nanoBeg (r.nanoEnd / 1000000 * 1000000) jobs := by
  have hdays : ∀ d, d ∈ List.range' (firstIx .day1 r.nanoBeg)
      (endIx .day1 r.nanoEnd - firstIx .day1 r.nanoBeg) → OnDay r d :=
    fun d hd => onDay_of_mem hfits (mem_days.mp hd).1 (mem_days.mp hd).2
  refine ⟨_, fun jobs' => buildDay1Jobs_iff hfits, ?_, ?_, ?_, ?_⟩
  · rw [List.pairwise_filterMap]
    refine List.Pairwise.imp_of_mem ?_ List.pairwise_lt_range'
    intro d d' hd hd' hlt job hjob job' hjob'
    obtain ⟨rt, p, rfl⟩ := eq_jobOfDay hjob
    obtain ⟨rt', p', rfl⟩ := eq_jobOfDay hjob'
    have hnext : PrebinnedPartitioning.day1.binLen * (d + 1) ≤ PrebinnedPartitioning.day1.binLen * d' :=
      Nat.mul_le_mul_left _ hlt
    exact (hdays d hd).inDay.2.trans (hnext.trans (hdays d' hd').inDay.1)
  · intro job hmem
    obtain ⟨d, hd, hjob⟩ := List.mem_filterMap.mp hmem
    obtain ⟨rt, p, rfl⟩ := eq_jobOfDay hjob
    exact (hdays d hd).reads
  · intro job hmem k hk
    obtain ⟨d, hd, hjob⟩ := List.mem_filterMap.mp hmem
    obtain ⟨rt, p, rfl⟩ := eq_jobOfDay hjob
    exact (hdays d hd).inCovering hk
  · intro d hoverlaps len hcoarsest
    have hd := mem_days.mpr (mem_days_of_overlaps hoverlaps)
    rcases day1Job_cases rows r d with ⟨rt, p, hp, heq⟩ | ⟨hnone, -⟩
    · have hlen : p.binLen = len := le_antisymm (hcoarsest.2 _ hp.1) (hp.2 _ hcoarsest.1)
      refine ⟨_, List.mem_filterMap.mpr ⟨d, hd, heq⟩, hlen, ?_⟩
      intro k hk hday
      exact (hdays d hd).has_of_overlaps hk hday
    · exact absurd hcoarsest.1 (hnone len)

/-- A range of two days of which the second one is not whole, with bins of a minute and an hour in the index -/
theorem plans_buildDay1Jobs_two :
    ∃ jobs, (∀ jobs', BuildDay1Jobs [⟨.short, 0, 0, 60000⟩, ⟨.long, 0, 1, 60000⟩, ⟨.short, 0, 1, 3600000⟩]
        ⟨3600000000000, 12, 24⟩ jobs' ↔ jobs' = jobs) ∧
      Plans Supported [⟨.short, 0, 0, 60000⟩, ⟨.long, 0, 1, 60000⟩, ⟨.short, 0, 1, 3600000⟩]
        ⟨3600000000000, 12, 24⟩ (BinnedRange.nanoBeg ⟨3600000000000, 12, 24⟩)
        (BinnedRange.nanoEnd ⟨3600000000000, 12, 24⟩ / 1000000 * 1000000) jobs :=
  plans_buildDay1Jobs _ _ (by decide)

/-- Bins of seven seconds are in the index for the first day, but no job reads them for a range of bins of ten seconds:
the reader supports no such bins. -/
theorem not_plans_unsupported :
    ∃ jobs, BuildDay1Jobs [⟨.short, 0, 0, 7000⟩] ⟨10000000000, 0, 6⟩ jobs ∧
      ¬ Plans (fun _ => True) [⟨.short, 0, 0, 7000⟩] ⟨10000000000, 0, 6⟩ 0 60000000000 jobs := by
  refine ⟨[], (buildDay1Jobs_iff (by decide)).mpr ?_, fun h => ?_⟩
  · refine (List.filterMap_eq_nil_iff.mpr fun d _ => ?_).symm
    rcases day1Job_cases [⟨.short, 0, 0, 7000⟩] ⟨10000000000, 0, 6⟩ d with
      ⟨rt, p, ⟨⟨row, hrow, -, hlen, -⟩, -⟩, -⟩ | ⟨-, heq⟩
    · obtain rfl := List.mem_singleton.mp hrow
      cases p <;> cases hlen
    · exact heq
  · have hindexed : Indexed (fun _ => True) [⟨.short, 0, 0, 7000⟩] ⟨10000000000, 0, 6⟩ 0 7000 :=
      ⟨_, List.mem_singleton.mpr rfl, rfl, rfl, by decide, trivial⟩
    have hcoarsest : Coarsest (fun _ => True) [⟨.short, 0, 0, 7000⟩] ⟨10000000000, 0, 6⟩ 0 7000 := by
      refine ⟨hindexed, ?_⟩
      rintro len ⟨row, hrow, -, rfl, -⟩
      obtain rfl := List.mem_singleton.mp hrow
      exact le_rfl
    obtain ⟨job, hjob, -⟩ := h.covers 0 ⟨0, by decide, by decide, by decide, by decide⟩ 7000 hcoarsest
    cases hjob

/-- A range of one bin of a second and a nanosecond overlaps the bin that begins at a second, which no job reads. -/
theorem not_plans_nanosecond :
    ∃ jobs, BuildDay1Jobs [⟨.short, 0, 0, 1000⟩] ⟨1000000001, 0, 1⟩ jobs ∧
      ¬ Plans Supported [⟨.short, 0, 0, 1000⟩] ⟨1000000001, 0, 1⟩ 0 1000000001 jobs := by
  refine ⟨_, (buildDay1Jobs_iff (by decide)).mpr rfl, fun h => ?_⟩
  have hcoarsest : Coarsest Supported [⟨.short, 0, 0, 1000⟩] ⟨1000000001, 0, 1⟩ 0 1000 := by
    refine ⟨⟨_, List.mem_singleton.mpr rfl, rfl, rfl, by decide, rfl⟩, ?_⟩
    rintro len ⟨row, hrow, -, rfl, -⟩
    obtain rfl := List.mem_singleton.mp hrow
    exact le_rfl
  obtain ⟨job, hjob, hlen, hcovers⟩ := h.covers 0 ⟨0, by decide, by decide, by decide, by decide⟩ 1000 hcoarsest
  obtain ⟨d, hd, hday⟩ := List.mem_filterMap.mp hjob
  obtain ⟨rt, p, rfl⟩ := eq_jobOfDay hday
  have hon := onDay_of_mem (by decide) (mem_days.mp hd).1 (mem_days.mp hd).2
  obtain rfl : p = .sec1 := by cases p <;> first | rfl | cases hlen
  have hoverlaps : Overlaps .sec1 0 1000000001 1 :=
    ⟨1000000000, by decide, by decide, by decide, by decide⟩
  have hinDay : InDay .sec1 0 1 := ⟨by decide, by decide⟩
  have hhas := hcovers 1 hoverlaps hinDay
  exact absurd (lt_toIx_iff.mp (hon.has_iff.mp hhas).2).1 (by decide)

/-- Neither bins of lengths that are not supported are read, nor those that begin in the last, partial millisecond. -/
theorem not_plans :
    (∃ rows r jobs, BuildDay1Jobs rows r jobs ∧ ¬ Plans (fun _ => True) rows r r.nanoBeg r.nanoEnd jobs) ∧
      ∃ rows r jobs, BuildDay1Jobs rows r jobs ∧ ¬ Plans Supported rows r r.nanoBeg r.nanoEnd jobs :=
  ⟨⟨_, _, not_plans_unsupported⟩, _, _, not_plans_nanosecond⟩

end Jobs

end Scylla
end Daqbuf
