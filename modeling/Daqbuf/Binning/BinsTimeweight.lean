import Daqbuf.Binning.BinsAggregator
import Daqbuf.Binning.Cells
import Daqbuf.Netpod.Range
/-!
# Binning of Bins

The binner that makes bins out of shorter bins.  It keeps the active bin and the bins that nobody has taken
yet.  When an input bin leaves the active bin it puts the active bin out, if there is something in it, and
goes on to the bin of the input.

Which bins it puts out depends on the edges and on the counts of the input alone.  The binner is therefore
compared with a machine that sees of each input bin its first cell, the cell that its end falls in, and its
count, where a cell is a bin of the output grid.

Main results:

- Theorem {lit}`BinnedBinsTimeweight.refines_feed`: what the binner does are steps of the machine.
- Theorem {lit}`BinnedBinsTimeweight.run_eq`: a run puts out the cells of the machine, with their edges.
- Theorem {lit}`BinnedBinsTimeweight.shaped_run`: the exact condition under which the output has its shape.
-/

namespace Daqbuf
namespace Binning

open Netpod

/-! ## The binner -/

/-- How the binner stops: with its error, or in an {lit}`unwrap` or a division. -/
inductive BinsFault where
  | inputBinlenOverflow
  | panicked
  deriving DecidableEq, Repr

/-- {lit}`BinnedBinsTimeweight` -/
structure BinnedBinsTimeweight (V H R : Type) where
  range : BinnedRange
  activeBeg : ℕ
  activeEnd : ℕ
  cnt : ℕ
  min : Option V
  max : Option V
  lst : Option V
  agg : H
  nonFnl : Bool
  out : List (Bin V R)
  produceCntZero : Bool
  deriving DecidableEq, Repr

namespace BinnedBinsTimeweight

variable {V H R : Type} [AggBinValTw H R]

/-- {lit}`new` -/
def new (range : BinnedRange) : BinnedBinsTimeweight V H R where
  range := range
  activeBeg := range.nanoBeg
  activeEnd := add range.nanoBeg range.binLen
  cnt := 0
  min := none
  max := none
  lst := none
  agg := AggBinValTw.new range.binLen
  nonFnl := false
  out := []
  produceCntZero := false

/-- {lit}`cnt_zero_enable` -/
def cntZeroEnable (s : BinnedBinsTimeweight V H R) : BinnedBinsTimeweight V H R :=
  { s with produceCntZero := true }

/-- {lit}`reset_for_new_bin` -/
def resetForNewBin (s : BinnedBinsTimeweight V H R) : BinnedBinsTimeweight V H R :=
  { s with cnt := 0, agg := AggBinValTw.resetForNewBin s.agg }

/-- {lit}`maybe_emit_active` -/
def maybeEmitActive (s : BinnedBinsTimeweight V H R) : Except BinsFault (BinnedBinsTimeweight V H R) :=
  if s.cnt ≠ 0 ∨ (s.produceCntZero ∧ s.min.isSome) then
    match s.min, s.max, s.lst with
    | some min, some max, some lst =>
        let bin : Bin V R := ⟨s.activeBeg, s.activeEnd, s.cnt, min, max, AggBinValTw.result s.agg, lst, !s.nonFnl⟩
        .ok { s with out := s.out ++ [bin] }.resetForNewBin
    | _, _, _ => .error .panicked
  else .ok s.resetForNewBin

/-- {lit}`active_forward` -/
def activeForward (s : BinnedBinsTimeweight V H R) (ts1 : ℕ) : Except BinsFault (BinnedBinsTimeweight V H R) :=
  if s.range.binLen = 0 then .error .panicked
  else
    let bl := s.range.binLen
    let tsnext := ts1 / bl * bl
    .ok { s with min := s.lst, max := s.lst, activeBeg := tsnext, activeEnd := add tsnext bl, nonFnl := false }

/-- {lit}`maybe_emit_active` and then {lit}`active_forward`, as they follow each other everywhere. -/
def finishBin (s : BinnedBinsTimeweight V H R) (ts1 : ℕ) : Except BinsFault (BinnedBinsTimeweight V H R) :=
  s.maybeEmitActive.bind (activeForward · ts1)

/-- Finishes the active bin, if it is over. -/
def finishBinIf (s : BinnedBinsTimeweight V H R) (isOver : Prop) [Decidable isOver] (ts1 : ℕ) :
    Except BinsFault (BinnedBinsTimeweight V H R) :=
  if isOver then s.finishBin ts1 else .ok s

section Ingest

variable [PartialOrdEvtA V]

/-- {lit}`bound` -/
def bound (a : Option V) (b : V) (d : Ordering) : Option V :=
  match a with
  | some x => if PartialOrdEvtA.cmpA b x = some d then some b else some x
  | none => some b

/-- The part of the loop of {lit}`ingest_bins` that takes an input bin into the active bin. -/
def takeBin (s : BinnedBinsTimeweight V H R) (x : Bin V R) : Except BinsFault (BinnedBinsTimeweight V H R) :=
  let s := if x.ts1 = s.activeBeg then { s with min := some x.min, max := some x.max } else s
  let s := { s with cnt := add s.cnt x.cnt, min := bound s.min x.min .lt, max := bound s.max x.max .gt }
  let dt := delta x.ts2 x.ts1
  if s.range.binLen < dt then .error .inputBinlenOverflow
  else .ok { s with agg := AggBinValTw.ingest s.agg dt x.agg, nonFnl := s.nonFnl || !x.fnl, lst := some x.lst }

/-- The body of the loop of {lit}`ingest_bins`. -/
def ingestBin (s : BinnedBinsTimeweight V H R) (x : Bin V R) : Except BinsFault (BinnedBinsTimeweight V H R) := do
  if x.ts1 < s.activeBeg then .ok { s with lst := some x.lst }
  else
    let s ← s.finishBinIf (s.activeEnd ≤ x.ts1) x.ts1
    let s ← s.finishBinIf (s.activeEnd < x.ts2) x.ts2
    let s ← s.takeBin x
    s.finishBinIf (s.activeEnd ≤ x.ts2) x.ts2

/-- {lit}`ingest_bins` -/
def ingestBins (s : BinnedBinsTimeweight V H R) (bins : List (Bin V R)) :
    Except BinsFault (BinnedBinsTimeweight V H R) :=
  bins.foldlM ingestBin s

/-- The two calls that tell the binner that there is no more input. -/
inductive InputDone where
  | rangeFinal
  | rangeOpen
  deriving DecidableEq, Repr

/-- {lit}`input_done_range_final` and {lit}`input_done_range_open` -/
def inputDone (s : BinnedBinsTimeweight V H R) (done : InputDone) :
    Except BinsFault (BinnedBinsTimeweight V H R) :=
  let s := match done with
    | .rangeFinal => s
    | .rangeOpen => { s with nonFnl := true }
  s.finishBin (add s.activeBeg s.range.binLen)

/-- {lit}`output` -/
def output (s : BinnedBinsTimeweight V H R) : Option (List (Bin V R)) × BinnedBinsTimeweight V H R :=
  if s.out.length = 0 then (none, s) else (some s.out, { s with out := [] })

/-- What the owner of a binner does: hand over a container of bins, or take the output. -/
inductive Op (V R : Type) where
  | ingest (bins : List (Bin V R))
  | output
  deriving DecidableEq, Repr

/-- The input bins of an operation -/
def Op.bins : Op V R → List (Bin V R)
  | .ingest bins => bins
  | .output => []

/-- Some operations one after another, with all that was taken of the output. -/
def feed : List (Op V R) → BinnedBinsTimeweight V H R × List (Bin V R) →
    Except BinsFault (BinnedBinsTimeweight V H R × List (Bin V R))
  | [], (s, taken) => .ok (s, taken)
  | .ingest bins :: ops, (s, taken) => (s.ingestBins bins).bind fun s => feed ops (s, taken)
  | .output :: ops, (s, taken) => feed ops (s.output.2, taken ++ s.output.1.getD [])

/-- A binner from its start to the end of its input: all bins that are taken, at last the remaining ones. -/
def run (H : Type) [AggBinValTw H R] (range : BinnedRange) (produceCntZero : Bool) (ops : List (Op V R))
    (done : InputDone) : Except BinsFault (List (Bin V R)) := do
  let s : BinnedBinsTimeweight V H R := new range
  let (s, taken) ← feed ops (if produceCntZero then s.cntZeroEnable else s, [])
  let s ← s.inputDone done
  return taken ++ s.output.1.getD []

end Ingest

/-! ## The cells of the binner -/

/-- The edges of a cell of the output grid. -/
def edges (r : BinnedRange) (k : ℕ) : ℕ × ℕ := (k * r.binLen, add (k * r.binLen) r.binLen)

/-- What the machine of the cells sees of an input bin. -/
def pieceOf (r : BinnedRange) (x : Bin V R) : Piece := ⟨x.ts1 / r.binLen, x.ts2 / r.binLen, x.cnt⟩

/-- An input bin that lies in one bin of the output grid, of which the end is still a time. -/
structure GridAligned (r : BinnedRange) (x : Bin V R) : Prop where
  lt : x.ts1 < x.ts2
  le : x.ts2 ≤ (x.ts1 / r.binLen + 1) * r.binLen
  fits : (x.ts1 / r.binLen + 1) * r.binLen < u64Size

/-- Input bins of a finer grid, the length of which divides that of the output bins, are grid-aligned. -/
theorem gridAligned_of_dvd {r : BinnedRange} {x : Bin V R} {g k : ℕ} (hlen : 0 < r.binLen) (hdvd : g ∣ r.binLen)
    (hts1 : x.ts1 = k * g) (hts2 : x.ts2 = (k + 1) * g)
    (hfits : (x.ts1 / r.binLen + 1) * r.binLen < u64Size) : GridAligned r x := by
  have hg : 0 < g := Nat.pos_of_dvd_of_pos hdvd hlen
  obtain ⟨m, hm⟩ := hdvd
  have hmpos : 0 < m := Nat.pos_of_mul_pos_left (hm ▸ hlen)
  refine ⟨?_, ?_, hfits⟩
  · rw [hts1, hts2]
    exact Nat.mul_lt_mul_of_pos_right (Nat.lt_succ_self k) hg
  · rw [hts1, hts2, hm, Nat.mul_comm g m, Nat.mul_div_mul_right _ _ hg, ← Nat.mul_assoc]
    apply Nat.mul_le_mul_right
    rw [Nat.mul_comm]
    exact Nat.lt_mul_div_succ k hmpos

section Refinement

variable {r : BinnedRange} {z : Bool} {s : BinnedBinsTimeweight V H R} {c : Cells} {taken : List (Bin V R)}
  {x : Bin V R}

/-- The binner has the active cell of the machine, its count, and the cells that were put out. -/
structure Tracks (r : BinnedRange) (z : Bool) (s : BinnedBinsTimeweight V H R) (c : Cells)
    (taken : List (Bin V R)) : Prop where
  range_eq : s.range = r
  zero_eq : s.produceCntZero = z
  edges_eq : (s.activeBeg, s.activeEnd) = edges r c.active
  cnt_eq : s.cnt = c.cnt
  out_eq : (taken ++ s.out).map (fun b => (b.ts1, b.ts2)) = c.out.map (edges r)

/-- The binner has extrema exactly when the machine has seen a piece. -/
structure Refines (r : BinnedRange) (z : Bool) (s : BinnedBinsTimeweight V H R) (c : Cells)
    (taken : List (Bin V R)) : Prop extends Tracks r z s c taken where
  min_eq : s.min.isSome = c.opened
  max_eq : s.max.isSome = c.opened
  lst_of_opened : c.opened = true → s.lst.isSome = true
  opened_of_cnt : c.cnt ≠ 0 → c.opened = true

theorem refines_new : Refines r false (new r : BinnedBinsTimeweight V H R) (Cells.init r.binOff) [] where
  range_eq := rfl
  zero_eq := rfl
  edges_eq := by
    rw [edges, Nat.mul_comm]
    rfl
  cnt_eq := rfl
  out_eq := rfl
  min_eq := rfl
  max_eq := rfl
  lst_of_opened := nofun
  opened_of_cnt := fun h => absurd rfl h

/-- The active bin is put out exactly when the machine puts out the active cell. -/
theorem maybeEmitActive_eq (h : Refines r z s c taken) :
    ∃ bins, s.maybeEmitActive = .ok { s with out := s.out ++ bins }.resetForNewBin ∧
      bins.map (fun b => (b.ts1, b.ts2)) = if c.Emits z then [edges r c.active] else [] := by
  have hiff : (s.cnt ≠ 0 ∨ (s.produceCntZero ∧ s.min.isSome)) ↔ c.Emits z := by
    rw [h.cnt_eq, h.zero_eq, h.min_eq]
    rfl
  by_cases hemits : c.Emits z
  · have hopened : c.opened = true := by
      rcases hemits with hcnt | ⟨-, hopened⟩
      · exact h.opened_of_cnt hcnt
      · exact hopened
    obtain ⟨min, hmin⟩ := Option.isSome_iff_exists.mp (h.min_eq.trans hopened)
    obtain ⟨max, hmax⟩ := Option.isSome_iff_exists.mp (h.max_eq.trans hopened)
    obtain ⟨lst, hlst⟩ := Option.isSome_iff_exists.mp (h.lst_of_opened hopened)
    refine ⟨[⟨s.activeBeg, s.activeEnd, s.cnt, min, max, AggBinValTw.result s.agg, lst, !s.nonFnl⟩], ?_, ?_⟩
    · rw [maybeEmitActive, if_pos (hiff.mpr hemits), hmin, hmax, hlst]
    · rw [if_pos hemits, ← h.edges_eq]
      rfl
  · refine ⟨[], ?_, ?_⟩
    · rw [maybeEmitActive, if_neg (mt hiff.mp hemits), List.append_nil]
    · rw [if_neg hemits]
      rfl

/-- Finishing the active bin is leaving the active cell. -/
theorem finishBin_eq (h : Refines r z s c taken) (hlen : r.binLen ≠ 0) (ts : ℕ) :
    ∃ s', s.finishBin ts = .ok s' ∧ Tracks r z s' (c.leave z (ts / r.binLen)) taken ∧
      s'.min = s.lst ∧ s'.max = s.lst ∧ s'.lst = s.lst := by
  obtain ⟨bins, hemit, hbins⟩ := maybeEmitActive_eq h
  have hrange : s.range.binLen = r.binLen := congrArg BinnedRange.binLen h.range_eq
  rw [finishBin, hemit]
  refine ⟨_, if_neg (by rwa [← hrange] at hlen), ?_, rfl, rfl, rfl⟩
  constructor
  · exact h.range_eq
  · exact h.zero_eq
  · simp only [resetForNewBin, edges, Cells.leave, hrange]
  · rfl
  · simp only [resetForNewBin, ← List.append_assoc, List.map_append, h.out_eq, hbins, Cells.leave]
    split
    · rw [List.map_append]
      rfl
    · exact List.append_nil _

/-- An active bin that the machine has seen a piece of keeps its extrema. -/
theorem refines_finishBin (h : Refines r z s c taken) (hlen : r.binLen ≠ 0) (hopened : c.opened = true) (ts : ℕ) :
    ∃ s', s.finishBin ts = .ok s' ∧ Refines r z s' (c.leave z (ts / r.binLen)) taken := by
  obtain ⟨s', heq, htracks, hmin, hmax, hlst⟩ := finishBin_eq h hlen ts
  have hsome := h.lst_of_opened hopened
  refine ⟨s', heq, htracks, ?_, ?_, ?_, ?_⟩
  · rw [hmin, hsome]
    exact hopened.symm
  · rw [hmax, hsome]
    exact hopened.symm
  · intro
    rwa [hlst]
  · intro
    exact hopened

/-- The end of a cell that fits -/
theorem edges_of_fits {k : ℕ} (hfits : (k + 1) * r.binLen < u64Size) :
    edges r k = (k * r.binLen, (k + 1) * r.binLen) := by
  rw [Nat.succ_mul] at hfits ⊢
  rw [edges, add_of_lt hfits]

/-- Finishing the active bin where the source does, the binner goes on as the machine does. -/
theorem tracks_finish_of_le (h : Refines r z s c taken) (hlen : 0 < r.binLen) (ts : ℕ)
    (hfits : (c.active + 1) * r.binLen < u64Size) :
    ∃ s', s.finishBinIf (s.activeEnd ≤ ts) ts = .ok s' ∧
      Tracks r z s' (c.moveTo z (ts / r.binLen)) taken ∧
      (c.opened = true → Refines r z s' (c.moveTo z (ts / r.binLen)) taken) := by
  have hend : s.activeEnd = (c.active + 1) * r.binLen := by
    have hedges := h.edges_eq.trans (edges_of_fits hfits)
    exact congrArg Prod.snd hedges
  have hiff : s.activeEnd ≤ ts ↔ c.active < ts / r.binLen := by
    rw [hend]
    exact (Nat.le_div_iff_mul_le hlen).symm
  unfold finishBinIf Cells.moveTo
  by_cases hlt : c.active < ts / r.binLen
  · rw [if_pos (hiff.mpr hlt), if_pos hlt]
    obtain ⟨s', heq, htracks, -⟩ := finishBin_eq h hlen.ne' ts
    refine ⟨s', heq, htracks, ?_⟩
    intro hopened
    obtain ⟨s'', heq', hrefines⟩ := refines_finishBin h hlen.ne' hopened ts
    rw [heq] at heq'
    cases heq'
    exact hrefines
  · rw [if_neg (mt hiff.mp hlt), if_neg hlt]
    exact ⟨s, rfl, h.toTracks, fun _ => h⟩

variable [PartialOrdEvtA V]

@[simp]
theorem isSome_bound (a : Option V) (b : V) (d : Ordering) : (bound a b d).isSome = true := by
  unfold bound
  split
  · split <;> rfl
  · rfl

/-- Taking an input bin is taking its piece. -/
theorem refines_takeBin (h : Tracks r z s c taken) (hle : x.ts1 ≤ x.ts2) (hlen : x.ts2 - x.ts1 ≤ r.binLen) :
    ∃ s', s.takeBin x = .ok s' ∧ Refines r z s' (c.take u64Size x.cnt) taken := by
  have hset : Tracks r z (if x.ts1 = s.activeBeg then { s with min := some x.min, max := some x.max } else s)
      c taken := by
    split
    · exact ⟨h.range_eq, h.zero_eq, h.edges_eq, h.cnt_eq, h.out_eq⟩
    · exact h
  unfold takeBin
  generalize (if x.ts1 = s.activeBeg then { s with min := some x.min, max := some x.max } else s) = s₀ at hset ⊢
  have hdt : ¬ s₀.range.binLen < delta x.ts2 x.ts1 := by
    rw [delta_of_le hle, hset.range_eq]
    omega
  refine ⟨_, if_neg hdt, ⟨hset.range_eq, hset.zero_eq, hset.edges_eq, ?_, hset.out_eq⟩, ?_, ?_, ?_, ?_⟩
  · exact congrArg (fun n => add n x.cnt) hset.cnt_eq
  · exact isSome_bound s₀.min x.min .lt
  · exact isSome_bound s₀.max x.max .gt
  · intro
    rfl
  · intro
    rfl

/-- A step of the binner is a step of the machine. -/
theorem refines_ingestBin (h : Refines r z s c taken) (hlen : 0 < r.binLen) (hx : GridAligned r x) :
    ∃ s', s.ingestBin x = .ok s' ∧ Refines r z s' (c.ingest u64Size z (pieceOf r x)) taken := by
  have hbeg : s.activeBeg = c.active * r.binLen := congrArg Prod.fst h.edges_eq
  have hiff : x.ts1 < s.activeBeg ↔ (pieceOf r x).cell < c.active := by
    rw [hbeg]
    exact (Nat.div_lt_iff_lt_mul hlen).symm
  unfold ingestBin Cells.ingest
  by_cases hskip : (pieceOf r x).cell < c.active
  · rw [if_pos (hiff.mpr hskip), if_pos hskip]
    exact ⟨_, rfl, ⟨h.range_eq, h.zero_eq, h.edges_eq, h.cnt_eq, h.out_eq⟩, h.min_eq, h.max_eq, fun _ => rfl,
      h.opened_of_cnt⟩
  · rw [if_neg (mt hiff.mp hskip), if_neg hskip]
    have hle : c.active ≤ (pieceOf r x).cell := not_lt.mp hskip
    have hfits : (c.active + 1) * r.binLen < u64Size :=
      (Nat.mul_le_mul_right _ (Nat.succ_le_succ hle)).trans_lt hx.fits
    obtain ⟨s₁, heq₁, htracks, -⟩ := tracks_finish_of_le h hlen x.ts1 hfits
    -- the input bin ends in the active bin at the latest
    have hactive : (c.moveTo z (pieceOf r x).cell).active = (pieceOf r x).cell := Cells.active_moveTo hle
    have hend : s₁.activeEnd = ((pieceOf r x).cell + 1) * r.binLen := by
      have hfits₁ : ((pieceOf r x).cell + 1) * r.binLen < u64Size := hx.fits
      have hedges : (s₁.activeBeg, s₁.activeEnd) = edges r (pieceOf r x).cell := hactive ▸ htracks.edges_eq
      exact congrArg Prod.snd (hedges.trans (edges_of_fits hfits₁))
    have hnotB : ¬ s₁.activeEnd < x.ts2 := by
      rw [hend]
      exact not_lt.mpr hx.le
    have hdt : x.ts2 - x.ts1 ≤ r.binLen := by
      have hcell : x.ts1 / r.binLen * r.binLen ≤ x.ts1 := Nat.div_mul_le_self _ _
      have hle₂ := hx.le
      rw [Nat.succ_mul] at hle₂
      omega
    obtain ⟨s₂, heq₂, hrefines⟩ := refines_takeBin htracks hx.lt.le hdt
    obtain ⟨s₃, heq₃, -, hrefines₃⟩ := tracks_finish_of_le hrefines hlen x.ts2 (by
      rw [Cells.active_take]
      exact hactive ▸ hx.fits)
    refine ⟨s₃, ?_, hrefines₃ rfl⟩
    have hB : s₁.finishBinIf (s₁.activeEnd < x.ts2) x.ts2 = .ok s₁ := if_neg hnotB
    simp only [bind, Except.bind, heq₁, hB, heq₂, heq₃]

/-- A container of input bins is so many steps of the machine. -/
theorem refines_ingestBins {bins : List (Bin V R)} (h : Refines r z s c taken) (hlen : 0 < r.binLen)
    (hbins : ∀ x ∈ bins, GridAligned r x) :
    ∃ s', s.ingestBins bins = .ok s' ∧
      Refines r z s' ((bins.map (pieceOf r)).foldl (Cells.ingest u64Size z) c) taken := by
  induction bins generalizing s c with
  | nil => exact ⟨s, rfl, h⟩
  | cons x bins ih =>
      obtain ⟨s₁, heq₁, hrefines₁⟩ := refines_ingestBin h hlen (hbins x List.mem_cons_self)
      obtain ⟨s₂, heq₂, hrefines₂⟩ := ih hrefines₁ (fun y hy => hbins y (List.mem_cons_of_mem _ hy))
      refine ⟨s₂, ?_, hrefines₂⟩
      rw [ingestBins, List.foldlM_cons, heq₁]
      exact heq₂

omit [PartialOrdEvtA V] [AggBinValTw H R] in
/-- Taking the output does not change what was put out in all. -/
theorem refines_output (h : Refines r z s c taken) : Refines r z s.output.2 c (taken ++ s.output.1.getD []) := by
  unfold output
  split
  · rwa [show (none : Option (List (Bin V R))).getD [] = [] from rfl, List.append_nil]
  · refine ⟨⟨h.range_eq, h.zero_eq, h.edges_eq, h.cnt_eq, ?_⟩, h.min_eq, h.max_eq, h.lst_of_opened, h.opened_of_cnt⟩
    rw [List.append_nil]
    exact h.out_eq

/-- The operations are steps of the machine, however the input is cut into containers and the output is
taken. -/
theorem refines_feed {ops : List (Op V R)} (h : Refines r z s c taken) (hlen : 0 < r.binLen)
    (hops : ∀ x ∈ ops.flatMap Op.bins, GridAligned r x) :
    ∃ s' taken', feed ops (s, taken) = .ok (s', taken') ∧
      Refines r z s' (((ops.flatMap Op.bins).map (pieceOf r)).foldl (Cells.ingest u64Size z) c) taken' := by
  induction ops generalizing s c taken with
  | nil => exact ⟨s, taken, rfl, h⟩
  | cons op ops ih =>
      rw [List.flatMap_cons] at hops ⊢
      have hrest : ∀ x ∈ ops.flatMap Op.bins, GridAligned r x := fun x hx => hops x (List.mem_append_right _ hx)
      cases op with
      | ingest bins =>
          have hbins : ∀ x ∈ bins, GridAligned r x := fun x hx => hops x (List.mem_append_left _ hx)
          obtain ⟨s₁, heq₁, hrefines₁⟩ := refines_ingestBins h hlen hbins
          obtain ⟨s₂, taken₂, heq₂, hrefines₂⟩ := ih hrefines₁ hrest
          refine ⟨s₂, taken₂, ?_, ?_⟩
          · rw [feed, heq₁]
            exact heq₂
          · rw [List.map_append, List.foldl_append]
            exact hrefines₂
      | output => exact ih (refines_output h) hrest

omit [PartialOrdEvtA V] in
/-- The end of the input is leaving the active cell. -/
theorem inputDone_eq (h : Refines r z s c taken) (hlen : 0 < r.binLen) (done : InputDone) :
    ∃ s' k, s.inputDone done = .ok s' ∧ Tracks r z s' (c.leave z k) taken := by
  unfold inputDone
  cases done with
  | rangeFinal =>
      obtain ⟨s', heq, htracks, -⟩ := finishBin_eq h hlen.ne' (add s.activeBeg s.range.binLen)
      exact ⟨s', _, heq, htracks⟩
  | rangeOpen =>
      have hopen : Refines r z { s with nonFnl := true } c taken :=
        ⟨⟨h.range_eq, h.zero_eq, h.edges_eq, h.cnt_eq, h.out_eq⟩, h.min_eq, h.max_eq, h.lst_of_opened,
          h.opened_of_cnt⟩
      obtain ⟨s', heq, htracks, -⟩ := finishBin_eq hopen hlen.ne' (add s.activeBeg s.range.binLen)
      exact ⟨s', _, heq, htracks⟩

end Refinement

/-! ## The shape of the output -/

/-- What the edges of the bins that are put out should be like. -/
structure Shaped (r : BinnedRange) (z : Bool) (bins : List (ℕ × ℕ)) : Prop where
  aligned : ∀ b ∈ bins, r.binLen ∣ b.1 ∧ b.2 = b.1 + r.binLen
  increasing : bins.Pairwise fun b b' => b.2 ≤ b'.1
  inside : ∀ b ∈ bins, r.nanoBeg ≤ b.1 ∧ b.2 ≤ r.nanoEnd
  contiguous : z = true → bins.IsChain fun b b' => b.2 = b'.1

/-- The count of an output bin, which is a {lit}`u64` number. -/
def cellCount (r : BinnedRange) (bins : List (Bin V R)) (k : ℕ) : ℕ :=
  ((bins.filter fun x => x.ts1 / r.binLen = k).map Bin.cnt).sum % u64Size

/-- The condition under which the output has its shape.  With empty bins enabled, all input bins end in front
of the end of the range, and none skips an output bin that the one before does not reach.  With empty bins
disabled, no output bin behind the range has a count. -/
def Fits (r : BinnedRange) (z : Bool) (bins : List (Bin V R)) : Prop :=
  0 < r.binLen ∧
    if z then
      (∀ x ∈ bins, r.nanoBeg ≤ x.ts1 → x.ts2 < r.nanoEnd) ∧
        (bins.filter fun x => r.nanoBeg ≤ x.ts1).IsChain fun x y => y.ts1 / r.binLen ≤ x.ts2 / r.binLen + 1
    else ∀ k, r.binOff + r.binCnt ≤ k → cellCount r bins k = 0

/-- Increasing cells have their shape exactly when they are in the range and, if they have to, follow one
another. -/
theorem shaped_iff {r : BinnedRange} {z : Bool} {ks : List ℕ} (hlen : 0 < r.binLen) (hend : r.nanoEnd < u64Size)
    (hks : ks.Pairwise (· < ·)) (hoff : ∀ k ∈ ks, r.binOff ≤ k) :
    Shaped r z (ks.map (edges r)) ↔
      (∀ k ∈ ks, k < r.binOff + r.binCnt) ∧ (z = true → Cells.Contiguous ks) := by
  have hfits : (∀ k ∈ ks, k < r.binOff + r.binCnt) → ∀ k ∈ ks,
      edges r k = (k * r.binLen, (k + 1) * r.binLen) := by
    intro hlt k hk
    apply edges_of_fits
    apply lt_of_le_of_lt _ hend
    rw [BinnedRange.nanoEnd, Nat.mul_comm]
    exact Nat.mul_le_mul_left _ (hlt k hk)
  have hchain : (∀ k ∈ ks, k < r.binOff + r.binCnt) →
      ((ks.map (edges r)).IsChain (fun b b' => b.2 = b'.1) ↔ Cells.Contiguous ks) := by
    intro hlt
    rw [List.isChain_map]
    apply List.IsChain.iff_of_mem_imp
    intro j k hj hk
    rw [hfits hlt j hj, hfits hlt k hk]
    constructor
    · intro h
      exact (Nat.eq_of_mul_eq_mul_right hlen h).symm
    · rintro rfl
      rfl
  constructor
  · intro h
    have hlt : ∀ k ∈ ks, k < r.binOff + r.binCnt := by
      intro k hk
      have hmem : edges r k ∈ ks.map (edges r) := List.mem_map_of_mem hk
      have hsucc : (edges r k).2 = (k + 1) * r.binLen := by
        rw [(h.aligned _ hmem).2, Nat.succ_mul]
        rfl
      have hle := (h.inside _ hmem).2
      rw [hsucc, BinnedRange.nanoEnd, Nat.mul_comm] at hle
      exact Nat.le_of_mul_le_mul_left hle hlen
    exact ⟨hlt, fun hz => (hchain hlt).mp (h.contiguous hz)⟩
  · rintro ⟨hlt, hcontiguous⟩
    refine ⟨?_, ?_, ?_, fun hz => (hchain hlt).mpr (hcontiguous hz)⟩
    · rw [List.forall_mem_map]
      intro k hk
      rw [hfits hlt k hk]
      exact ⟨Dvd.intro_left k rfl, Nat.succ_mul _ _⟩
    · rw [List.pairwise_map]
      apply hks.imp_of_mem
      intro j k hj hk hjk
      rw [hfits hlt j hj, hfits hlt k hk]
      exact Nat.mul_le_mul_right _ hjk
    · rw [List.forall_mem_map]
      intro k hk
      rw [hfits hlt k hk, BinnedRange.nanoBeg, BinnedRange.nanoEnd, Nat.mul_comm, Nat.mul_comm r.binLen]
      exact ⟨Nat.mul_le_mul_right _ (hoff k hk), Nat.mul_le_mul_right _ (hlt k hk)⟩

/-! ## Runs -/

section Run

variable {r : BinnedRange} {z : Bool} {bins : List (Bin V R)}

theorem valid_pieceOf {x : Bin V R} (hlen : 0 < r.binLen) (hx : GridAligned r x) : (pieceOf r x).Valid where
  cell_le := Nat.div_le_div_right hx.lt.le
  next_le := (Nat.div_le_div_right hx.le).trans_eq (Nat.mul_div_cancel _ hlen)

/-- The input bins that are not in front of the range -/
def visible (r : BinnedRange) (bins : List (Bin V R)) : List (Bin V R) := bins.filter fun x => r.nanoBeg ≤ x.ts1

theorem filter_pieceOf (hlen : 0 < r.binLen) (bins : List (Bin V R)) :
    (bins.map (pieceOf r)).filter (fun p => r.binOff ≤ p.cell) = (visible r bins).map (pieceOf r) := by
  rw [List.filter_map, visible]
  congr 2
  funext x
  apply decide_eq_decide.mpr
  rw [BinnedRange.nanoBeg, Nat.mul_comm]
  exact Nat.le_div_iff_mul_le hlen

theorem ordered_pieceOf (hord : bins.Pairwise fun x y => x.ts2 ≤ y.ts1) :
    Cells.Ordered ((visible r bins).map (pieceOf r)) := by
  apply List.pairwise_map.mpr
  apply (List.Pairwise.filter _ hord).imp
  intro x y hxy
  exact Nat.div_le_div_right hxy

/-- What the machine puts out from the pieces of the input. -/
def cellsOf (r : BinnedRange) (z : Bool) (bins : List (Bin V R)) (k : ℕ) : List ℕ :=
  (((bins.map (pieceOf r)).foldl (Cells.ingest u64Size z) (Cells.init r.binOff)).leave z k).out

theorem cellsOf_visible (hlen : 0 < r.binLen) (k : ℕ) :
    cellsOf r z bins k =
      ((((visible r bins).map (pieceOf r)).foldl (Cells.ingest u64Size z) (Cells.init r.binOff)).leave z k).out := by
  rw [cellsOf, Cells.foldl_filter (a := r.binOff) le_rfl, filter_pieceOf hlen]

/-- An output bin at the range or behind it has the count of the input bins that are visible. -/
theorem count_visible (hlen : 0 < r.binLen) {k : ℕ} (hk : r.binOff ≤ k) :
    Cells.count u64Size ((visible r bins).map (pieceOf r)) k = cellCount r bins k := by
  rw [Cells.count, cellCount, List.filter_map, List.map_map, visible, List.filter_filter]
  congr 3
  apply List.filter_congr
  intro x _
  by_cases hx : x.ts1 / r.binLen = k
  · have hvisible : r.nanoBeg ≤ x.ts1 := by
      rw [BinnedRange.nanoBeg, Nat.mul_comm]
      exact (Nat.le_div_iff_mul_le hlen).mp (hx ▸ hk)
    simp [pieceOf, hx, hvisible]
  · simp [pieceOf, hx]

/-- The cells that are put out are in the range, and contiguous where they should be, exactly when the input
fits. -/
theorem cellsOf_iff {k : ℕ} (hlen : 0 < r.binLen) (hgrid : ∀ x ∈ bins, GridAligned r x)
    (hord : bins.Pairwise fun x y => x.ts2 ≤ y.ts1) :
    ((∀ j ∈ cellsOf r z bins k, j < r.binOff + r.binCnt) ∧ (z = true → Cells.Contiguous (cellsOf r z bins k))) ↔
      Fits r z bins := by
  have hvalid : ∀ p ∈ (visible r bins).map (pieceOf r), p.Valid := by
    rw [List.forall_mem_map]
    intro x hx
    exact valid_pieceOf hlen (hgrid x (List.mem_of_mem_filter hx))
  have hpieces := ordered_pieceOf (r := r) hord
  have hle : ∀ p ∈ (visible r bins).map (pieceOf r), r.binOff ≤ p.cell := by
    rw [← filter_pieceOf hlen]
    intro p hp
    exact of_decide_eq_true (List.mem_filter.mp hp).2
  rw [Fits, and_iff_right hlen, cellsOf_visible hlen]
  cases z with
  | true =>
      rw [Cells.below_iff hvalid hpieces hle, Cells.contiguous_iff hvalid hpieces hle, if_pos rfl]
      apply and_congr
      · rw [List.forall_mem_map, visible]
        simp only [List.mem_filter, decide_eq_true_eq, and_imp]
        apply forall₂_congr
        intro x _
        apply imp_congr_right
        intro
        rw [BinnedRange.nanoEnd, Nat.mul_comm]
        exact Nat.div_lt_iff_lt_mul hlen
      · apply (forall_prop_of_true rfl).trans
        rw [Cells.Gapless, List.isChain_map]
        rfl
  | false =>
      rw [if_neg Bool.false_ne_true, and_iff_left fun h => absurd h Bool.false_ne_true]
      constructor
      · intro h k hk
        by_contra hcount
        rw [← count_visible hlen (by omega)] at hcount
        have hlt := h k ((Cells.mem_out_iff (by decide) hvalid hpieces hle).mpr hcount)
        omega
      · intro h j hj
        have hcount := (Cells.mem_out_iff (by decide) hvalid hpieces hle).mp hj
        by_contra hlt
        rw [not_lt] at hlt
        rw [count_visible hlen (by omega)] at hcount
        exact hcount (h j hlt)

omit [AggBinValTw H R] in
/-- All that was put out is taken. -/
theorem getD_output (s : BinnedBinsTimeweight V H R) : s.output.1.getD [] = s.out := by
  unfold output
  split
  · rename_i hzero
    exact (List.eq_nil_of_length_eq_zero hzero).symm
  · rfl

/-- A run puts out the cells of the machine. -/
theorem run_eq [PartialOrdEvtA V] {ops : List (Op V R)} (hlen : 0 < r.binLen)
    (hgrid : ∀ x ∈ ops.flatMap Op.bins, GridAligned r x) (done : InputDone) :
    ∃ out k, run H r z ops done = .ok out ∧
      out.map (fun b => (b.ts1, b.ts2)) = (cellsOf r z (ops.flatMap Op.bins) k).map (edges r) := by
  have hnew : Refines r z (if z then (new r : BinnedBinsTimeweight V H R).cntZeroEnable else new r)
      (Cells.init r.binOff) [] := by
    have h : Refines r false (new r : BinnedBinsTimeweight V H R) (Cells.init r.binOff) [] := refines_new
    cases z with
    | true => exact ⟨⟨h.range_eq, rfl, h.edges_eq, h.cnt_eq, h.out_eq⟩, h.min_eq, h.max_eq, nofun, h.opened_of_cnt⟩
    | false => exact h
  obtain ⟨s₁, taken, heq₁, hrefines⟩ := refines_feed hnew hlen hgrid
  obtain ⟨s₂, k, heq₂, htracks⟩ := inputDone_eq hrefines hlen done
  refine ⟨taken ++ s₂.output.1.getD [], k, ?_, ?_⟩
  · simp only [run, bind, Except.bind, heq₁, heq₂]
    rfl
  · rw [getD_output, htracks.out_eq]
    rfl

/-- Where the bins have no length, finishing a bin divides by zero. -/
theorem finishBin_ne_ok {s : BinnedBinsTimeweight V H R} (hlen : s.range.binLen = 0) (ts : ℕ)
    (s' : BinnedBinsTimeweight V H R) : s.finishBin ts ≠ .ok s' := by
  unfold finishBin
  cases heq : s.maybeEmitActive with
  | error => nofun
  | ok s₁ =>
      have hrange : s₁.range = s.range := by
        unfold maybeEmitActive at heq
        split at heq
        · split at heq
          · cases heq
            rfl
          · cases heq
        · cases heq
          rfl
      have hforward : s₁.activeForward ts = .error .panicked := if_pos (hrange ▸ hlen)
      rw [show (Except.ok s₁ : Except BinsFault _).bind (activeForward · ts) = s₁.activeForward ts from rfl, hforward]
      nofun

/-- Operations without input keep the range. -/
theorem range_feed [PartialOrdEvtA V] {ops : List (Op V R)} (hnil : ops.flatMap Op.bins = [])
    (s : BinnedBinsTimeweight V H R) (taken : List (Bin V R)) :
    ∃ s' taken', feed ops (s, taken) = .ok (s', taken') ∧ s'.range = s.range := by
  induction ops generalizing s taken with
  | nil => exact ⟨s, taken, rfl, rfl⟩
  | cons op ops ih =>
      obtain ⟨hop, hrest⟩ := List.append_eq_nil_iff.mp (List.flatMap_cons ▸ hnil)
      cases op with
      | ingest bins =>
          cases (show bins = [] from hop)
          exact ih hrest s taken
      | output =>
          obtain ⟨s', taken', heq, hrange⟩ := ih hrest s.output.2 (taken ++ s.output.1.getD [])
          refine ⟨s', taken', heq, hrange.trans ?_⟩
          unfold output
          split
          · rfl
          · rfl

theorem run_ne_ok [PartialOrdEvtA V] {ops : List (Op V R)} (hlen : r.binLen = 0)
    (hgrid : ∀ x ∈ ops.flatMap Op.bins, GridAligned r x) (done : InputDone) (out : List (Bin V R)) :
    run H r z ops done ≠ .ok out := by
  have hnil : ops.flatMap Op.bins = [] := by
    apply List.eq_nil_iff_forall_not_mem.mpr
    intro x hx
    have hle := (hgrid x hx).le
    rw [hlen, Nat.mul_zero] at hle
    exact absurd ((hgrid x hx).lt.trans_le hle) (Nat.not_lt_zero _)
  obtain ⟨s, taken, heq, hrange⟩ :=
    range_feed hnil (if z then (new r : BinnedBinsTimeweight V H R).cntZeroEnable else new r) []
  have hzero : s.range.binLen = 0 := by
    rw [hrange]
    cases z <;> exact hlen
  have hdone : ∀ s', s.inputDone done ≠ .ok s' := by
    intro s'
    cases done with
    | rangeFinal => exact finishBin_ne_ok hzero _ _
    | rangeOpen => exact finishBin_ne_ok (s := { s with nonFnl := true }) hzero _ _
  intro hrun
  simp only [run, bind, Except.bind, heq] at hrun
  cases hfinish : s.inputDone done with
  | error => simp [hfinish] at hrun
  | ok s' => exact hdone s' hfinish

/-- For every range and grid-aligned, increasing input, however it is cut into containers and the output is
taken, and for both ends of the input: a run ends with an output of the right shape exactly when the input
fits. -/
theorem shaped_run [PartialOrdEvtA V] (r : BinnedRange) (z : Bool) (ops : List (Op V R)) (done : InputDone)
    (hend : r.nanoEnd < u64Size) (hgrid : ∀ x ∈ ops.flatMap Op.bins, GridAligned r x)
    (hord : (ops.flatMap Op.bins).Pairwise fun x y => x.ts2 ≤ y.ts1) :
    (∃ out, run H r z ops done = .ok out ∧ Shaped r z (out.map fun b => (b.ts1, b.ts2))) ↔
      Fits r z (ops.flatMap Op.bins) := by
  rcases Nat.eq_zero_or_pos r.binLen with hzero | hlen
  · apply iff_of_false
    · rintro ⟨out, heq, -⟩
      exact run_ne_ok hzero hgrid done out heq
    · rintro ⟨hpos, -⟩
      exact hpos.ne' hzero
  · obtain ⟨out, k, heq, hout⟩ := run_eq (H := H) (z := z) hlen hgrid done
    have hoff : ∀ j ∈ cellsOf r z (ops.flatMap Op.bins) k, r.binOff ≤ j := fun j hj => Cells.le_of_mem_out hj
    have hincreasing : (cellsOf r z (ops.flatMap Op.bins) k).Pairwise (· < ·) := Cells.increasing_out _ _
    have hshape := shaped_iff (z := z) hlen hend hincreasing hoff
    rw [cellsOf_iff hlen hgrid hord, ← hout] at hshape
    rw [← hshape, heq]
    constructor
    · rintro ⟨out', heq', h⟩
      cases heq'
      exact h
    · intro h
      exact ⟨out, rfl, h⟩

/-- A range of six bins of ten, with input in the first and, after a cut, in the third and fourth. -/
theorem shaped_run_one :
    (∃ out, run AggBinValTwF32 ⟨10, 60, 6⟩ true
        [.ingest [⟨600, 605, 1, 3, 5, .rat 4, 4, true⟩, ⟨605, 610, 1, 3, 5, .rat 4, 4, true⟩], .output,
          .ingest [⟨620, 625, 1, 3, 5, .rat 4, 4, true⟩, ⟨630, 635, 2, 3, 5, .rat 4, 4, true⟩]] .rangeFinal =
          .ok out ∧ Shaped ⟨10, 60, 6⟩ true (out.map fun b : Bin ℕ Num => (b.ts1, b.ts2))) ↔
      Fits ⟨10, 60, 6⟩ true ([⟨600, 605, 1, 3, 5, .rat 4, 4, true⟩, ⟨605, 610, 1, 3, 5, .rat 4, 4, true⟩,
        ⟨620, 625, 1, 3, 5, .rat 4, 4, true⟩, ⟨630, 635, 2, 3, 5, .rat 4, 4, true⟩] : List (Bin ℕ Num)) := by
  refine shaped_run _ _ _ _ (by decide) ?_ (by decide)
  simp only [List.flatMap_cons, List.flatMap_nil, Op.bins, List.append_nil, List.nil_append, List.cons_append,
    List.forall_mem_cons, List.not_mem_nil, false_implies, implies_true, and_true]
  exact ⟨⟨by decide, by decide, by decide⟩, ⟨by decide, by decide, by decide⟩, ⟨by decide, by decide, by decide⟩,
    ⟨by decide, by decide, by decide⟩⟩

/-- A range of four bins of ten, of which the first and the last are filled: one empty bin is put out between
them where there should be two, and one behind the range. -/
theorem not_shaped_run :
    ∃ out, run AggBinValTwF32 ⟨10, 60, 4⟩ true
        [.ingest [⟨600, 610, 1, 3, 5, .rat 4, 4, true⟩, ⟨630, 640, 1, 3, 5, .rat 4, 4, true⟩]] .rangeFinal =
        .ok out ∧
      out.map (fun b : Bin ℕ Num => (b.ts1, b.ts2)) = [(600, 610), (610, 620), (630, 640), (640, 650)] ∧
      ¬ Shaped ⟨10, 60, 4⟩ true (out.map fun b => (b.ts1, b.ts2)) := by
  refine ⟨_, rfl, rfl, ?_⟩
  intro h
  exact absurd (h.inside (640, 650) (by decide)).2 (by decide)

end Run

end BinnedBinsTimeweight
end Binning
end Daqbuf
