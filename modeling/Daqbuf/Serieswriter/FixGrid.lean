import Daqbuf.Serieswriter.Writer
import Daqbuf.Slots.Pool
/-!
# Fixed Grid

A series writer works with any way to split into partitions.  {lit}`MspSplitFixGrid` is the one for channel
status: its partitions are the cells of a grid of milliseconds.  Two of its operations are not written yet
({lit}`todo!`), and its state, the last partition, is only set where it is set already.

Main results:

- Theorem {lit}`FixGridRun.step_onGrid`: every value is pushed with its time, and on the grid.
- Theorem {lit}`FixGridRun.announces_iff`: when each partition is announced once and no call panics.
- Theorem {lit}`FixGridRun.not_announces`: two values in one cell, which is announced twice.
-/

namespace Daqbuf
namespace Serieswriter

open Netpod

/-! ## Ways to split -/

/-- {lit}`MspSplit`.  An operation that panics has no result. -/
class MspSplit (SPL : Type) where
  split : SPL → ℕ → ℕ → Option (SplitRes × SPL)
  tsMspCurrent : SPL → Option (Option ℕ)

/-- {lit}`MspSplitFixGrid`, with the width of the grid in milliseconds -/
structure MspSplitFixGrid where
  gridDt : ℕ
  last : Option ℕ
  deriving DecidableEq, Repr

/-- {lit}`CHANNEL_STATUS_GRID` -/
def channelStatusGrid : ℕ := 1000 * 60 * 60

namespace MspSplitFixGrid

/-- {lit}`new` -/
def new (gridDt : ℕ) : MspSplitFixGrid where
  gridDt := gridDt
  last := none

/-- {lit}`for_channel_status` -/
def forChannelStatus : MspSplitFixGrid := new channelStatusGrid

/-- The first component of {lit}`TsMs::to_grid_02`, a time in milliseconds. -/
def toGrid02 (ms grid : ℕ) : ℕ := ms / grid * grid

/-- The cell of a time on the grid, by its first nanosecond. -/
def cellOf (gridDt ts : ℕ) : ℕ := nsOfMs (toGrid02 (toTsMs ts) gridDt)

/-- {lit}`split`.  The grid divides. -/
def split (s : MspSplitFixGrid) (ts _itemBytes : ℕ) : Option (SplitRes × MspSplitFixGrid) :=
  if s.gridDt = 0 then none
  else
    let msp := cellOf s.gridDt ts
    match s.last with
    | some tsMspLast =>
        if msp ≠ tsMspLast then some (⟨msp, ts - msp, true, some tsMspLast⟩, { s with last := some msp })
        else some (⟨msp, ts - msp, false, none⟩, s)
    | none => some (⟨msp, ts - msp, true, none⟩, s)

/-- {lit}`ts_msp_current` -/
def tsMspCurrent (_s : MspSplitFixGrid) : Option (Option ℕ) := none

theorem cellOf_le (gridDt ts : ℕ) : cellOf gridDt ts ≤ ts := by
  have hgrid : toGrid02 (toTsMs ts) gridDt ≤ toTsMs ts := Nat.div_mul_le_self _ _
  calc cellOf gridDt ts ≤ 1000000 * toTsMs ts := Nat.mul_le_mul_left _ hgrid
    _ ≤ ts := Nat.mul_div_le ts 1000000

/-- A cell begins with a whole millisecond. -/
theorem toTsMs_cellOf (gridDt ts : ℕ) : toTsMs (cellOf gridDt ts) = toGrid02 (toTsMs ts) gridDt :=
  Nat.mul_div_cancel_left _ (by decide)

/-- Without a last partition, every split begins one, and leaves none. -/
theorem split_of_last_eq_none {s : MspSplitFixGrid} (hlast : s.last = none) (ts itemBytes : ℕ) :
    s.split ts itemBytes =
      if s.gridDt = 0 then none
      else some (⟨cellOf s.gridDt ts, ts - cellOf s.gridDt ts, true, none⟩, s) := by
  rw [split, hlast]

end MspSplitFixGrid

instance : MspSplit MspSplitFixGrid where
  split := MspSplitFixGrid.split
  tsMspCurrent := MspSplitFixGrid.tsMspCurrent

/-! ## Writer -/

/-- {lit}`SeriesWriter`, with its way to split -/
structure WriterOf (SPL : Type) where
  series : ℕ
  mspSplit : SPL
  evtsOnMspWrite : ℕ
  evtsLatest : ℕ
  tsCheckTsMspReputLast : ℕ
  tsTsMspPutLast : Option ℕ
  deriving DecidableEq, Repr

namespace WriterOf

variable {SPL ET S D : Type} [MspSplit SPL] [EmittableType ET S D]

/-- {lit}`new` -/
def new (series : ℕ) (spl : SPL) (tsnow : ℕ) : WriterOf SPL where
  series := series
  mspSplit := spl
  evtsOnMspWrite := 0
  evtsLatest := 0
  tsCheckTsMspReputLast := tsnow
  tsTsMspPutLast := none

/-- {lit}`write`; the monotonic clock reads {lit}`tsnow`. -/
def write (w : WriterOf SPL) (item : ET) (state : S) (tsNet tsev tsnow : ℕ) (deque : List (QueryItem D)) :
    Option (SeriesWriteRes × WriterOf SPL × S × List (QueryItem D)) :=
  let (res, state) := EmittableType.intoQueryItem item tsNet tsev state
  (MspSplit.split w.mspSplit tsev res.bytes).map fun (spl, mspSplit) =>
    (⟨res.bytes, if spl.retired.isSome then 1 else 0⟩,
      { w with
        mspSplit := mspSplit
        evtsOnMspWrite := if spl.changed then tsev else w.evtsOnMspWrite
        tsTsMspPutLast := if spl.changed then some tsnow else w.tsTsMspPutLast
        evtsLatest := tsev },
      state,
      deque ++ SeriesWriter.mspItems w.series tsNet spl ++
        [.insert ⟨w.series, toTsMs spl.tsMsp, spl.tsLsp, res.dataItem, tsNet⟩])

/-- {lit}`on_close`; the first component is {lit}`ts_msp_reput`. -/
def onClose (w : WriterOf SPL) (tsnow : ℕ) (deque : List (QueryItem D)) :
    Option (ℕ × WriterOf SPL × List (QueryItem D)) :=
  (MspSplit.tsMspCurrent w.mspSplit).map fun
    | some msp => (1, w, deque ++ [.msp ⟨w.series, toTsMs msp, tsnow⟩])
    | none => (1, w, deque)

/-- {lit}`housekeeping`; the first component is {lit}`ts_msp_reput`.  The current partition is asked for last. -/
def housekeeping (w : WriterOf SPL) (tsnow : ℕ) (deque : List (QueryItem D)) :
    Option (ℕ × WriterOf SPL × List (QueryItem D)) :=
  if SeriesWriter.reputCheckIvl ≤ tsnow - w.tsCheckTsMspReputLast then
    let w := { w with tsCheckTsMspReputLast := tsnow }
    match w.tsTsMspPutLast with
    | some putLast =>
        if SeriesWriter.reputIvl ≤ tsnow - putLast ∧ w.evtsLatest ≠ w.evtsOnMspWrite then
          (MspSplit.tsMspCurrent w.mspSplit).map fun
            | some msp =>
                (1, { w with tsTsMspPutLast := some tsnow, evtsOnMspWrite := w.evtsLatest },
                  deque ++ [.msp ⟨w.series, toTsMs msp, tsnow⟩])
            | none => (0, w, deque)
        else some (0, w, deque)
    | none => some (0, w, deque)
  else some (0, w, deque)

end WriterOf

/-- {lit}`ChannelStatusWriteValue` -/
structure ChannelStatusWriteValue where
  ts : ℕ
  val : ℕ
  deriving DecidableEq, Repr

instance : EmittableType ChannelStatusWriteValue Unit ℕ where
  hasChange _ _ := true
  intoQueryItem item _ _ state := (⟨item.val, 8⟩, state)

/-! ## Runs -/

/-- A call of a writer on a fixed grid. -/
inductive FixGridCall (ET : Type) where
  | write (item : ET) (tsNet tsev tsnow : ℕ)
  | housekeeping (tsnow : ℕ)
  | onClose (tsnow : ℕ)

/-- What a call pushed, with the time of the last event before it. -/
structure Pushed (ET D : Type) where
  previous : Option ℕ
  call : FixGridCall ET
  items : List (QueryItem D)

/-- The partitions that are announced with an event: the new one, and the one that it retires. -/
def announcements (gridDt : ℕ) (previous : Option ℕ) (ts : ℕ) : List ℕ :=
  match previous with
  | none => [MspSplitFixGrid.cellOf gridDt ts]
  | some last =>
      if MspSplitFixGrid.cellOf gridDt last = MspSplitFixGrid.cellOf gridDt ts then []
      else [MspSplitFixGrid.cellOf gridDt last, MspSplitFixGrid.cellOf gridDt ts]

/-- A write pushes the partitions that are to be announced, and then the value with its time and on the grid; the
other calls push at most the partition of the last event. -/
def Pushed.Announced {ET D : Type} (gridDt series : ℕ) (p : Pushed ET D) : Prop :=
  match p.call with
  | .write _ tsNet tsev _ => ∃ item : InsertItem D, item.ts = tsev ∧ gridDt ∣ item.tsMsp ∧
      p.items = (announcements gridDt p.previous tsev).map (fun msp => .msp ⟨series, toTsMs msp, tsNet⟩) ++
        [.insert item]
  | _ => ∀ q ∈ p.items, ∃ last tsNet, p.previous = some last ∧
      q = .msp ⟨series, toTsMs (MspSplitFixGrid.cellOf gridDt last), tsNet⟩

/-- A writer on a fixed grid with everything it pushed, the times of the events that it wrote, and what each call
pushed. -/
structure FixGridRun (ET S D : Type) where
  writer : WriterOf MspSplitFixGrid
  state : S
  deque : List (QueryItem D)
  written : List ℕ
  log : List (Pushed ET D)
  panicked : Bool

namespace FixGridRun

variable {ET S D : Type} [EmittableType ET S D]

/-- A new writer. -/
def new (series gridDt : ℕ) (state : S) (tsnow : ℕ) : FixGridRun ET S D where
  writer := WriterOf.new series (MspSplitFixGrid.new gridDt) tsnow
  state := state
  deque := []
  written := []
  log := []
  panicked := false

/-- What a call pushed, in terms of the queue that it left. -/
def pushed (r : FixGridRun ET S D) (call : FixGridCall ET) (deque : List (QueryItem D)) : Pushed ET D where
  previous := r.written.getLast?
  call := call
  items := deque.drop r.deque.length

/-- The effect of a call that did not panic. -/
def call (r : FixGridRun ET S D) : FixGridCall ET → Option (FixGridRun ET S D)
  | .write item tsNet tsev tsnow =>
      (r.writer.write item r.state tsNet tsev tsnow r.deque).map fun (_, writer, state, deque) =>
        { r with
          writer := writer
          state := state
          deque := deque
          written := r.written ++ [tsev]
          log := r.log ++ [r.pushed (.write item tsNet tsev tsnow) deque] }
  | .housekeeping tsnow =>
      (r.writer.housekeeping tsnow r.deque).map fun (_, writer, deque) =>
        { r with writer := writer, deque := deque, log := r.log ++ [r.pushed (.housekeeping tsnow) deque] }
  | .onClose tsnow =>
      (r.writer.onClose tsnow r.deque).map fun (_, writer, deque) =>
        { r with writer := writer, deque := deque, log := r.log ++ [r.pushed (.onClose tsnow) deque] }

/-- The effect of a call.  There is none behind a panic. -/
def step (c : FixGridCall ET) (r : FixGridRun ET S D) : Option (FixGridRun ET S D) :=
  if r.panicked then none else some ((r.call c).getD { r with panicked := true })

/-- No call panicked, and each partition was announced once. -/
structure Announces (gridDt series : ℕ) (r : FixGridRun ET S D) : Prop where
  running : r.panicked = false
  announced : ∀ p ∈ r.log, p.Announced gridDt series

/-- The calls that announce partitions once: the write of the first event, on a grid, and housekeeping. -/
def Announcing (gridDt : ℕ) : FixGridCall ET → FixGridRun ET S D → Prop
  | .write _ _ _ _, r => 0 < gridDt ∧ r.written = []
  | .housekeeping _, _ => True
  | .onClose _, _ => False

/-! ### What one call does -/

/-- The writer remembers no partition, and all its events are those it announced a partition for. -/
structure Forgetful (gridDt series : ℕ) (w : WriterOf MspSplitFixGrid) : Prop where
  gridDt_eq : w.mspSplit.gridDt = gridDt
  series_eq : w.series = series
  last_eq : w.mspSplit.last = none
  latest_eq : w.evtsLatest = w.evtsOnMspWrite

theorem Forgetful.new (series gridDt tsnow : ℕ) :
    Forgetful gridDt series (WriterOf.new series (MspSplitFixGrid.new gridDt) tsnow) where
  gridDt_eq := rfl
  series_eq := rfl
  last_eq := rfl
  latest_eq := rfl

/-- The items that a write pushes: always an entry, and the value. -/
def writeItems (gridDt series : ℕ) (item : ET) (state : S) (tsNet tsev : ℕ) : List (QueryItem D) :=
  [.msp ⟨series, toTsMs (MspSplitFixGrid.cellOf gridDt tsev), tsNet⟩,
    .insert ⟨series, toTsMs (MspSplitFixGrid.cellOf gridDt tsev), tsev - MspSplitFixGrid.cellOf gridDt tsev,
      (EmittableType.intoQueryItem item tsNet tsev state).1.dataItem, tsNet⟩]

/-- A write pushes an entry for the partition of the value, whichever the last one was. -/
theorem Forgetful.write {gridDt series : ℕ} {w : WriterOf MspSplitFixGrid} (hw : Forgetful gridDt series w)
    (item : ET) (state : S) (tsNet tsev tsnow : ℕ) (deque : List (QueryItem D)) :
    (gridDt = 0 ∧ w.write item state tsNet tsev tsnow deque = none) ∨
    (0 < gridDt ∧ ∃ res w' state', Forgetful gridDt series w' ∧
      w.write item state tsNet tsev tsnow deque =
        some (res, w', state', deque ++ writeItems gridDt series item state tsNet tsev)) := by
  have hsplit := MspSplitFixGrid.split_of_last_eq_none hw.last_eq tsev
    (EmittableType.intoQueryItem item tsNet tsev state).1.bytes
  rw [hw.gridDt_eq] at hsplit
  rcases Nat.eq_zero_or_pos gridDt with hzero | hpos
  · rw [if_pos hzero] at hsplit
    refine Or.inl ⟨hzero, ?_⟩
    simp only [WriterOf.write, MspSplit.split, hsplit, Option.map_none]
  · rw [if_neg hpos.ne'] at hsplit
    refine Or.inr ⟨hpos, ⟨(EmittableType.intoQueryItem item tsNet tsev state).1.bytes, 0⟩,
      { w with evtsOnMspWrite := tsev, evtsLatest := tsev, tsTsMspPutLast := some tsnow },
      (EmittableType.intoQueryItem item tsNet tsev state).2,
      ⟨hw.gridDt_eq, hw.series_eq, hw.last_eq, rfl⟩, ?_⟩
    simp [WriterOf.write, MspSplit.split, hsplit, hw.series_eq, SeriesWriter.mspItems, writeItems]

/-- Housekeeping finds nothing to push. -/
theorem Forgetful.housekeeping {gridDt series : ℕ} {w : WriterOf MspSplitFixGrid}
    (hw : Forgetful gridDt series w) (tsnow : ℕ) (deque : List (QueryItem D)) :
    ∃ w', Forgetful gridDt series w' ∧ w.housekeeping tsnow deque = some (0, w', deque) := by
  have hskip : ∀ putLast, ¬ (SeriesWriter.reputIvl ≤ tsnow - putLast ∧ w.evtsLatest ≠ w.evtsOnMspWrite) :=
    fun putLast h => h.2 hw.latest_eq
  rw [WriterOf.housekeeping]
  split
  · refine ⟨{ w with tsCheckTsMspReputLast := tsnow }, ⟨hw.gridDt_eq, hw.series_eq, hw.last_eq, hw.latest_eq⟩, ?_⟩
    cases w.tsTsMspPutLast with
    | none => rfl
    | some putLast => simp only [if_neg (hskip putLast)]
  · exact ⟨w, hw, rfl⟩

/-- A write announces its partition, and no other: as it is due for the first event only. -/
theorem announced_writeItems_iff {gridDt series : ℕ} (item : ET) (state : S) (tsNet tsev tsnow : ℕ)
    (previous : Option ℕ) :
    Pushed.Announced gridDt series (⟨previous, .write item tsNet tsev tsnow,
      writeItems gridDt series item state tsNet tsev⟩ : Pushed ET D) ↔ previous = none := by
  constructor
  · rintro ⟨pushed, -, -, hitems⟩
    have hlen := congrArg List.length hitems
    cases previous with
    | none => rfl
    | some last =>
        simp only [writeItems, announcements, List.length_append, List.length_map, List.length_cons,
          List.length_nil] at hlen
        split at hlen <;> simp at hlen
  · rintro rfl
    refine ⟨_, ?_, ?_, rfl⟩
    · change nsOfMs (toTsMs _) + _ = tsev
      rw [MspSplitFixGrid.toTsMs_cellOf]
      exact Nat.add_sub_cancel' (MspSplitFixGrid.cellOf_le gridDt tsev)
    · change gridDt ∣ toTsMs _
      rw [MspSplitFixGrid.toTsMs_cellOf]
      exact Nat.dvd_mul_left _ _

/-- Every value that was pushed has the time of its event, and is on the grid. -/
structure OnGrid (gridDt series : ℕ) (r : FixGridRun ET S D) : Prop where
  forgetful : Forgetful gridDt series r.writer
  times : (inserts r.deque).map InsertItem.ts = r.written
  onGrid : ∀ item ∈ inserts r.deque, gridDt ∣ item.tsMsp

omit [EmittableType ET S D] in
theorem OnGrid.new (series gridDt : ℕ) (state : S) (tsnow : ℕ) :
    OnGrid gridDt series (new series gridDt state tsnow : FixGridRun ET S D) where
  forgetful := Forgetful.new series gridDt tsnow
  times := rfl
  onGrid := fun _ h => absurd h List.not_mem_nil

/-- What a call does: it panics, or it pushes an entry with each value, and otherwise nothing. -/
theorem step_cases {gridDt series : ℕ} {c : FixGridCall ET} {r r' : FixGridRun ET S D}
    (hw : Forgetful gridDt series r.writer) (hstep : step c r = some r') :
    (r' = { r with panicked := true } ∧ ¬ Announcing gridDt c r) ∨
    (∃ item tsNet tsev tsnow, c = .write item tsNet tsev tsnow ∧ 0 < gridDt ∧
      Forgetful gridDt series r'.writer ∧ r'.written = r.written ++ [tsev] ∧
      r'.deque = r.deque ++ writeItems gridDt series item r.state tsNet tsev ∧
      r'.log = r.log ++ [⟨r.written.getLast?, c, writeItems gridDt series item r.state tsNet tsev⟩] ∧
      r'.panicked = r.panicked) ∨
    (∃ tsnow, c = .housekeeping tsnow ∧ Forgetful gridDt series r'.writer ∧ r'.written = r.written ∧
      r'.deque = r.deque ∧ r'.log = r.log ++ [⟨r.written.getLast?, c, []⟩] ∧ r'.panicked = r.panicked) := by
  rw [step] at hstep
  split at hstep
  · cases hstep
  obtain rfl := Option.some.inj hstep
  cases c with
  | write item tsNet tsev tsnow =>
      rcases hw.write item r.state tsNet tsev tsnow r.deque with ⟨hzero, hwrite⟩ | ⟨hpos, res, w', state', hw', hwrite⟩
      · refine Or.inl ⟨by simp [call, hwrite], fun hok => ?_⟩
        exact hok.1.ne' hzero
      · refine Or.inr (Or.inl ⟨item, tsNet, tsev, tsnow, rfl, hpos, ?_⟩)
        simp only [call, hwrite, Option.map_some, Option.getD_some, pushed, List.drop_left]
        exact ⟨hw', trivial, trivial, trivial, trivial⟩
  | housekeeping tsnow =>
      obtain ⟨w', hw', hkeep⟩ := hw.housekeeping tsnow r.deque
      refine Or.inr (Or.inr ⟨tsnow, rfl, ?_⟩)
      simp only [call, hkeep, Option.map_some, Option.getD_some, pushed, List.drop_length]
      exact ⟨hw', trivial, trivial, trivial, trivial⟩
  | onClose tsnow => exact Or.inl ⟨rfl, id⟩

theorem step_onGrid {gridDt series : ℕ} {c : FixGridCall ET} {r r' : FixGridRun ET S D}
    (hr : OnGrid gridDt series r) (hstep : step c r = some r') : OnGrid gridDt series r' := by
  rcases step_cases hr.forgetful hstep with ⟨rfl, -⟩ | ⟨item, tsNet, tsev, tsnow, rfl, -, hw', hwritten, hdeque, -⟩ |
    ⟨tsnow, rfl, hw', hwritten, hdeque, -⟩
  · exact ⟨hr.forgetful, hr.times, hr.onGrid⟩
  · have hcell := MspSplitFixGrid.toTsMs_cellOf gridDt tsev
    refine ⟨hw', ?_, ?_⟩
    · rw [hdeque, hwritten, inserts_append, List.map_append, hr.times]
      apply congrArg (r.written ++ [·])
      change nsOfMs (toTsMs _) + _ = tsev
      rw [hcell]
      exact Nat.add_sub_cancel' (MspSplitFixGrid.cellOf_le gridDt tsev)
    · intro other hother
      rw [hdeque, inserts_append] at hother
      rcases List.mem_append.mp hother with hold | hnew
      · exact hr.onGrid other hold
      · obtain rfl := List.mem_singleton.mp hnew
        change gridDt ∣ toTsMs _
        rw [hcell]
        exact Nat.dvd_mul_left _ _
  · refine ⟨hw', ?_, ?_⟩
    · rw [hdeque, hwritten, hr.times]
    · rw [hdeque]
      exact hr.onGrid

/-! ### Runs -/

omit [EmittableType ET S D] in
theorem Announces.new (series gridDt : ℕ) (state : S) (tsnow : ℕ) :
    Announces gridDt series (new series gridDt state tsnow : FixGridRun ET S D) where
  running := rfl
  announced := fun _ h => absurd h List.not_mem_nil

/-- A call keeps the partitions announced once exactly if it is one of those that can. -/
theorem announces_step_iff {gridDt series : ℕ} {c : FixGridCall ET} {r r' : FixGridRun ET S D}
    (hr : OnGrid gridDt series r) (hgood : Announces gridDt series r) (hstep : step c r = some r') :
    Announces gridDt series r' ↔ Announcing gridDt c r := by
  -- only what the call pushed has to be looked at
  have hlog : ∀ p, r'.log = r.log ++ [p] → r'.panicked = r.panicked →
      (Announces gridDt series r' ↔ p.Announced gridDt series) := by
    intro p hlog hpanicked
    constructor
    · intro h
      exact h.announced p (by rw [hlog]; exact List.mem_append_right _ List.mem_cons_self)
    · intro hp
      refine ⟨hpanicked.trans hgood.running, ?_⟩
      rw [hlog]
      intro q hq
      rcases List.mem_append.mp hq with hold | hnew
      · exact hgood.announced q hold
      · rwa [List.mem_singleton.mp hnew]
  rcases step_cases hr.forgetful hstep with ⟨rfl, hnot⟩ | ⟨item, tsNet, tsev, tsnow, rfl, hpos, -, -, -, hitems, hpan⟩ |
    ⟨tsnow, rfl, -, -, -, hitems, hpan⟩
  · exact iff_of_false (fun h => Bool.noConfusion h.running) hnot
  · rw [hlog _ hitems hpan, announced_writeItems_iff, List.getLast?_eq_none_iff]
    exact (and_iff_right hpos).symm
  · rw [hlog _ hitems hpan]
    exact iff_of_true (fun _ h => absurd h List.not_mem_nil) trivial

/-- In a run of a writer on a fixed grid, no call panics and each partition is announced once exactly if at most
one event is written, and the writer is not closed. -/
theorem announces_iff (series gridDt : ℕ) (state : S) (tsnow : ℕ) (calls : List (FixGridCall ET)) :
    (∀ r, Slots.Reached step calls (new series gridDt state tsnow : FixGridRun ET S D) r →
      Announces gridDt series r) ↔
    Slots.Along step (Announcing gridDt) calls (new series gridDt state tsnow : FixGridRun ET S D) :=
  Slots.forall_reached_iff_along_of_inv (OnGrid gridDt series)
    (fun _ _ _ hr hgood hstep => ⟨fun _ => step_onGrid hr hstep, announces_step_iff hr hgood hstep⟩)
    (OnGrid.new series gridDt state tsnow) (Announces.new series gridDt state tsnow)

/-- The times of the events that are given to the writer. -/
def writeTimes : List (FixGridCall ET) → List ℕ
  | [] => []
  | .write _ _ tsev _ :: rest => tsev :: writeTimes rest
  | .housekeeping _ :: rest => writeTimes rest
  | .onClose _ :: rest => writeTimes rest

/-- Two status values of one hour: with the second one, their partition is announced again. -/
theorem not_announces :
    ¬ ∀ calls : List (FixGridCall ChannelStatusWriteValue), (writeTimes calls).Pairwise (· ≤ ·) →
      ∀ r, Slots.Reached step calls (new 7 channelStatusGrid () 0 : FixGridRun ChannelStatusWriteValue Unit ℕ) r →
        Announces channelStatusGrid 7 r := by
  intro hall
  have hlast := (hall [.write ⟨7200000000000, 1⟩ 0 7200000000000 0, .write ⟨7200000000001, 2⟩ 0 7200000000001 0]
    (by decide) _ ⟨_, List.prefix_rfl, rfl⟩).announced
  -- the second item of the log
  have hsecond := hlast _ (List.mem_append_right _ List.mem_cons_self)
  have hfirst := (announced_writeItems_iff (⟨7200000000001, 2⟩ : ChannelStatusWriteValue) () 0 7200000000001 0
    (some 7200000000000)).mp hsecond
  cases hfirst

end FixGridRun

end Serieswriter
end Daqbuf
