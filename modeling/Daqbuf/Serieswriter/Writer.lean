import Daqbuf.Serieswriter.Queue
/-!
# Series Writer

A series writer assigns each event value to a partition and pushes it, and before it the entry of its
partition.  {lit}`MspSplitDyn` begins a new partition when the current one is full or old.

The build for deployment does not check for overflow: sums wrap around.

Main results:

- Theorem {lit}`MspSplitDyn.split_cases`: what a split does.
- Theorem {lit}`Journal.run_partitioned`: the values and entries that are pushed in a run.
- Theorem {lit}`Journal.not_run_partitioned_wrap`: a run in which the byte count wraps around.
-/

namespace Daqbuf
namespace Serieswriter

open Netpod

/-! ## Splitting into partitions -/

/-- {lit}`MspSplitDyn` -/
structure MspSplitDyn where
  last : Option ℕ
  count : ℕ
  bytes : ℕ
  countMax : ℕ
  bytesMax : ℕ
  rt : RetentionTime
  rolloverAt : ℕ
  deriving DecidableEq, Repr

/-- What a split tells about an event: {lit}`(ts_msp, ts_lsp, changed, ts_msp_retired)` -/
structure SplitRes where
  tsMsp : ℕ
  tsLsp : ℕ
  changed : Bool
  retired : Option ℕ
  deriving DecidableEq, Repr

namespace MspSplitDyn

/-- {lit}`new` -/
def new (countMax bytesMax : ℕ) (rt : RetentionTime) : MspSplitDyn where
  last := none
  count := 0
  bytes := 0
  countMax := countMax
  bytesMax := bytesMax
  rt := rt
  rolloverAt := 0

/-- {lit}`msp_res_max` -/
def mspResMax : ℕ := Timeunits.sec * 2

/-- The last point on the grid of the partitions. -/
def gridMsp (ts : ℕ) : ℕ := ts / mspResMax * mspResMax

/-- The current partition takes no further event, if there is a newer one. -/
def Full (s : MspSplitDyn) (ts : ℕ) : Prop :=
  s.countMax ≤ s.count ∨ s.bytesMax ≤ s.bytes ∨ s.rolloverAt ≤ ts

instance (s : MspSplitDyn) (ts : ℕ) : Decidable (s.Full ts) :=
  inferInstanceAs (Decidable (_ ∨ _ ∨ _))

theorem Full.mono {s : MspSplitDyn} {ts ts' : ℕ} (hfull : s.Full ts) (hle : ts ≤ ts') : s.Full ts' :=
  hfull.imp_right fun hfull => hfull.imp_right fun hold => hold.trans hle

/-- A new partition begins with the given event. -/
def rollover (s : MspSplitDyn) (ts itemBytes : ℕ) : MspSplitDyn :=
  { s with
    last := some (gridMsp ts)
    count := 1
    bytes := itemBytes
    rolloverAt := (ts + 1000000 * (1000 * s.rt.mspRolloverIvl)) % 2 ^ 64 }

/-- {lit}`split`.  The count is below a limit of its own type before it grows; the bytes can wrap. -/
def split (s : MspSplitDyn) (ts itemBytes : ℕ) : SplitRes × MspSplitDyn :=
  match s.last with
  | some tsMspLast =>
      if s.Full ts then
        let tsMsp := gridMsp ts
        if tsMsp = tsMspLast then
          (⟨tsMsp, delta ts tsMsp, false, none⟩, s)
        else
          (⟨tsMsp, delta ts tsMsp, true, some tsMspLast⟩, s.rollover ts itemBytes)
      else
        (⟨tsMspLast, delta ts tsMspLast, false, none⟩,
          { s with count := s.count + 1, bytes := (s.bytes + itemBytes) % 2 ^ 32 })
  | none =>
      let tsMsp := gridMsp ts
      (⟨tsMsp, delta ts tsMsp, true, none⟩, s.rollover ts itemBytes)

/-- {lit}`ts_msp_current` -/
def tsMspCurrent (s : MspSplitDyn) : Option ℕ := s.last

/-- What a split can do: begin a partition, stay in a full one, or grow one with room. -/
theorem split_cases (s : MspSplitDyn) (ts itemBytes : ℕ) :
    (s.last ≠ some (gridMsp ts) ∧
      s.split ts itemBytes = (⟨gridMsp ts, delta ts (gridMsp ts), true, s.last⟩, s.rollover ts itemBytes)) ∨
    (s.last = some (gridMsp ts) ∧ s.Full ts ∧
      s.split ts itemBytes = (⟨gridMsp ts, delta ts (gridMsp ts), false, none⟩, s)) ∨
    ∃ m, s.last = some m ∧ ¬ s.Full ts ∧
      s.split ts itemBytes = (⟨m, delta ts m, false, none⟩,
        { s with count := s.count + 1, bytes := (s.bytes + itemBytes) % 2 ^ 32 }) := by
  cases hlast : s.last with
  | none => exact .inl ⟨by simp, by simp [split, hlast]⟩
  | some m =>
      by_cases hfull : s.Full ts
      · by_cases hm : gridMsp ts = m
        · exact .inr (.inl ⟨by rw [hm], hfull, by simp [split, hlast, hfull, hm]⟩)
        · exact .inl ⟨fun heq => hm (Option.some.inj heq).symm, by simp [split, hlast, hfull, hm]⟩
      · exact .inr (.inr ⟨m, rfl, hfull, by simp [split, hlast, hfull]⟩)

/-- The offset of an event is the difference of its time and the one of its partition. -/
theorem tsLsp_split (s : MspSplitDyn) (ts itemBytes : ℕ) :
    (s.split ts itemBytes).1.tsLsp = delta ts (s.split ts itemBytes).1.tsMsp := by
  rcases split_cases s ts itemBytes with ⟨-, heq⟩ | ⟨-, -, heq⟩ | ⟨m, -, -, heq⟩ <;> rw [heq]

theorem gridMsp_le (ts : ℕ) : gridMsp ts ≤ ts := Nat.div_mul_le_self ts mspResMax

theorem delta_gridMsp (ts : ℕ) : delta ts (gridMsp ts) = ts - gridMsp ts := delta_of_le (gridMsp_le ts)

theorem dvd_gridMsp (ts : ℕ) : mspResMax ∣ gridMsp ts := Nat.dvd_mul_left _ _

/-- Every point of the grid up to a time is up to the last one. -/
theorem le_gridMsp {m ts : ℕ} (hgrid : mspResMax ∣ m) (hle : m ≤ ts) : m ≤ gridMsp ts := by
  rcases hgrid with ⟨k, rfl⟩
  rw [gridMsp, mul_comm mspResMax]
  exact Nat.mul_le_mul_right _ ((Nat.le_div_iff_mul_le (by decide)).mpr (by rwa [mul_comm]))

/-- The grid is coarser than a millisecond. -/
theorem nsOfMs_toTsMs {m : ℕ} (hgrid : mspResMax ∣ m) : nsOfMs (toTsMs m) = m := by
  have hms : 1000000 ∣ m := dvd_trans (by decide) hgrid
  exact Nat.mul_div_cancel' hms

/-- The current partition is on the grid, and not newer than the last event. -/
def Sound (s : MspSplitDyn) (latest : ℕ) : Prop :=
  ∀ m, s.last = some m → mspResMax ∣ m ∧ m ≤ latest

/-- Events up to a bound go to a partition on the grid up to the bound, in whatever order they come. -/
theorem Sound.split_le {s : MspSplitDyn} {latest ts : ℕ} (hsound : s.Sound latest) (hts : ts ≤ latest)
    (itemBytes : ℕ) :
    mspResMax ∣ (s.split ts itemBytes).1.tsMsp ∧ (s.split ts itemBytes).1.tsMsp ≤ latest ∧
      (s.split ts itemBytes).2.Sound latest := by
  have hgrid : mspResMax ∣ gridMsp ts ∧ gridMsp ts ≤ latest := ⟨dvd_gridMsp ts, (gridMsp_le ts).trans hts⟩
  rcases split_cases s ts itemBytes with ⟨-, heq⟩ | ⟨hlast, -, heq⟩ | ⟨m, hlast, -, heq⟩
  · rw [heq]
    exact ⟨hgrid.1, hgrid.2, fun m hm => Option.some.inj hm ▸ hgrid⟩
  · rw [heq]
    exact ⟨hgrid.1, hgrid.2, hsound⟩
  · rw [heq]
    exact ⟨(hsound m hlast).1, (hsound m hlast).2, hsound⟩

theorem Sound.mono {s : MspSplitDyn} {latest latest' : ℕ} (hsound : s.Sound latest) (hle : latest ≤ latest') :
    s.Sound latest' :=
  fun m hm => ⟨(hsound m hm).1, (hsound m hm).2.trans hle⟩

/-- Events that are not older than the last one go to a partition on the grid that is not newer. -/
theorem Sound.split {s : MspSplitDyn} {latest ts : ℕ} (hsound : s.Sound latest) (hts : latest ≤ ts)
    (itemBytes : ℕ) :
    mspResMax ∣ (s.split ts itemBytes).1.tsMsp ∧ (s.split ts itemBytes).1.tsMsp ≤ ts ∧
      (s.split ts itemBytes).1.tsLsp = ts - (s.split ts itemBytes).1.tsMsp ∧
      (s.split ts itemBytes).2.Sound ts := by
  obtain ⟨hgrid, hle, hnext⟩ := (hsound.mono hts).split_le le_rfl itemBytes
  exact ⟨hgrid, hle, (s.tsLsp_split ts itemBytes).trans (delta_of_le hle), hnext⟩

end MspSplitDyn

/-! ## Series writer -/

/-- {lit}`EmitRes` -/
structure EmitRes (D : Type) where
  dataItem : D
  bytes : ℕ

/-- {lit}`EmittableType`: values that can be written, with the state that their conversion keeps. -/
class EmittableType (ET : Type) (S D : outParam Type) where
  hasChange : ET → ET → Bool
  intoQueryItem : ET → ℕ → ℕ → S → EmitRes D × S

/-- {lit}`SeriesWriter` -/
structure SeriesWriter where
  series : ℕ
  mspSplit : MspSplitDyn
  evtsOnMspWrite : ℕ
  evtsLatest : ℕ
  tsCheckTsMspReputLast : ℕ
  tsTsMspPutLast : Option ℕ
  deriving DecidableEq, Repr

/-- {lit}`writer::WriteRes` -/
structure SeriesWriteRes where
  bytes : ℕ
  mspRewrite : ℕ
  deriving DecidableEq, Repr

namespace SeriesWriter

section Operations

variable {ET S D : Type} [EmittableType ET S D]

/-- {lit}`new` -/
def new (series : ℕ) (spl : MspSplitDyn) (tsnow : ℕ) : SeriesWriter where
  series := series
  mspSplit := spl
  evtsOnMspWrite := 0
  evtsLatest := 0
  tsCheckTsMspReputLast := tsnow
  tsTsMspPutLast := none

/-- The entries that are pushed before an event value. -/
def mspItems (series tsNet : ℕ) (res : SplitRes) : List (QueryItem D) :=
  (match res.retired with
    | some msp => [.msp ⟨series, toTsMs msp, tsNet⟩]
    | none => []) ++
  (if res.changed then [.msp ⟨series, toTsMs res.tsMsp, tsNet⟩] else [])

/-- {lit}`write`; the monotonic clock reads {lit}`tsnow`. -/
def write (w : SeriesWriter) (item : ET) (state : S) (tsNet tsev tsnow : ℕ)
    (deque : List (QueryItem D)) : SeriesWriteRes × SeriesWriter × S × List (QueryItem D) :=
  let (res, state) := EmittableType.intoQueryItem item tsNet tsev state
  let (spl, mspSplit) := w.mspSplit.split tsev res.bytes
  let insert : InsertItem D := ⟨w.series, toTsMs spl.tsMsp, spl.tsLsp, res.dataItem, tsNet⟩
  (⟨res.bytes, if spl.retired.isSome then 1 else 0⟩,
    { w with
      mspSplit := mspSplit
      evtsOnMspWrite := if spl.changed then tsev else w.evtsOnMspWrite
      tsTsMspPutLast := if spl.changed then some tsnow else w.tsTsMspPutLast
      evtsLatest := tsev },
    state,
    deque ++ mspItems w.series tsNet spl ++ [.insert insert])

/-- {lit}`tick` -/
def tick (w : SeriesWriter) (deque : List (QueryItem D)) : SeriesWriter × List (QueryItem D) :=
  (w, deque)

/-- {lit}`on_close`; the first component is {lit}`ts_msp_reput`. -/
def onClose (w : SeriesWriter) (tsnow : ℕ) (deque : List (QueryItem D)) :
    ℕ × SeriesWriter × List (QueryItem D) :=
  match w.mspSplit.tsMspCurrent with
  | some msp => (1, w, deque ++ [.msp ⟨w.series, toTsMs msp, tsnow⟩])
  | none => (1, w, deque)

/-- The time between two checks for housekeeping: 60 seconds. -/
def reputCheckIvl : ℕ := 1000 * 60 * 1000000

/-- The time after which an entry is pushed again: an hour. -/
def reputIvl : ℕ := 1000 * 60 * 60 * 1000000

/-- {lit}`housekeeping`: pushes the entry of the current partition again, when events were written since
it was last pushed, an hour ago or earlier.  The first component is {lit}`ts_msp_reput`.  The two
intervals are compared with the time that has passed. -/
def housekeeping (w : SeriesWriter) (tsnow : ℕ) (deque : List (QueryItem D)) :
    ℕ × SeriesWriter × List (QueryItem D) :=
  if reputCheckIvl ≤ tsnow - w.tsCheckTsMspReputLast then
    let w := { w with tsCheckTsMspReputLast := tsnow }
    match w.tsTsMspPutLast, w.mspSplit.tsMspCurrent with
    | some putLast, some msp =>
        if reputIvl ≤ tsnow - putLast ∧ w.evtsLatest ≠ w.evtsOnMspWrite then
          (1, { w with tsTsMspPutLast := some tsnow, evtsOnMspWrite := w.evtsLatest },
            deque ++ [.msp ⟨w.series, toTsMs msp, tsnow⟩])
        else (0, w, deque)
    | _, _ => (0, w, deque)
  else (0, w, deque)

/-- What {lit}`write` pushes, and what it leaves of the writer, in terms of the split. -/
theorem write_deque (w : SeriesWriter) (item : ET) (state : S) (tsNet tsev tsnow : ℕ)
    (deque : List (QueryItem D)) :
    let res := (EmittableType.intoQueryItem item tsNet tsev state).1
    let spl := (w.mspSplit.split tsev res.bytes).1
    (w.write item state tsNet tsev tsnow deque).2.2.2 =
      deque ++ mspItems w.series tsNet spl ++
        [.insert ⟨w.series, toTsMs spl.tsMsp, spl.tsLsp, res.dataItem, tsNet⟩] := rfl

/-- Entries that carry no value. -/
theorem inserts_mspItems (series tsNet : ℕ) (res : SplitRes) :
    inserts (mspItems series tsNet res : List (QueryItem D)) = [] := by
  rw [mspItems]
  cases res.retired <;> cases res.changed <;> rfl

/-- A write of an event that is not older than the last one pushes its value, with its time. -/
theorem inserts_write {w : SeriesWriter} {latest : ℕ} (hsound : w.mspSplit.Sound latest) (item : ET)
    (state : S) (tsNet tsev tsnow : ℕ) (hts : latest ≤ tsev) (deque : List (QueryItem D)) :
    (w.write item state tsNet tsev tsnow deque).2.1.mspSplit.Sound tsev ∧
      ∃ pushed : InsertItem D, pushed.ts = tsev ∧
        pushed.val = (EmittableType.intoQueryItem item tsNet tsev state).1.dataItem ∧
        inserts (w.write item state tsNet tsev tsnow deque).2.2.2 = inserts deque ++ [pushed] := by
  set res := (EmittableType.intoQueryItem item tsNet tsev state).1 with hres
  rcases hsound.split hts res.bytes with ⟨hgrid, hle, hlsp, hsound'⟩
  refine ⟨hsound', ⟨w.series, toTsMs (w.mspSplit.split tsev res.bytes).1.tsMsp,
    (w.mspSplit.split tsev res.bytes).1.tsLsp, res.dataItem, tsNet⟩, ?_, rfl, ?_⟩
  · rw [InsertItem.ts, MspSplitDyn.nsOfMs_toTsMs hgrid, hlsp]
    exact Nat.add_sub_cancel' hle
  · rw [write_deque, inserts_append, inserts_append, inserts_mspItems, List.append_nil]
    rfl

/-- What a close does to a writer: at most it pushes the entry of the current partition. -/
theorem onClose_cases (w : SeriesWriter) (tsnow : ℕ) (deque : List (QueryItem D)) :
    ∃ reput msps, w.onClose tsnow deque = (reput, w, deque ++ msps) ∧
      (msps = [] ∨ ∃ m : MspItem, msps = [.msp m]) := by
  rw [SeriesWriter.onClose]
  split
  · exact ⟨1, _, rfl, .inr ⟨_, rfl⟩⟩
  · exact ⟨1, [], by rw [List.append_nil], .inl rfl⟩

/-- What housekeeping does to a writer: at most it pushes the entry of the current partition. -/
theorem housekeeping_cases (w : SeriesWriter) (tsnow : ℕ) (deque : List (QueryItem D)) :
    ∃ reput check put latest msps, w.housekeeping tsnow deque =
      (reput, { w with tsCheckTsMspReputLast := check, tsTsMspPutLast := put, evtsOnMspWrite := latest },
        deque ++ msps) ∧
      (msps = [] ∨ ∃ m : MspItem, msps = [.msp m]) := by
  rw [SeriesWriter.housekeeping]
  split
  · dsimp only
    split
    · split
      · exact ⟨1, _, _, _, _, rfl, .inr ⟨_, rfl⟩⟩
      · exact ⟨0, tsnow, _, _, [], by rw [List.append_nil], .inl rfl⟩
    · exact ⟨0, tsnow, _, _, [], by rw [List.append_nil], .inl rfl⟩
  · exact ⟨0, w.tsCheckTsMspReputLast, _, _, [], by rw [List.append_nil], .inl rfl⟩

/-- Entries carry no value. -/
theorem inserts_eq_nil {msps : List (QueryItem D)} (hmsps : msps = [] ∨ ∃ m : MspItem, msps = [.msp m]) :
    inserts msps = [] := by
  rcases hmsps with rfl | ⟨m, rfl⟩ <;> rfl

end Operations

end SeriesWriter

/-! ## Runs -/

/-- A call of a series writer. -/
inductive SeriesWriterCall (ET : Type) where
  | write (item : ET) (tsNet tsev tsnow : ℕ)
  | tick
  | onClose (tsnow : ℕ)
  | housekeeping (tsnow : ℕ)

/-- An event as it was given to the writer. -/
structure Given where
  ts : ℕ
  bytes : ℕ
  deriving DecidableEq, Repr

/-- A series writer, the state of the conversion, everything it pushed, and the events it was given. -/
structure Journal (S D : Type) where
  writer : SeriesWriter
  state : S
  deque : List (QueryItem D)
  given : List Given

/-- The events that were given so far, with what was pushed for them. -/
def Journal.entries {S D : Type} (j : Journal S D) : List (Given × InsertItem D) :=
  j.given.zip (inserts j.deque)

/-- The events of one partition. -/
def partitionOf {D : Type} (entries : List (Given × InsertItem D)) (msp : ℕ) : List Given :=
  (entries.filter fun e => e.2.tsMsp = msp).map Prod.fst

/-- A partition has reached a limit. -/
def Outgrown (countMax bytesMax : ℕ) (part : List Given) : Prop :=
  countMax ≤ part.length ∨ bytesMax ≤ (part.map Given.bytes).sum

/-- Every value is pushed with its time and on the grid of the partitions, which never decrease; its
partition has an entry before it; and a partition at its limits takes a value only while the grid offers
no newer partition. -/
structure Partitioned {S D : Type} (countMax bytesMax : ℕ) (j : Journal S D) : Prop where
  times : (inserts j.deque).map InsertItem.ts = j.given.map Given.ts
  onGrid : ∀ item ∈ inserts j.deque, MspSplitDyn.mspResMax ∣ nsOfMs item.tsMsp
  ordered : (inserts j.deque).Pairwise fun a b => a.tsMsp ≤ b.tsMsp
  indexed : Indexed j.deque
  growth : ∀ pre g item post, j.entries = pre ++ (g, item) :: post →
    Outgrown countMax bytesMax (partitionOf pre item.tsMsp) → nsOfMs item.tsMsp = MspSplitDyn.gridMsp g.ts

namespace Journal

variable {ET S D : Type} [EmittableType ET S D]

/-- A new writer. -/
def new (series countMax bytesMax : ℕ) (rt : RetentionTime) (state : S) (tsnow : ℕ) : Journal S D where
  writer := SeriesWriter.new series (MspSplitDyn.new countMax bytesMax rt) tsnow
  state := state
  deque := []
  given := []

/-- The effect of one call. -/
def step (j : Journal S D) : SeriesWriterCall ET → Journal S D
  | .write item tsNet tsev tsnow =>
      let res := j.writer.write item j.state tsNet tsev tsnow j.deque
      { writer := res.2.1, state := res.2.2.1, deque := res.2.2.2,
        given := j.given ++ [⟨tsev, (EmittableType.intoQueryItem item tsNet tsev j.state).1.bytes⟩] }
  | .tick =>
      { j with writer := (j.writer.tick j.deque).1, deque := (j.writer.tick j.deque).2 }
  | .onClose tsnow =>
      let res := j.writer.onClose tsnow j.deque
      { j with writer := res.2.1, deque := res.2.2 }
  | .housekeeping tsnow =>
      let res := j.writer.housekeeping tsnow j.deque
      { j with writer := res.2.1, deque := res.2.2 }

/-- The effect of calls. -/
def run (j : Journal S D) (calls : List (SeriesWriterCall ET)) : Journal S D := calls.foldl step j

/-- The times that are given to the writer. -/
def writeTimes : List (SeriesWriterCall ET) → List ℕ
  | [] => []
  | .write _ _ tsev _ :: rest => tsev :: writeTimes rest
  | .tick :: rest => writeTimes rest
  | .onClose _ :: rest => writeTimes rest
  | .housekeeping _ :: rest => writeTimes rest

/-- The bytes of the current partition and of an event that it takes do not wrap around. -/
def Fits (j : Journal S D) : SeriesWriterCall ET → Prop
  | .write item tsNet tsev _ =>
      ¬ j.writer.mspSplit.Full tsev → j.writer.mspSplit.bytes +
        (EmittableType.intoQueryItem item tsNet tsev j.state).1.bytes < 2 ^ 32
  | .tick => True
  | .onClose _ => True
  | .housekeeping _ => True

/-- No call of a run lets the bytes of a partition wrap around. -/
def AllFit (j : Journal S D) : List (SeriesWriterCall ET) → Prop
  | [] => True
  | call :: rest => j.Fits call ∧ (j.step call).AllFit rest

/-! ## What a run preserves -/

@[simp]
theorem partitionOf_append (xs ys : List (Given × InsertItem D)) (msp : ℕ) :
    partitionOf (xs ++ ys) msp = partitionOf xs msp ++ partitionOf ys msp := by
  simp [partitionOf]

theorem partitionOf_singleton (g : Given) (item : InsertItem D) :
    partitionOf [(g, item)] item.tsMsp = [g] := by
  simp [partitionOf]

/-- A partition that no value is in. -/
theorem partitionOf_eq_nil {entries : List (Given × InsertItem D)} {msp : ℕ}
    (hnone : ∀ e ∈ entries, e.2.tsMsp ≠ msp) : partitionOf entries msp = [] := by
  simp only [partitionOf, List.map_eq_nil_iff, List.filter_eq_nil_iff, decide_eq_true_eq]
  exact hnone

theorem mem_entries {j : Journal S D} {e : Given × InsertItem D} (hmem : e ∈ j.entries) :
    e.2 ∈ inserts j.deque :=
  (List.of_mem_zip hmem).2

/-- One value for each given event. -/
theorem length_given {countMax bytesMax : ℕ} {j : Journal S D} (hp : Partitioned countMax bytesMax j) :
    j.given.length = (inserts j.deque).length := by
  have hlen := congrArg List.length hp.times
  rw [List.length_map, List.length_map] at hlen
  exact hlen.symm

/-- What it takes to push entries and then a value. -/
theorem push_partitioned {countMax bytesMax : ℕ} {j k : Journal S D}
    (hp : Partitioned countMax bytesMax j) {msps : List (QueryItem D)} (hmsps : inserts msps = [])
    (hindexed : Indexed (j.deque ++ msps)) {g : Given} {item : InsertItem D}
    (hdeque : k.deque = j.deque ++ msps ++ [.insert item]) (hgiven : k.given = j.given ++ [g])
    (hts : item.ts = g.ts) (hgrid : MspSplitDyn.mspResMax ∣ nsOfMs item.tsMsp)
    (hle : ∀ other ∈ inserts j.deque, other.tsMsp ≤ item.tsMsp)
    (hentry : ∃ m, .msp m ∈ j.deque ++ msps ∧ m.series = item.series ∧ m.tsMsp = item.tsMsp)
    (hgrowth : Outgrown countMax bytesMax (partitionOf j.entries item.tsMsp) →
      nsOfMs item.tsMsp = MspSplitDyn.gridMsp g.ts) :
    Partitioned countMax bytesMax k ∧ k.entries = j.entries ++ [(g, item)] := by
  have hinserts : inserts k.deque = inserts j.deque ++ [item] := by
    rw [hdeque, inserts_append, inserts_append, hmsps, List.append_nil]
    rfl
  have hentries : k.entries = j.entries ++ [(g, item)] := by
    rw [entries, hgiven, hinserts, List.zip_append (length_given hp)]
    rfl
  refine ⟨⟨?_, ?_, ?_, ?_, ?_⟩, hentries⟩
  · rw [hinserts, hgiven, List.map_append, List.map_append, hp.times]
    simp [hts]
  · rw [hinserts]
    intro other hmem
    rcases List.mem_append.mp hmem with hold | hnew
    · exact hp.onGrid other hold
    · rw [List.mem_singleton.mp hnew]
      exact hgrid
  · rw [hinserts, List.pairwise_append]
    refine ⟨hp.ordered, List.pairwise_singleton _ _, ?_⟩
    intro other hold last hlast
    rw [List.mem_singleton.mp hlast]
    exact hle other hold
  · rw [hdeque]
    exact hindexed.push_insert hentry
  · intro pre g' item' post heq hgrown
    rw [hentries] at heq
    rcases List.eq_nil_or_concat post with rfl | ⟨post, last, rfl⟩
    · rcases List.append_inj' heq rfl with ⟨rfl, hlast⟩
      simp only [List.cons.injEq, Prod.mk.injEq, and_true] at hlast
      obtain ⟨rfl, rfl⟩ := hlast
      exact hgrowth hgrown
    · rw [List.concat_eq_append, ← List.cons_append, ← List.append_assoc] at heq
      exact hp.growth pre g' item' post (List.append_inj' heq rfl).1 hgrown

/-- The partitions are well formed, and the splitter knows the current one: it is the newest, it has an
entry, and its size is known as long as it has room. -/
structure Inv (countMax bytesMax : ℕ) (j : Journal S D) : Prop extends
    Partitioned countMax bytesMax j where
  countMax_eq : j.writer.mspSplit.countMax = countMax
  bytesMax_eq : j.writer.mspSplit.bytesMax = bytesMax
  fresh : j.writer.mspSplit.last = none → inserts j.deque = []
  current : ∀ m, j.writer.mspSplit.last = some m →
    MspSplitDyn.mspResMax ∣ m ∧ m ≤ j.writer.evtsLatest ∧
    (∃ e, .msp e ∈ j.deque ∧ e.series = j.writer.series ∧ e.tsMsp = toTsMs m) ∧
    (∀ item ∈ inserts j.deque, nsOfMs item.tsMsp ≤ m) ∧
    (¬ j.writer.mspSplit.Full j.writer.evtsLatest →
      j.writer.mspSplit.count = (partitionOf j.entries (toTsMs m)).length ∧
      j.writer.mspSplit.bytes = ((partitionOf j.entries (toTsMs m)).map Given.bytes).sum)

theorem new_inv (series countMax bytesMax : ℕ) (rt : RetentionTime) (state : S) (tsnow : ℕ) :
    Inv countMax bytesMax (new series countMax bytesMax rt state tsnow : Journal S D) where
  times := rfl
  onGrid := by simp [new]
  ordered := List.Pairwise.nil
  indexed := Indexed.nil
  growth := by simp [new, entries]
  countMax_eq := rfl
  bytesMax_eq := rfl
  fresh := fun _ => rfl
  current := by simp [new, SeriesWriter.new, MspSplitDyn.new]

/-- The next event goes to a partition of the grid that is not older than any used one. -/
theorem Inv.tsMsp_le {countMax bytesMax : ℕ} {j : Journal S D} (hinv : Inv countMax bytesMax j)
    {ts : ℕ} (hts : j.writer.evtsLatest ≤ ts) :
    ∀ item ∈ inserts j.deque, nsOfMs item.tsMsp ≤ MspSplitDyn.gridMsp ts := by
  intro item hmem
  cases hlast : j.writer.mspSplit.last with
  | none =>
      rw [hinv.fresh hlast] at hmem
      simp at hmem
  | some m =>
      rcases hinv.current m hlast with ⟨hgrid, hm, -, hle, -⟩
      exact (hle item hmem).trans (MspSplitDyn.le_gridMsp hgrid (hm.trans hts))

/-- No value is in a partition that begins. -/
theorem Inv.partitionOf_new {countMax bytesMax : ℕ} {j : Journal S D} (hinv : Inv countMax bytesMax j)
    {ts : ℕ} (hts : j.writer.evtsLatest ≤ ts)
    (hnew : j.writer.mspSplit.last ≠ some (MspSplitDyn.gridMsp ts)) :
    partitionOf j.entries (toTsMs (MspSplitDyn.gridMsp ts)) = [] := by
  refine partitionOf_eq_nil fun e hmem heq => ?_
  cases hlast : j.writer.mspSplit.last with
  | none =>
      have hmem := mem_entries hmem
      rw [hinv.fresh hlast] at hmem
      simp at hmem
  | some m =>
      rcases hinv.current m hlast with ⟨hgrid, hm, -, hle, -⟩
      have hold := hle e.2 (mem_entries hmem)
      rw [heq, MspSplitDyn.nsOfMs_toTsMs (MspSplitDyn.dvd_gridMsp ts)] at hold
      have heq : m = MspSplitDyn.gridMsp ts :=
        le_antisymm (MspSplitDyn.le_gridMsp hgrid (hm.trans hts)) hold
      exact hnew (by rw [hlast, heq])

/-- The value that is pushed for an event of the given partition. -/
def insertOf (j : Journal S D) (item : ET) (tsNet tsev m : ℕ) : InsertItem D :=
  ⟨j.writer.series, toTsMs m, tsev - m,
    (EmittableType.intoQueryItem item tsNet tsev j.state).1.dataItem, tsNet⟩

/-- The event that a call gives to the writer. -/
def givenOf (j : Journal S D) (item : ET) (tsNet tsev : ℕ) : Given :=
  ⟨tsev, (EmittableType.intoQueryItem item tsNet tsev j.state).1.bytes⟩

/-- A write, in terms of its split. -/
theorem step_write {j : Journal S D} {item : ET} {tsNet tsev : ℕ} {spl : SplitRes}
    {mspSplit : MspSplitDyn} (tsnow : ℕ)
    (hsplit : j.writer.mspSplit.split tsev (j.givenOf item tsNet tsev).bytes = (spl, mspSplit))
    (hlsp : spl.tsLsp = tsev - spl.tsMsp) :
    let k := j.step (SeriesWriterCall.write item tsNet tsev tsnow)
    k.writer.mspSplit = mspSplit ∧ k.writer.evtsLatest = tsev ∧ k.writer.series = j.writer.series ∧
      k.deque = j.deque ++ SeriesWriter.mspItems j.writer.series tsNet spl ++
        [.insert (j.insertOf item tsNet tsev spl.tsMsp)] ∧
      k.given = j.given ++ [j.givenOf item tsNet tsev] := by
  have hres : (j.writer.mspSplit.split tsev (j.givenOf item tsNet tsev).bytes).1 = spl := by
    rw [hsplit]
  have hspl : (j.writer.mspSplit.split tsev (j.givenOf item tsNet tsev).bytes).2 = mspSplit := by
    rw [hsplit]
  refine ⟨hspl, rfl, rfl, ?_, rfl⟩
  rw [insertOf, ← hlsp, ← hres]
  rfl

/-- What is pushed recomposes to the time of the event. -/
theorem insertOf_ts (j : Journal S D) (item : ET) (tsNet : ℕ) {tsev m : ℕ}
    (hgrid : MspSplitDyn.mspResMax ∣ m) (hle : m ≤ tsev) : (j.insertOf item tsNet tsev m).ts = tsev := by
  rw [insertOf, InsertItem.ts, MspSplitDyn.nsOfMs_toTsMs hgrid]
  exact Nat.add_sub_cancel' hle

/-- The partitions are ordered alike in milliseconds and in nanoseconds. -/
theorem tsMsp_le_iff {a b : ℕ} : a ≤ b ↔ nsOfMs a ≤ nsOfMs b := by
  rw [nsOfMs, nsOfMs]
  omega

/-- An event that begins a partition. -/
theorem Inv.write_new {countMax bytesMax : ℕ} {j k : Journal S D} (hinv : Inv countMax bytesMax j)
    {item : ET} {tsNet tsev : ℕ} (hts : j.writer.evtsLatest ≤ tsev)
    (hnew : j.writer.mspSplit.last ≠ some (MspSplitDyn.gridMsp tsev)) {spl : SplitRes}
    (hspl : spl.tsMsp = MspSplitDyn.gridMsp tsev) (hchanged : spl.changed = true)
    (hsplit : k.writer.mspSplit = j.writer.mspSplit.rollover tsev (j.givenOf item tsNet tsev).bytes)
    (hlatest : k.writer.evtsLatest = tsev) (hseries : k.writer.series = j.writer.series)
    (hdeque : k.deque = j.deque ++ SeriesWriter.mspItems j.writer.series tsNet spl ++
      [.insert (j.insertOf item tsNet tsev spl.tsMsp)])
    (hgiven : k.given = j.given ++ [j.givenOf item tsNet tsev]) : Inv countMax bytesMax k := by
  have hgrid := MspSplitDyn.dvd_gridMsp tsev
  have hns : nsOfMs (toTsMs (MspSplitDyn.gridMsp tsev)) = MspSplitDyn.gridMsp tsev :=
    MspSplitDyn.nsOfMs_toTsMs hgrid
  rw [hspl] at hdeque
  have hentry : ∃ m, .msp m ∈ j.deque ++ SeriesWriter.mspItems j.writer.series tsNet spl ∧
      m.series = j.writer.series ∧ m.tsMsp = toTsMs (MspSplitDyn.gridMsp tsev) := by
    refine ⟨⟨j.writer.series, toTsMs spl.tsMsp, tsNet⟩, ?_, rfl, by rw [hspl]⟩
    simp [SeriesWriter.mspItems, hchanged]
  have hindexed : Indexed (j.deque ++ SeriesWriter.mspItems j.writer.series tsNet spl) := by
    rw [SeriesWriter.mspItems, if_pos hchanged, ← List.append_assoc]
    refine Indexed.push_msp ?_ _
    cases spl.retired with
    | none => simpa using hinv.indexed
    | some msp => exact hinv.indexed.push_msp _
  have hle : ∀ other ∈ inserts j.deque, nsOfMs other.tsMsp ≤ MspSplitDyn.gridMsp tsev :=
    hinv.tsMsp_le hts
  rcases push_partitioned hinv.toPartitioned (SeriesWriter.inserts_mspItems _ _ _) hindexed hdeque hgiven
    (insertOf_ts j item tsNet hgrid (MspSplitDyn.gridMsp_le tsev))
    (by rw [insertOf, hns]; exact hgrid)
    (fun other hmem => tsMsp_le_iff.mpr (by rw [insertOf, hns]; exact hle other hmem)) hentry
    (fun _ => by rw [insertOf, hns]; rfl) with ⟨hp, hentries⟩
  refine ⟨hp, ?_, ?_, ?_, ?_⟩
  · rw [hsplit]
    exact hinv.countMax_eq
  · rw [hsplit]
    exact hinv.bytesMax_eq
  · intro hnone
    rw [hsplit] at hnone
    simp [MspSplitDyn.rollover] at hnone
  · intro m hm
    rw [hsplit] at hm
    obtain rfl : MspSplitDyn.gridMsp tsev = m := Option.some.inj hm
    rw [hlatest, hseries]
    refine ⟨hgrid, MspSplitDyn.gridMsp_le tsev, ?_, ?_, fun _ => ?_⟩
    · rcases hentry with ⟨e, hmem, heq⟩
      exact ⟨e, by rw [hdeque]; exact List.mem_append_left _ hmem, heq⟩
    · intro other hmem
      rw [hdeque, inserts_append, inserts_append, SeriesWriter.inserts_mspItems,
        List.append_nil] at hmem
      rcases List.mem_append.mp hmem with hold | hnew
      · exact hle other hold
      · rw [List.mem_singleton.mp hnew, insertOf, hns]
    · rw [hentries, partitionOf_append, hinv.partitionOf_new hts hnew, List.nil_append,
        show toTsMs (MspSplitDyn.gridMsp tsev) =
          (j.insertOf item tsNet tsev (MspSplitDyn.gridMsp tsev)).tsMsp from rfl,
        partitionOf_singleton, hsplit]
      simp [MspSplitDyn.rollover]

/-- An event that goes to the current partition. -/
theorem Inv.write_same {countMax bytesMax : ℕ} {j k : Journal S D} (hinv : Inv countMax bytesMax j)
    {item : ET} {tsNet tsev m : ℕ} (hts : j.writer.evtsLatest ≤ tsev)
    (hlast : j.writer.mspSplit.last = some m) (hlast' : k.writer.mspSplit.last = some m)
    (hcount : k.writer.mspSplit.countMax = j.writer.mspSplit.countMax)
    (hbytes : k.writer.mspSplit.bytesMax = j.writer.mspSplit.bytesMax)
    (hlatest : k.writer.evtsLatest = tsev) (hseries : k.writer.series = j.writer.series)
    (hdeque : k.deque = j.deque ++ [.insert (j.insertOf item tsNet tsev m)])
    (hgiven : k.given = j.given ++ [j.givenOf item tsNet tsev])
    (hgrowth : j.writer.mspSplit.Full tsev → m = MspSplitDyn.gridMsp tsev)
    (hsize : ¬ k.writer.mspSplit.Full tsev → ¬ j.writer.mspSplit.Full tsev ∧
      k.writer.mspSplit.count = j.writer.mspSplit.count + 1 ∧
      k.writer.mspSplit.bytes = j.writer.mspSplit.bytes + (j.givenOf item tsNet tsev).bytes) :
    Inv countMax bytesMax k := by
  rcases hinv.current m hlast with ⟨hgrid, hm, ⟨e, hmem, hentry⟩, hle, hcur⟩
  have hns : nsOfMs (toTsMs m) = m := MspSplitDyn.nsOfMs_toTsMs hgrid
  -- with room left, the sizes are known, and below the limits
  have hroom : ¬ j.writer.mspSplit.Full tsev →
      j.writer.mspSplit.count = (partitionOf j.entries (toTsMs m)).length ∧
      j.writer.mspSplit.bytes = ((partitionOf j.entries (toTsMs m)).map Given.bytes).sum :=
    fun hnot => hcur fun hfull => hnot (hfull.mono hts)
  have hgrown : Outgrown countMax bytesMax (partitionOf j.entries (toTsMs m)) →
      m = MspSplitDyn.gridMsp tsev := by
    intro hout
    by_cases hfull : j.writer.mspSplit.Full tsev
    · exact hgrowth hfull
    · rcases hroom hfull with ⟨hc, hb⟩
      rw [MspSplitDyn.Full, hinv.countMax_eq, hinv.bytesMax_eq, hc, hb] at hfull
      rcases hout with hout | hout
      · exact absurd (.inl hout) hfull
      · exact absurd (.inr (.inl hout)) hfull
  have hdeque' : k.deque = j.deque ++ [] ++ [.insert (j.insertOf item tsNet tsev m)] := by
    rw [hdeque, List.append_nil]
  rcases push_partitioned hinv.toPartitioned (inserts_nil) (by rw [List.append_nil]; exact hinv.indexed)
    hdeque' hgiven (insertOf_ts j item tsNet hgrid (hm.trans hts)) (by rw [insertOf, hns]; exact hgrid)
    (fun other hmem => tsMsp_le_iff.mpr (by rw [insertOf, hns]; exact hle other hmem))
    ⟨e, by rw [List.append_nil]; exact hmem, hentry⟩
    (fun hout => by rw [insertOf, hns]; exact hgrown hout) with ⟨hp, hentries⟩
  refine ⟨hp, hcount.trans hinv.countMax_eq, hbytes.trans hinv.bytesMax_eq, ?_, ?_⟩
  · intro hnone
    rw [hlast'] at hnone
    simp at hnone
  · intro n hn
    obtain rfl : m = n := Option.some.inj (hlast'.symm.trans hn)
    rw [hlatest, hseries]
    refine ⟨hgrid, hm.trans hts, ⟨e, ?_, hentry⟩, ?_, fun hnot => ?_⟩
    · rw [hdeque]
      exact List.mem_append_left _ hmem
    · intro other hother
      rw [hdeque, inserts_append] at hother
      rcases List.mem_append.mp hother with hold | hnew
      · exact hle other hold
      · rw [List.mem_singleton.mp hnew, insertOf, hns]
    · rcases hsize hnot with ⟨hnot, hc, hb⟩
      rcases hroom hnot with ⟨hc', hb'⟩
      rw [hentries, partitionOf_append,
        show toTsMs m = (j.insertOf item tsNet tsev m).tsMsp from rfl, partitionOf_singleton,
        List.length_append, List.map_append, List.sum_append, hc, hb]
      exact ⟨congrArg (· + 1) hc', by rw [hb']; simp [insertOf]⟩

/-- Writing an event that is not older than the last one, and whose bytes fit, preserves the invariant. -/
theorem step_write_inv {countMax bytesMax : ℕ} {j : Journal S D} (hinv : Inv countMax bytesMax j)
    (item : ET) (tsNet tsev tsnow : ℕ) (hts : j.writer.evtsLatest ≤ tsev)
    (hfits : j.Fits (SeriesWriterCall.write item tsNet tsev tsnow)) :
    Inv countMax bytesMax (j.step (SeriesWriterCall.write item tsNet tsev tsnow)) := by
  rcases MspSplitDyn.split_cases j.writer.mspSplit tsev (j.givenOf item tsNet tsev).bytes with
    ⟨hnew, hsplit⟩ | ⟨hlast, hfull, hsplit⟩ | ⟨m, hlast, hroom, hsplit⟩
  · rcases step_write tsnow hsplit (MspSplitDyn.delta_gridMsp tsev) with ⟨hk, hlatest, hseries, hdeque, hgiven⟩
    exact hinv.write_new hts hnew rfl rfl hk hlatest hseries hdeque hgiven
  · rcases step_write tsnow hsplit (MspSplitDyn.delta_gridMsp tsev) with ⟨hk, hlatest, hseries, hdeque, hgiven⟩
    exact hinv.write_same hts hlast (by rw [hk, hlast]) (by rw [hk]) (by rw [hk]) hlatest hseries
      (by simpa [SeriesWriter.mspItems] using hdeque) hgiven (fun _ => rfl)
      (fun hroom => absurd (by rw [hk]; exact hfull) hroom)
  · have hle : m ≤ tsev := (hinv.current m hlast).2.1.trans hts
    rcases step_write tsnow hsplit (delta_of_le hle) with ⟨hk, hlatest, hseries, hdeque, hgiven⟩
    exact hinv.write_same hts hlast (by rw [hk]; exact hlast) (by rw [hk]) (by rw [hk]) hlatest hseries
      (by simpa [SeriesWriter.mspItems] using hdeque) hgiven (fun hfull => absurd hfull hroom)
      (fun _ => ⟨hroom, by rw [hk], by rw [hk]; exact Nat.mod_eq_of_lt (hfits hroom)⟩)

/-- Pushing entries preserves the invariant. -/
theorem Inv.push_msps {countMax bytesMax : ℕ} {j k : Journal S D} (hinv : Inv countMax bytesMax j)
    (hsplit : k.writer.mspSplit = j.writer.mspSplit) (hlatest : k.writer.evtsLatest = j.writer.evtsLatest)
    (hseries : k.writer.series = j.writer.series) (hgiven : k.given = j.given)
    {msps : List (QueryItem D)} (hdeque : k.deque = j.deque ++ msps) (hmsps : inserts msps = [])
    (hindexed : Indexed (j.deque ++ msps)) : Inv countMax bytesMax k := by
  have hinserts : inserts k.deque = inserts j.deque := by
    rw [hdeque, inserts_append, hmsps, List.append_nil]
  have hentries : k.entries = j.entries := by
    rw [entries, entries, hgiven, hinserts]
  refine ⟨⟨?_, ?_, ?_, ?_, ?_⟩, ?_, ?_, ?_, ?_⟩
  · rw [hinserts, hgiven]
    exact hinv.times
  · rw [hinserts]
    exact hinv.onGrid
  · rw [hinserts]
    exact hinv.ordered
  · rw [hdeque]
    exact hindexed
  · rw [hentries]
    exact hinv.growth
  · rw [hsplit]
    exact hinv.countMax_eq
  · rw [hsplit]
    exact hinv.bytesMax_eq
  · rw [hsplit, hinserts]
    exact hinv.fresh
  · intro m hm
    rw [hsplit] at hm
    rw [hsplit, hlatest, hseries, hinserts, hentries]
    rcases hinv.current m hm with ⟨hgrid, hle, ⟨e, hmem, hentry⟩, hcur⟩
    exact ⟨hgrid, hle, ⟨e, by rw [hdeque]; exact List.mem_append_left _ hmem, hentry⟩, hcur⟩

/-- At most one entry. -/
theorem Inv.push_entry {countMax bytesMax : ℕ} {j k : Journal S D} (hinv : Inv countMax bytesMax j)
    (hsplit : k.writer.mspSplit = j.writer.mspSplit) (hlatest : k.writer.evtsLatest = j.writer.evtsLatest)
    (hseries : k.writer.series = j.writer.series) (hgiven : k.given = j.given)
    {msps : List (QueryItem D)} (hdeque : k.deque = j.deque ++ msps)
    (hmsps : msps = [] ∨ ∃ m : MspItem, msps = [.msp m]) : Inv countMax bytesMax k := by
  refine hinv.push_msps hsplit hlatest hseries hgiven hdeque ?_ ?_
  · exact SeriesWriter.inserts_eq_nil hmsps
  · rcases hmsps with rfl | ⟨m, rfl⟩
    · rw [List.append_nil]
      exact hinv.indexed
    · exact hinv.indexed.push_msp m

theorem step_onClose (j : Journal S D) (tsnow : ℕ) :
    j.step (SeriesWriterCall.onClose tsnow : SeriesWriterCall ET) =
      { j with
        writer := (j.writer.onClose tsnow j.deque).2.1
        deque := (j.writer.onClose tsnow j.deque).2.2 } := rfl

theorem step_housekeeping (j : Journal S D) (tsnow : ℕ) :
    j.step (SeriesWriterCall.housekeeping tsnow : SeriesWriterCall ET) =
      { j with
        writer := (j.writer.housekeeping tsnow j.deque).2.1
        deque := (j.writer.housekeeping tsnow j.deque).2.2 } := rfl

theorem step_onClose_inv {countMax bytesMax : ℕ} {j : Journal S D} (hinv : Inv countMax bytesMax j)
    (tsnow : ℕ) : Inv countMax bytesMax (j.step (SeriesWriterCall.onClose tsnow : SeriesWriterCall ET)) := by
  rcases SeriesWriter.onClose_cases j.writer tsnow j.deque with ⟨reput, msps, heq, hmsps⟩
  rw [step_onClose, heq]
  exact hinv.push_entry rfl rfl rfl rfl rfl hmsps

theorem step_housekeeping_inv {countMax bytesMax : ℕ} {j : Journal S D} (hinv : Inv countMax bytesMax j)
    (tsnow : ℕ) :
    Inv countMax bytesMax (j.step (SeriesWriterCall.housekeeping tsnow : SeriesWriterCall ET)) := by
  rcases SeriesWriter.housekeeping_cases j.writer tsnow j.deque with
    ⟨reput, check, put, latest, msps, heq, hmsps⟩
  rw [step_housekeeping, heq]
  exact hinv.push_entry rfl rfl rfl rfl rfl hmsps

/-- The time of the last event after a call. -/
theorem step_evtsLatest (j : Journal S D) (call : SeriesWriterCall ET) (rest : List (SeriesWriterCall ET))
    (hts : (j.writer.evtsLatest :: writeTimes (call :: rest)).Pairwise (· ≤ ·)) :
    ((j.step call).writer.evtsLatest :: writeTimes rest).Pairwise (· ≤ ·) := by
  cases call with
  | write item tsNet tsev tsnow => exact hts.tail
  | tick => exact hts
  | onClose tsnow =>
      rcases SeriesWriter.onClose_cases j.writer tsnow j.deque with ⟨reput, msps, heq, -⟩
      rw [step_onClose, heq]
      exact hts
  | housekeeping tsnow =>
      rcases SeriesWriter.housekeeping_cases j.writer tsnow j.deque with
        ⟨reput, check, put, latest, msps, heq, -⟩
      rw [step_housekeeping, heq]
      exact hts

/-- A call with a time that is not older than the last event preserves the invariant. -/
theorem step_inv {countMax bytesMax : ℕ} {j : Journal S D} (hinv : Inv countMax bytesMax j)
    (call : SeriesWriterCall ET) (hts : ∀ ts ∈ writeTimes [call], j.writer.evtsLatest ≤ ts)
    (hfits : j.Fits call) : Inv countMax bytesMax (j.step call) := by
  cases call with
  | write item tsNet tsev tsnow =>
      exact step_write_inv hinv item tsNet tsev tsnow (hts tsev List.mem_cons_self) hfits
  | tick => exact hinv
  | onClose tsnow => exact step_onClose_inv hinv tsnow
  | housekeeping tsnow => exact step_housekeeping_inv hinv tsnow

theorem writeTimes_cons (call : SeriesWriterCall ET) (rest : List (SeriesWriterCall ET)) :
    writeTimes (call :: rest) = writeTimes [call] ++ writeTimes rest := by
  cases call <;> rfl

/-- A run preserves the invariant. -/
theorem run_inv {countMax bytesMax : ℕ} (calls : List (SeriesWriterCall ET)) {j : Journal S D}
    (hinv : Inv countMax bytesMax j) (hts : (j.writer.evtsLatest :: writeTimes calls).Pairwise (· ≤ ·))
    (hfits : j.AllFit calls) : Inv countMax bytesMax (j.run calls) := by
  induction calls generalizing j with
  | nil => exact hinv
  | cons call rest ih =>
      refine ih (step_inv hinv call (fun ts hmem => ?_) hfits.1) (step_evtsLatest j call rest hts) hfits.2
      rw [writeTimes_cons] at hts
      exact (List.pairwise_cons.mp hts).1 ts (List.mem_append_left _ hmem)

/-- In every run of a new writer whose events come in order and whose partitions never wrap around their
count of bytes, everything that is pushed is partitioned. -/
theorem run_partitioned (series countMax bytesMax : ℕ) (rt : RetentionTime) (state : S) (tsnow : ℕ)
    (calls : List (SeriesWriterCall ET)) (hts : (writeTimes calls).Pairwise (· ≤ ·))
    (hfits : (new series countMax bytesMax rt state tsnow : Journal S D).AllFit calls) :
    Partitioned countMax bytesMax ((new series countMax bytesMax rt state tsnow).run calls) := by
  refine (run_inv calls (new_inv series countMax bytesMax rt state tsnow) ?_ hfits).toPartitioned
  exact List.pairwise_cons.mpr ⟨fun ts _ => Nat.zero_le ts, hts⟩

end Journal

/-! ## Values from the network -/

/-- A value that is an array of bytes, of which a writer only counts how many there are. -/
structure WritableBytes where
  ts : ℕ
  len : ℕ
  deriving DecidableEq, Repr

instance : EmittableType WritableBytes Unit ℕ where
  hasChange _ _ := true
  intoQueryItem item _ _ state := (⟨item.len, (8 + item.len) % 2 ^ 32⟩, state)

namespace Journal

/-- Two small values, which each begin a partition. -/
theorem run_partitioned_two :
    Partitioned 1 1000 ((new 7 1 1000 .short () 0 : Journal Unit ℕ).run
      [SeriesWriterCall.write (WritableBytes.mk 3000000000 4) 0 3000000000 0, .tick,
        .write ⟨5000000001, 4⟩ 0 5000000001 0, .housekeeping 7200000000000, .onClose 0]) :=
  run_partitioned 7 1 1000 .short () 0 _ (by decide)
    ⟨fun hroom => absurd (.inr (.inr (Nat.zero_le _))) hroom, trivial,
      fun hroom => absurd (.inl (by decide)) hroom, trivial, trivial, trivial⟩

/-- The second value lets the count of bytes wrap around, so that the third one is put into the same
partition, although the grid offers a newer one. -/
theorem not_run_partitioned_wrap :
    ∃ calls : List (SeriesWriterCall WritableBytes), (writeTimes calls).Pairwise (· ≤ ·) ∧
      ¬ Partitioned 65536 10485760
        ((new 7 65536 10485760 .short () 0 : Journal Unit ℕ).run calls) := by
  refine ⟨[.write ⟨2000000000, 0⟩ 0 2000000000 0, .write ⟨2000000001, 4294967280⟩ 0 2000000001 0,
    .write ⟨6000000000, 0⟩ 0 6000000000 0], by decide, fun hp => ?_⟩
  have hgrid := hp.growth
    [(⟨2000000000, 8⟩, ⟨7, 2000, 0, 0, 0⟩), (⟨2000000001, 4294967288⟩, ⟨7, 2000, 1, 4294967280, 0⟩)]
    ⟨6000000000, 8⟩ ⟨7, 2000, 4000000000, 0, 0⟩ [] (by decide +kernel) (.inr (by decide +kernel))
  exact absurd hgrid (by decide +kernel)

end Journal

end Serieswriter
end Daqbuf
