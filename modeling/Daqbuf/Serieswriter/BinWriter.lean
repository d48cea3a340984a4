import Daqbuf.Binning.BinsTimeweight
import Daqbuf.Binning.EventsAccepted
import Daqbuf.Series.Msp
import Daqbuf.Serieswriter.RtWriter
/-!
# The Writer of Bins

The writer gets the events of a channel one by one, and keeps them until its next tick.  The tick hands them to a first
binner, whose bins go to a binner for longer bins, and so on.  All bins that come out are queued for the insert workers,
with entries for the index of the bins.

A tick that fails leaves the state that it has made up to there.  In particular, when the first binner fails, the events
that it has taken in stay with the others: the next tick hands them over again.
-/

namespace Daqbuf
namespace Serieswriter

open Binning Netpod Search Series
open Items (EventSingle)

/-! ## Bins to be written -/

/-- {lit}`WriteCntZero` -/
inductive WriteCntZero where
  | enable
  | disable
  deriving DecidableEq, Repr

/-- {lit}`enabled` -/
def WriteCntZero.enabled : WriteCntZero → Bool
  | enable => true
  | disable => false

/-- {lit}`DiscardFirstOutput` -/
inductive DiscardFirstOutput where
  | enable
  | disable
  deriving DecidableEq, Repr

/-- {lit}`enabled` -/
def DiscardFirstOutput.enabled : DiscardFirstOutput → Bool
  | enable => true
  | disable => false

/-- {lit}`IndexWritten` -/
inductive IndexWritten where
  | none
  | last (msp lsp : ℕ)
  deriving DecidableEq, Repr

/-- {lit}`should_write` -/
def IndexWritten.shouldWrite (iw : IndexWritten) (msp lsp : ℕ) : Bool :=
  match iw with
  | .last lmsp llsp => lmsp ≠ msp || llsp ≠ lsp
  | .none => true

/-- {lit}`TimeBinSimpleF32V02` -/
structure TimeBinSimple (V R : Type) where
  series : ℕ
  binlen : ℤ
  msp : ℤ
  off : ℤ
  cnt : ℤ
  min : V
  max : V
  avg : R
  dev : Binning.Num
  lst : V
  deriving DecidableEq, Repr

/-- {lit}`BinWriteIndexV04` -/
structure BinWriteIndex where
  series : ℤ
  pbp : ℤ
  msp : ℤ
  lsp : ℤ
  binlen : ℤ
  deriving DecidableEq, Repr

/-- {lit}`QueryItem`, as far as the writer of bins pushes it -/
inductive BinItem (V R : Type) where
  | timeBinSimple (item : TimeBinSimple V R)
  | binWriteIndex (item : BinWriteIndex)
  deriving DecidableEq, Repr

/-- {lit}`deque` and {lit}`push_back` -/
def InsertDeques.pushBack {Q : Type} (iqdqs : InsertDeques Q) (rt : RetentionTime) (item : Q) : InsertDeques Q :=
  match rt with
  | .short => { iqdqs with stRf3Qu := iqdqs.stRf3Qu ++ [item] }
  | .medium => { iqdqs with mtRf3Qu := iqdqs.mtRf3Qu ++ [item] }
  | .long => { iqdqs with ltRf3Qu := iqdqs.ltRf3Qu ++ [item] }

/-- How a tick stops: with one of the errors of the source, or in an assertion or an {lit}`unwrap`.  The error
{lit}`UnexpectedContainerType` is left out, as all binners have the same type of bins. -/
inductive BinWriterError where
  | binning (e : EventsError)
  | binBinning (e : BinsFault)
  | unexpectedBinLen (binLen : ℕ) (pbp : PrebinnedPartitioning)
  | binnerNoProgress
  | ingestLoopLimit
  | panicked
  deriving DecidableEq, Repr

/-- The fault of the first binner, as the writer has it -/
def BinWriterError.ofFault : Fault → BinWriterError
  | .error e => .binning e
  | .panicked => .panicked

/-- The fault of another binner, as the writer has it -/
def BinWriterError.ofBinsFault : BinsFault → BinWriterError
  | .inputBinlenOverflow => .binBinning .inputBinlenOverflow
  | .panicked => .panicked

/-- {lit}`BinnerStateA` and {lit}`BinnerStateB`, which differ in their binner -/
structure BinnerState (B : Type) where
  rt : RetentionTime
  binner : B
  writeZero : WriteCntZero
  pbp : PrebinnedPartitioning
  indexWritten1 : IndexWritten
  indexWritten2 : Option IndexWritten
  discardFront : ℕ
  deriving DecidableEq, Repr

section Output

variable {V R B : Type}

/-- The part of {lit}`handle_output_ready` that queues an entry for the index, if it is not the one queued last. -/
def writeIndex (series : ℕ) (pbpIx pbp : PrebinnedPartitioning) (rt : RetentionTime) (ts1 : ℕ) (iw : IndexWritten)
    (iqdqs : InsertDeques (BinItem V R)) : IndexWritten × InsertDeques (BinItem V R) :=
  let (msp, lsp) := pbpIx.mspLsp (toTsMs ts1)
  if iw.shouldWrite msp lsp then
    let item : BinWriteIndex := {
      series := asSigned 64 series
      pbp := asSigned 16 pbpIx.dbIx
      msp := asSigned 32 msp
      lsp := asSigned 32 lsp
      binlen := asSigned 32 pbp.binLen }
    (.last msp lsp, iqdqs.pushBack rt (.binWriteIndex item))
  else (iw, iqdqs)

/-- The entries of a bin in the indexes of {lit}`handle_output_ready` -/
def writeIndexes (series : ℕ) (ts1 : ℕ) (st : BinnerState B) (iqdqs : InsertDeques (BinItem V R)) :
    Except BinWriterError (BinnerState B × InsertDeques (BinItem V R)) :=
  if st.pbp.usesIndexMin10 then
    match st.indexWritten2 with
    | none => .error .panicked
    | some iw =>
        let (iw2, iqdqs) := writeIndex series .min10 st.pbp st.rt ts1 iw iqdqs
        let (iw1, iqdqs) := writeIndex series .day1 st.pbp st.rt ts1 st.indexWritten1 iqdqs
        .ok ({ st with indexWritten1 := iw1, indexWritten2 := some iw2 }, iqdqs)
  else
    let (iw1, iqdqs) := writeIndex series .day1 st.pbp st.rt ts1 st.indexWritten1 iqdqs
    .ok ({ st with indexWritten1 := iw1 }, iqdqs)

/-- The item that {lit}`handle_output_ready` makes of a bin -/
def timeBinOf (series binLen : ℕ) (pbp : PrebinnedPartitioning) (x : Bin V R) : TimeBinSimple V R :=
  let (msp, lsp) := pbp.mspLsp (toTsMs x.ts1)
  { series := series
    binlen := asSigned 32 binLen
    msp := asSigned 32 msp
    off := asSigned 32 lsp
    cnt := asSigned 64 x.cnt
    min := x.min
    max := x.max
    avg := x.agg
    dev := .nan
    lst := x.lst }

/-- The body of the loop of {lit}`handle_output_ready` -/
def handleBin (series : ℕ) (doDiscardFront : DiscardFirstOutput) (st : BinnerState B)
    (iqdqs : InsertDeques (BinItem V R)) (x : Bin V R) :
    Except BinWriterError (BinnerState B × InsertDeques (BinItem V R)) :=
  let binLen := delta x.ts2 x.ts1 / 1000000
  if x.fnl = false then .ok (st, iqdqs)
  else if x.cnt = 0 ∧ st.writeZero.enabled = false then .ok (st, iqdqs)
  else if binLen ≠ st.pbp.binLen then .error (.unexpectedBinLen binLen st.pbp)
  else if doDiscardFront.enabled ∧ st.discardFront < 1 then
    .ok ({ st with discardFront := st.discardFront + 1 }, iqdqs)
  else
    let item := timeBinOf series binLen st.pbp x
    writeIndexes series x.ts1 st (iqdqs.pushBack st.rt (.timeBinSimple item))

/-- {lit}`handle_output_ready` -/
def handleOutputReady (series : ℕ) (doDiscardFront : DiscardFirstOutput) :
    List (Bin V R) → BinnerState B → InsertDeques (BinItem V R) →
      Except BinWriterError Unit × BinnerState B × InsertDeques (BinItem V R)
  | [], st, iqdqs => (.ok (), st, iqdqs)
  | x :: bins, st, iqdqs =>
      match handleBin series doDiscardFront st iqdqs x with
      | .error e => (.error e, st, iqdqs)
      | .ok (st, iqdqs) => handleOutputReady series doDiscardFront bins st iqdqs

/-- Writing bins leaves the binner alone. -/
theorem handleBin_binner {series : ℕ} {d : DiscardFirstOutput} {st st' : BinnerState B}
    {iqdqs iqdqs' : InsertDeques (BinItem V R)} {x : Bin V R} (h : handleBin series d st iqdqs x = .ok (st', iqdqs')) :
    st'.binner = st.binner := by
  unfold handleBin writeIndexes at h
  simp only at h
  split_ifs at h
  · cases h
    rfl
  · cases h
    rfl
  · cases h
    rfl
  · split at h
    · cases h
    · cases h
      rfl
  · cases h
    rfl

theorem handleOutputReady_binner (series : ℕ) (d : DiscardFirstOutput) (bins : List (Bin V R)) (st : BinnerState B)
    (iqdqs : InsertDeques (BinItem V R)) : (handleOutputReady series d bins st iqdqs).2.1.binner = st.binner := by
  induction bins generalizing st iqdqs with
  | nil => rfl
  | cons x bins ih =>
      rw [handleOutputReady]
      split
      · rfl
      · rename_i st' iqdqs' hbin
        rw [ih st' iqdqs', handleBin_binner hbin]

end Output

/-! ## The binners behind the first -/

section Others

variable {V H R : Type} [PartialOrdEvtA V] [AggBinValTw H R]

/-- What {lit}`ingest_bins` has made of an input bin that is too long: the bins before it are finished, and its count
and its extrema are taken in. -/
def stopAt (s : BinnedBinsTimeweight V H R) (x : Bin V R) : BinnedBinsTimeweight V H R :=
  match (s.finishBinIf (s.activeEnd ≤ x.ts1) x.ts1).bind fun s => s.finishBinIf (s.activeEnd < x.ts2) x.ts2 with
  | .error _ => s
  | .ok s =>
      let s := if x.ts1 = s.activeBeg then { s with min := some x.min, max := some x.max } else s
      { s with
        cnt := add s.cnt x.cnt
        min := BinnedBinsTimeweight.bound s.min x.min .lt
        max := BinnedBinsTimeweight.bound s.max x.max .gt }

/-- {lit}`ingest` of {lit}`BinnedBinsTimeweight`, with the state that a failure leaves -/
def ingestBinsKeep : List (Bin V R) → BinnedBinsTimeweight V H R →
    Except BinsFault Unit × BinnedBinsTimeweight V H R
  | [], s => (.ok (), s)
  | x :: bins, s =>
      match s.ingestBin x with
      | .error e => (.error e, stopAt s x)
      | .ok s => ingestBinsKeep bins s

/-- Where the bins are taken in, this is what the binner makes of them. -/
theorem ingestBinsKeep_ok {bins : List (Bin V R)} {s s' : BinnedBinsTimeweight V H R} :
    ingestBinsKeep bins s = (.ok (), s') ↔ s.ingestBins bins = .ok s' := by
  induction bins generalizing s with
  | nil =>
      constructor
      · rintro ⟨⟩
        rfl
      · rintro ⟨⟩
        rfl
  | cons x bins ih =>
      rw [ingestBinsKeep, BinnedBinsTimeweight.ingestBins, List.foldlM_cons]
      cases s.ingestBin x with
      | error e =>
          constructor
          · intro h
            cases h
          · intro h
            cases h
      | ok s1 => exact ih

/-- The loop of {lit}`tick_ingest_and_handle` over {lit}`binner_others`: each gets the bins of the one before it. -/
def ingestOthers (series : ℕ) (doDiscardFront : DiscardFirstOutput) :
    List (Bin V R) → List (BinnerState (BinnedBinsTimeweight V H R)) → InsertDeques (BinItem V R) →
      Except BinWriterError Unit × List (BinnerState (BinnedBinsTimeweight V H R)) × InsertDeques (BinItem V R)
  | _, [], iqdqs => (.ok (), [], iqdqs)
  | bins, st :: sts, iqdqs =>
      match ingestBinsKeep bins st.binner with
      | (.error e, b) => (.error (.ofBinsFault e), { st with binner := b } :: sts, iqdqs)
      | (.ok _, b) =>
          match b.output with
          | (none, b) => (.ok (), { st with binner := b } :: sts, iqdqs)
          | (some bb, b) =>
              if 0 < bb.length then
                match handleOutputReady series doDiscardFront bb { st with binner := b } iqdqs with
                | (.error e, st, iqdqs) => (.error e, st :: sts, iqdqs)
                | (.ok _, st, iqdqs) =>
                    let x := ingestOthers series doDiscardFront bb sts iqdqs
                    (x.1, st :: x.2.1, x.2.2)
              else (.ok (), { st with binner := b } :: sts, iqdqs)

end Others

/-! ## The writer -/

/-- {lit}`BinWriter`, without what its ticks do not use -/
structure BinWriter (V G H R : Type) where
  sid : ℕ
  doDiscardFront : DiscardFirstOutput
  evbuf : List (EventSingle V)
  binner1st : Option (BinnerState (BinnedEventsTimeweight V G R))
  binnerOthers : List (BinnerState (BinnedBinsTimeweight V H R))
  deriving DecidableEq, Repr

/-- {lit}`bin_len_clamp`, of a length in milliseconds -/
def binLenClamp (dur : ℕ) : PrebinnedPartitioning :=
  if dur < 1000 * 2 then .sec1
  else if dur ≤ 1000 * 20 then .sec10
  else if dur ≤ 1000 * 60 * 2 then .min1
  else if dur ≤ 1000 * 60 * 20 then .min10
  else if dur ≤ 1000 * 60 * 60 * 2 then .hour1
  else .day1

/-- What a binner is made of: the retention time and the length of its bins, and whether to write bins of no events. -/
abbrev Comb := RetentionTime × PrebinnedPartitioning × WriteCntZero

/-- The quiet times in milliseconds, with their retention times -/
def quietsOf (minQuiets : MinQuiets) : List (RetentionTime × ℕ) :=
  [(.short, minQuiets.st / 1000000 % 2 ^ 64), (.medium, minQuiets.mt / 1000000 % 2 ^ 64),
    (.long, minQuiets.lt / 1000000 % 2 ^ 64)]

/-- {lit}`has_monitor` of {lit}`new`: the last retention time without a quiet time -/
def hasMonitor (minQuiets : MinQuiets) : Option RetentionTime :=
  ((quietsOf minQuiets).filter fun x => x.2 = 0).getLast?.map Prod.fst

/-- The first list of {lit}`new`: a binner for each quiet time that is neither zero nor very long -/
def combsA (minQuiets : MinQuiets) (emitZntZeroDefault : WriteCntZero) : List Comb :=
  ((quietsOf minQuiets).filter fun x => 0 < x.2 ∧ x.2 < 1000 * 60 * 60 * 24 * 123).map fun x =>
    (x.1, binLenClamp x.2, emitZntZeroDefault)

/-- The second list of {lit}`new`, which goes up to bins of a day -/
def combsB (minQuiets : MinQuiets) (emitZntZeroDefault : WriteCntZero) : List Comb :=
  let combs := combsA minQuiets emitZntZeroDefault
  match combs.getLast? with
  | some (_, .day1, _) => combs.dropLast ++ [(.long, .day1, .enable)]
  | some (_, .hour1, wz) => combs.dropLast ++ [(.long, .hour1, wz), (.long, .day1, .enable)]
  | some _ => combs ++ [(.long, .hour1, emitZntZeroDefault), (.long, .day1, .enable)]
  | none =>
      match hasMonitor minQuiets with
      | some .short =>
          [(.short, .min1, emitZntZeroDefault), (.medium, .hour1, emitZntZeroDefault), (.long, .day1, .enable)]
      | some .medium =>
          [(.short, .min1, emitZntZeroDefault), (.medium, .hour1, emitZntZeroDefault), (.long, .day1, .enable)]
      | some .long =>
          [(.medium, .min1, emitZntZeroDefault), (.long, .hour1, emitZntZeroDefault), (.long, .day1, .enable)]
      | none => [(.long, .day1, .enable)]

/-- The last list of {lit}`new` -/
def combsC (minQuiets : MinQuiets) (isPolled : Bool) (emitZntZeroDefault : WriteCntZero) (chname : String) :
    List Comb :=
  let combs := combsB minQuiets emitZntZeroDefault
  let combs :=
    if "TEST:MIN10:".toList <:+: chname.toList then
      combs.map fun x => if x.2.1 = .min1 then (x.1, x.2.1, .enable) else x
    else combs
  if 1 < combs.length ∧ hasMonitor minQuiets = none ∧ isPolled then combs.tail else combs

/-- The state of {lit}`new` for a binner -/
def binnerStateOf {B : Type} (comb : Comb) (binner : B) : BinnerState B where
  rt := comb.1
  binner := binner
  writeZero := comb.2.2
  pbp := comb.2.1
  indexWritten1 := .none
  indexWritten2 := if comb.2.1.usesIndexMin10 then some .none else none
  discardFront := 0

namespace BinWriter

variable {V G H R : Type} [AggregatorTimeWeight G V R] [AggBinValTw H R]

/-- {lit}`new` -/
def new (beg : ℕ) (minQuiets : MinQuiets) (isPolled : Bool) (emitZntZeroDefault : WriteCntZero)
    (doDiscardFront : DiscardFirstOutput) (sid : ℕ) (chname : String) : BinWriter V G H R :=
  let combs := combsC minQuiets isPolled emitZntZeroDefault chname
  let rangeOf : Comb → BinnedRange := fun x => .fromBegToInf beg (x.2.1.binLen * 1000000)
  { sid := sid
    doDiscardFront := doDiscardFront
    evbuf := []
    binner1st := combs.head?.map fun x =>
      let binner := BinnedEventsTimeweight.new (rangeOf x)
      binnerStateOf x (if x.2.2.enabled then binner.cntZeroEnable else binner)
    binnerOthers := combs.tail.map fun x =>
      let binner := BinnedBinsTimeweight.new (rangeOf x)
      binnerStateOf x (if x.2.2.enabled then binner.cntZeroEnable else binner) }

omit [AggregatorTimeWeight G V R] [AggBinValTw H R] in
/-- {lit}`ingest` -/
def ingest (w : BinWriter V G H R) (tsLocal : ℕ) (val : V) : BinWriter V G H R :=
  { w with evbuf := w.evbuf ++ [⟨tsLocal, val⟩] }

variable [PartialOrdEvtA V]

/-- The part of {lit}`tick_ingest_and_handle` that takes bins from the first binner and hands them on.  The buffer
is already without the events that were consumed. -/
def handOn (consumedEvs : ℕ) (st : BinnerState (BinnedEventsTimeweight V G R)) (w : BinWriter V G H R)
    (iqdqs : InsertDeques (BinItem V R)) :
    Except BinWriterError Unit × BinWriter V G H R × InsertDeques (BinItem V R) :=
  match st.binner.output with
  | .error e => (.error (.ofFault e), { w with binner1st := some st }, iqdqs)
  | .ok (bins, b) =>
      if 0 < bins.length then
        match handleOutputReady w.sid w.doDiscardFront bins { st with binner := b } iqdqs with
        | (.error e, st, iqdqs) => (.error e, { w with binner1st := some st }, iqdqs)
        | (.ok _, st, iqdqs) =>
            let x := ingestOthers w.sid w.doDiscardFront bins w.binnerOthers iqdqs
            (x.1, { w with binner1st := some st, binnerOthers := x.2.1 }, x.2.2)
      else if consumedEvs = 0 then
        (.error .binnerNoProgress, { w with binner1st := some { st with binner := b } }, iqdqs)
      else (.ok (), { w with binner1st := some { st with binner := b } }, iqdqs)

/-- {lit}`tick_ingest_and_handle` -/
def tickIngestAndHandle (search : BinarySearch ℕ) (w : BinWriter V G H R) (iqdqs : InsertDeques (BinItem V R)) :
    Except BinWriterError Unit × BinWriter V G H R × InsertDeques (BinItem V R) :=
  match w.binner1st with
  | none => (.ok (), { w with evbuf := [] }, iqdqs)
  | some st =>
      match st.binner.ingest search w.evbuf with
      | (.error e, b) => (.error (.ofFault e), { w with binner1st := some { st with binner := b } }, iqdqs)
      | (.ok .consumedAll, b) => handOn w.evbuf.length { st with binner := b } { w with evbuf := [] } iqdqs
      | (.ok (.consumedPart n), b) =>
          handOn n { st with binner := b } { w with evbuf := truncateFront w.evbuf (w.evbuf.length - n) } iqdqs

/-- {lit}`tick_ingest_loop`, with the number of rounds after which it may still go on -/
def tickIngestLoop (search : BinarySearch ℕ) :
    ℕ → BinWriter V G H R → InsertDeques (BinItem V R) →
      Except BinWriterError Unit × BinWriter V G H R × InsertDeques (BinItem V R)
  | n, w, iqdqs =>
      if w.evbuf.length ≠ 0 then
        match w.tickIngestAndHandle search iqdqs with
        | (.error e, w, iqdqs) => (.error e, w, iqdqs)
        | (.ok _, w, iqdqs) =>
            match n with
            | 0 => (.error .ingestLoopLimit, w, iqdqs)
            | n + 1 => tickIngestLoop search n w iqdqs
      else (.ok (), w, iqdqs)

/-- {lit}`tick` -/
def tick (search : BinarySearch ℕ) (w : BinWriter V G H R) (iqdqs : InsertDeques (BinItem V R)) :
    Except BinWriterError Unit × BinWriter V G H R × InsertDeques (BinItem V R) :=
  if w.evbuf.length ≠ 0 then w.tickIngestLoop search 20000 iqdqs else (.ok (), w, iqdqs)

end BinWriter

end Serieswriter
end Daqbuf
