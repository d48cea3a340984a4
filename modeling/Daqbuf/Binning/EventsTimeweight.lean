import Daqbuf.Binning.Bins
import Daqbuf.Netpod.Range
import Daqbuf.Search.PartitionPoint
/-!
# Binning of Events

The binner that makes bins of events, each with the time weighted average of the values.  Events are handed
over in containers.  The binner keeps the last event, the state of the active bin, and the bins that nobody
has taken yet.

An operation that fails leaves the state that it has made up to there.  The source's assertions are faults of
their own.
-/

namespace Daqbuf
namespace Binning

open Netpod Search
open Items (EventSingle)

/-- {lit}`OUT_LEN_MAX` -/
def outLenMax : ℕ := 10000

/-- The errors of {lit}`timeweight_events` that the binner can make -/
inductive EventsError where
  | unordered
  | eventAfterRange
  | noLstAfterFirst
  | noLstButMinMax
  | noMinMaxAfterInit
  | ingestNoProgress (n1 n2 : ℕ)
  | eventActiveRangeBefore (selfname : String) (ts beg : ℕ)
  | eventActiveRangeAfter (selfname : String) (bounds : Option (ℕ × ℕ))
  | eventActiveRangeLE
  deriving DecidableEq, Repr

/-- How an operation stops: with an error that it returns, or in an assertion. -/
inductive Fault where
  | error (e : EventsError)
  | panicked
  deriving DecidableEq, Repr

/-- {lit}`IngestReport` -/
inductive IngestReport where
  | consumedAll
  | consumedPart (n : ℕ)
  deriving DecidableEq, Repr

/-- {lit}`MinMax` -/
abbrev MinMax (V : Type) := EventSingle V × EventSingle V

section Model

variable {V G R : Type} [PartialOrdEvtA V] [AggregatorTimeWeight G V R]

/-! ## The active bin -/

/-- {lit}`InnerB` -/
structure InnerB (G : Type) where
  cnt : ℕ
  activeBeg : ℕ
  activeEnd : ℕ
  activeLen : ℕ
  filledUntil : ℕ
  filledWidth : ℕ
  agg : G
  deriving DecidableEq, Repr

/-- {lit}`InnerA` -/
structure InnerA (V G : Type) where
  innerB : InnerB G
  minmax : Option (MinMax V)
  deriving DecidableEq, Repr

/-- What the functions of {lit}`InnerB` work on: the active bin, the last event and the extrema. -/
structure Act (V G : Type) where
  b : InnerB G
  lst : EventSingle V
  minmax : MinMax V
  deriving DecidableEq, Repr

/-- {lit}`apply_min_max` -/
def applyMinMax (ev : EventSingle V) (minmax : MinMax V) : MinMax V :=
  let min := if PartialOrdEvtA.cmpA ev.val minmax.1.val = some .lt then ev else minmax.1
  let max := if PartialOrdEvtA.cmpA ev.val minmax.2.val = some .gt then ev else minmax.2
  (min, max)

/-- {lit}`apply_min_max_range_beg` -/
def applyMinMaxRangeBeg (ev : EventSingle V) : MinMax V := (ev, ev)

/-- The aggregator gets the last value for the time up to {lit}`ts`, as in
{lit}`ingest_event_with_lst_gt_range_beg_agg` and in {lit}`fill_until`.  What both assert about {lit}`ts` their
callers have checked just before. -/
def InnerB.fillUntil (b : InnerB G) (ts : ℕ) (lst : EventSingle V) : InnerB G :=
  let dt := delta ts b.filledUntil
  { b with
    agg := AggregatorTimeWeight.ingest b.agg dt b.activeLen lst.val
    filledWidth := add b.filledWidth dt
    filledUntil := ts }

/-- {lit}`self.cnt += 1` -/
def InnerB.bump (b : InnerB G) : InnerB G := { b with cnt := b.cnt + 1 }

/-- {lit}`ingest_event_with_lst_gt_range_beg`, and the count that each caller adds -/
def Act.ingestEventGt (a : Act V G) (ev : EventSingle V) : Act V G where
  b := (a.b.fillUntil ev.ts a.lst).bump
  lst := ev
  minmax := applyMinMax ev a.minmax

/-- {lit}`ingest_event_with_lst_eq_range_beg`, and the count that its caller adds -/
def Act.ingestEventEq (a : Act V G) (ev : EventSingle V) : Act V G where
  b := a.b.bump
  lst := ev
  minmax := applyMinMaxRangeBeg ev

/-- {lit}`ingest_with_lst_gt_range_beg` -/
def ingestWithLstGtRangeBeg : List (EventSingle V) → Act V G → Except Fault Unit × Act V G
  | [], a => (.ok (), a)
  | ev :: evs, a =>
      if ev.ts ≤ a.b.activeBeg then (.error (.error .eventActiveRangeLE), a)
      else if a.b.activeEnd ≤ ev.ts then
        (.error (.error (.eventActiveRangeAfter "ingest_with_lst_gt_range_beg" none)), a)
      else ingestWithLstGtRangeBeg evs (a.ingestEventGt ev)

/-- {lit}`ingest_with_lst_ge_range_beg` -/
def ingestWithLstGeRangeBeg : List (EventSingle V) → Act V G → Except Fault Unit × Act V G
  | [], a => (.ok (), a)
  | ev :: evs, a =>
      if ev.ts < a.b.activeBeg ∨ a.b.activeEnd ≤ ev.ts then (.error .panicked, a)
      else if ev.ts = a.b.activeBeg then ingestWithLstGeRangeBeg evs (a.ingestEventEq ev)
      else ingestWithLstGtRangeBeg evs (a.ingestEventGt ev)

/-- {lit}`ingest_with_lst_minmax` -/
def ingestWithLstMinmax (evs : List (EventSingle V)) (a : Act V G) : Except Fault Unit × Act V G :=
  match evs with
  | [] => (.ok (), a)
  | ev :: _ =>
      if ev.ts < a.b.activeBeg then
        (.error (.error (.eventActiveRangeBefore "ingest_with_lst_minmax" ev.ts a.b.activeBeg)), a)
      else if a.b.activeEnd ≤ ev.ts then
        (.error (.error (.eventActiveRangeAfter "ingest_with_lst_minmax"
          (some (ev.ts, a.b.activeEnd)))), a)
      else ingestWithLstGeRangeBeg evs a

namespace InnerA

/-- The inner state after the functions of {lit}`InnerB` have worked on it. -/
def ofAct (x : Except Fault Unit × Act V G) :
    Except Fault (List (EventSingle V)) × InnerA V G × EventSingle V :=
  (x.1.map fun _ => [], { innerB := x.2.b, minmax := some x.2.minmax }, x.2.lst)

/-- {lit}`ingest_with_lst`: gives back the events that it has left, the inner state, and the last event. -/
def ingestWithLst (ia : InnerA V G) (lst : EventSingle V) (evs : List (EventSingle V)) :
    Except Fault (List (EventSingle V)) × InnerA V G × EventSingle V :=
  match ia.minmax with
  | some minmax => ofAct (ingestWithLstMinmax evs ⟨ia.innerB, lst, minmax⟩)
  | none =>
      match evs with
      | [] => (.ok [], ia, lst)
      | ev :: rest =>
          if ev.ts < ia.innerB.activeBeg then
            (.error (.error (.eventActiveRangeBefore "ingest_with_lst" ev.ts ia.innerB.activeBeg)), ia, lst)
          else if ia.innerB.activeEnd ≤ ev.ts then
            (.error (.error (.eventActiveRangeAfter "ingest_with_lst"
              (some (ev.ts, ia.innerB.activeEnd)))), ia, lst)
          else if ev.ts = ia.innerB.activeBeg then
            (.ok rest, { innerB := ia.innerB.bump, minmax := some (ev, ev) }, ev)
          else
            ofAct (ingestWithLstMinmax rest (Act.ingestEventGt ⟨ia.innerB, lst, (lst, lst)⟩ ev))

/-- {lit}`reset_01` -/
def reset01 (ia : InnerA V G) (lst : EventSingle V) : Except Fault (InnerA V G) :=
  let b := ia.innerB
  let ts1 := b.activeEnd / b.activeLen * b.activeLen
  if ts1 = b.activeEnd then
    .ok {
      innerB := { b with
        activeBeg := ts1
        activeEnd := ts1 + b.activeLen
        filledUntil := ts1
        filledWidth := 0
        cnt := 0 }
      minmax := some (lst, lst) }
  else .error .panicked

/-- {lit}`push_out_and_reset` -/
def pushOutAndReset (ia : InnerA V G) (lst : EventSingle V) (rangeFinal : Bool) (out : List (Bin V R)) :
    Except Fault (InnerA V G × List (Bin V R)) :=
  let b := ia.innerB
  let minmax := ia.minmax.getD (lst, lst)
  let res := AggregatorTimeWeight.resultAndResetForNewBin b.agg (fractionOf b.filledWidth b.activeLen)
  let bin : Bin V R := {
    ts1 := b.activeBeg
    ts2 := b.activeEnd
    cnt := b.cnt
    min := minmax.1.val
    max := minmax.2.val
    agg := res.1
    lst := lst.val
    fnl := rangeFinal }
  (reset01 { innerB := { b with agg := res.2 }, minmax := some minmax } lst).map fun ia => (ia, out ++ [bin])

end InnerA

/-! ## The binner -/

/-- {lit}`BinnedEventsTimeweight` -/
structure BinnedEventsTimeweight (V G R : Type) where
  range : BinnedRange
  produceCntZero : Bool
  lst : Option (EventSingle V)
  innerA : InnerA V G
  out : List (Bin V R)
  inputDoneRangeFinalContinueOutput : Bool
  deriving DecidableEq, Repr

namespace BinnedEventsTimeweight

/-- {lit}`new` -/
def new (range : BinnedRange) : BinnedEventsTimeweight V G R where
  range := range
  produceCntZero := false
  lst := none
  innerA := {
    innerB := {
      cnt := 0
      activeBeg := range.nanoBeg
      activeEnd := range.nanoBeg + range.binLen
      activeLen := range.binLen
      filledUntil := range.nanoBeg
      filledWidth := 0
      agg := AggregatorTimeWeight.new }
    minmax := none }
  out := []
  inputDoneRangeFinalContinueOutput := false

/-- {lit}`cnt_zero_enable` -/
def cntZeroEnable (s : BinnedEventsTimeweight V G R) : BinnedEventsTimeweight V G R :=
  { s with produceCntZero := true }

/-- {lit}`ingest_event_without_lst` -/
def ingestEventWithoutLst (s : BinnedEventsTimeweight V G R) (ev : EventSingle V) :
    Except Fault Unit × BinnedEventsTimeweight V G R :=
  let b := s.innerA.innerB
  if ev.ts < b.activeBeg then
    (.ok (), { s with lst := some ev, innerA := { innerB := b, minmax := some (ev, ev) } })
  else if b.activeEnd ≤ ev.ts then
    (.error (.error (.eventActiveRangeAfter "ingest_event_without_lst" none)), s)
  else
    (.ok (), { s with
      lst := some ev
      innerA := { innerB := { b with cnt := b.cnt + 1, filledUntil := ev.ts }, minmax := some (ev, ev) } })

/-- {lit}`ingest_with_lst` on the binner's last event -/
def ingestWithLst (s : BinnedEventsTimeweight V G R) (lst : EventSingle V) (evs : List (EventSingle V)) :
    Except Fault (List (EventSingle V)) × BinnedEventsTimeweight V G R :=
  let x := s.innerA.ingestWithLst lst evs
  (x.1, { s with innerA := x.2.1, lst := some x.2.2 })

/-- {lit}`ingest_without_lst` -/
def ingestWithoutLst (s : BinnedEventsTimeweight V G R) (evs : List (EventSingle V)) :
    Except Fault (List (EventSingle V)) × BinnedEventsTimeweight V G R :=
  match evs with
  | [] => (.ok [], s)
  | ev :: rest =>
      if ev.ts < s.innerA.innerB.activeEnd then
        match s.ingestEventWithoutLst ev with
        | (.error e, s1) => (.error e, s1)
        | (.ok _, s1) =>
            match s1.lst with
            | some lst => s1.ingestWithLst lst rest
            | none => (.error (.error .noLstAfterFirst), s1)
      else (.error .panicked, s)

/-- {lit}`ingest_ordered` -/
def ingestOrdered (s : BinnedEventsTimeweight V G R) (evs : List (EventSingle V)) :
    Except Fault (List (EventSingle V)) × BinnedEventsTimeweight V G R :=
  match s.lst with
  | some lst => s.ingestWithLst lst evs
  | none =>
      if s.innerA.minmax.isSome then (.error (.error .noLstButMinMax), s)
      else s.ingestWithoutLst evs

/-- The loop of {lit}`cycle_01` with zero-count bins enabled.  The source asserts a bound on the number of
its rounds. -/
def cycleLoop (ts : ℕ) (lst : EventSingle V) :
    ℕ → InnerA V G → List (Bin V R) → Except Fault (InnerA V G × List (Bin V R))
  | 0, _, _ => .error .panicked
  | n + 1, ia, out =>
      let b := ia.innerB
      if outLenMax < out.length then .ok (ia, out)
      else if b.filledUntil < ts then
        if b.activeEnd ≤ ts then
          let b := if b.filledUntil < b.activeEnd then b.fillUntil b.activeEnd lst else b
          match InnerA.pushOutAndReset { ia with innerB := b } lst true out with
          | .error e => .error e
          | .ok x => cycleLoop ts lst n x.1 x.2
        else cycleLoop ts lst n { ia with innerB := b.fillUntil ts lst } out
      else .ok (ia, out)

/-- The part of {lit}`cycle_01` without zero-count bins that precedes the jump. -/
def cycleOnce (ts : ℕ) (lst : EventSingle V) (ia : InnerA V G) (out : List (Bin V R)) :
    Except Fault (InnerA V G × List (Bin V R)) :=
  let b := ia.innerB
  if b.filledUntil < ts then
    if b.activeEnd ≤ ts then
      let b := if b.filledUntil < b.activeEnd then b.fillUntil b.activeEnd lst else b
      InnerA.pushOutAndReset { ia with innerB := b } lst true out
    else .ok ({ ia with innerB := b.fillUntil ts lst }, out)
  else .ok (ia, out)

/-- The jump of {lit}`cycle_01` to the bin of the given time. -/
def jumpTo (b : InnerB G) (ts : ℕ) : InnerB G :=
  let ts1 := ts / b.activeLen * b.activeLen
  { b with
    activeBeg := ts1
    activeEnd := ts1 + b.activeLen
    filledUntil := ts1
    filledWidth := 0
    cnt := 0
    agg := AggregatorTimeWeight.resetForNewBin b.agg }

/-- {lit}`cycle_01` -/
def cycle01 (s : BinnedEventsTimeweight V G R) (ts : ℕ) : Except Fault (BinnedEventsTimeweight V G R) :=
  let b := s.innerA.innerB
  if ¬(b.activeBeg < ts ∧ b.activeBeg ≤ b.filledUntil ∧ b.filledUntil < ts ∧ b.filledUntil ≤ b.activeEnd)
  then .error .panicked
  else
    match s.lst with
    | some lst =>
        if s.produceCntZero then
          (cycleLoop ts lst (3 * outLenMax - 1) s.innerA s.out).map fun x =>
            { s with innerA := x.1, out := x.2 }
        else
          (cycleOnce ts lst s.innerA s.out).map fun x =>
            { s with innerA := { x.1 with innerB := jumpTo x.1.innerB ts }, out := x.2 }
    | none =>
        if s.innerA.minmax.isSome then .error .panicked
        else .ok { s with innerA := { s.innerA with innerB := jumpTo b ts } }

/-- {lit}`cycle_02` -/
def cycle02 (s : BinnedEventsTimeweight V G R) : Except Fault (BinnedEventsTimeweight V G R) :=
  match s.lst with
  | some lst =>
      (s.innerA.pushOutAndReset lst false s.out).map fun x => { s with innerA := x.1, out := x.2 }
  | none => .ok s

/-- {lit}`constrain_up_to_ts`: the end of the events before {lit}`fin`, from the position on.  The search
goes over the whole container. -/
def constrainUpToTs (search : BinarySearch ℕ) (evs : List (EventSingle V)) (pos fin : ℕ) :
    Except Fault ℕ :=
  let tss := evs.map (·.ts)
  let pp := max (search.pp (· < fin) tss) pos
  if pp ≤ tss.length ∧ (pp ≠ 0 → tss.getD (pp - 1) fin < fin) then .ok pp else .error .panicked

/-- The start of a round of {lit}`ingest`: an event at the end of the active bin or after it ends the bin. -/
def cycleBefore (s : BinnedEventsTimeweight V G R) (ts : ℕ) : Except Fault (BinnedEventsTimeweight V G R) :=
  let b := s.innerA.innerB
  if b.activeEnd ≤ ts then
    if b.filledUntil < b.activeEnd then s.cycle01 ts else .error .panicked
  else .ok s

/-- The middle of a round of {lit}`ingest`: the events of the active bin are ingested. -/
def ingestActive (s : BinnedEventsTimeweight V G R) (ts : ℕ) (evs : List (EventSingle V)) :
    Except Fault (List (EventSingle V)) × BinnedEventsTimeweight V G R :=
  match s.lst with
  | some lst => if ts < lst.ts then (.error (.error .unordered), s) else s.ingestOrdered evs
  | none => s.ingestOrdered evs

/-- The loop of {lit}`ingest`, from a position of the container on.  A round without progress is an error, so
that the rounds are at most as many as the events. -/
def ingestLoop (search : BinarySearch ℕ) (evs : List (EventSingle V)) :
    ℕ → ℕ → ℕ → BinnedEventsTimeweight V G R →
      Except Fault IngestReport × BinnedEventsTimeweight V G R
  | 0, _, _, s => (.ok .consumedAll, s)
  | n + 1, pos, nconsumed, s =>
      match evs[pos]? with
      | none => (.ok .consumedAll, s)
      | some ev =>
          if s.range.nanoEnd ≤ ev.ts then (.error (.error .eventAfterRange), s)
          else
            match s.cycleBefore ev.ts with
            | .error e => (.error e, s)
            | .ok s1 =>
                if s.innerA.innerB.activeEnd ≤ ev.ts ∧ outLenMax < s1.out.length then
                  (.ok (.consumedPart nconsumed), s1)
                else
                  match constrainUpToTs search evs pos s1.innerA.innerB.activeEnd with
                  | .error e => (.error e, s1)
                  | .ok fin =>
                      match s1.ingestActive ev.ts ((evs.take fin).drop pos) with
                      | (.error e, s2) => (.error e, s2)
                      | (.ok rest, s2) =>
                          let pos2 := fin - rest.length
                          let n1 := evs.length - pos
                          let n2 := evs.length - pos2
                          if n2 = 0 then (.ok .consumedAll, s2)
                          else if n1 ≤ n2 then (.error (.error (.ingestNoProgress n1 n2)), s2)
                          else ingestLoop search evs n pos2 (nconsumed + (n1 - n2)) s2

/-- {lit}`ingest` -/
def ingest (search : BinarySearch ℕ) (s : BinnedEventsTimeweight V G R) (evs : List (EventSingle V)) :
    Except Fault IngestReport × BinnedEventsTimeweight V G R :=
  ingestLoop search evs evs.length 0 0 s

/-- {lit}`input_done_range_final` -/
def inputDoneRangeFinal (s : BinnedEventsTimeweight V G R) : Except Fault (BinnedEventsTimeweight V G R) :=
  (s.cycle01 s.range.nanoEnd).map fun s =>
    if outLenMax < s.out.length then { s with inputDoneRangeFinalContinueOutput := true } else s

/-- {lit}`input_done_range_open` -/
def inputDoneRangeOpen (s : BinnedEventsTimeweight V G R) : Except Fault (BinnedEventsTimeweight V G R) :=
  s.cycle02

/-- {lit}`output` -/
def output (s : BinnedEventsTimeweight V G R) :
    Except Fault (List (Bin V R) × BinnedEventsTimeweight V G R) :=
  let s1 := { s with out := [] }
  if s.inputDoneRangeFinalContinueOutput then
    (cycle01 { s1 with inputDoneRangeFinalContinueOutput := false } s.range.nanoEnd).map fun s2 => (s.out, s2)
  else .ok (s.out, s1)

end BinnedEventsTimeweight

end Model

end Binning
end Daqbuf
