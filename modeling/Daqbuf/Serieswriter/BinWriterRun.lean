import Daqbuf.Serieswriter.BinWriter
/-!
# Runs of the Writer of Bins

What the first binner of the writer has been given of all events, after any calls of the writer.  As long as the
binner accepts what a tick finds in the buffer, it has been given a first part of all events, each of them once, and
the buffer holds the others.  A tick that fails later, on the bins that came out, does not change this.

A tick on which the first binner fails does.  The events before the bad one have been taken in, and they are still in
the buffer together with the bad one.  The next tick hands them over again.

Main results:

- Theorem {lit}`BinWriter.recovers_of_inOrder`: as long as the first binner accepts what the ticks hand over, every event
  is binned once.
- Theorem {lit}`BinWriter.not_recovers`: after an event out of order, the one before it is counted twice.
-/

namespace Daqbuf
namespace Serieswriter

open Binning Netpod Search Series BinnedEventsTimeweight
open Items (EventSingle)

namespace BinWriter

/-! ## Calls -/

/-- A call of the writer -/
inductive Call (V : Type) where
  | ingest (tsLocal : ℕ) (val : V)
  | tick
  deriving DecidableEq, Repr

/-- The event of a call -/
def Call.event {V : Type} : Call V → List (EventSingle V)
  | .ingest tsLocal val => [⟨tsLocal, val⟩]
  | .tick => []

section Run

variable {V G H R : Type} [PartialOrdEvtA V] [AggregatorTimeWeight G V R] [AggBinValTw H R]

/-- Makes a call. -/
def call (search : BinarySearch ℕ) (x : BinWriter V G H R × InsertDeques (BinItem V R)) :
    Call V → Except BinWriterError Unit × BinWriter V G H R × InsertDeques (BinItem V R)
  | .ingest tsLocal val => (.ok (), x.1.ingest tsLocal val, x.2)
  | .tick => x.1.tick search x.2

/-- The writer and the queues after some calls, whether these fail or not. -/
def run (search : BinarySearch ℕ) (x : BinWriter V G H R × InsertDeques (BinItem V R)) (calls : List (Call V)) :
    BinWriter V G H R × InsertDeques (BinItem V R) :=
  calls.foldl (fun x c => (call search x c).2) x

/-- The first binner accepts what is in the buffer. -/
def Ready (w : BinWriter V G H R) : Prop := ∀ st ∈ w.binner1st, st.binner.Accepts w.evbuf

/-- Each tick finds events in the buffer that the first binner accepts. -/
def InOrder (search : BinarySearch ℕ) : BinWriter V G H R × InsertDeques (BinItem V R) → List (Call V) → Prop
  | _, [] => True
  | x, c :: calls => (c = .tick → x.1.Ready) ∧ InOrder search (call search x c).2 calls

/-- The first binner has made one step for each event of a list that it was given; with what is in the buffer, these are
all later events, behind some of the earlier ones. -/
def BinnedOnce (w0 w : BinWriter V G H R) (earlier later : List (EventSingle V)) : Prop :=
  ∃ st0 st given taken kept, w0.binner1st = some st0 ∧ w.binner1st = some st ∧
    Fed st0.binner.produceCntZero st0.binner.range given w.evbuf taken st.binner ∧ kept.Sublist earlier ∧
    given ++ w.evbuf = kept ++ later

/-- After some calls, of which some may have failed, and some later ones the events of the later ones are binned once or
are still to be binned, by the next tick that does not fail; of the events before, none is binned twice. -/
structure Recovers (search : BinarySearch ℕ) (x0 : BinWriter V G H R × InsertDeques (BinItem V R))
    (before later : List (Call V)) : Prop where
  once : BinnedOnce x0.1 (run search x0 (before ++ later)).1 (before.flatMap Call.event) (later.flatMap Call.event)
  emptied : (call search (run search x0 (before ++ later)) .tick).1 = .ok () →
    (call search (run search x0 (before ++ later)) .tick).2.1.evbuf = []

/-! ## The buffer -/

variable {search : BinarySearch ℕ} {w w0 : BinWriter V G H R} {iqdqs : InsertDeques (BinItem V R)}

/-- What the first binner has consumed is removed from the buffer. -/
theorem tickIngestAndHandle_eq {st : BinnerState (BinnedEventsTimeweight V G R)} {b : BinnedEventsTimeweight V G R}
    {report : IngestReport} (hst : w.binner1st = some st) (hingest : st.binner.ingest search w.evbuf = (.ok report, b)) :
    w.tickIngestAndHandle search iqdqs =
      handOn (consumed w.evbuf.length report) { st with binner := b }
        { w with evbuf := w.evbuf.drop (consumed w.evbuf.length report) } iqdqs := by
  unfold tickIngestAndHandle
  simp only [hst, hingest]
  cases report with
  | consumedAll =>
      simp only [consumed]
      rw [List.drop_length]
  | consumedPart n =>
      simp only [consumed]
      rw [truncateFront_sub]

/-- Handing bins on leaves the buffer alone, and the first binner as it is without its bins. -/
theorem handOn_frame (n : ℕ) (st : BinnerState (BinnedEventsTimeweight V G R)) (w : BinWriter V G H R)
    (iqdqs : InsertDeques (BinItem V R)) {b : BinnedEventsTimeweight V G R} {bins : List (Bin V R)}
    (houtput : st.binner.output = .ok (bins, b)) :
    (handOn n st w iqdqs).2.1.evbuf = w.evbuf ∧
      ∃ st', (handOn n st w iqdqs).2.1.binner1st = some st' ∧ st'.binner = b := by
  have hkeep := handleOutputReady_binner w.sid w.doDiscardFront bins { st with binner := b } iqdqs
  unfold handOn
  simp only [houtput]
  split
  · cases hready : handleOutputReady w.sid w.doDiscardFront bins { st with binner := b } iqdqs with
    | mk r x =>
        rw [hready] at hkeep
        cases r with
        | error e => exact ⟨rfl, x.1, rfl, hkeep⟩
        | ok u => exact ⟨rfl, x.1, rfl, hkeep⟩
  · split
    · exact ⟨rfl, _, rfl, rfl⟩
    · exact ⟨rfl, _, rfl, rfl⟩

/-! ## What the first binner was given -/

/-- The first binner was given a first part of all events, and the buffer holds the others. -/
def OnTrack (search : BinarySearch ℕ) (z : Bool) (range : BinnedRange) (all : List (EventSingle V))
    (w : BinWriter V G H R) : Prop :=
  ∃ st given pending added taken, w.binner1st = some st ∧ Feeds search z range given pending taken st.binner ∧
    w.evbuf = pending ++ added ∧ given ++ w.evbuf = all

variable {z : Bool} {range : BinnedRange} {all : List (EventSingle V)}

omit [AggBinValTw H R] in
theorem onTrack_ingest (h : OnTrack search z range all w) (tsLocal : ℕ) (val : V) :
    OnTrack search z range (all ++ [⟨tsLocal, val⟩]) (w.ingest tsLocal val) := by
  obtain ⟨st, given, pending, added, taken, hst, hfeeds, hbuf, hall⟩ := h
  refine ⟨st, given, pending, added ++ [⟨tsLocal, val⟩], taken, hst, hfeeds, ?_, ?_⟩
  · rw [ingest, hbuf, List.append_assoc]
  · rw [ingest, ← List.append_assoc, hall]

variable [LawfulAggregatorTimeWeight G (V := V) (R := R)]

/-- A round of a tick on accepted events takes a part of them into the first binner and leaves accepted ones. -/
theorem onTrack_tickIngestAndHandle (iqdqs : InsertDeques (BinItem V R)) (h : OnTrack search z range all w)
    (hready : w.Ready) :
    OnTrack search z range all (w.tickIngestAndHandle search iqdqs).2.1 ∧
      (w.tickIngestAndHandle search iqdqs).2.1.Ready := by
  obtain ⟨st, given, pending, added, taken, hst, hfeeds, hbuf, hall⟩ := h
  obtain ⟨report, b, hingest, haccepts⟩ := ingest_accepts search hfeeds.fed.good (hready st hst)
  rw [tickIngestAndHandle_eq hst hingest]
  rw [hbuf] at hingest
  have hoffered := hfeeds.offer hingest
  rw [← hbuf] at hoffered
  have houtput : b.output = .ok (b.out, { b with out := [] }) := by
    unfold output
    rw [hoffered.fed.continueOutput]
    rfl
  obtain ⟨hevbuf, st', hst', hb⟩ :=
    handOn_frame (consumed w.evbuf.length report) { st with binner := b }
      { w with evbuf := w.evbuf.drop (consumed w.evbuf.length report) } iqdqs houtput
  constructor
  · refine ⟨st', _, _, [], _, hst', hb ▸ hoffered.take houtput, ?_, ?_⟩
    · rw [hevbuf, List.append_nil]
    · rw [hevbuf, List.append_assoc, List.take_append_drop, hall]
  · intro st'' hst''
    rw [hst'] at hst''
    cases hst''
    rw [hevbuf, hb]
    exact (accepts_out []).mpr haccepts

/-- The rounds of a tick -/
theorem onTrack_tickIngestLoop (n : ℕ) (h : OnTrack search z range all w) (hready : w.Ready) :
    OnTrack search z range all (w.tickIngestLoop search n iqdqs).2.1 := by
  induction n generalizing w iqdqs with
  | zero =>
      have hround := onTrack_tickIngestAndHandle iqdqs h hready
      rw [tickIngestLoop]
      split
      · split
        · rename_i hstep
          rw [hstep] at hround
          exact hround.1
        · rename_i hstep
          rw [hstep] at hround
          exact hround.1
      · exact h
  | succ n ih =>
      have hround := onTrack_tickIngestAndHandle iqdqs h hready
      rw [tickIngestLoop]
      split
      · split
        · rename_i hstep
          rw [hstep] at hround
          exact hround.1
        · rename_i hstep
          rw [hstep] at hround
          exact ih hround.1 hround.2
      · exact h

/-- A call adds its event to all events. -/
theorem onTrack_call (h : OnTrack search z range all w) (c : Call V) (hready : c = .tick → w.Ready) :
    OnTrack search z range (all ++ c.event) (call search (w, iqdqs) c).2.1 := by
  cases c with
  | ingest tsLocal val => exact onTrack_ingest h tsLocal val
  | tick =>
      rw [Call.event, List.append_nil, call, tick]
      split
      · exact onTrack_tickIngestLoop 20000 h (hready rfl)
      · exact h

theorem onTrack_run {x : BinWriter V G H R × InsertDeques (BinItem V R)} {calls : List (Call V)}
    (h : OnTrack search z range all x.1) (hin : InOrder search x calls) :
    OnTrack search z range (all ++ calls.flatMap Call.event) (run search x calls).1 := by
  induction calls generalizing x all with
  | nil => rwa [List.flatMap_nil, List.append_nil]
  | cons c calls ih =>
      obtain ⟨hready, hrest⟩ := hin
      rw [List.flatMap_cons, ← List.append_assoc]
      exact ih (onTrack_call h c hready) hrest

/-! ## Every event is binned once -/

omit [AggBinValTw H R] [LawfulAggregatorTimeWeight G (V := V) (R := R)] in
/-- More events may be pending behind those that are. -/
theorem fed_append {given pending : List (EventSingle V)} {taken : List (Bin V R)} {s : BinnedEventsTimeweight V G R}
    (h : Fed z range given pending taken s) (added : List (EventSingle V)) :
    Fed z range given (pending ++ added) taken s := by
  refine ⟨h.good, h.range_eq, h.produceCntZero, h.continueOutput, fun hnil => ?_, fun ev rest hcons => ?_⟩
  · exact h.cur_eq (List.append_eq_nil_iff.mp hnil).1
  · cases pending with
    | nil => rw [h.cur_eq rfl]
    | cons x pending =>
        rw [List.cons_append, List.cons.injEq] at hcons
        obtain ⟨rfl, -⟩ := hcons
        exact h.step_eq x pending rfl

omit [LawfulAggregatorTimeWeight G (V := V) (R := R)] in
theorem tickIngestLoop_emptied {n : ℕ} (hok : (w.tickIngestLoop search n iqdqs).1 = .ok ()) :
    (w.tickIngestLoop search n iqdqs).2.1.evbuf = [] := by
  induction n generalizing w iqdqs with
  | zero =>
      rw [tickIngestLoop] at hok ⊢
      split_ifs at hok ⊢ with hlen
      · split at hok
        · cases hok
        · cases hok
      · exact List.length_eq_zero_iff.mp (not_not.mp hlen)
  | succ n ih =>
      rw [tickIngestLoop] at hok ⊢
      split_ifs at hok ⊢ with hlen
      · cases hround : w.tickIngestAndHandle search iqdqs with
        | mk r x =>
            rw [hround] at hok
            cases r with
            | error e => cases hok
            | ok u => exact ih hok
      · exact List.length_eq_zero_iff.mp (not_not.mp hlen)

omit [LawfulAggregatorTimeWeight G (V := V) (R := R)] in
/-- A tick that does not fail leaves no event in the buffer. -/
theorem tick_emptied (hok : (w.tick search iqdqs).1 = .ok ()) : (w.tick search iqdqs).2.1.evbuf = [] := by
  unfold tick at hok ⊢
  split_ifs at hok ⊢ with hlen
  · exact tickIngestLoop_emptied hok
  · exact List.length_eq_zero_iff.mp (not_not.mp hlen)

theorem combsB_ne_nil (minQuiets : MinQuiets) (emitZntZeroDefault : WriteCntZero) :
    combsB minQuiets emitZntZeroDefault ≠ [] := by
  unfold combsB
  simp only
  split
  · exact List.append_ne_nil_of_right_ne_nil _ (List.cons_ne_nil _ _)
  · exact List.append_ne_nil_of_right_ne_nil _ (List.cons_ne_nil _ _)
  · exact List.append_ne_nil_of_right_ne_nil _ (List.cons_ne_nil _ _)
  · split
    all_goals exact List.cons_ne_nil _ _

/-- Whatever the quiet times, some bins are made. -/
theorem combsC_ne_nil (minQuiets : MinQuiets) (isPolled : Bool) (emitZntZeroDefault : WriteCntZero) (chname : String) :
    combsC minQuiets isPolled emitZntZeroDefault chname ≠ [] := by
  have hpos := List.length_pos_iff.mpr (combsB_ne_nil minQuiets emitZntZeroDefault)
  apply List.length_pos_iff.mp
  unfold combsC
  simp only
  split_ifs with hname hpolled hpolled
  · rw [List.length_tail]
    omega
  · rwa [List.length_map]
  · rw [List.length_tail]
    omega
  · exact hpos

omit [PartialOrdEvtA V] [LawfulAggregatorTimeWeight G (V := V) (R := R)] in
/-- A new writer has a first binner, and this one is new. -/
theorem new_binner1st (beg : ℕ) (minQuiets : MinQuiets) (isPolled : Bool) (emitZntZeroDefault : WriteCntZero)
    (doDiscardFront : DiscardFirstOutput) (sid : ℕ) (chname : String) :
    ∃ st z range, (new beg minQuiets isPolled emitZntZeroDefault doDiscardFront sid chname :
        BinWriter V G H R).binner1st = some st ∧
      st.binner = { BinnedEventsTimeweight.new range with produceCntZero := z } := by
  obtain ⟨comb, combs, hcombs⟩ :=
    List.exists_cons_of_ne_nil (combsC_ne_nil minQuiets isPolled emitZntZeroDefault chname)
  unfold new
  simp only [hcombs, List.head?_cons, Option.map_some]
  refine ⟨_, comb.2.2.enabled, .fromBegToInf beg (comb.2.1.binLen * 1000000), rfl, ?_⟩
  cases hz : comb.2.2.enabled with
  | false => rfl
  | true => rfl

/-- As long as the first binner accepts what the ticks find in the buffer, every event is binned once, also where ticks
fail later on. -/
theorem recovers_of_inOrder (search : BinarySearch ℕ) (beg : ℕ) (minQuiets : MinQuiets) (isPolled : Bool)
    (emitZntZeroDefault : WriteCntZero) (doDiscardFront : DiscardFirstOutput) (sid : ℕ) (chname : String)
    (iqdqs : InsertDeques (BinItem V R)) (before later : List (Call V))
    (hin : InOrder search ((new beg minQuiets isPolled emitZntZeroDefault doDiscardFront sid chname :
      BinWriter V G H R), iqdqs) (before ++ later)) :
    Recovers search ((new beg minQuiets isPolled emitZntZeroDefault doDiscardFront sid chname : BinWriter V G H R), iqdqs)
      before later := by
  obtain ⟨st0, z, range, hst0, hnew⟩ :=
    new_binner1st (V := V) (G := G) (H := H) (R := R) beg minQuiets isPolled emitZntZeroDefault doDiscardFront sid chname
  constructor
  · have hstart : OnTrack search z range [] (new beg minQuiets isPolled emitZntZeroDefault doDiscardFront sid chname :
        BinWriter V G H R) := ⟨st0, [], [], [], [], hst0, hnew ▸ .new, rfl, rfl⟩
    obtain ⟨st, given, pending, added, taken, hst, hfeeds, hbuf, hall⟩ := onTrack_run hstart hin
    refine ⟨st0, st, given, taken, before.flatMap Call.event, hst0, hst, ?_, List.Sublist.refl _, ?_⟩
    · rw [hnew, hbuf]
      exact fed_append hfeeds.fed added
    · rw [hall, List.nil_append, List.flatMap_append]
  · intro hok
    exact tick_emptied hok

end Run

/-! ## An event out of order -/

/-- {lit}`AggregatorNumeric`, with its result as the binners for longer bins take it -/
structure AggregatorF32 where
  agg : AggregatorNumeric
  deriving DecidableEq, Repr

instance : AggregatorTimeWeight AggregatorF32 ℚ Binning.Num where
  new := ⟨AggregatorTimeWeight.new⟩
  ingest g dt bl val := ⟨AggregatorTimeWeight.ingest g.agg dt bl val⟩
  resetForNewBin g := ⟨AggregatorTimeWeight.resetForNewBin g.agg⟩
  result g filledWidthFraction :=
    match AggregatorTimeWeight.result g.agg filledWidthFraction with
    | some q => .rat q
    | none => .nan
  resetForNewBin_eq _ := rfl

instance : LawfulAggregatorTimeWeight AggregatorF32 where
  ingest_zero g dt bl v := congrArg AggregatorF32.mk (LawfulAggregatorTimeWeight.ingest_zero g.agg dt bl v)

/-- A day, in nanoseconds -/
def dayNs : ℕ := 86400000000000

/-- A writer for bins of a day -/
def ofDays : BinWriter ℚ AggregatorF32 AggBinValTwF32 Binning.Num :=
  new 0 ⟨10 ^ 17, 10 ^ 17, 10 ^ 17⟩ false .disable .disable 1 "A"

/-- The events that are not the first may come in one by one. -/
theorem accepts_singleton {V G R : Type} {s : BinnedEventsTimeweight V G R} {ev : EventSingle V}
    (hrange : ev.ts < s.range.nanoEnd)
    (hfirst : ∀ lst ∈ s.lst, lst.ts ≤ ev.ts ∧ s.innerA.innerB.activeBeg ≤ ev.ts) : s.Accepts [ev] where
  inRange := List.forall_mem_singleton.mpr hrange
  first lst hlst x hx := by
    obtain rfl : ev = x := by simpa using hx
    exact hfirst lst hlst
  active := nofun
  bins := List.pairwise_singleton _ _
  ordered := by
    split
    · exact List.pairwise_singleton _ _
    · exact .nil

/-- Two events on different days, each with its tick -/
theorem recovers_two_days :
    Recovers .prefixEnd (ofDays, .new) [.ingest (dayNs + 5) 1, .tick] [.ingest (2 * dayNs + 7) 1, .tick] := by
  apply recovers_of_inOrder
  refine ⟨nofun, fun _ => ?_, nofun, fun _ => ?_, trivial⟩
  · intro st hst
    cases hst
    exact accepts_singleton (by decide) nofun
  · intro st hst
    cases hst
    refine accepts_singleton (by decide) fun lst hlst => ?_
    cases hlst
    decide

/-- An event of the first day comes behind one of the second day: the tick fails.  The next one fails again, after it
has counted the event of the second day once more, and the event of the third day is not binned. -/
theorem not_recovers :
    (call .prefixEnd (run .prefixEnd (ofDays, .new) [.ingest (dayNs + 5) 1, .ingest 3 1]) .tick).1 =
        .error (.binning (.eventActiveRangeBefore "ingest_with_lst_minmax" 3 dayNs)) ∧
      ¬ Recovers .prefixEnd (ofDays, .new) [.ingest (dayNs + 5) 1, .ingest 3 1, .tick]
        [.ingest (2 * dayNs) 1, .tick] := by
  refine ⟨rfl, ?_⟩
  rintro ⟨⟨st0, st, given, taken, kept, hst0, hst, hfed, hsub, hall⟩, -⟩
  cases hst0
  cases hst
  -- All three events are still in the buffer, so that the binner should have been given none.
  have hkept : kept.length ≤ 2 := hsub.length_le
  have hcount : given.length + 3 = kept.length + 1 := by
    have hlen := congrArg List.length hall
    rwa [List.length_append, List.length_append] at hlen
  obtain rfl : given = [] := List.length_eq_zero_iff.mp (by omega)
  have hstep := hfed.step_eq _ _ rfl
  have hcnt : 3 = 1 := congrArg (fun c => c.innerA.innerB.cnt) hstep
  exact absurd hcnt (by decide)

end BinWriter

end Serieswriter
end Daqbuf
