import Daqbuf.Binning.EventsTimeweight
/-!
# What the Event Binner Computes

The binner takes containers of events, and it may interrupt its work when it holds many bins.  What it computes
does not depend on that: it is what one step for each event makes, in which the bins up to the event are closed
and the event is put into the active bin.

Main results:

- Theorems {lit}`cycleLoop_all` and {lit}`cycleLoop_capped`: the loop over the bins closes them in order, as many as it
  may hold.
- Theorem {lit}`BinnedEventsTimeweight.ingest_ok`: a container is ingested event by event.
- Theorem {lit}`BinnedEventsTimeweight.Feeds.fed`: after any batches and drains the binner is where the steps
  for the events lead.
-/

namespace Daqbuf
namespace Binning

open Netpod Search BinnedEventsTimeweight
open Items (EventSingle)

/-- An aggregator to which a value adds nothing for no time, behind the same value for some time. -/
class LawfulAggregatorTimeWeight (G : Type) {V R : outParam Type} [AggregatorTimeWeight G V R] : Prop where
  ingest_zero : ∀ (g : G) (dt bl : ℕ) (v : V),
    AggregatorTimeWeight.ingest (AggregatorTimeWeight.ingest g dt bl v) 0 bl v = AggregatorTimeWeight.ingest g dt bl v

instance : LawfulAggregatorTimeWeight AggregatorNumeric where
  ingest_zero g dt bl v := by
    change AggregatorNumeric.mk (g.sum + dt / bl * v + ((0 : ℕ) : ℚ) / bl * v) = AggregatorNumeric.mk (g.sum + dt / bl * v)
    rw [Nat.cast_zero, zero_div, zero_mul, add_zero]

section Bins

variable {V G R : Type} [AggregatorTimeWeight G V R]

/-! ## Closing bins -/

/-- The active bin at its begin, with a last event -/
def freshInner (len beg : ℕ) (lst : EventSingle V) : InnerA V G where
  innerB := {
    cnt := 0
    activeBeg := beg
    activeEnd := beg + len
    activeLen := len
    filledUntil := beg
    filledWidth := 0
    agg := AggregatorTimeWeight.new }
  minmax := some (lst, lst)

/-- The bin that the active bin is closed to. -/
def closedBin (ia : InnerA V G) (lst : EventSingle V) : Bin V R :=
  let b := ia.innerB.fillUntil ia.innerB.activeEnd lst
  let minmax := ia.minmax.getD (lst, lst)
  { ts1 := b.activeBeg
    ts2 := b.activeEnd
    cnt := b.cnt
    min := minmax.1.val
    max := minmax.2.val
    agg := AggregatorTimeWeight.result b.agg (fractionOf b.filledWidth b.activeLen)
    lst := lst.val
    fnl := true }

/-- The bins without events from {lit}`beg` up to the bin of {lit}`ts` -/
def gapBins (G : Type) {V R : Type} [AggregatorTimeWeight G V R] (len beg ts : ℕ) (lst : EventSingle V) :
    List (Bin V R) :=
  (List.range ((ts - beg) / len)).map fun i => closedBin (freshInner (G := G) len (beg + len * i) lst) lst

/-- The active bin lies on the grid, and it is filled up to some time before its end. -/
structure Placed (len : ℕ) (ia : InnerA V G) : Prop where
  len_pos : 0 < len
  activeLen : ia.innerB.activeLen = len
  aligned : len ∣ ia.innerB.activeBeg
  activeEnd : ia.innerB.activeEnd = ia.innerB.activeBeg + len
  filled : ia.innerB.activeBeg ≤ ia.innerB.filledUntil
  filled_lt : ia.innerB.filledUntil < ia.innerB.activeEnd

variable {len ts : ℕ} {ia : InnerA V G} {lst : EventSingle V} {out : List (Bin V R)}

theorem placed_fresh {beg : ℕ} (hpos : 0 < len) (hbeg : len ∣ beg) :
    Placed len (freshInner len beg lst : InnerA V G) :=
  ⟨hpos, rfl, hbeg, rfl, le_rfl, Nat.lt_add_of_pos_right hpos⟩

theorem Placed.dvd_activeEnd (h : Placed len ia) : len ∣ ia.innerB.activeEnd := by
  rw [h.activeEnd]
  exact (Nat.dvd_add_right h.aligned).mpr dvd_rfl

/-- An active bin that is filled to its end is closed. -/
theorem pushOutAndReset_filled (h : Placed len ia) :
    InnerA.pushOutAndReset { ia with innerB := ia.innerB.fillUntil ia.innerB.activeEnd lst } lst true out =
      .ok (freshInner len ia.innerB.activeEnd lst, out ++ [closedBin ia lst]) := by
  have hgrid : ia.innerB.activeEnd / len * len = ia.innerB.activeEnd := Nat.div_mul_cancel h.dvd_activeEnd
  unfold InnerA.pushOutAndReset InnerA.reset01 closedBin
  simp only [InnerB.fillUntil, h.activeLen, hgrid, if_true, AggregatorTimeWeight.resultAndResetForNewBin,
    AggregatorTimeWeight.resetForNewBin_eq]
  rfl

/-! ## Up to the bin of a time -/

/-- What closing the bins up to that of {lit}`ts` makes: the active bin, which is then the one of {lit}`ts`, and the
bins.  The bins without events are only made on demand. -/
def reach (z : Bool) (lst : EventSingle V) (ts : ℕ) (ia : InnerA V G) : InnerA V G × List (Bin V R) :=
  let b := ia.innerB
  if b.activeEnd ≤ ts then
    (freshInner b.activeLen (ts / b.activeLen * b.activeLen) lst,
      closedBin ia lst :: if z then gapBins G b.activeLen b.activeEnd ts lst else [])
  else (ia, [])

/-- The active bin, filled up to {lit}`ts` where it is not. -/
def fillTo (ts : ℕ) (lst : EventSingle V) (ia : InnerA V G) : InnerA V G :=
  if ia.innerB.filledUntil < ts then { ia with innerB := ia.innerB.fillUntil ts lst } else ia

theorem reach_of_lt {z : Bool} (hlt : ts < ia.innerB.activeEnd) :
    (reach z lst ts ia : InnerA V G × List (Bin V R)) = (ia, []) := if_neg (not_le.mpr hlt)

theorem reach_of_le {z : Bool} (h : Placed len ia) (hle : ia.innerB.activeEnd ≤ ts) :
    (reach z lst ts ia : InnerA V G × List (Bin V R)) =
      (freshInner len (ts / len * len) lst,
        closedBin ia lst :: if z then gapBins G len ia.innerB.activeEnd ts lst else []) := by
  rw [reach, h.activeLen]
  exact if_pos hle

theorem gapBins_of_lt {beg : ℕ} (hpos : 0 < len) (hlt : ts < beg + len) : (gapBins G len beg ts lst : List (Bin V R)) = [] := by
  have hzero : (ts - beg) / len = 0 := Nat.div_eq_of_lt (by omega)
  rw [gapBins, hzero]
  rfl

theorem gapBins_of_le {beg : ℕ} (hpos : 0 < len) (hle : beg + len ≤ ts) :
    (gapBins G len beg ts lst : List (Bin V R)) =
      closedBin (freshInner (G := G) len beg lst) lst :: gapBins G len (beg + len) ts lst := by
  have hcount : (ts - beg) / len = (ts - (beg + len)) / len + 1 := by
    rw [← Nat.add_div_right _ hpos]
    congr 1
    omega
  unfold gapBins
  rw [hcount, List.range_succ_eq_map, List.map_cons, List.map_map, Nat.mul_zero, Nat.add_zero]
  congr 1
  apply List.map_congr_left
  intro i _
  simp only [Function.comp_apply]
  rw [Nat.mul_succ, Nat.add_comm (len * i), ← Nat.add_assoc]

/-- Closing one bin leaves the others to be closed. -/
theorem reach_close (h : Placed len ia) (hle : ia.innerB.activeEnd ≤ ts) :
    (reach true lst ts ia : InnerA V G × List (Bin V R)) =
      ((reach (R := R) true lst ts (freshInner len ia.innerB.activeEnd lst : InnerA V G)).1,
        closedBin ia lst :: (reach true lst ts (freshInner len ia.innerB.activeEnd lst : InnerA V G)).2) := by
  have hfresh : Placed len (freshInner len ia.innerB.activeEnd lst : InnerA V G) :=
    placed_fresh h.len_pos h.dvd_activeEnd
  rw [reach_of_le h hle]
  by_cases hnext : ia.innerB.activeEnd + len ≤ ts
  · rw [reach_of_le hfresh hnext, if_pos rfl, if_pos rfl, gapBins_of_le h.len_pos hnext]
    rfl
  · have hlt : ts < ia.innerB.activeEnd + len := not_le.mp hnext
    have hfloor : ts / len * len = ia.innerB.activeEnd := by
      obtain ⟨k, hk⟩ := h.dvd_activeEnd
      have hdiv : ts / len = k := Nat.div_eq_of_lt_le (by rw [Nat.mul_comm]; omega) (by rw [Nat.succ_mul, Nat.mul_comm]; omega)
      rw [hdiv, hk, Nat.mul_comm]
    have hfreshEnd : ts < (freshInner len ia.innerB.activeEnd lst : InnerA V G).innerB.activeEnd := hlt
    rw [reach_of_lt hfreshEnd, gapBins_of_lt h.len_pos hlt, hfloor, if_pos rfl]

theorem placed_reach {z : Bool} (h : Placed len ia) :
    Placed len (reach (R := R) z lst ts ia).1 ∧ ts < (reach (R := R) z lst ts ia).1.innerB.activeEnd := by
  by_cases hle : ia.innerB.activeEnd ≤ ts
  · rw [reach_of_le h hle]
    refine ⟨placed_fresh h.len_pos (Nat.dvd_mul_left _ _), ?_⟩
    exact Nat.lt_div_mul_add h.len_pos
  · rw [reach_of_lt (not_le.mp hle)]
    exact ⟨h, not_le.mp hle⟩

theorem placed_fillTo (h : Placed len ia) (hlt : ts < ia.innerB.activeEnd) : Placed len (fillTo ts lst ia) := by
  unfold fillTo
  split
  · rename_i hfilled
    exact ⟨h.len_pos, h.activeLen, h.aligned, h.activeEnd, h.filled.trans hfilled.le, hlt⟩
  · exact h

theorem fillTo_activeBeg : (fillTo ts lst ia).innerB.activeBeg = ia.innerB.activeBeg := by
  unfold fillTo
  split
  · rfl
  · rfl

theorem fillTo_activeEnd : (fillTo ts lst ia).innerB.activeEnd = ia.innerB.activeEnd := by
  unfold fillTo
  split
  · rfl
  · rfl

/-! ## The loop over the bins -/

theorem cycleLoop_push (h : Placed len ia) (hle : ia.innerB.activeEnd ≤ ts) (hout : out.length ≤ outLenMax) (n : ℕ) :
    cycleLoop ts lst (n + 1) ia out =
      cycleLoop ts lst n (freshInner len ia.innerB.activeEnd lst) (out ++ [closedBin ia lst]) := by
  rw [cycleLoop]
  simp only
  rw [if_neg (not_lt.mpr hout), if_pos (h.filled_lt.trans_le hle), if_pos hle, if_pos h.filled_lt,
    pushOutAndReset_filled h]

/-- Where there is room for all of them, the loop closes all bins up to that of the time and fills this one. -/
theorem cycleLoop_all (h : Placed len ia)
    (hroom : out.length + (reach (R := R) true lst ts ia).2.length ≤ outLenMax) {n : ℕ}
    (hn : (reach (R := R) true lst ts ia).2.length + 2 ≤ n) :
    cycleLoop ts lst n ia out =
      .ok (fillTo ts lst (reach (R := R) true lst ts ia).1, out ++ (reach true lst ts ia).2) := by
  induction n generalizing ia out with
  | zero => omega
  | succ n ih =>
      have hout : out.length ≤ outLenMax := by omega
      by_cases hle : ia.innerB.activeEnd ≤ ts
      · rw [cycleLoop_push h hle hout]
        rw [reach_close h hle, List.length_cons] at hroom hn
        have hfresh : Placed len (freshInner len ia.innerB.activeEnd lst : InnerA V G) :=
          placed_fresh h.len_pos h.dvd_activeEnd
        rw [ih hfresh (by rw [List.length_append, List.length_singleton]; omega) (by omega), reach_close h hle,
          List.append_assoc]
        rfl
      · have hlt : ts < ia.innerB.activeEnd := not_le.mp hle
        rw [reach_of_lt hlt, List.append_nil]
        rw [reach_of_lt hlt, List.length_nil] at hn
        obtain ⟨m, rfl⟩ : ∃ m, n = m + 1 := ⟨n - 1, by omega⟩
        rw [cycleLoop, fillTo]
        simp only
        rw [if_neg (not_lt.mpr hout)]
        by_cases hfilled : ia.innerB.filledUntil < ts
        · rw [if_pos hfilled, if_neg hle, if_pos hfilled, cycleLoop]
          simp only
          rw [if_neg (not_lt.mpr hout)]
          exact if_neg (lt_irrefl ts)
        · rw [if_neg hfilled, if_neg hfilled]

/-- Where there is no room for all of them, the loop closes as many bins as there is room for, and one more. -/
theorem cycleLoop_capped (h : Placed len ia) (hminmax : ia.minmax.isSome) (hbeg : ia.innerB.activeBeg ≤ ts)
    (hcap : outLenMax < out.length + (reach (R := R) true lst ts ia).2.length) {n : ℕ}
    (hn : outLenMax + 2 - out.length ≤ n) (hpos : 0 < n) :
    ∃ ia', cycleLoop ts lst n ia out =
        .ok (ia', out ++ (reach true lst ts ia).2.take (outLenMax + 1 - out.length)) ∧ Placed len ia' ∧
      ia'.minmax.isSome ∧ ia'.innerB.activeBeg ≤ ts ∧ (reach true lst ts ia' : InnerA V G × List (Bin V R)) =
        ((reach (R := R) true lst ts ia).1, (reach true lst ts ia).2.drop (outLenMax + 1 - out.length)) := by
  induction n generalizing ia out with
  | zero => omega
  | succ n ih =>
      by_cases hout : outLenMax < out.length
      · have hzero : outLenMax + 1 - out.length = 0 := by omega
        refine ⟨ia, ?_, h, hminmax, hbeg, ?_⟩
        · rw [cycleLoop, hzero, List.take_zero, List.append_nil]
          exact if_pos hout
        · rw [hzero, List.drop_zero]
      · have hle : ia.innerB.activeEnd ≤ ts := by
          by_contra hlt
          rw [reach_of_lt (not_le.mp hlt), List.length_nil] at hcap
          omega
        have hfresh : Placed len (freshInner len ia.innerB.activeEnd lst : InnerA V G) :=
          placed_fresh h.len_pos h.dvd_activeEnd
        have hone : outLenMax + 1 - out.length = outLenMax + 1 - (out ++ [closedBin ia lst]).length + 1 := by
          rw [List.length_append, List.length_singleton]
          omega
        rw [reach_close h hle] at hcap ⊢
        rw [cycleLoop_push h hle (not_lt.mp hout), hone, List.take_succ_cons, List.drop_succ_cons]
        rw [List.length_cons] at hcap
        have hlen : (out ++ [(closedBin ia lst : Bin V R)]).length = out.length + 1 := List.length_append
        obtain ⟨ia', hloop, hplaced, hsome, hbeg', hreach⟩ :=
          ih hfresh rfl hle (by rw [hlen]; omega) (by rw [hlen]; omega) (by omega)
        refine ⟨ia', ?_, hplaced, hsome, hbeg', hreach⟩
        rw [hloop, List.append_assoc]
        rfl

/-! ## Interrupted work -/

/-- The active bin is where closing the bins up to that of {lit}`ts` leads, or on the way; {lit}`k` bins of those
to be closed are made. -/
structure OnTheWay (z : Bool) (R : Type) [AggregatorTimeWeight G V R] (lst : EventSingle V) (ts len : ℕ)
    (ia ia' : InnerA V G) (k : ℕ) : Prop where
  placed : Placed len ia'
  minmax : ia'.minmax.isSome
  active : fillTo ts lst (reach (R := R) z lst ts ia').1 = fillTo ts lst (reach (R := R) z lst ts ia).1
  bins : (reach z lst ts ia' : InnerA V G × List (Bin V R)).2 = (reach z lst ts ia).2.drop k
  beg_le : ia'.innerB.activeBeg ≤ ts

theorem fillTo_fillTo : fillTo ts lst (fillTo ts lst ia) = fillTo ts lst ia := by
  have hfilled : ¬ (fillTo ts lst ia).innerB.filledUntil < ts := by
    unfold fillTo
    split
    · exact lt_irrefl ts
    · rename_i h
      exact h
  exact if_neg hfilled

theorem reach_reach {z : Bool} (h : Placed len ia) :
    (reach z lst ts (reach (R := R) z lst ts ia).1 : InnerA V G × List (Bin V R)) = ((reach (R := R) z lst ts ia).1, []) :=
  reach_of_lt (placed_reach h).2

theorem reach_fillTo {z : Bool} (h : Placed len ia) :
    (reach z lst ts (fillTo ts lst (reach (R := R) z lst ts ia).1) : InnerA V G × List (Bin V R)) =
      (fillTo ts lst (reach (R := R) z lst ts ia).1, []) := by
  apply reach_of_lt
  rw [fillTo_activeEnd]
  exact (placed_reach h).2

theorem minmax_reach {z : Bool} (hminmax : ia.minmax.isSome) : (reach (R := R) z lst ts ia).1.minmax.isSome := by
  unfold reach
  simp only
  split
  · rfl
  · exact hminmax

theorem minmax_fillTo : (fillTo ts lst ia).minmax = ia.minmax := by
  unfold fillTo
  split
  · rfl
  · rfl

end Bins

/-! ## One step for each event -/

section Steps

variable {V G R : Type} [PartialOrdEvtA V] [AggregatorTimeWeight G V R]

/-- What is made of some events: the last one, the active bin, and all bins that were closed -/
@[ext]
structure Cur (V G R : Type) where
  lst : Option (EventSingle V)
  innerA : InnerA V G
  bins : List (Bin V R)

namespace Cur

/-- Closes the bins up to that of {lit}`ts`.  Without a last event there are none to be made. -/
def advance (z : Bool) (ts : ℕ) (c : Cur V G R) : Cur V G R :=
  match c.lst with
  | some lst =>
      let x := reach z lst ts c.innerA
      { c with innerA := x.1, bins := c.bins ++ x.2 }
  | none =>
      if c.innerA.innerB.activeEnd ≤ ts then { c with innerA := { c.innerA with innerB := jumpTo c.innerA.innerB ts } }
      else c

/-- Puts an event into the active bin, or keeps it as the last one if it lies before this bin. -/
def absorb (c : Cur V G R) (ev : EventSingle V) : Cur V G R :=
  let b := c.innerA.innerB
  match c.lst, c.innerA.minmax with
  | some lst, some minmax =>
      let a : Act V G := ⟨b, lst, minmax⟩
      let a := if ev.ts = b.activeBeg then a.ingestEventEq ev else a.ingestEventGt ev
      { c with lst := some a.lst, innerA := ⟨a.b, some a.minmax⟩ }
  | _, _ =>
      if ev.ts < b.activeBeg then { c with lst := some ev, innerA := ⟨b, some (ev, ev)⟩ }
      else { c with lst := some ev, innerA := ⟨{ b with cnt := b.cnt + 1, filledUntil := ev.ts }, some (ev, ev)⟩ }

/-- The step for one event -/
def step (z : Bool) (c : Cur V G R) (ev : EventSingle V) : Cur V G R := (c.advance z ev.ts).absorb ev

/-- The steps for some events -/
def steps (z : Bool) (c : Cur V G R) (evs : List (EventSingle V)) : Cur V G R := evs.foldl (step z) c

/-- Nothing yet -/
def start (range : BinnedRange) : Cur V G R where
  lst := none
  innerA := (BinnedEventsTimeweight.new (R := R) range).innerA
  bins := []

end Cur

variable {len ts : ℕ} {lst : EventSingle V} {s : BinnedEventsTimeweight V G R}

omit [PartialOrdEvtA V] in
theorem cycleOnce_close {ia : InnerA V G} {out : List (Bin V R)} (h : Placed len ia) (hle : ia.innerB.activeEnd ≤ ts) :
    cycleOnce ts lst ia out = .ok (freshInner len ia.innerB.activeEnd lst, out ++ [closedBin ia lst]) := by
  rw [cycleOnce]
  simp only
  rw [if_pos (h.filled_lt.trans_le hle), if_pos hle, if_pos h.filled_lt, pushOutAndReset_filled h]

omit [PartialOrdEvtA V] in
theorem jumpTo_fresh (beg : ℕ) :
    jumpTo (freshInner len beg lst : InnerA V G).innerB ts = (freshInner len (ts / len * len) lst : InnerA V G).innerB := by
  unfold jumpTo freshInner
  simp only [AggregatorTimeWeight.resetForNewBin_eq]

omit [PartialOrdEvtA V] in
/-- With a last event, {lit}`cycle_01` closes the bins up to that of the time, or gets on the way there. -/
theorem cycle01_some (hlst : s.lst = some lst) (h : Placed len s.innerA) (hminmax : s.innerA.minmax.isSome)
    (hle : s.innerA.innerB.activeEnd ≤ ts) :
    ∃ ia' k, s.cycle01 ts = .ok { s with
        innerA := ia', out := s.out ++ (reach s.produceCntZero lst ts s.innerA).2.take k } ∧
      OnTheWay s.produceCntZero R lst ts len s.innerA ia' k ∧
      ((s.out ++ (reach s.produceCntZero lst ts s.innerA).2.take k).length ≤ outLenMax → ts < ia'.innerB.activeEnd) ∧
      (s.produceCntZero = false → k = 1) ∧ (s.produceCntZero = true → k = outLenMax + 1 - s.out.length) := by
  have hguard : s.innerA.innerB.activeBeg < ts ∧ s.innerA.innerB.activeBeg ≤ s.innerA.innerB.filledUntil ∧
      s.innerA.innerB.filledUntil < ts ∧ s.innerA.innerB.filledUntil ≤ s.innerA.innerB.activeEnd := by
    have h1 := h.filled
    have h2 := h.filled_lt
    omega
  have hreached : Placed len (reach (R := R) s.produceCntZero lst ts s.innerA).1 ∧
      ts < (reach (R := R) s.produceCntZero lst ts s.innerA).1.innerB.activeEnd := placed_reach h
  unfold cycle01
  simp only
  rw [if_neg (not_not.mpr hguard), hlst]
  simp only
  cases hz : s.produceCntZero with
  | false =>
      rw [if_neg nofun, cycleOnce_close h hle, Except.map, jumpTo_fresh]
      rw [hz] at hreached
      refine ⟨(reach (R := R) false lst ts s.innerA).1, 1, ?_, ?_, fun _ => hreached.2, fun _ => rfl, nofun⟩
      · rw [reach_of_le h hle]
        rfl
      · refine ⟨hreached.1, minmax_reach hminmax, ?_, ?_, ?_⟩
        · rw [reach_reach h]
        · rw [reach_reach h, reach_of_le h hle]
          rfl
        · rw [reach_of_le h hle]
          exact Nat.div_mul_le_self _ _
  | true =>
      rw [if_pos rfl]
      rw [hz] at hreached
      by_cases hroom : s.out.length + (reach (R := R) true lst ts s.innerA).2.length ≤ outLenMax
      · have htake : (reach (R := R) true lst ts s.innerA).2.take (outLenMax + 1 - s.out.length) =
            (reach true lst ts s.innerA).2 := List.take_of_length_le (by omega)
        refine ⟨fillTo ts lst (reach (R := R) true lst ts s.innerA).1, outLenMax + 1 - s.out.length, ?_, ?_, fun _ => ?_,
          nofun, fun _ => rfl⟩
        · rw [cycleLoop_all h hroom (by unfold outLenMax at *; omega), htake]
          rfl
        · refine ⟨placed_fillTo hreached.1 hreached.2, ?_, ?_, ?_, ?_⟩
          · rw [minmax_fillTo]
            exact minmax_reach hminmax
          · rw [reach_fillTo h]
            exact fillTo_fillTo
          · rw [reach_fillTo h, List.drop_of_length_le (by omega)]
          · rw [fillTo_activeBeg, reach_of_le h hle]
            exact Nat.div_mul_le_self _ _
        · rw [fillTo_activeEnd]
          exact hreached.2
      · obtain ⟨ia', hloop, hplaced, hsome, hbeg, hreach⟩ := cycleLoop_capped h hminmax hguard.1.le (not_le.mp hroom)
          (n := 3 * outLenMax - 1) (by unfold outLenMax; omega) (by unfold outLenMax; omega)
        refine ⟨ia', outLenMax + 1 - s.out.length, ?_, ⟨hplaced, hsome, ?_, ?_, hbeg⟩, fun hlen => ?_, nofun,
          fun _ => rfl⟩
        · rw [hloop]
          rfl
        · rw [hreach]
        · rw [hreach]
        · rw [List.length_append, List.length_take] at hlen
          omega

/-! ## Ingesting events of the active bin -/

omit [PartialOrdEvtA V] in
theorem Cur.advance_some {c : Cur V G R} (z : Bool) (hlst : c.lst = some lst) :
    c.advance z ts = { c with
      innerA := (reach (R := R) z lst ts c.innerA).1, bins := c.bins ++ (reach z lst ts c.innerA).2 } := by
  unfold advance
  rw [hlst]

/-- Puts an event into the active bin. -/
def Act.absorb (a : Act V G) (ev : EventSingle V) : Act V G :=
  if ev.ts = a.b.activeBeg then a.ingestEventEq ev else a.ingestEventGt ev

/-- What is made of events, from the active bin and what belongs to it -/
def Act.cur (a : Act V G) (bins : List (Bin V R)) : Cur V G R := ⟨some a.lst, ⟨a.b, some a.minmax⟩, bins⟩

/-- The time lies in the active bin. -/
def InBin (b : InnerB G) (ts : ℕ) : Prop := b.activeBeg ≤ ts ∧ ts < b.activeEnd

section Active

variable {a a' : Act V G} {evs : List (EventSingle V)}

theorem absorb_frame (ev : EventSingle V) :
    (a.absorb ev).b.activeBeg = a.b.activeBeg ∧ (a.absorb ev).b.activeEnd = a.b.activeEnd ∧
      (a.absorb ev).b.activeLen = a.b.activeLen := by
  unfold Act.absorb
  split
  · exact ⟨rfl, rfl, rfl⟩
  · exact ⟨rfl, rfl, rfl⟩

theorem absorbs_activeBeg : (evs.foldl Act.absorb a).b.activeBeg = a.b.activeBeg := by
  induction evs generalizing a with
  | nil => rfl
  | cons ev evs ih => exact ih.trans (absorb_frame ev).1

theorem inBin_absorb {ev : EventSingle V} {ts : ℕ} : InBin (a.absorb ev).b ts ↔ InBin a.b ts := by
  unfold InBin
  rw [(absorb_frame ev).1, (absorb_frame ev).2.1]

theorem placed_absorb {ev : EventSingle V} {m m' : Option (MinMax V)} (h : Placed len ⟨a.b, m⟩) (hin : InBin a.b ev.ts) :
    Placed len ⟨(a.absorb ev).b, m'⟩ := by
  obtain ⟨hbeg, hend, hlen⟩ := absorb_frame (a := a) ev
  refine ⟨h.len_pos, hlen.trans h.activeLen, hbeg ▸ h.aligned, ?_, ?_, ?_⟩
  · exact hend.trans (h.activeEnd.trans (congrArg (· + len) hbeg.symm))
  · change (a.absorb ev).b.activeBeg ≤ (a.absorb ev).b.filledUntil
    rw [hbeg]
    unfold Act.absorb
    split
    · exact h.filled
    · exact hin.1
  · change (a.absorb ev).b.filledUntil < (a.absorb ev).b.activeEnd
    rw [hend]
    unfold Act.absorb
    split
    · exact h.filled_lt
    · exact hin.2

theorem ingestWithLstGtRangeBeg_ok (h : ingestWithLstGtRangeBeg evs a = (.ok (), a')) :
    a' = evs.foldl Act.absorb a ∧ ∀ ev ∈ evs, InBin a.b ev.ts := by
  induction evs generalizing a with
  | nil =>
      cases h
      exact ⟨rfl, List.forall_mem_nil _⟩
  | cons ev evs ih =>
      rw [ingestWithLstGtRangeBeg] at h
      split at h
      · cases h
      · rename_i hgt
        split at h
        · cases h
        · rename_i hlt
          have habsorb : a.absorb ev = a.ingestEventGt ev := if_neg (by omega)
          rw [← habsorb] at h
          obtain ⟨ha', hall⟩ := ih h
          refine ⟨ha', List.forall_mem_cons.mpr ⟨⟨by omega, not_le.mp hlt⟩, fun e he => ?_⟩⟩
          exact inBin_absorb.mp (hall e he)

theorem ingestWithLstGeRangeBeg_ok (h : ingestWithLstGeRangeBeg evs a = (.ok (), a')) :
    a' = evs.foldl Act.absorb a ∧ ∀ ev ∈ evs, InBin a.b ev.ts := by
  induction evs generalizing a with
  | nil =>
      cases h
      exact ⟨rfl, List.forall_mem_nil _⟩
  | cons ev evs ih =>
      rw [ingestWithLstGeRangeBeg] at h
      split at h
      · cases h
      · rename_i hin
        have hin : InBin a.b ev.ts := ⟨not_lt.mp fun h => hin (.inl h), not_le.mp fun h => hin (.inr h)⟩
        have hrest : a' = evs.foldl Act.absorb (a.absorb ev) ∧ ∀ e ∈ evs, InBin (a.absorb ev).b e.ts := by
          split at h
          · rename_i heq
            have habsorb : a.absorb ev = a.ingestEventEq ev := if_pos heq
            rw [← habsorb] at h
            exact ih h
          · rename_i hne
            have habsorb : a.absorb ev = a.ingestEventGt ev := if_neg hne
            rw [← habsorb] at h
            exact ingestWithLstGtRangeBeg_ok h
        exact ⟨hrest.1, List.forall_mem_cons.mpr ⟨hin, fun e he => inBin_absorb.mp (hrest.2 e he)⟩⟩

/-- Events that are accepted go one by one into the active bin. -/
theorem ingestWithLstMinmax_ok (h : ingestWithLstMinmax evs a = (.ok (), a')) :
    a' = evs.foldl Act.absorb a ∧ ∀ ev ∈ evs, InBin a.b ev.ts := by
  unfold ingestWithLstMinmax at h
  cases evs with
  | nil =>
      cases h
      exact ⟨rfl, List.forall_mem_nil _⟩
  | cons ev evs =>
      simp only at h
      split at h
      · cases h
      · split at h
        · cases h
        · exact ingestWithLstGeRangeBeg_ok h

theorem step_act {z : Bool} {bins : List (Bin V R)} {ev : EventSingle V} (hin : InBin a.b ev.ts) :
    (a.cur bins).step z ev = (a.absorb ev).cur bins := by
  have hadvance : (a.cur bins).advance z ev.ts = a.cur bins := by
    have hend : ev.ts < (a.cur bins).innerA.innerB.activeEnd := hin.2
    rw [Cur.advance_some z rfl, reach_of_lt hend, List.append_nil]
  rw [Cur.step, hadvance]
  rfl

/-- The steps for events of the active bin put these into it. -/
theorem steps_act {z : Bool} {bins : List (Bin V R)} (hin : ∀ ev ∈ evs, InBin a.b ev.ts) :
    (a.cur bins).steps z evs = (evs.foldl Act.absorb a).cur bins := by
  induction evs generalizing a with
  | nil => rfl
  | cons ev evs ih =>
      obtain ⟨hev, hevs⟩ := List.forall_mem_cons.mp hin
      have hstep : (a.cur bins).steps z (ev :: evs) = ((a.cur bins).step z ev).steps z evs := rfl
      rw [hstep, step_act hev]
      exact ih fun e he => inBin_absorb.mpr (hevs e he)

theorem placed_absorbs {m m' : Option (MinMax V)} (h : Placed len ⟨a.b, m⟩) (hin : ∀ ev ∈ evs, InBin a.b ev.ts) :
    Placed len ⟨(evs.foldl Act.absorb a).b, m'⟩ := by
  induction evs generalizing a m with
  | nil => exact ⟨h.len_pos, h.activeLen, h.aligned, h.activeEnd, h.filled, h.filled_lt⟩
  | cons ev evs ih =>
      obtain ⟨hev, hevs⟩ := List.forall_mem_cons.mp hin
      exact ih (m := m) (placed_absorb h hev) fun e he => inBin_absorb.mpr (hevs e he)

end Active

namespace BinnedEventsTimeweight

/-- What the binner has made of events, together with the bins that were taken from it -/
def cur (s : BinnedEventsTimeweight V G R) (taken : List (Bin V R)) : Cur V G R := ⟨s.lst, s.innerA, taken ++ s.out⟩

/-- What stays of a binner while it takes in events -/
structure SameConf (s s' : BinnedEventsTimeweight V G R) : Prop where
  range : s'.range = s.range
  produceCntZero : s'.produceCntZero = s.produceCntZero
  continueOutput : s'.inputDoneRangeFinalContinueOutput = s.inputDoneRangeFinalContinueOutput

/-- The state of a binner between its operations -/
structure Good (s : BinnedEventsTimeweight V G R) : Prop where
  placed : 0 < s.range.binLen → Placed s.range.binLen s.innerA
  minmax : s.innerA.minmax.isSome = s.lst.isSome
  inRange : s.range.nanoBeg < s.range.nanoEnd → s.innerA.innerB.activeBeg < s.range.nanoEnd

variable {s' : BinnedEventsTimeweight V G R} {evs rest : List (EventSingle V)} {taken : List (Bin V R)}

omit [PartialOrdEvtA V] [AggregatorTimeWeight G V R] in
theorem SameConf.trans {s'' : BinnedEventsTimeweight V G R} (h : SameConf s s') (h' : SameConf s' s'') : SameConf s s'' :=
  ⟨h'.range.trans h.range, h'.produceCntZero.trans h.produceCntZero, h'.continueOutput.trans h.continueOutput⟩

/-- With a last event, events that are accepted go one by one into the active bin. -/
theorem ingestWithLst_ok (len : ℕ) (z : Bool) (taken : List (Bin V R)) (hlst : s.lst = some lst) (hminmax : s.innerA.minmax.isSome)
    (h : s.ingestWithLst lst evs = (.ok rest, s')) :
    rest = [] ∧ SameConf s s' ∧ s'.out = s.out ∧ s'.cur taken = (s.cur taken).steps z evs ∧
      (Placed len s.innerA → Placed len s'.innerA) ∧ s'.innerA.innerB.activeBeg = s.innerA.innerB.activeBeg ∧
      s'.innerA.minmax.isSome ∧ s'.lst.isSome := by
  obtain ⟨mm, hmm⟩ := Option.isSome_iff_exists.mp hminmax
  unfold ingestWithLst InnerA.ingestWithLst at h
  simp only [hmm] at h
  cases hact : ingestWithLstMinmax evs ⟨s.innerA.innerB, lst, mm⟩ with
  | mk res a' =>
      rw [hact] at h
      cases res with
      | error e => cases h
      | ok u =>
          cases h
          obtain ⟨ha', hin⟩ := ingestWithLstMinmax_ok hact
          have hcur : s.cur taken = Act.cur ⟨s.innerA.innerB, lst, mm⟩ (taken ++ s.out) := by
            unfold cur Act.cur
            rw [hlst, ← hmm]
          refine ⟨rfl, ⟨rfl, rfl, rfl⟩, rfl, ?_, fun hplaced => ?_, ?_, rfl, rfl⟩
          · rw [hcur, steps_act hin, ← ha']
            rfl
          rotate_left
          · exact ha' ▸ absorbs_activeBeg (a := ⟨s.innerA.innerB, lst, mm⟩)
          · exact ha' ▸ placed_absorbs (a := ⟨s.innerA.innerB, lst, mm⟩) (m := s.innerA.minmax) hplaced hin

omit [PartialOrdEvtA V] in
theorem advance_none {z : Bool} {c : Cur V G R} (hlst : c.lst = none) (hlt : ts < c.innerA.innerB.activeEnd) :
    c.advance z ts = c := by
  unfold Cur.advance
  rw [hlst]
  exact if_neg (not_le.mpr hlt)

omit [PartialOrdEvtA V] in
theorem advance_jump {z : Bool} {c : Cur V G R} (hlst : c.lst = none) (hle : c.innerA.innerB.activeEnd ≤ ts) :
    c.advance z ts = { c with innerA := ⟨jumpTo c.innerA.innerB ts, c.innerA.minmax⟩ } := by
  unfold Cur.advance
  rw [hlst]
  exact if_pos hle

/-- The first event is kept, if it lies before the end of the active bin. -/
theorem ingestEventWithoutLst_ok (len : ℕ) (z : Bool) (taken : List (Bin V R)) {ev : EventSingle V} (hlst : s.lst = none)
    (hlt : ev.ts < s.innerA.innerB.activeEnd) (h : s.ingestEventWithoutLst ev = (.ok (), s')) :
    SameConf s s' ∧ s'.out = s.out ∧ s'.cur taken = (s.cur taken).step z ev ∧
      (Placed len s.innerA → Placed len s'.innerA) ∧ s'.innerA.innerB.activeBeg = s.innerA.innerB.activeBeg ∧
      s'.innerA.minmax.isSome ∧ s'.lst = some ev := by
  have hcur : (s.cur taken).step z ev = (s.cur taken).absorb ev := by
    rw [Cur.step, advance_none (c := s.cur taken) hlst hlt]
  rw [hcur]
  unfold ingestEventWithoutLst at h
  unfold cur Cur.absorb
  simp only [hlst] at h ⊢
  split at h
  · rename_i hbefore
    cases h
    refine ⟨⟨rfl, rfl, rfl⟩, rfl, ?_, fun hp => ⟨hp.1, hp.2, hp.3, hp.4, hp.5, hp.6⟩, rfl, rfl, rfl⟩
    rw [if_pos hbefore]
  · rename_i hin
    rw [if_neg (not_le.mpr hlt)] at h
    cases h
    refine ⟨⟨rfl, rfl, rfl⟩, rfl, ?_, fun hp => ⟨hp.1, hp.2, hp.3, hp.4, not_lt.mp hin, hlt⟩, rfl, rfl, rfl⟩
    rw [if_neg hin]

/-- Events that are accepted are ingested one by one. -/
theorem ingestOrdered_ok (len : ℕ) (z : Bool) (taken : List (Bin V R)) (hminmax : s.innerA.minmax.isSome = s.lst.isSome)
    (h : s.ingestOrdered evs = (.ok rest, s')) :
    rest = [] ∧ SameConf s s' ∧ s'.out = s.out ∧ s'.cur taken = (s.cur taken).steps z evs ∧
      (Placed len s.innerA → Placed len s'.innerA) ∧ s'.innerA.innerB.activeBeg = s.innerA.innerB.activeBeg ∧
      s'.innerA.minmax.isSome = s'.lst.isSome := by
  unfold ingestOrdered at h
  cases hlst : s.lst with
  | some lst =>
      rw [hlst] at h
      rw [hlst] at hminmax
      obtain ⟨hrest, hconf, hout, hcur, hplaced, hbeg, hm, hl⟩ := ingestWithLst_ok len z taken hlst hminmax h
      exact ⟨hrest, hconf, hout, hcur, hplaced, hbeg, hm.trans hl.symm⟩
  | none =>
      rw [hlst] at h hminmax
      simp only [hminmax] at h
      cases evs with
      | nil =>
          cases h
          refine ⟨rfl, ⟨rfl, rfl, rfl⟩, rfl, rfl, id, rfl, ?_⟩
          rw [hlst]
          exact hminmax
      | cons ev evs =>
          simp only [ingestWithoutLst, Option.isSome_none, Bool.false_eq_true, if_false] at h
          split at h
          · rename_i hlt
            cases hfirst : s.ingestEventWithoutLst ev with
            | mk res s1 =>
                rw [hfirst] at h
                cases res with
                | error e => cases h
                | ok u =>
                    obtain ⟨hconf, hout, hcur, hplaced, hbeg, hm, hl⟩ :=
                      ingestEventWithoutLst_ok len z taken hlst hlt hfirst
                    simp only [hl] at h
                    obtain ⟨hrest', hconf', hout', hcur', hplaced', hbeg', hm', hl'⟩ :=
                      ingestWithLst_ok len z taken hl hm h
                    refine ⟨hrest', hconf.trans hconf', hout'.trans hout, ?_, fun hp => hplaced' (hplaced hp),
                      hbeg'.trans hbeg, hm'.trans hl'.symm⟩
                    rw [hcur', hcur]
                    rfl
          · cases h

end BinnedEventsTimeweight

/-! ## Events at the end of interrupted work -/

variable [LawfulAggregatorTimeWeight G (V := V) (R := R)]

omit [PartialOrdEvtA V] in
/-- To fill a bin twice up to the same time is to fill it once. -/
theorem fillUntil_fillUntil (b : InnerB G) : (b.fillUntil ts lst).fillUntil ts lst = b.fillUntil ts lst := by
  have hzero : delta ts ts = 0 := (delta_of_le le_rfl).trans (Nat.sub_self ts)
  unfold InnerB.fillUntil
  simp only [hzero, LawfulAggregatorTimeWeight.ingest_zero]
  congr 1
  unfold add
  rw [Nat.add_zero, Nat.mod_mod]

namespace Cur

variable {c c' : Cur V G R} {ev : EventSingle V}

/-- An event fills the active bin, whether it has been filled up to the event or not. -/
theorem absorb_fillTo (hlst : c.lst = some lst) (hminmax : c.innerA.minmax.isSome)
    (hfilled : c.innerA.innerB.activeBeg ≤ c.innerA.innerB.filledUntil) :
    absorb { c with innerA := fillTo ev.ts lst c.innerA } ev = c.absorb ev := by
  unfold fillTo
  split
  · rename_i hlt
    obtain ⟨minmax, hm⟩ := Option.isSome_iff_exists.mp hminmax
    have hne : ev.ts ≠ c.innerA.innerB.activeBeg := by omega
    unfold absorb
    simp only [hlst, hm]
    have hbeg : (c.innerA.innerB.fillUntil ev.ts lst).activeBeg = c.innerA.innerB.activeBeg := rfl
    rw [hbeg, if_neg hne, if_neg hne]
    unfold Act.ingestEventGt
    rw [fillUntil_fillUntil]
  · rfl

theorem step_some (z : Bool) (hlst : c.lst = some lst) (hplaced : Placed len c.innerA) (hminmax : c.innerA.minmax.isSome) :
    c.step z ev = absorb { c with
      innerA := fillTo ev.ts lst (reach (R := R) z lst ev.ts c.innerA).1
      bins := c.bins ++ (reach z lst ev.ts c.innerA).2 } ev := by
  have hreached : Placed len (reach (R := R) z lst ev.ts c.innerA).1 ∧
      ev.ts < (reach (R := R) z lst ev.ts c.innerA).1.innerB.activeEnd := placed_reach hplaced
  rw [step, advance_some z hlst]
  exact (absorb_fillTo (c := { c with
    innerA := (reach (R := R) z lst ev.ts c.innerA).1, bins := c.bins ++ (reach z lst ev.ts c.innerA).2 })
    hlst (minmax_reach hminmax) hreached.1.filled).symm

/-- On the way to an event the step for it leads to where it has led before. -/
theorem step_onTheWay {z : Bool} {k : ℕ} (hc : c.lst = some lst) (hc' : c'.lst = some lst) (hplaced : Placed len c.innerA)
    (hminmax : c.innerA.minmax.isSome) (hway : OnTheWay z R lst ev.ts len c.innerA c'.innerA k)
    (hbins : c'.bins = c.bins ++ (reach z lst ev.ts c.innerA).2.take k) : c'.step z ev = c.step z ev := by
  rw [step_some z hc hplaced hminmax, step_some z hc' hway.placed hway.minmax, hway.active, hway.bins, hbins,
    List.append_assoc, List.take_append_drop, hc, hc']

end Cur

namespace BinnedEventsTimeweight

variable {s' : BinnedEventsTimeweight V G R} {evs rest : List (EventSingle V)} {ev : EventSingle V}

omit [PartialOrdEvtA V] [LawfulAggregatorTimeWeight G (V := V) (R := R)] in
/-- Without a last event, {lit}`cycle_01` moves the active bin to the time. -/
theorem cycle01_none (hlst : s.lst = none) (h : Placed len s.innerA) (hminmax : s.innerA.minmax = none)
    (hle : s.innerA.innerB.activeEnd ≤ ts) :
    s.cycle01 ts = .ok { s with innerA := { s.innerA with innerB := jumpTo s.innerA.innerB ts } } := by
  have hguard : s.innerA.innerB.activeBeg < ts ∧ s.innerA.innerB.activeBeg ≤ s.innerA.innerB.filledUntil ∧
      s.innerA.innerB.filledUntil < ts ∧ s.innerA.innerB.filledUntil ≤ s.innerA.innerB.activeEnd := by
    have h1 := h.filled
    have h2 := h.filled_lt
    omega
  unfold cycle01
  simp only
  rw [if_neg (not_not.mpr hguard), hlst, hminmax]
  rfl

omit [PartialOrdEvtA V] [LawfulAggregatorTimeWeight G (V := V) (R := R)] in
theorem placed_jumpTo {ia : InnerA V G} {m : Option (MinMax V)} (h : Placed len ia) :
    Placed len (⟨jumpTo ia.innerB ts, m⟩ : InnerA V G) := by
  unfold jumpTo
  refine ⟨h.len_pos, h.activeLen, ?_, ?_, le_rfl, ?_⟩
  · rw [h.activeLen]
    exact Nat.dvd_mul_left _ _
  · rw [h.activeLen]
  · exact Nat.lt_add_of_pos_right (h.activeLen ▸ h.len_pos)

/-- Before an event the bins up to it are closed, or some of them; the step for the event leads to the same. -/
theorem cycleBefore_ok (taken : List (Bin V R)) (hgood : s.Good) (hpos : 0 < s.range.binLen)
    (hts : ev.ts < s.range.nanoEnd) (h : s.cycleBefore ev.ts = .ok s') :
    SameConf s s' ∧ s'.Good ∧ (s'.cur taken).step s.produceCntZero ev = (s.cur taken).step s.produceCntZero ev := by
  have hplaced := hgood.placed hpos
  unfold cycleBefore at h
  simp only at h
  split at h
  · rename_i hle
    rw [if_pos hplaced.filled_lt] at h
    cases hlst : s.lst with
    | some lst =>
        have hminmax : s.innerA.minmax.isSome := by
          rw [hgood.minmax, hlst]
          rfl
        obtain ⟨ia', k, hcycle, hway, -⟩ := cycle01_some hlst hplaced hminmax hle
        rw [hcycle] at h
        cases h
        refine ⟨⟨rfl, rfl, rfl⟩, ⟨fun _ => hway.placed, ?_, fun _ => hway.beg_le.trans_lt hts⟩, ?_⟩
        · rw [hway.minmax, hlst]
          rfl
        · exact Cur.step_onTheWay hlst hlst hplaced hminmax hway (List.append_assoc _ _ _).symm
    | none =>
        have hminmax : s.innerA.minmax = none := by
          rw [← Option.isNone_iff_eq_none, ← Option.not_isSome, hgood.minmax, hlst]
          rfl
        rw [cycle01_none hlst hplaced hminmax hle] at h
        cases h
        refine ⟨⟨rfl, rfl, rfl⟩, ⟨fun _ => placed_jumpTo hplaced, hgood.minmax, fun _ => ?_⟩, ?_⟩
        · exact (Nat.div_mul_le_self _ _).trans_lt hts
        · have hadvance : (s.cur taken).advance s.produceCntZero ev.ts =
              cur { s with innerA := { s.innerA with innerB := jumpTo s.innerA.innerB ev.ts } } taken :=
            advance_jump (c := s.cur taken) hlst hle
          have hlt : ev.ts < (jumpTo s.innerA.innerB ev.ts).activeEnd := by
            unfold jumpTo
            rw [hplaced.activeLen]
            exact Nat.lt_div_mul_add hplaced.len_pos
          unfold Cur.step
          rw [hadvance]
          exact congrArg (Cur.absorb · ev) (advance_none hlst hlt)
  · cases h
    exact ⟨⟨rfl, rfl, rfl⟩, hgood, rfl⟩

omit [LawfulAggregatorTimeWeight G (V := V) (R := R)] in
theorem steps_append (z : Bool) (c : Cur V G R) (xs ys : List (EventSingle V)) :
    c.steps z (xs ++ ys) = (c.steps z xs).steps z ys := List.foldl_append

/-- Pieces of a list that follow each other -/
theorem drop_take_append {α : Type} (xs : List α) {i j k : ℕ} (hij : i ≤ j) (hjk : j ≤ k) :
    (xs.take j).drop i ++ (xs.take k).drop j = (xs.take k).drop i := by
  have hsum : k - i = (j - i) + (k - j) := by omega
  have hmid : i + (j - i) = j := by omega
  rw [List.drop_take, List.drop_take, List.drop_take, hsum, List.take_add, List.drop_drop, hmid]

/-- What was ingested of a container, by the report -/
def Ingested (z : Bool) (evs : List (EventSingle V)) (pos nconsumed : ℕ) (c c' : Cur V G R) : IngestReport → Prop
  | .consumedAll => c' = c.steps z (evs.drop pos)
  | .consumedPart n => ∃ m ev, n + pos = nconsumed + m ∧ pos ≤ m ∧ evs[m]? = some ev ∧
      c'.step z ev = (c.steps z ((evs.take m).drop pos)).step z ev

omit [LawfulAggregatorTimeWeight G (V := V) (R := R)] in
/-- What was ingested behind some events, together with these -/
theorem Ingested.extend {z : Bool} {pos fin n1 n2 : ℕ} {c c' : Cur V G R} {report : IngestReport}
    (h : Ingested z evs fin n2 (c.steps z ((evs.take fin).drop pos)) c' report) (hpos : pos ≤ fin)
    (hfin : fin ≤ evs.length) (hcount : n2 + pos = n1 + fin) : Ingested z evs pos n1 c c' report := by
  cases report with
  | consumedAll =>
      have hsplit : evs.drop pos = (evs.take fin).drop pos ++ evs.drop fin := by
        have h := drop_take_append evs hpos hfin
        rwa [List.take_length, eq_comm] at h
      rw [Ingested, hsplit, steps_append]
      exact h
  | consumedPart n =>
      obtain ⟨m, ev, hn, hm, hev, hstep⟩ := h
      refine ⟨m, ev, by omega, hpos.trans hm, hev, ?_⟩
      rw [hstep, ← steps_append, drop_take_append evs hpos hm]

omit [PartialOrdEvtA V] [AggregatorTimeWeight G V R] [LawfulAggregatorTimeWeight G (V := V) (R := R)] in
theorem drop_take_cons {pos fin : ℕ} (hev : evs[pos]? = some ev) (hlt : pos < fin) :
    (evs.take fin).drop pos = ev :: (evs.take fin).drop (pos + 1) := by
  obtain ⟨hpos, rfl⟩ := List.getElem?_eq_some_iff.mp hev
  have hlen : pos < (evs.take fin).length := by
    rw [List.length_take]
    omega
  rw [List.drop_eq_getElem_cons hlen, List.getElem_take]

omit [PartialOrdEvtA V] [AggregatorTimeWeight G V R] [LawfulAggregatorTimeWeight G (V := V) (R := R)] in
theorem constrainUpToTs_ok {search : BinarySearch ℕ} {pos fin bound : ℕ}
    (h : constrainUpToTs search evs pos bound = .ok fin) : pos ≤ fin ∧ fin ≤ evs.length := by
  unfold constrainUpToTs at h
  simp only at h
  split at h
  · rename_i hfin
    cases h
    exact ⟨le_max_right _ _, hfin.1.trans_eq (List.length_map _)⟩
  · cases h

omit [LawfulAggregatorTimeWeight G (V := V) (R := R)] in
theorem ingestActive_ok (h : s.ingestActive ts evs = (.ok rest, s')) : s.ingestOrdered evs = (.ok rest, s') := by
  unfold ingestActive at h
  split at h
  · split at h
    · cases h
    · exact h
  · exact h

/-- The loop of {lit}`ingest` takes the steps for the events that it consumes. -/
theorem ingestLoop_ok (search : BinarySearch ℕ) (taken : List (Bin V R)) {report : IngestReport} {n pos nconsumed : ℕ}
    (hgood : s.Good) (hn : evs.length - pos ≤ n)
    (h : ingestLoop search evs n pos nconsumed s = (.ok report, s')) :
    SameConf s s' ∧ s'.Good ∧
      Ingested s.produceCntZero evs pos nconsumed (s.cur taken) (s'.cur taken) report := by
  induction n generalizing s pos nconsumed with
  | zero =>
      cases h
      refine ⟨⟨rfl, rfl, rfl⟩, hgood, ?_⟩
      unfold Ingested
      rw [List.drop_of_length_le (by omega)]
      rfl
  | succ n ih =>
      rw [ingestLoop] at h
      cases hev : evs[pos]? with
      | none =>
          rw [hev] at h
          cases h
          refine ⟨⟨rfl, rfl, rfl⟩, hgood, ?_⟩
          unfold Ingested
          rw [List.drop_of_length_le (List.getElem?_eq_none_iff.mp hev)]
          rfl
      | some ev =>
          simp only [hev] at h
          split at h
          · cases h
          rename_i hrange
          have hpos : 0 < s.range.binLen := by
            by_contra hzero
            refine hrange ?_
            rw [BinnedRange.nanoEnd, Nat.eq_zero_of_not_pos hzero, Nat.zero_mul]
            exact Nat.zero_le _
          obtain ⟨hlt, hget⟩ := List.getElem?_eq_some_iff.mp hev
          cases hbefore : s.cycleBefore ev.ts with
          | error e =>
              rw [hbefore] at h
              cases h
          | ok s1 =>
              simp only [hbefore] at h
              obtain ⟨hconf1, hgood1, hstep1⟩ := cycleBefore_ok taken hgood hpos (not_le.mp hrange) hbefore
              split at h
              · cases h
                refine ⟨hconf1, hgood1, pos, ev, rfl, le_rfl, hev, ?_⟩
                have hnil : (evs.take pos).drop pos = [] :=
                  List.drop_of_length_le (List.length_take_le _ _)
                rw [hnil]
                exact hstep1
              cases hfin : constrainUpToTs search evs pos s1.innerA.innerB.activeEnd with
              | error e =>
                  rw [hfin] at h
                  cases h
              | ok fin =>
                  simp only [hfin] at h
                  cases hactive : s1.ingestActive ev.ts ((evs.take fin).drop pos) with
                  | mk res s2 =>
                      rw [hactive] at h
                      cases res with
                      | error e => cases h
                      | ok rest =>
                          obtain ⟨hle1, hle2⟩ := constrainUpToTs_ok hfin
                          obtain ⟨rfl, hconf2, -, hcur2, hplaced2, hbeg2, hminmax2⟩ := ingestOrdered_ok s.range.binLen
                            s.produceCntZero taken hgood1.minmax (ingestActive_ok hactive)
                          have hgood2 : s2.Good := by
                            refine ⟨fun _ => ?_, hminmax2, fun hne => ?_⟩
                            · rw [hconf2.range, hconf1.range]
                              exact hplaced2 (hconf1.range ▸ hgood1.placed (hconf1.range ▸ hpos))
                            · rw [hbeg2, hconf2.range]
                              exact hgood1.inRange (hconf2.range ▸ hne)
                          simp only [List.length_nil, Nat.sub_zero] at h
                          have hz2 : s2.produceCntZero = s.produceCntZero :=
                            hconf2.produceCntZero.trans hconf1.produceCntZero
                          have hsame : pos < fin →
                              s2.cur taken = (s.cur taken).steps s.produceCntZero ((evs.take fin).drop pos) := by
                            intro hfinpos
                            rw [hcur2, drop_take_cons hev hfinpos]
                            exact congrArg (Cur.steps s.produceCntZero · ((evs.take fin).drop (pos + 1))) hstep1
                          split at h
                          · rename_i hall
                            cases h
                            have hfin : fin = evs.length := by omega
                            refine ⟨hconf1.trans hconf2, hgood2, ?_⟩
                            rw [Ingested, hsame (by omega), hfin, List.take_length]
                          split at h
                          · cases h
                          · obtain ⟨hconf, hgood', hingested⟩ := ih hgood2 (by omega) h
                            refine ⟨(hconf1.trans hconf2).trans hconf, hgood', ?_⟩
                            rw [hz2, hsame (by omega)] at hingested
                            exact hingested.extend hle1 hle2 (by omega)

/-- A container is ingested event by event. -/
theorem ingest_ok (search : BinarySearch ℕ) (taken : List (Bin V R)) {report : IngestReport} (hgood : s.Good)
    (h : s.ingest search evs = (.ok report, s')) :
    SameConf s s' ∧ s'.Good ∧ Ingested s.produceCntZero evs 0 0 (s.cur taken) (s'.cur taken) report :=
  ingestLoop_ok search taken hgood (Nat.sub_le _ _) h

/-! ## Batches and drains -/

/-- The number of events that were consumed, of some that were offered -/
def consumed (n : ℕ) : IngestReport → ℕ
  | .consumedAll => n
  | .consumedPart m => m

/-- The caller has offered events, in any batches, and has taken bins at any time.  Events that were not consumed are
pending: they are offered again, in front of any others. -/
inductive Feeds (search : BinarySearch ℕ) (z : Bool) (range : BinnedRange) :
    List (EventSingle V) → List (EventSingle V) → List (Bin V R) → BinnedEventsTimeweight V G R → Prop
  | new : Feeds search z range [] [] [] { new range with produceCntZero := z }
  | offer {given pending evs : List (EventSingle V)} {taken : List (Bin V R)} {s s' : BinnedEventsTimeweight V G R}
      {report : IngestReport} :
      Feeds search z range given pending taken s → s.ingest search (pending ++ evs) = (.ok report, s') →
      Feeds search z range (given ++ (pending ++ evs).take (consumed (pending ++ evs).length report))
        ((pending ++ evs).drop (consumed (pending ++ evs).length report)) taken s'
  | take {given pending : List (EventSingle V)} {taken bins : List (Bin V R)} {s s' : BinnedEventsTimeweight V G R} :
      Feeds search z range given pending taken s → s.output = .ok (bins, s') →
      Feeds search z range given pending (taken ++ bins) s'

/-- What holds of a binner that was fed: with nothing pending it is where the steps for the events lead, and otherwise
the step for the pending event leads to the same. -/
structure Fed (z : Bool) (range : BinnedRange) (given pending : List (EventSingle V)) (taken : List (Bin V R))
    (s : BinnedEventsTimeweight V G R) : Prop where
  good : s.Good
  range_eq : s.range = range
  produceCntZero : s.produceCntZero = z
  continueOutput : s.inputDoneRangeFinalContinueOutput = false
  cur_eq : pending = [] → s.cur taken = (Cur.start range).steps z given
  step_eq : ∀ ev rest, pending = ev :: rest →
    (s.cur taken).step z ev = ((Cur.start range).steps z given).step z ev

omit [PartialOrdEvtA V] [LawfulAggregatorTimeWeight G (V := V) (R := R)] in
theorem good_new (z : Bool) (range : BinnedRange) :
    Good ({ new range with produceCntZero := z } : BinnedEventsTimeweight V G R) where
  placed hpos := ⟨hpos, rfl, Nat.dvd_mul_right _ _, rfl, le_rfl, Nat.lt_add_of_pos_right hpos⟩
  minmax := rfl
  inRange := id

variable {search : BinarySearch ℕ} {z : Bool} {range : BinnedRange} {given pending : List (EventSingle V)}
  {taken : List (Bin V R)}

/-- After any batches and drains the binner is where the steps for the events lead. -/
theorem Feeds.fed (h : Feeds search z range given pending taken s) : Fed z range given pending taken s := by
  induction h with
  | new => exact ⟨good_new z range, rfl, rfl, rfl, fun _ => rfl, nofun⟩
  | @offer given pending evs taken s s' report _ hingest ih =>
      obtain ⟨hgood, hrange, hz, hcont, hcur, hpending⟩ := ih
      obtain ⟨hconf, hgood', hingested⟩ := ingest_ok search taken hgood hingest
      have hsame : ∀ xs : List (EventSingle V), (pending = [] ∨ ∃ ev r r', pending = ev :: r ∧ xs = ev :: r') →
          (s.cur taken).steps z xs = ((Cur.start range).steps z given).steps z xs := by
        rintro xs (hnil | ⟨ev, r, r', hp, rfl⟩)
        · rw [hcur hnil]
        · exact congrArg (Cur.steps z · r') (hpending ev r hp)
      have hconf' : s'.range = range ∧ s'.produceCntZero = z ∧ s'.inputDoneRangeFinalContinueOutput = false :=
        ⟨hconf.range.trans hrange, hconf.produceCntZero.trans hz, hconf.continueOutput.trans hcont⟩
      rw [hz] at hingested
      cases report with
      | consumedAll =>
          rw [consumed, List.take_length, List.drop_length]
          refine ⟨hgood', hconf'.1, hconf'.2.1, hconf'.2.2, fun _ => ?_, nofun⟩
          rw [steps_append, ← hsame]
          · exact hingested
          · cases pending with
            | nil => exact .inl rfl
            | cons ev r => exact .inr ⟨ev, r, r ++ evs, rfl, rfl⟩
      | consumedPart n =>
          obtain ⟨m, ev, hn, -, hev, hstep⟩ := hingested
          obtain rfl : n = m := by omega
          obtain ⟨hlt, hget⟩ := List.getElem?_eq_some_iff.mp hev
          rw [consumed, List.drop_eq_getElem_cons hlt, hget]
          refine ⟨hgood', hconf'.1, hconf'.2.1, hconf'.2.2, nofun, ?_⟩
          rintro ev' rest' ⟨⟩
          have htake : (pending ++ evs).take (n + 1) = (pending ++ evs).take n ++ [ev] := by
            rw [List.take_succ_eq_append_getElem hlt, hget]
          have hboth := hsame ((pending ++ evs).take (n + 1)) (by
            cases pending with
            | nil => exact .inl rfl
            | cons e r => exact .inr ⟨e, r, (r ++ evs).take n, rfl, rfl⟩)
          rw [htake, steps_append, steps_append] at hboth
          rw [hstep, steps_append]
          exact hboth
  | @take given pending taken bins s s' _ houtput ih =>
      obtain ⟨hgood, hrange, hz, hcont, hcur, hpending⟩ := ih
      unfold output at houtput
      rw [hcont] at houtput
      cases houtput
      have heq : cur { s with out := [] } (taken ++ s.out) = s.cur taken := by
        unfold cur
        rw [List.append_nil]
      exact ⟨⟨hgood.placed, hgood.minmax, hgood.inRange⟩, hrange, hz, rfl, fun h => heq.trans (hcur h),
        fun ev rest h => (congrArg (Cur.step z · ev) heq).trans (hpending ev rest h)⟩

end BinnedEventsTimeweight

end Steps

end Binning
end Daqbuf
