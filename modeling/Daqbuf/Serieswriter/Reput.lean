import Daqbuf.Serieswriter.RtWriter
/-!
# Catching Up

A store that dropped the newest event gets it from a later tick, unless the ticks serve the other store
first.  For the ticks, the state of a writer is which of its medium and long term stores lag.

Main results:

- Theorem {lit}`RtRun.Inv.tick_spec`: a tick of the writer is a step of the lagging stores.
- Theorem {lit}`RtRun.converges_iff`: when exactly all stores end up with the last accepted event.
- Theorem {lit}`RtRun.not_converges_medium`: quiet times for which the medium term store never gets it.
-/

namespace Daqbuf
namespace Serieswriter

/-! ## Lagging stores -/

/-- Which of the medium and the long term store lag. -/
structure Lagging where
  mt : Bool
  lt : Bool
  deriving DecidableEq, Repr

namespace Lagging

/-- What a tick does for an event at {lit}`ts`: once the long term store has it, nothing more happens. -/
def step (q : MinQuiets) (ts : ℕ) (lagging : Lagging) (tsnow : ℕ) : Lagging :=
  if ¬ lagging.lt then lagging
  else if RtWriter.Due q.lt ts tsnow then { lagging with lt := false }
  else if RtWriter.Due q.mt ts tsnow then { lagging with mt := false }
  else lagging

/-- What ticks do. -/
def run (q : MinQuiets) (ts : ℕ) (lagging : Lagging) (ticks : List ℕ) : Lagging :=
  ticks.foldl (step q ts) lagging

/-- No store lags. -/
def none : Lagging := ⟨false, false⟩

/-- Of the ticks that come after one of the two quiet times, the first is still within the long one. -/
def MediumFirst (q : MinQuiets) (ts : ℕ) (ticks : List ℕ) : Prop :=
  ∃ tsnow, ticks.find? (fun t => RtWriter.Due q.mt ts t ∨ RtWriter.Due q.lt ts t) = some tsnow ∧
    ¬ RtWriter.Due q.lt ts tsnow

variable {q : MinQuiets} {ts : ℕ}

/-- With the long term store up to date, the medium term store stays as it is. -/
theorem run_long (mt : Bool) (ticks : List ℕ) : run q ts ⟨mt, false⟩ ticks = ⟨mt, false⟩ := by
  induction ticks with
  | nil => rfl
  | cons t ticks ih => exact ih

/-- With the medium term store up to date, the long term store gets the event after its quiet time. -/
theorem run_medium {ticks : List ℕ} (hdue : ∃ t ∈ ticks, RtWriter.Due q.lt ts t) :
    run q ts ⟨false, true⟩ ticks = none := by
  induction ticks with
  | nil => simp at hdue
  | cons t ticks ih =>
      by_cases hlt : RtWriter.Due q.lt ts t
      · rw [run, List.foldl_cons, show step q ts ⟨false, true⟩ t = ⟨false, false⟩ by simp [step, hlt]]
        exact run_long false ticks
      · rw [run, List.foldl_cons, show step q ts ⟨false, true⟩ t = ⟨false, true⟩ by simp [step, hlt]]
        refine ih ?_
        rcases hdue with ⟨t', hmem, hdue⟩
        rcases List.mem_cons.mp hmem with rfl | hmem
        · exact absurd hdue hlt
        · exact ⟨t', hmem, hdue⟩

/-- With both lagging, the medium term store has to be served first. -/
theorem run_both {ticks : List ℕ} (hdue : ∃ t ∈ ticks, RtWriter.Due q.lt ts t) :
    run q ts ⟨true, true⟩ ticks = none ↔ MediumFirst q ts ticks := by
  induction ticks with
  | nil => simp at hdue
  | cons t ticks ih =>
      rw [run, List.foldl_cons, MediumFirst]
      by_cases hlt : RtWriter.Due q.lt ts t
      · rw [show step q ts ⟨true, true⟩ t = ⟨true, false⟩ by simp [step, hlt]]
        refine iff_of_false ?_ ?_
        · rw [← run, run_long]
          exact by decide
        · rintro ⟨tsnow, hfind, hnot⟩
          rw [List.find?_cons_of_pos (by simp [hlt])] at hfind
          exact hnot (Option.some.inj hfind ▸ hlt)
      · have hrest : ∃ t ∈ ticks, RtWriter.Due q.lt ts t := by
          rcases hdue with ⟨t', hmem, hdue⟩
          rcases List.mem_cons.mp hmem with rfl | hmem
          · exact absurd hdue hlt
          · exact ⟨t', hmem, hdue⟩
        by_cases hmt : RtWriter.Due q.mt ts t
        · rw [show step q ts ⟨true, true⟩ t = ⟨false, true⟩ by simp [step, hlt, hmt],
            List.find?_cons_of_pos (by simp [hmt])]
          exact iff_of_true (run_medium hrest) ⟨t, rfl, hlt⟩
        · rw [show step q ts ⟨true, true⟩ t = ⟨true, true⟩ by simp [step, hlt, hmt],
            List.find?_cons_of_neg (by simp [hlt, hmt])]
          exact ih hrest

end Lagging

/-! ## Ticks of a writer -/

namespace RtRun

variable {ET S D : Type} [EmittableType ET S D]

/-- The lagging stores of a writer. -/
def lagsOf (w : RtWriter ET S) : Lagging where
  mt := decide (w.Lags .medium)
  lt := decide (w.Lags .long)

/-- A run of ticks, each with the time and the monotonic clock. -/
def runTicks (r : RtRun ET S D) (ticks : List (ℕ × ℕ)) : RtRun ET S D :=
  r.run (ticks.map fun t => .tick t.1 t.2)

/-- What a tick keeps, and which stores lag after it. -/
theorem Inv.tick_spec {r : RtRun ET S D} (hinv : r.Inv) {v : ET} (hv : r.writer.lastInsertVal = some v)
    (tsnow now : ℕ) :
    (r.step (.tick tsnow now)).writer.lastInsertTs = r.writer.lastInsertTs ∧
      (r.step (.tick tsnow now)).writer.lastInsertVal = some v ∧
      (r.step (.tick tsnow now)).writer.minQuiets = r.writer.minQuiets ∧
      (r.step (.tick tsnow now)).writer.stateSt = r.writer.stateSt ∧
      lagsOf (r.step (.tick tsnow now)).writer =
        (lagsOf r.writer).step r.writer.minQuiets r.writer.lastInsertTs tsnow := by
  rw [hinv.step_tick hv, RtWriter.reput]
  by_cases hlong : r.writer.Lags .long
  · rw [if_neg (not_not_intro hlong)]
    by_cases hlt : RtWriter.Due r.writer.minQuiets.lt r.writer.lastInsertTs tsnow
    · rw [if_pos hlt]
      refine ⟨rfl, hv, rfl, rfl, ?_⟩
      have hcur : ¬ (r.writer.forceLt v r.writer.lastInsertTs now r.iqdqs).1.Lags .long := lt_irrefl _
      simp only [lagsOf, Lagging.step, hlong, hlt, hcur]
      rfl
    · rw [if_neg hlt]
      by_cases hmt : r.writer.Lags .medium ∧
          RtWriter.Due r.writer.minQuiets.mt r.writer.lastInsertTs tsnow
      · rw [if_pos hmt]
        refine ⟨rfl, hv, rfl, rfl, ?_⟩
        have hcur : ¬ (r.writer.forceMt v r.writer.lastInsertTs now r.iqdqs).1.Lags .medium :=
          lt_irrefl _
        have hlong' : (r.writer.forceMt v r.writer.lastInsertTs now r.iqdqs).1.Lags .long := hlong
        simp [lagsOf, Lagging.step, hlong, hlong', hlt, hmt.2, hcur]
      · rw [if_neg hmt]
        refine ⟨rfl, hv, rfl, rfl, ?_⟩
        by_cases hmedium : r.writer.Lags .medium
        · have hnot : ¬ RtWriter.Due r.writer.minQuiets.mt r.writer.lastInsertTs tsnow :=
            fun hdue => hmt ⟨hmedium, hdue⟩
          simp [lagsOf, Lagging.step, hlong, hlt, hnot]
        · simp [lagsOf, Lagging.step, hlong, hlt, hmedium]
  · rw [if_pos hlong]
    exact ⟨rfl, hv, rfl, rfl, by simp [lagsOf, Lagging.step, hlong]⟩

/-- What ticks keep, and which stores lag after them. -/
theorem Inv.runTicks_spec (ticks : List (ℕ × ℕ)) {r : RtRun ET S D} (hinv : r.Inv) {v : ET}
    (hv : r.writer.lastInsertVal = some v) :
    (r.runTicks ticks).Inv ∧ (r.runTicks ticks).writer.lastInsertTs = r.writer.lastInsertTs ∧
      (r.runTicks ticks).writer.lastInsertVal = some v ∧
      (r.runTicks ticks).writer.stateSt = r.writer.stateSt ∧
      lagsOf (r.runTicks ticks).writer =
        (lagsOf r.writer).run r.writer.minQuiets r.writer.lastInsertTs (ticks.map Prod.fst) := by
  induction ticks generalizing r with
  | nil => exact ⟨hinv, rfl, hv, rfl, rfl⟩
  | cons t ticks ih =>
      rcases hinv.tick_spec hv t.1 t.2 with ⟨hts, hval, hq, hst, hlags⟩
      rcases ih (step_inv hinv (.tick t.1 t.2)) hval with ⟨hinv', hts', hval', hst', hlags'⟩
      refine ⟨hinv', hts'.trans hts, hval', hst'.trans hst, ?_⟩
      rw [hts, hq, hlags] at hlags'
      exact hlags'

/-- The newest entry of a store is the given event. -/
def Holds (r : RtRun ET S D) (rt : Netpod.RetentionTime) (ts : ℕ) (v : ET) : Prop :=
  ∃ item, (inserts (r.iqdqs.deque rt)).getLast? = some item ∧ RateLimitWriter.IsValueOf v ts item

/-- A store holds the newest event exactly when it does not lag. -/
theorem Inv.holds_iff {r : RtRun ET S D} (hinv : r.Inv) {v : ET} (hv : r.writer.lastInsertVal = some v)
    (rt : Netpod.RetentionTime) : r.Holds rt r.writer.lastInsertTs v ↔ ¬ r.writer.Lags rt := by
  rw [Holds, (hinv.ordered rt).newest_iff fun heq => (hinv.consistent.val rt heq).trans hv]
  exact ⟨fun heq => heq.not_lt, fun hcur => hinv.consistent.eq_of_not_lags hcur⟩

/-- The ticks bring the newest event to all stores. -/
def CatchesUp (w : RtWriter ET S) (ticks : List ℕ) : Prop :=
  ¬ w.Lags .short ∧ (w.Lags .medium →
    w.Lags .long ∧ Lagging.MediumFirst w.minQuiets w.lastInsertTs ticks)

/-- For the medium and the long term store. -/
theorem run_lagsOf_iff (w : RtWriter ET S) {ticks : List ℕ}
    (hdue : ∃ t ∈ ticks, RtWriter.Due w.minQuiets.lt w.lastInsertTs t) :
    (lagsOf w).run w.minQuiets w.lastInsertTs ticks = .none ↔
      (w.Lags .medium → w.Lags .long ∧ Lagging.MediumFirst w.minQuiets w.lastInsertTs ticks) := by
  by_cases hmt : w.Lags .medium
  · by_cases hlt : w.Lags .long
    · rw [show lagsOf w = ⟨true, true⟩ by simp [lagsOf, hmt, hlt], Lagging.run_both hdue]
      simp [hmt, hlt]
    · rw [show lagsOf w = ⟨true, false⟩ by simp [lagsOf, hmt, hlt], Lagging.run_long]
      exact iff_of_false (by decide) fun himp => hlt (himp hmt).1
  · refine iff_of_true ?_ fun hlag => absurd hlag hmt
    by_cases hlt : w.Lags .long
    · rw [show lagsOf w = ⟨false, true⟩ by simp [lagsOf, hmt, hlt]]
      exact Lagging.run_medium hdue
    · rw [show lagsOf w = ⟨false, false⟩ by simp [lagsOf, hmt, hlt]]
      exact Lagging.run_long false ticks

/-- No call changes the quiet times. -/
theorem run_minQuiets (calls : List (RtCall ET)) (r : RtRun ET S D) :
    (r.run calls).writer.minQuiets = r.writer.minQuiets := by
  induction calls generalizing r with
  | nil => rfl
  | cons call rest ih => exact (ih (r.step call)).trans (step_settings r call).1

/-- A quiet time that has passed is over. -/
theorem due_of_lt {q ts tsnow : ℕ} (hlt : ts + q < tsnow) : RtWriter.Due q ts tsnow := by
  have hmod := Nat.mod_le q (2 ^ 64)
  exact (min_le_left _ _).trans (by omega)

/-- After any history, when a tick comes later after the last accepted event than all three quiet times,
the ticks leave the last accepted event as the newest entry of all stores exactly when they catch up. -/
theorem converges_iff (series : ℕ) (minQuiets : MinQuiets) (isPolled doStRf1 : Bool) (emitStateNew : S)
    (now : ℕ) (calls : List (RtCall ET)) {ts : ℕ} {v : ET}
    (hlast : ((new series minQuiets isPolled doStRf1 emitStateNew now : RtRun ET S D).run
      calls).accepted.getLast? = some (ts, v))
    {ticks : List (ℕ × ℕ)} (hpass : ∃ t ∈ ticks,
      ts + minQuiets.st < t.1 ∧ ts + minQuiets.mt < t.1 ∧ ts + minQuiets.lt < t.1) :
    (∀ rt, (((new series minQuiets isPolled doStRf1 emitStateNew now : RtRun ET S D).run
      calls).runTicks ticks).Holds rt ts v) ↔
    CatchesUp ((new series minQuiets isPolled doStRf1 emitStateNew now : RtRun ET S D).run calls).writer
      (ticks.map Prod.fst) := by
  have hinv := run_inv calls (new_inv series minQuiets isPolled doStRf1 emitStateNew now :
    (new series minQuiets isPolled doStRf1 emitStateNew now : RtRun ET S D).Inv)
  have hq := run_minQuiets calls (new series minQuiets isPolled doStRf1 emitStateNew now : RtRun ET S D)
  generalize ((new series minQuiets isPolled doStRf1 emitStateNew now : RtRun ET S D).run calls) = r
    at hlast hinv hq ⊢
  -- the writer remembers the last accepted event
  have hmap := hinv.last.symm.trans hlast
  rcases Option.map_eq_some_iff.mp hmap with ⟨w, hv, heq⟩
  obtain ⟨rfl, rfl⟩ : r.writer.lastInsertTs = ts ∧ w = v := Prod.mk.inj heq
  rcases hinv.runTicks_spec ticks hv with ⟨hinv', hts, hval, hst, hlags⟩
  have hdue : ∃ t ∈ ticks.map Prod.fst, RtWriter.Due r.writer.minQuiets.lt r.writer.lastInsertTs t := by
    rcases hpass with ⟨t, hmem, -, -, hlt⟩
    refine ⟨t.1, List.mem_map_of_mem hmem, due_of_lt ?_⟩
    rw [hq]
    exact hlt
  have hshort : (r.runTicks ticks).writer.Lags .short ↔ r.writer.Lags .short := by
    rw [RtWriter.Lags, RtWriter.Lags, hts, RtWriter.store, RtWriter.store, hst]
  have hother : lagsOf (r.runTicks ticks).writer = .none ↔
      ¬ (r.runTicks ticks).writer.Lags .medium ∧ ¬ (r.runTicks ticks).writer.Lags .long := by
    simp [lagsOf, Lagging.none]
  have hholds (rt : Netpod.RetentionTime) : (r.runTicks ticks).Holds rt r.writer.lastInsertTs w ↔
      ¬ (r.runTicks ticks).writer.Lags rt := by
    rw [← hinv'.holds_iff hval rt, hts]
  rw [CatchesUp, ← run_lagsOf_iff r.writer hdue, ← hlags, hother, ← hshort]
  constructor
  · intro hall
    exact ⟨(hholds .short).mp (hall .short), (hholds .medium).mp (hall .medium),
      (hholds .long).mp (hall .long)⟩
  · rintro ⟨hst, hmt, hlt⟩ rt
    cases rt with
    | short => exact (hholds .short).mpr hst
    | medium => exact (hholds .medium).mpr hmt
    | long => exact (hholds .long).mpr hlt

/-- The long term store drops the only event, and gets it from a tick. -/
theorem converges_one :
    (∀ rt, (((new 7 ⟨0, 1000000000, 10000000000⟩ false false () 0 : RtRun WritableBytes Unit ℕ).run
      [.write ⟨1000000000, 4⟩ 0 1000000000 0]).runTicks [(20000000000, 0)]).Holds rt 1000000000
        ⟨1000000000, 4⟩) ↔
    CatchesUp ((new 7 ⟨0, 1000000000, 10000000000⟩ false false () 0 : RtRun WritableBytes Unit ℕ).run
      [.write ⟨1000000000, 4⟩ 0 1000000000 0]).writer [20000000000] :=
  converges_iff 7 ⟨0, 1000000000, 10000000000⟩ false false () 0 _ (by decide +kernel)
    ⟨(20000000000, 0), List.mem_singleton_self _, by decide⟩

/-- With quiet times of 0, 3 and 4 seconds and events at 4, 7 and 8 seconds, the medium term store drops the
last event, which the others accept.  However often the writer is ticked, it does not get it. -/
theorem not_converges_medium :
    ∃ (calls : List (RtCall WritableBytes)) (ticks : List (ℕ × ℕ)) (ts : ℕ) (v : WritableBytes),
      ((new 7 ⟨0, 3000000000, 4000000000⟩ false false () 0 : RtRun WritableBytes Unit ℕ).run
        calls).accepted.getLast? = some (ts, v) ∧
      (∃ t ∈ ticks, ts + 0 < t.1 ∧ ts + 3000000000 < t.1 ∧ ts + 4000000000 < t.1) ∧
      ¬ (((new 7 ⟨0, 3000000000, 4000000000⟩ false false () 0 : RtRun WritableBytes Unit ℕ).run
        calls).runTicks ticks).Holds .medium ts v := by
  refine ⟨[.write ⟨4000000000, 4⟩ 0 4000000000 0, .write ⟨7000000000, 4⟩ 0 7000000000 0,
    .write ⟨8000000000, 4⟩ 0 8000000000 0], (List.range 10).map fun i => (8000000000 + 1000000000 * i, 0),
    8000000000, ⟨8000000000, 4⟩, by decide +kernel, ⟨(17000000000, 0), by decide +kernel, by decide⟩, ?_⟩
  rintro ⟨item, hlast, hts, -⟩
  have hmedium : ((((new 7 ⟨0, 3000000000, 4000000000⟩ false false () 0 :
      RtRun WritableBytes Unit ℕ).run [.write ⟨4000000000, 4⟩ 0 4000000000 0,
        .write ⟨7000000000, 4⟩ 0 7000000000 0, .write ⟨8000000000, 4⟩ 0 8000000000 0]).runTicks
      ((List.range 10).map fun i => (8000000000 + 1000000000 * i, 0))).iqdqs.mtRf3Qu |> inserts).getLast?.map
        InsertItem.ts = some 7000000000 := by
    decide +kernel
  rw [show inserts (InsertDeques.deque _ .medium) = inserts (InsertDeques.mtRf3Qu _) from rfl] at hlast
  rw [hlast] at hmedium
  simp [hts] at hmedium

end RtRun

end Serieswriter
end Daqbuf
