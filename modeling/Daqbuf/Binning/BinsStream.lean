import Daqbuf.Binning.BinsTimeweight
import Daqbuf.Scylla.Sitems
import Daqbuf.Poll.Stage
/-!
# The Stream of Binned Bins

{lit}`BinnedBinsTimeweightStream` hands the containers of bins of its input to a binner, and hands out longer bins as
soon as there are some.  At the end of the input the active bin is put out too, and it is final only if the input said
that its range is complete.

All containers of the input have one type of values.

Main results:

- Theorem {lit}`BinnedBinsTimeweight.rest_after`: what was put out before changes nothing of what follows.
- Theorem {lit}`BinnedBinsTimeweightStream.Reading.ends`: over a stream that ends, the bins that are handed out, an
  error or a panic are those of the binner.
- Theorem {lit}`BinnedBinsTimeweightStream.Reading.fails`: an error of the input is not lost.
- Theorem {lit}`BinnedBinsTimeweightStream.rebins_iff`: the bins that are handed out are those of one run of the binner
  over all bins of the input, however they come in containers.
-/

namespace Daqbuf
namespace Binning

open Netpod Items Poll Scylla

/-! ## The binner of a stream -/

/-- {lit}`BinnedBinsTimeweightLazy` -/
structure BinnedBinsTimeweightLazy (V H R : Type) where
  range : BinnedRange
  binned : Option (BinnedBinsTimeweight V H R)
  produceCntZero : Bool
  deriving DecidableEq

namespace BinnedBinsTimeweightLazy

variable {V H R : Type} [AggBinValTw H R]

/-- {lit}`new` -/
def new (range : BinnedRange) : BinnedBinsTimeweightLazy V H R where
  range := range
  binned := none
  produceCntZero := false

/-- {lit}`set_cnt_zero` -/
def setCntZero (l : BinnedBinsTimeweightLazy V H R) : BinnedBinsTimeweightLazy V H R :=
  { l with produceCntZero := true }

/-- The binner, which is made with the first container. -/
def getOrInsert (l : BinnedBinsTimeweightLazy V H R) : BinnedBinsTimeweight V H R :=
  let binner := BinnedBinsTimeweight.new l.range
  l.binned.getD (if l.produceCntZero then binner.cntZeroEnable else binner)

/-- {lit}`ingest` -/
def ingest [PartialOrdEvtA V] (l : BinnedBinsTimeweightLazy V H R) (bins : List (Bin V R)) :
    Except BinsFault (BinnedBinsTimeweightLazy V H R) :=
  (l.getOrInsert.ingestBins bins).map fun b => { l with binned := some b }

/-- {lit}`input_done_range_final` and {lit}`input_done_range_open` -/
def inputDone (l : BinnedBinsTimeweightLazy V H R) (done : BinnedBinsTimeweight.InputDone) :
    Except BinsFault (BinnedBinsTimeweightLazy V H R) :=
  match l.binned with
  | some b => (b.inputDone done).map fun b => { l with binned := some b }
  | none => .ok l

/-- {lit}`output` -/
def output (l : BinnedBinsTimeweightLazy V H R) : Option (List (Bin V R)) × BinnedBinsTimeweightLazy V H R :=
  match l.binned with
  | some b => (b.output.1, { l with binned := some b.output.2 })
  | none => (none, l)

end BinnedBinsTimeweightLazy

/-! ## The stream -/

/-- What the stream can report: the error of the binner, and those of its input. -/
inductive BinsStreamError (E : Type) where
  | inp (e : E)
  | inputBinlenOverflow
  deriving DecidableEq

/-- {lit}`StreamState` -/
inductive BinsStreamState where
  | reading
  | done
  deriving DecidableEq

/-- {lit}`BinnedBinsTimeweightStream`; the input itself is kept beside. -/
structure BinnedBinsTimeweightStream (V H R : Type) where
  state : BinsStreamState
  rangeComplete : Bool
  binned : BinnedBinsTimeweightLazy V H R
  deriving DecidableEq

namespace BinnedBinsTimeweightStream

variable {V H R E : Type} [PartialOrdEvtA V] [AggBinValTw H R]

/-- {lit}`new` -/
def new (range : BinnedRange) : BinnedBinsTimeweightStream V H R where
  state := .reading
  rangeComplete := false
  binned := .new range

/-- A pass of the stream -/
abbrev BinsPass (V H R E : Type) :=
  Pass (BinnedBinsTimeweightStream V H R) (Sitemty2 (List (Bin V R)) (BinsStreamError E))

/-- An error of the binner ends the stream. -/
def ofFault (s : BinnedBinsTimeweightStream V H R) : BinsFault → BinsPass V H R E
  | .inputBinlenOverflow => .item (.error .inputBinlenOverflow) { s with state := .done }
  | .panicked => .panic

/-- {lit}`handle_sitemty` -/
def handleSitemty (s : BinnedBinsTimeweightStream V H R) : Sitemty2 (List (Bin V R)) E → BinsPass V H R E
  | .ok (.dataItem (.data bins)) =>
      match s.binned.ingest bins with
      | .error e => ofFault s e
      | .ok l =>
          let s := { s with binned := l.output.2 }
          match l.output.1 with
          | some bins => if bins.length = 0 then .again s else .item (sitem2Data bins) s
          | none => .again s
  | .ok (.dataItem .rangeComplete) => .again { s with rangeComplete := true }
  | .ok (.log x) => .item (.ok (.log x)) s
  | .ok (.stats x) => .item (.ok (.stats x)) s
  | .error e => .item (.error (.inp e)) { s with state := .done }

/-- Which of the two calls tells the binner that there is no more input. -/
def doneOf (rangeComplete : Bool) : BinnedBinsTimeweight.InputDone :=
  if rangeComplete then .rangeFinal else .rangeOpen

/-- The log item at the end -/
def noBinsReady : LogItem := { origin := "", level := .debug, msg := "no bins ready on eos" }

/-- {lit}`handle_eos` -/
def handleEos (s : BinnedBinsTimeweightStream V H R) : BinsPass V H R E :=
  let s := { s with state := .done }
  match s.binned.inputDone (doneOf s.rangeComplete) with
  | .error e => ofFault s e
  | .ok l =>
      let s := { s with binned := l.output.2 }
      match l.output.1 with
      | some bins => .item (sitem2Data bins) s
      | none => .item (.ok (.log noBinsReady)) s

/-- {lit}`handle_main` -/
def stage : Stage (BinnedBinsTimeweightStream V H R) (Sitemty2 (List (Bin V R)) E)
    (Sitemty2 (List (Bin V R)) (BinsStreamError E)) where
  own s :=
    match s.state with
    | .reading => none
    | .done => some (.done s)
  item := handleSitemty
  last := handleEos

end BinnedBinsTimeweightStream

/-! ## Bins put out before -/

namespace BinnedBinsTimeweight

variable {V H R : Type} [AggBinValTw H R]
variable {s : BinnedBinsTimeweight V H R} {bins : List (Bin V R)}

/-- The binner, with some bins put out before its own. -/
def after (bins : List (Bin V R)) (s : BinnedBinsTimeweight V H R) : BinnedBinsTimeweight V H R :=
  { s with out := bins ++ s.out }

omit [AggBinValTw H R] in
/-- A binner from which all was taken -/
theorem after_self (s : BinnedBinsTimeweight V H R) : after s.out { s with out := [] } = s := by
  simp [after]

theorem maybeEmitActive_after : (after bins s).maybeEmitActive = s.maybeEmitActive.map (after bins) := by
  unfold maybeEmitActive
  by_cases hemits : s.cnt ≠ 0 ∨ (s.produceCntZero ∧ s.min.isSome)
  · have hemits' : (after bins s).cnt ≠ 0 ∨ ((after bins s).produceCntZero ∧ (after bins s).min.isSome) := hemits
    rw [if_pos hemits, if_pos hemits']
    cases hmin : s.min <;> cases hmax : s.max <;> cases hlst : s.lst <;>
      simp [after, resetForNewBin, hmin, hmax, hlst, Except.map]
  · have hemits' : ¬ ((after bins s).cnt ≠ 0 ∨ ((after bins s).produceCntZero ∧ (after bins s).min.isSome)) := hemits
    rw [if_neg hemits, if_neg hemits']
    rfl

omit [AggBinValTw H R] in
theorem activeForward_after (ts : ℕ) : (after bins s).activeForward ts = (s.activeForward ts).map (after bins) := by
  unfold activeForward
  by_cases hzero : s.range.binLen = 0
  · rw [if_pos hzero, if_pos (show (after bins s).range.binLen = 0 from hzero)]
    rfl
  · rw [if_neg hzero, if_neg (show ¬ (after bins s).range.binLen = 0 from hzero)]
    rfl

theorem finishBin_after (ts : ℕ) : (after bins s).finishBin ts = (s.finishBin ts).map (after bins) := by
  rw [finishBin, finishBin, maybeEmitActive_after]
  cases s.maybeEmitActive with
  | error => rfl
  | ok t => exact activeForward_after ts

theorem finishBinIf_after (isOver : Prop) [Decidable isOver] (ts : ℕ) :
    (after bins s).finishBinIf isOver ts = (s.finishBinIf isOver ts).map (after bins) := by
  unfold finishBinIf
  split
  · exact finishBin_after ts
  · rfl

section Ingest

variable [PartialOrdEvtA V]

theorem takeBin_after (x : Bin V R) : (after bins s).takeBin x = (s.takeBin x).map (after bins) := by
  unfold takeBin
  by_cases hfirst : s.activeBeg = x.ts1
  · by_cases hover : s.range.binLen < delta x.ts2 x.ts1 <;> simp [after, hfirst, hover, Except.map]
  · have hne : ¬ x.ts1 = s.activeBeg := Ne.symm hfirst
    by_cases hover : s.range.binLen < delta x.ts2 x.ts1 <;> simp [after, hne, hover, Except.map]

theorem ingestBin_after (x : Bin V R) : (after bins s).ingestBin x = (s.ingestBin x).map (after bins) := by
  unfold ingestBin
  by_cases hbefore : x.ts1 < s.activeBeg
  · rw [if_pos hbefore, if_pos (show x.ts1 < (after bins s).activeBeg from hbefore)]
    rfl
  · rw [if_neg hbefore, if_neg (show ¬ x.ts1 < (after bins s).activeBeg from hbefore)]
    have hfst : (after bins s).finishBinIf ((after bins s).activeEnd ≤ x.ts1) x.ts1 =
        (s.finishBinIf (s.activeEnd ≤ x.ts1) x.ts1).map (after bins) := finishBinIf_after _ _
    rw [hfst]
    cases s.finishBinIf (s.activeEnd ≤ x.ts1) x.ts1 with
    | error => rfl
    | ok s₁ =>
        have hsnd : (after bins s₁).finishBinIf ((after bins s₁).activeEnd < x.ts2) x.ts2 =
            (s₁.finishBinIf (s₁.activeEnd < x.ts2) x.ts2).map (after bins) := finishBinIf_after _ _
        simp only [Except.map, bind, Except.bind, hsnd]
        cases s₁.finishBinIf (s₁.activeEnd < x.ts2) x.ts2 with
        | error => rfl
        | ok s₂ =>
            simp only [takeBin_after]
            cases s₂.takeBin x with
            | error => rfl
            | ok s₃ => exact finishBinIf_after (s₃.activeEnd ≤ x.ts2) x.ts2

theorem ingestBins_after (xs : List (Bin V R)) :
    (after bins s).ingestBins xs = (s.ingestBins xs).map (after bins) := by
  induction xs generalizing s with
  | nil => rfl
  | cons x xs ih =>
      simp only [ingestBins, List.foldlM_cons, ingestBin_after]
      cases s.ingestBin x with
      | error => rfl
      | ok t => exact ih

theorem ingestBins_append (xs ys : List (Bin V R)) :
    s.ingestBins (xs ++ ys) = (s.ingestBins xs).bind fun t => t.ingestBins ys := List.foldlM_append

end Ingest

theorem inputDone_after (done : InputDone) : (after bins s).inputDone done = (s.inputDone done).map (after bins) := by
  cases done with
  | rangeFinal => exact finishBin_after _
  | rangeOpen => exact finishBin_after (s := { s with nonFnl := true }) _

variable [PartialOrdEvtA V]

/-- What the binner has put out after the rest of its input. -/
def rest (s : BinnedBinsTimeweight V H R) (xs : List (Bin V R)) (done : InputDone) :
    Except BinsFault (List (Bin V R)) :=
  ((s.ingestBins xs).bind fun t => t.inputDone done).map fun t => t.out

/-- What was put out before changes nothing of what follows. -/
theorem rest_after (xs : List (Bin V R)) (done : InputDone) :
    (after bins s).rest xs done = (s.rest xs done).map fun out => bins ++ out := by
  rw [rest, rest, ingestBins_after]
  cases s.ingestBins xs with
  | error => rfl
  | ok t =>
      have hdone : (after bins t).inputDone done = (t.inputDone done).map (after bins) := inputDone_after done
      simp only [Except.map, Except.bind, hdone]
      cases t.inputDone done <;> rfl

/-- The input may be cut into two, where all that was put out is taken. -/
theorem rest_append {t : BinnedBinsTimeweight V H R} {xs : List (Bin V R)} (hingest : s.ingestBins xs = .ok t)
    (ys : List (Bin V R)) (done : InputDone) :
    s.rest (xs ++ ys) done = (rest { t with out := [] } ys done).map fun out => t.out ++ out := by
  rw [← rest_after, after_self, rest, ingestBins_append, hingest]
  rfl

/-- A run over one container -/
theorem run_ingest (range : BinnedRange) (xs : List (Bin V R)) (done : InputDone) :
    run H range false [.ingest xs] done = (new range : BinnedBinsTimeweight V H R).rest xs done := by
  simp only [run, feed, rest, Bool.false_eq_true, if_false, bind]
  cases (new range : BinnedBinsTimeweight V H R).ingestBins xs with
  | error => rfl
  | ok t =>
      simp only [Except.bind]
      cases t.inputDone done with
      | error => rfl
      | ok u =>
          simp only [getD_output, List.nil_append, Except.map]
          rfl

/-- Without input there is nothing to put out. -/
theorem rest_new_nil {range : BinnedRange} (hpos : 0 < range.binLen) (done : InputDone) :
    (new range : BinnedBinsTimeweight V H R).rest [] done = .ok [] := by
  have hne : range.binLen ≠ 0 := hpos.ne'
  cases done <;>
    simp [rest, ingestBins, inputDone, finishBin, maybeEmitActive, activeForward, new, resetForNewBin, hne, Except.map,
      Except.bind, pure, Except.pure]

end BinnedBinsTimeweight

/-! ## Runs of the stream -/

namespace BinnedBinsTimeweightStream

section Ends

variable {V R E : Type} {τ : Type*} {notes : List (LogItem ⊕ StatsItem)} {r : Except BinsFault (List (Bin V R))}
  {step : τ → Pass τ (Sitemty2 (List (Bin V R)) (BinsStreamError E))} {v w : τ}
  {zs : List (Sitemty2 (List (Bin V R)) (BinsStreamError E))}

/-- The items carry some bins, each container at least one, and no error.  The last item is made at the end of the
input, a container or a log item, and the others carry some notes. -/
structure Shows (notes : List (LogItem ⊕ StatsItem)) (out : List (Bin V R))
    (ys : List (Sitemty2 (List (Bin V R)) (BinsStreamError E))) : Prop where
  errors_eq : errors2 ys = []
  datas_eq : (datas2 ys).flatten = out
  nonempty : [] ∉ datas2 ys
  notes_eq : ∃ zs y, ys = zs ++ [y] ∧ notes2 zs = notes ∧ (y = .ok (.log noBinsReady) ∨ ∃ bins, y = sitem2Data bins)

/-- How a run of the stream ends when the binner ends so. -/
def Ends (step : τ → Pass τ (Sitemty2 (List (Bin V R)) (BinsStreamError E))) (v : τ)
    (notes : List (LogItem ⊕ StatsItem)) : Except BinsFault (List (Bin V R)) → Prop
  | .ok out => ∃ ys, Drains step v ys ∧ Shows notes out ys
  | .error .inputBinlenOverflow => ∃ ys, Drains step v ys ∧ errors2 ys = [.inputBinlenOverflow]
  | .error .panicked => Panics step v

/-- What was handed out before comes first. -/
theorem Ends.of_reaches (hrun : Reaches step v zs w) (herrors : errors2 zs = []) (hnonempty : [] ∉ datas2 zs)
    (h : Ends step w notes r) :
    Ends step v (notes2 zs ++ notes) (r.map fun out => (datas2 zs).flatten ++ out) := by
  cases r with
  | ok out =>
      obtain ⟨ys, hdrains, hys⟩ := h
      refine ⟨zs ++ ys, .of_reaches hrun hdrains, ?_, ?_, ?_, ?_⟩
      · rw [errors2_append, herrors, hys.errors_eq, List.append_nil]
      · rw [datas2_append, List.flatten_append, hys.datas_eq]
      · rw [datas2_append, List.mem_append, not_or]
        exact ⟨hnonempty, hys.nonempty⟩
      · obtain ⟨ws, y, heq, hnotes, hlast⟩ := hys.notes_eq
        refine ⟨zs ++ ws, y, ?_, ?_, hlast⟩
        · rw [heq, List.append_assoc]
        · rw [notes2_append, hnotes]
  | error f =>
      cases f with
      | inputBinlenOverflow =>
          obtain ⟨ys, hdrains, hys⟩ := h
          refine ⟨zs ++ ys, .of_reaches hrun hdrains, ?_⟩
          rw [errors2_append, herrors, hys, List.nil_append]
      | panicked =>
          obtain ⟨ys, u, hrun', hpanic⟩ := h
          exact ⟨zs ++ ys, u, hrun.trans hrun', hpanic⟩

/-- Notes that were handed out before come first, and change nothing else. -/
theorem Ends.of_notes (hrun : Reaches step v zs w) (herrors : errors2 zs = []) (hdatas : datas2 zs = [])
    (h : Ends step w notes r) : Ends step v (notes2 zs ++ notes) r := by
  have hends := h.of_reaches hrun herrors (by simp [hdatas])
  rw [hdatas] at hends
  cases r <;> exact hends

/-- A container that is not empty -/
theorem nil_notMem_datas {bins : List (Bin V R)} (hzero : ¬ bins.length = 0) :
    [] ∉ datas2 [(sitem2Data bins : Sitemty2 (List (Bin V R)) (BinsStreamError E))] := by
  intro hmem
  have heq : [] = bins := by simpa using hmem
  rw [← heq] at hzero
  exact hzero rfl

/-- The run ends with an error, or in a panic. -/
def Fails (step : τ → Pass τ (Sitemty2 (List (Bin V R)) (BinsStreamError E))) (v : τ) : Prop :=
  Panics step v ∨ ∃ ys, Drains step v ys ∧ errors2 ys ≠ []

theorem Fails.of_reaches (hrun : Reaches step v zs w) (h : Fails step w) : Fails step v := by
  obtain ⟨ys, u, hrun', hpanic⟩ | ⟨ys, hdrains, hys⟩ := h
  · exact .inl ⟨zs ++ ys, u, hrun.trans hrun', hpanic⟩
  · refine .inr ⟨zs ++ ys, .of_reaches hrun hdrains, ?_⟩
    rw [errors2_append]
    exact List.append_ne_nil_of_right_ne_nil _ hys

/-- Where the binner fails, so does the run. -/
theorem Ends.fails {f : BinsFault} (h : Ends step v notes (.error f)) : Fails step v := by
  cases f with
  | inputBinlenOverflow =>
      obtain ⟨ys, hdrains, hys⟩ := h
      exact .inr ⟨ys, hdrains, hys ▸ List.cons_ne_nil _ _⟩
  | panicked => exact .inl h

/-- A run that fails does not hand out bins only. -/
theorem Fails.not_shows {out : List (Bin V R)} (h : Fails step v)
    {ys : List (Sitemty2 (List (Bin V R)) (BinsStreamError E))} (hys : Drains step v ys) : ¬ Shows notes out ys := by
  intro hshows
  obtain hpanics | ⟨zs, hzs, hne⟩ := h
  · exact hys.not_panics hpanics
  · rw [← hys.unique hzs] at hne
    exact hne hshows.errors_eq

end Ends

section Run

variable {V H R E : Type} {σ : Type*} [PartialOrdEvtA V] [AggBinValTw H R]
variable {range : BinnedRange} {a c : BinnedBinsTimeweightStream V H R} {b : BinnedBinsTimeweight V H R}
  {next : σ → Pass σ (Sitemty2 (List (Bin V R)) E)} {s t : σ} {xs : List (Sitemty2 (List (Bin V R)) E)}
  {notes : List (LogItem ⊕ StatsItem)}

/-- Whether the input says that its range is complete. -/
def isComplete (xs : List (Sitemty2 (List (Bin V R)) E)) : Bool :=
  xs.any fun x => match x with
    | .ok (.dataItem .rangeComplete) => true
    | _ => false

/-- While the input is read: all that the binner put out was taken. -/
structure Reading (range : BinnedRange) (b : BinnedBinsTimeweight V H R) (a : BinnedBinsTimeweightStream V H R) :
    Prop where
  state_eq : a.state = .reading
  binner_eq : a.binned.getOrInsert = b
  drained : b.out = []
  fresh : a.binned.binned = none → b = .new range

omit [PartialOrdEvtA V] in
theorem reading_new (range : BinnedRange) :
    Reading range (.new range) (new range : BinnedBinsTimeweightStream V H R) :=
  ⟨rfl, rfl, rfl, fun _ => rfl⟩

theorem Reading.own (h : Reading range b a) : (stage (E := E)).own a = none := by
  simp only [stage, h.state_eq]

/-- Once it is done, the stream ends. -/
theorem drains_done (hdone : c.state = .done) : Drains ((stage (E := E)).pass next) (t, c) [] := by
  have hown : (stage (E := E)).own c = some (.done c) := by simp only [stage, hdone]
  exact .of_done (Stage.pass_own hown)

/-- The stream fails as the binner does. -/
theorem ends_ofFault {f : BinsFault}
    (hpass : (stage (E := E)).pass next (s, a) = (ofFault c f : BinsPass V H R E).map fun d => (t, d)) :
    Ends ((stage (E := E)).pass next) (s, a) notes (.error f) := by
  cases f with
  | inputBinlenOverflow => exact ⟨_, .of_item hpass (drains_done rfl), rfl⟩
  | panicked => exact ⟨[], _, .refl, hpass⟩

/-- The end of the input -/
theorem Reading.eos (h : Reading range b a) (hpos : 0 < range.binLen) (hdone : next s = .done t) :
    Ends ((stage (E := E)).pass next) (s, a) [] (b.rest [] (doneOf a.rangeComplete)) := by
  have hpass := Stage.pass_last (g := stage (E := E)) h.own hdone
  cases hbinner : a.binned.binned with
  | none =>
      have hlast : (stage (E := E)).last a = .item (.ok (.log noBinsReady)) { a with state := .done } := by
        simp only [stage, handleEos, BinnedBinsTimeweightLazy.inputDone, BinnedBinsTimeweightLazy.output, hbinner]
      rw [hlast] at hpass
      rw [h.fresh hbinner, BinnedBinsTimeweight.rest_new_nil hpos]
      exact ⟨_, .of_item hpass (drains_done rfl), rfl, rfl, List.not_mem_nil, [], _, rfl, rfl, .inl rfl⟩
  | some binner =>
      have heq : binner = b := by
        rw [← h.binner_eq, BinnedBinsTimeweightLazy.getOrInsert, hbinner]
        rfl
      subst heq
      have hrest : binner.rest [] (doneOf a.rangeComplete) =
          (binner.inputDone (doneOf a.rangeComplete)).map fun u => u.out := rfl
      rw [hrest]
      cases hinput : binner.inputDone (doneOf a.rangeComplete) with
      | error f =>
          have hlast : (stage (E := E)).last a = ofFault { a with state := .done } f := by
            simp only [stage, handleEos, BinnedBinsTimeweightLazy.inputDone, hbinner, hinput, Except.map]
          rw [hlast] at hpass
          exact ends_ofFault hpass
      | ok u =>
          by_cases hzero : u.out.length = 0
          · have hlast : (stage (E := E)).last a = .item (.ok (.log noBinsReady))
                { a with state := .done, binned := { a.binned with binned := some u } } := by
              simp only [stage, handleEos, BinnedBinsTimeweightLazy.inputDone, hbinner, hinput, Except.map,
                BinnedBinsTimeweightLazy.output, BinnedBinsTimeweight.output, hzero, if_true]
            rw [hlast] at hpass
            refine ⟨_, .of_item hpass (drains_done rfl), rfl, ?_, List.not_mem_nil, [], _, rfl, rfl, .inl rfl⟩
            exact (List.eq_nil_of_length_eq_zero hzero).symm
          · have hlast : (stage (E := E)).last a = .item (sitem2Data u.out)
                { a with state := .done, binned := { a.binned with binned := some { u with out := [] } } } := by
              simp only [stage, handleEos, BinnedBinsTimeweightLazy.inputDone, hbinner, hinput, Except.map,
                BinnedBinsTimeweightLazy.output, BinnedBinsTimeweight.output, hzero, if_false]
            rw [hlast] at hpass
            exact ⟨_, .of_item hpass (drains_done rfl), rfl, by simp, nil_notMem_datas hzero, [], _, rfl, rfl,
              .inr ⟨_, rfl⟩⟩

/-- What becomes of a container: the binner fails, or the bins that it completes are handed out. -/
theorem Reading.container {bins : List (Bin V R)} (h : Reading range b a)
    (hnext : next s = .item (.ok (.dataItem (.data bins))) t) :
    (∃ f, b.ingestBins bins = .error f ∧
      (stage (E := E)).pass next (s, a) = (ofFault a f : BinsPass V H R E).map fun d => (t, d)) ∨
    ∃ u zs c, b.ingestBins bins = .ok u ∧ Reaches ((stage (E := E)).pass next) (s, a) zs (t, c) ∧
      Reading range { u with out := [] } c ∧ c.rangeComplete = a.rangeComplete ∧ errors2 zs = [] ∧ notes2 zs = [] ∧
        [] ∉ datas2 zs ∧ (datas2 zs).flatten = u.out := by
  have hpass := Stage.pass_item (g := stage (E := E)) h.own hnext
  cases hingest : b.ingestBins bins with
  | error f =>
      have hitem : (stage (E := E)).item a (.ok (.dataItem (.data bins))) = ofFault a f := by
        simp only [stage, handleSitemty, BinnedBinsTimeweightLazy.ingest, h.binner_eq, hingest, Except.map]
      rw [hitem] at hpass
      exact .inl ⟨f, rfl, hpass⟩
  | ok u =>
      right
      by_cases hzero : u.out.length = 0
      · have hitem : (stage (E := E)).item a (.ok (.dataItem (.data bins))) =
            .again { a with binned := { a.binned with binned := some u } } := by
          simp only [stage, handleSitemty, BinnedBinsTimeweightLazy.ingest, h.binner_eq, hingest, Except.map,
            BinnedBinsTimeweightLazy.output, BinnedBinsTimeweight.output, hzero, if_true]
        rw [hitem] at hpass
        have hnil : u.out = [] := List.eq_nil_of_length_eq_zero hzero
        have hself : ({ u with out := [] } : BinnedBinsTimeweight V H R) = u := by
          rw [← hnil]
        refine ⟨u, [], _, rfl, Reaches.refl.again hpass, ?_, rfl, rfl, rfl, List.not_mem_nil, hnil.symm⟩
        rw [hself]
        exact ⟨h.state_eq, rfl, hnil, fun hnone => absurd hnone (Option.some_ne_none u)⟩
      · have hitem : (stage (E := E)).item a (.ok (.dataItem (.data bins))) =
            .item (sitem2Data u.out) { a with binned := { a.binned with binned := some { u with out := [] } } } := by
          simp only [stage, handleSitemty, BinnedBinsTimeweightLazy.ingest, h.binner_eq, hingest, Except.map,
            BinnedBinsTimeweightLazy.output, BinnedBinsTimeweight.output, hzero, if_false]
        rw [hitem] at hpass
        refine ⟨u, _, _, rfl, Reaches.refl.item hpass, ?_, rfl, rfl, rfl, nil_notMem_datas hzero, by simp⟩
        exact ⟨h.state_eq, rfl, rfl, fun hnone => absurd hnone (Option.some_ne_none _)⟩

/-- Over a stream that ends without an error, the bins that are handed out, an error or a panic are those of the
binner. -/
theorem Reading.ends (h : Reading range b a) (hpos : 0 < range.binLen) (hnext : Drains next s xs)
    (herrors : errors2 xs = []) :
    Ends ((stage (E := E)).pass next) (s, a) (notes2 xs)
      (b.rest (datas2 xs).flatten (doneOf (a.rangeComplete || isComplete xs))) := by
  refine hnext.rec_head (P := fun s xs => errors2 xs = [] → ∀ b a, Reading range b a →
    Ends ((stage (E := E)).pass next) (s, a) (notes2 xs)
      (b.rest (datas2 xs).flatten (doneOf (a.rangeComplete || isComplete xs)))) ?_ ?_ ?_ ?_ herrors b a h
  · intro s t hdone _ b a h
    have heos := h.eos hpos hdone
    simpa [isComplete] using heos
  · intro s t xs hpass ih herrors b a h
    exact (ih herrors b a h).of_notes (Reaches.refl.again (Stage.pass_again h.own hpass)) rfl rfl
  · intro s t xs hpass ih herrors b a h
    exact (ih herrors b a h).of_notes (Reaches.refl.pending (Stage.pass_pending h.own hpass)) rfl rfl
  · intro s t x xs hpass ih herrors b a h
    have hstage := Stage.pass_item (g := stage (E := E)) h.own hpass
    rcases x with e | (_ | bins) | l | st
    · simp at herrors
    · have hreading : Reading range b { a with rangeComplete := true } :=
        ⟨h.state_eq, h.binner_eq, h.drained, h.fresh⟩
      have hends := (ih (by simpa using herrors) b _ hreading).of_notes (Reaches.refl.again hstage) rfl rfl
      simpa [isComplete] using hends
    · obtain ⟨f, hingest, hfault⟩ | ⟨u, zs, c, hingest, hrun, hreading, hcomplete, herr, hnotes, hne, hout⟩ :=
        h.container hpass
      · have hrest : b.rest (bins ++ (datas2 xs).flatten) (doneOf (a.rangeComplete || isComplete xs)) = .error f := by
          rw [BinnedBinsTimeweight.rest, BinnedBinsTimeweight.ingestBins_append, hingest]
          rfl
        have hends : Ends ((stage (E := E)).pass next) (s, a) (notes2 xs) (.error f) := ends_ofFault hfault
        rw [← hrest] at hends
        simpa [isComplete] using hends
      · have hends := (ih (by simpa using herrors) _ c hreading).of_reaches hrun herr hne
        rw [hnotes, hout, hcomplete, ← BinnedBinsTimeweight.rest_append hingest] at hends
        simpa [isComplete] using hends
    · have hends := (ih (by simpa using herrors) b a h).of_notes (Reaches.refl.item hstage) rfl rfl
      simpa [isComplete] using hends
    · have hends := (ih (by simpa using herrors) b a h).of_notes (Reaches.refl.item hstage) rfl rfl
      simpa [isComplete] using hends

/-- An error of the input is handed out, if the binner does not fail before. -/
theorem Reading.fails (h : Reading range b a) (hnext : Drains next s xs) (herrors : errors2 xs ≠ []) :
    Fails ((stage (E := E)).pass next) (s, a) := by
  refine hnext.rec_head (P := fun s xs => errors2 xs ≠ [] → ∀ b a, Reading range b a →
    Fails ((stage (E := E)).pass next) (s, a)) ?_ ?_ ?_ ?_ herrors b a h
  · intro s t _ herrors
    exact absurd rfl herrors
  · intro s t xs hpass ih herrors b a h
    exact (ih herrors b a h).of_reaches (Reaches.refl.again (Stage.pass_again h.own hpass))
  · intro s t xs hpass ih herrors b a h
    exact (ih herrors b a h).of_reaches (Reaches.refl.pending (Stage.pass_pending h.own hpass))
  · intro s t x xs hpass ih herrors b a h
    have hstage := Stage.pass_item (g := stage (E := E)) h.own hpass
    rcases x with e | (_ | bins) | l | st
    · exact .inr ⟨_, .of_item hstage (drains_done rfl), List.cons_ne_nil _ _⟩
    · have hreading : Reading range b { a with rangeComplete := true } :=
        ⟨h.state_eq, h.binner_eq, h.drained, h.fresh⟩
      exact (ih (by simpa using herrors) b _ hreading).of_reaches (Reaches.refl.again hstage)
    · obtain ⟨f, -, hfault⟩ | ⟨u, zs, c, -, hrun, hreading, -⟩ := h.container hpass
      · have hends : Ends ((stage (E := E)).pass next) (s, a) [] (.error f) := ends_ofFault hfault
        exact hends.fails
      · exact (ih (by simpa using herrors) _ c hreading).of_reaches hrun
    · exact (ih (by simpa using herrors) b a h).of_reaches (Reaches.refl.item hstage)
    · exact (ih (by simpa using herrors) b a h).of_reaches (Reaches.refl.item hstage)

/-- The property: over a stream these bins are handed out, with the notes of the stream and no error. -/
def Rebins (H : Type) {V R E : Type} {σ : Type*} [PartialOrdEvtA V] [AggBinValTw H R] (range : BinnedRange)
    (next : σ → Pass σ (Sitemty2 (List (Bin V R)) E)) (s : σ) (xs : List (Sitemty2 (List (Bin V R)) E))
    (out : List (Bin V R)) : Prop :=
  ∃ ys, Drains ((stage (E := E)).pass next) (s, (new range : BinnedBinsTimeweightStream V H R)) ys ∧
    Shows (notes2 xs) out ys

/-- Over a stream that ends, bins are handed out if and only if it has no errors and one run of the binner over all bins
of the input puts them out, however they come in containers, and with the end of the input that the stream was told
of. -/
theorem rebins_iff {out : List (Bin V R)} (hpos : 0 < range.binLen) (hnext : Drains next s xs) :
    Rebins H range next s xs out ↔
      errors2 xs = [] ∧
        BinnedBinsTimeweight.run H range false [.ingest (datas2 xs).flatten] (doneOf (isComplete xs)) = .ok out := by
  have hreading := reading_new (V := V) (H := H) (R := R) range
  rw [BinnedBinsTimeweight.run_ingest]
  constructor
  · rintro ⟨ys, hys, hshows⟩
    have herrors : errors2 xs = [] := by
      by_contra hne
      exact (hreading.fails hnext hne).not_shows hys hshows
    refine ⟨herrors, ?_⟩
    have hends := hreading.ends hpos hnext herrors
    change Ends _ _ _ ((BinnedBinsTimeweight.new range).rest (datas2 xs).flatten (doneOf (isComplete xs))) at hends
    cases hrest : (BinnedBinsTimeweight.new range : BinnedBinsTimeweight V H R).rest (datas2 xs).flatten
        (doneOf (isComplete xs)) with
    | ok out' =>
        rw [hrest] at hends
        obtain ⟨zs, hzs, hshows'⟩ := hends
        rw [← hshows.datas_eq, ← hshows'.datas_eq, hys.unique hzs]
    | error f =>
        rw [hrest] at hends
        exact absurd hshows (hends.fails.not_shows hys)
  · rintro ⟨herrors, hrest⟩
    have hends := hreading.ends hpos hnext herrors
    change Ends _ _ _ ((BinnedBinsTimeweight.new range).rest (datas2 xs).flatten (doneOf (isComplete xs))) at hends
    rw [hrest] at hends
    exact hends

/-- Two containers, between them a pending answer, and at last the range is complete. -/
def cutBins : Script (Sitemty2 (List (Bin ℕ Num)) Unit) :=
  [.ready (sitem2Data [⟨600, 605, 1, 3, 5, .rat 4, 4, true⟩, ⟨605, 610, 1, 3, 5, .rat 4, 4, true⟩]), .pending,
    .ready (sitem2Data [⟨620, 625, 1, 3, 5, .rat 4, 4, true⟩, ⟨630, 635, 2, 3, 5, .rat 4, 4, true⟩]),
    .ready (.ok (.dataItem .rangeComplete))]

/-- They make three bins of ten. -/
theorem rebins_cutBins :
    ∃ out, Rebins AggBinValTwF32 ⟨10, 60, 6⟩ Script.next cutBins (Script.items cutBins) out ∧
      out.map (fun b => (b.ts1, b.ts2)) = [(600, 610), (620, 630), (630, 640)] := by
  refine ⟨_, (rebins_iff (by decide) (Script.drains_next _)).mpr ⟨rfl, rfl⟩, rfl⟩

/-- Over bins that lie in the bins of the output, there is no error and no panic. -/
theorem exists_rebins (hpos : 0 < range.binLen) (hnext : Drains next s xs) (herrors : errors2 xs = [])
    (hgrid : ∀ x ∈ (datas2 xs).flatten, BinnedBinsTimeweight.GridAligned range x) :
    ∃ out, Rebins H range next s xs out := by
  have hends := (reading_new (H := H) range).ends hpos hnext herrors
  have hbins : ∀ x ∈ [BinnedBinsTimeweight.Op.ingest (datas2 xs).flatten].flatMap BinnedBinsTimeweight.Op.bins,
      BinnedBinsTimeweight.GridAligned range x := by
    simpa [BinnedBinsTimeweight.Op.bins] using hgrid
  obtain ⟨out, -, hrun, -⟩ := BinnedBinsTimeweight.run_eq (H := H) (z := false) hpos hbins
    (doneOf ((new range : BinnedBinsTimeweightStream V H R).rangeComplete || isComplete xs))
  rw [BinnedBinsTimeweight.run_ingest] at hrun
  rw [hrun] at hends
  exact ⟨out, hends⟩

end Run

end BinnedBinsTimeweightStream

end Binning
end Daqbuf
