import Daqbuf.Items.Merge
import Daqbuf.Netpod.CoveringRange
import Daqbuf.Poll.Loop
import Daqbuf.Series.Msp
/-!
# Filling Gaps

{lit}`GapFill` passes on bins from a cache.  Where the next bin does not begin at the end of the one before, it holds
the bin back, asks a finer source for the range in between, passes on what comes of it, and looks at the bin again.
When the cache has ended, it asks for the rest of the range.

The finer source is asked by a sub-request; what it answers, after which polls, is arbitrary.  The ranges that were
asked for are kept in the state, though the stream itself does not look at them.

Main results:

- Theorem {lit}`handleBinsFiner_spec`: which bins are taken from a finer source.
- Theorem {lit}`handleBins_handled`: what can come of bins from the cache.
-/

namespace Daqbuf
namespace Timebin

open Arith Items Netpod Poll Series

/-- The part of a bin that is looked at, and the rest. -/
structure Bin (β : Type) where
  ts1 : ℕ
  ts2 : ℕ
  val : β
  deriving DecidableEq, Repr

/-- {lit}`find_next_finer_bin_len` -/
def findNextFinerBinLen (binLen : ℕ) (layers : List ℕ) : Option ℕ := layers.reverse.find? fun l => decide (l < binLen)

/-- {lit}`full_range` -/
def fullRange (r : BinnedRange) : Option NanoRange := do
  let beg ← checkedMul 64 r.binLen r.binOff
  let off ← checkedAdd 64 r.binOff r.binCnt
  let fin ← checkedMul 64 r.binLen off
  return ⟨beg, fin⟩

/-- {lit}`from_nano_range`, for a length in milliseconds -/
def fromNanoRange (range : NanoRange) (binLen : ℕ) : Option BinnedRange := do
  let bl ← dtNs binLen
  let off1 ← checkedDiv range.beg bl
  let top ← checkedSub bl 1
  let sum ← checkedAdd 64 top range.fin
  let off2 ← checkedDiv sum bl
  let cnt ← checkedSub off2 off1
  return ⟨bl, off1, cnt⟩

/-- {lit}`one_before_bin` -/
def oneBeforeBin (r : BinnedRange) : Option BinnedRange := do
  let off ← checkedSub r.binOff 1
  let cnt ← checkedAdd 64 r.binCnt 1
  return ⟨r.binLen, off, cnt⟩

/-- What a finer source is asked for -/
inductive SubRequest where
  /-- bins of the finer {lit}`GapFill`, with one more bin before, put together to bins of the range -/
  | bins (rangeFiner range : BinnedRange)
  /-- events, put together to bins of the range -/
  | events (range : NanoRange) (binned : BinnedRange)
  /-- there is no finer source -/
  | nothing
  deriving DecidableEq, Repr

/-- A polled source of bins -/
abbrev BinsInput (β : Type) := Script (Sitemty (List (Bin β)))

/-- The ranges that were asked for before and the one that is asked for now determine what a finer source delivers. -/
abbrev FinerProvider (β : Type) := List NanoRange → SubRequest → BinsInput β

namespace GapFill

/-- {lit}`Error` -/
inductive Error where
  | gapFromFiner (ts1 last binLen : ℕ)
  | missingBegFromFiner (ts1 beg binLen : ℕ)
  | inputBeforeRange (bin : NanoRange) (range : BinnedRange)
  | expectTimeweighted
  deriving DecidableEq, Repr

/-- The error as a stream item. -/
def Error.toSitemErr : Error → SitemErr
  | .gapFromFiner _ _ _ => .fromVariant "BinCachedGapFill" "GapFromFiner"
  | .missingBegFromFiner _ _ _ => .fromVariant "BinCachedGapFill" "MissingBegFromFiner"
  | .inputBeforeRange _ _ => .fromVariant "BinCachedGapFill" "InputBeforeRange"
  | .expectTimeweighted =>
      .fromNested "BinCachedGapFill" "EventsReader" (.fromVariant "ReadingBinnedFromEvents" "ExpectTimeweighted")

end GapFill

/-- {lit}`GapFill`, with the ranges that it has asked for.  The bins for the cache are left out: nothing is written. -/
structure GapFill (β : Type) where
  allowFromEvents : Bool
  range : BinnedRange
  doTimeWeight : Bool
  binLenLayers : List ℕ
  inp : Option (BinsInput β)
  inpRangeFinal : Bool := false
  inpBuf : Option (List (Bin β)) := none
  inpFiner : Option (BinsInput β) := none
  inpFinerRangeFinal : Bool := false
  inpFinerRangeFinalCnt : ℕ := 0
  inpFinerRangeFinalMax : ℕ := 0
  inpFinerFillsGap : Bool := false
  lastBinTs2 : Option ℕ := none
  expFinerRange : NanoRange := ⟨0, 0⟩
  done : Bool := false
  requests : List NanoRange := []

namespace GapFill

variable {β : Type}

/-- {lit}`new`.  The name for debugging holds the begin and the end of the range, which have to fit. -/
def new (allowFromEvents : Bool) (range : BinnedRange) (doTimeWeight : Bool) (binLenLayers : List ℕ)
    (inp : BinsInput β) : Option (GapFill β) := do
  let _ ← fullRange range
  return {
    allowFromEvents := allowFromEvents
    range := range
    doTimeWeight := doTimeWeight
    binLenLayers := binLenLayers
    inp := some inp }

/-- {lit}`handle_bins_finer` -/
def handleBinsFiner (s : GapFill β) : List (Bin β) → Except Error Unit × GapFill β
  | [] => (.ok (), s)
  | bin :: bins =>
      match s.lastBinTs2 with
      | some last =>
          if bin.ts1 ≠ last then (.error (.gapFromFiner bin.ts1 last (tsMs s.range.binLen)), s)
          else handleBinsFiner { s with lastBinTs2 := some bin.ts2 } bins
      | none =>
          if bin.ts1 ≠ s.range.nanoBeg then
            (.error (.missingBegFromFiner bin.ts1 s.range.nanoBeg (tsMs s.range.binLen)), s)
          else handleBinsFiner { s with lastBinTs2 := some bin.ts2 } bins

/-- What a finer source is asked for to deliver a range; {lit}`none` where that panics. -/
def subRequest (s : GapFill β) (range : NanoRange) : Option (Except Error SubRequest) :=
  match findNextFinerBinLen (tsMs s.range.binLen) s.binLenLayers with
  | some binLenFiner => do
      let rangeFiner ← fromNanoRange range binLenFiner
      let rangeFinerOneBefore ← oneBeforeBin rangeFiner
      let _ ← fullRange rangeFinerOneBefore
      let full ← fullRange rangeFiner
      let binned ← fromNanoRange full (tsMs s.range.binLen)
      if s.doTimeWeight then return .ok (.bins rangeFinerOneBefore binned) else none
  | none =>
      if s.allowFromEvents then do
        let binned ← fromNanoRange range (tsMs s.range.binLen)
        if s.doTimeWeight then return .ok (.events range binned) else return .error .expectTimeweighted
      else
        some (.ok .nothing)

/-- {lit}`setup_inp_finer` -/
def setupInpFiner (provider : FinerProvider β) (s : GapFill β) (range : NanoRange) (fillsGap : Bool) :
    Option (Except Error Unit × GapFill β) :=
  let s := { s with
    inpFinerRangeFinal := false
    inpFinerRangeFinalMax := s.inpFinerRangeFinalMax + 1
    inpFinerFillsGap := fillsGap
    expFinerRange := range }
  (s.subRequest range).map fun
    | .ok req => (.ok (), { s with
        inpFiner := some (if req = .nothing then [] else provider s.requests req)
        requests := s.requests ++ [range] })
    | .error e => (.error e, s)

/-- {lit}`handle_bins`, behind the bins {lit}`ret` that it has gone through; {lit}`none` where it panics. -/
def handleBins (provider : FinerProvider β) (s : GapFill β) (ret : List (Bin β)) :
    List (Bin β) → Option (Except Error (List (Bin β) × List (Bin β)) × GapFill β)
  | [] => some (.ok ([], ret), s)
  | bin :: bins =>
      if bin.ts1 < s.range.nanoBeg then
        some (.error (.inputBeforeRange ⟨bin.ts1, bin.ts2⟩ s.range), s)
      else
        match s.lastBinTs2 with
        | some last =>
            if bin.ts1 ≠ last then
              (s.setupInpFiner provider ⟨last, bin.ts1⟩ true).map fun (r, s) =>
                (r.map fun _ => (bin :: bins, ret), s)
            else
              handleBins provider { s with lastBinTs2 := some bin.ts2 } (ret ++ [bin]) bins
        | none =>
            if bin.ts1 ≠ s.range.nanoBeg then
              (s.setupInpFiner provider ⟨s.range.nanoBeg, bin.ts1⟩ true).map fun (r, s) =>
                (r.map fun _ => (ret ++ bin :: bins, []), s)
            else
              handleBins provider { s with lastBinTs2 := some bin.ts2 } (ret ++ [bin]) bins

/-- The branch of {lit}`poll_next` where the finer source has ended. -/
def finerEnded (s : GapFill β) : Pass (GapFill β) (Sitemty (List (Bin β))) :=
  let expFinerRange := s.expFinerRange
  let s := { s with expFinerRange := ⟨0, 0⟩, inpFiner := none }
  match s.lastBinTs2 with
  | some j =>
      if j < expFinerRange.fin then
        if s.inpFinerFillsGap then .item (sitemErrFromString "finer input didn't deliver to the end") s
        else .again s
      else .again s
  | none =>
      if s.inpFinerFillsGap then
        .item (sitemErrFromString "finer input delivered nothing, received nothing at all so far") s
      else .again s

/-- The range that is left when the cache has ended, unless everything was received -/
def restRange (s : GapFill β) : Option NanoRange :=
  match s.lastBinTs2 with
  | some j => if j ≠ s.range.nanoEnd then some ⟨j, s.range.nanoEnd⟩ else none
  | none => some s.range.toNanoRange

/-- The branch of {lit}`poll_next` where the cache has ended. -/
def inpEnded (provider : FinerProvider β) (s : GapFill β) : Pass (GapFill β) (Sitemty (List (Bin β))) :=
  let s := { s with inp := none }
  match s.restRange with
  | some range =>
      match s.setupInpFiner provider range false with
      | none => .panic
      | some (.ok (), s) => .again s
      | some (.error e, s) => .item (.error e.toSitemErr) s
  | none => .done s

/-- One pass of {lit}`poll_next` -/
def pollNext (provider : FinerProvider β) (s : GapFill β) : Pass (GapFill β) (Sitemty (List (Bin β))) :=
  if s.done then
    .done s
  else
    match s.inpFiner with
    | some (.ready (sitemData bins) :: rest) =>
        match { s with inpFiner := some rest }.handleBinsFiner bins with
        | (.ok (), s) => .item (sitemData bins) s
        | (.error e, s) => .item (.error e.toSitemErr) s
    | some (.ready sitemRangeComplete :: rest) => .again { s with
        inpFiner := some rest
        inpFinerRangeFinal := true
        inpFinerRangeFinalCnt := s.inpFinerRangeFinalCnt + 1 }
    | some (.ready k :: rest) => .item k { s with inpFiner := some rest }
    | some (.pending :: rest) => .pending { s with inpFiner := some rest }
    | some [] => s.finerEnded
    | none =>
        match s.inpBuf with
        | some bins =>
            match { s with inpBuf := none }.handleBins provider [] bins with
            | none => .panic
            | some (.ok (keep, item), s) =>
                .item (sitemData item) { s with inpBuf := if keep.length ≠ 0 then some keep else s.inpBuf }
            | some (.error e, s) => .item (.error e.toSitemErr) s
        | none =>
            match s.inp with
            | some (.ready (sitemData bins) :: rest) => .again { s with
                inp := some rest
                inpBuf := if bins.length ≠ 0 then some bins else s.inpBuf }
            | some (.ready sitemRangeComplete :: rest) => .again { s with inp := some rest, inpRangeFinal := true }
            | some (.ready k :: rest) => .item k { s with inp := some rest }
            | some (.pending :: rest) => .pending { s with inp := some rest }
            | some [] => s.inpEnded provider
            | none =>
                let s := { s with done := true }
                if s.inpFinerRangeFinalCnt = s.inpFinerRangeFinalMax then .item sitemRangeComplete s else .again s

/-! ## Bins that are passed on -/

/-- Each of the bins begins at the end of the one before. -/
def Chain : ℕ → List (Bin β) → Prop
  | _, [] => True
  | t, bin :: bins => bin.ts1 = t ∧ Chain bin.ts2 bins

/-- The end of the last of the bins -/
def endOf : ℕ → List (Bin β) → ℕ
  | t, [] => t
  | _, bin :: bins => endOf bin.ts2 bins

/-- The gap that is found in front of the first bin that does not begin where the one before ends -/
def gapIn (beg : ℕ) : ℕ → List (Bin β) → Option NanoRange
  | _, [] => none
  | t, bin :: bins =>
      if bin.ts1 < beg then none
      else if bin.ts1 = t then gapIn beg bin.ts2 bins
      else some ⟨t, bin.ts1⟩

/-- The begin of the bin that is to come next -/
def front (s : GapFill β) : ℕ := s.lastBinTs2.getD s.range.nanoBeg

/-- The bins were passed on. -/
def passed (s : GapFill β) : List (Bin β) → GapFill β
  | [] => s
  | bin :: bins => passed { s with lastBinTs2 := some bin.ts2 } bins

section Passed

variable {s : GapFill β} {bins taken rest : List (Bin β)} {bin : Bin β} {t : ℕ} {provider : FinerProvider β}

theorem passed_eq (s : GapFill β) (bins : List (Bin β)) :
    s.passed bins = { s with lastBinTs2 := (s.passed bins).lastBinTs2 } := by
  induction bins generalizing s with
  | nil => rfl
  | cons bin bins ih => exact ih _

section Frame

variable (s : GapFill β) (bins : List (Bin β))

@[simp] theorem passed_done : (s.passed bins).done = s.done := by rw [passed_eq]
@[simp] theorem passed_range : (s.passed bins).range = s.range := by rw [passed_eq]
@[simp] theorem passed_inp : (s.passed bins).inp = s.inp := by rw [passed_eq]
@[simp] theorem passed_bufs : (s.passed bins).inpBuf = s.inpBuf := by rw [passed_eq]
@[simp] theorem passed_inpFiner : (s.passed bins).inpFiner = s.inpFiner := by rw [passed_eq]
@[simp] theorem passed_fillsGap : (s.passed bins).inpFinerFillsGap = s.inpFinerFillsGap := by rw [passed_eq]
@[simp] theorem passed_expFinerRange : (s.passed bins).expFinerRange = s.expFinerRange := by rw [passed_eq]
@[simp] theorem passed_requests : (s.passed bins).requests = s.requests := by rw [passed_eq]

end Frame

/-- Passing on bins does not touch the bins that are held back. -/
theorem passed_inpBuf (s : GapFill β) (buf : Option (List (Bin β))) (bins : List (Bin β)) :
    ({ s with inpBuf := buf } : GapFill β).passed bins = { s.passed bins with inpBuf := buf } := by
  induction bins generalizing s with
  | nil => rfl
  | cons bin bins ih => exact ih { s with lastBinTs2 := some bin.ts2 }

theorem front_passed (s : GapFill β) (bins : List (Bin β)) : (s.passed bins).front = endOf s.front bins := by
  induction bins generalizing s with
  | nil => rfl
  | cons bin bins ih => exact ih _

theorem front_of_some {last : ℕ} (hlast : s.lastBinTs2 = some last) : s.front = last := by rw [front, hlast]; rfl

theorem front_of_none (hlast : s.lastBinTs2 = none) : s.front = s.range.nanoBeg := by rw [front, hlast]; rfl

/-- Which bins are taken from a finer source: as many as begin where the one before ends.  There is an error if there
are others. -/
theorem handleBinsFiner_spec (s : GapFill β) (bins : List (Bin β)) :
    ∃ taken rest, bins = taken ++ rest ∧ Chain s.front taken ∧ (s.handleBinsFiner bins).2 = s.passed taken ∧
      ((s.handleBinsFiner bins).1 = .ok () ↔ rest = []) ∧
      ∀ bin ∈ rest.head?, bin.ts1 ≠ (s.passed taken).front := by
  induction bins generalizing s with
  | nil => exact ⟨[], [], rfl, trivial, rfl, by simp [handleBinsFiner], nofun⟩
  | cons bin bins ih =>
      by_cases hts : bin.ts1 = s.front
      · obtain ⟨taken, rest, rfl, hchain, hstate, hok, hrest⟩ := ih { s with lastBinTs2 := some bin.ts2 }
        have hstep : s.handleBinsFiner (bin :: (taken ++ rest)) =
            { s with lastBinTs2 := some bin.ts2 }.handleBinsFiner (taken ++ rest) := by
          rw [handleBinsFiner]
          cases hlast : s.lastBinTs2 with
          | none => exact if_neg (not_not.mpr (hts.trans (front_of_none hlast)))
          | some last => exact if_neg (not_not.mpr (hts.trans (front_of_some hlast)))
        rw [hstep]
        exact ⟨bin :: taken, rest, rfl, ⟨hts, hchain⟩, hstate, hok, hrest⟩
      · have hstep : ∃ e, s.handleBinsFiner (bin :: bins) = (.error e, s) := by
          rw [handleBinsFiner]
          cases hlast : s.lastBinTs2 with
          | none => exact ⟨_, if_pos fun h => hts (h.trans (front_of_none hlast).symm)⟩
          | some last => exact ⟨_, if_pos fun h => hts (h.trans (front_of_some hlast).symm)⟩
        obtain ⟨e, hstep⟩ := hstep
        rw [hstep]
        refine ⟨[], bin :: bins, rfl, trivial, rfl, by simp, ?_⟩
        intro bin' hbin'
        obtain rfl := Option.some.inj hbin'
        exact hts

/-- What can come of bins from the cache, behind some that were gone through. -/
inductive Handled (provider : FinerProvider β) (s : GapFill β) (ret bins : List (Bin β)) :
    Option (Except Error (List (Bin β) × List (Bin β)) × GapFill β) → Prop
  /-- all are passed on -/
  | all (hchain : Chain s.front bins) (hgap : gapIn s.range.nanoBeg s.front bins = none) :
      Handled provider s ret bins (some (.ok ([], ret ++ bins), s.passed bins))
  /-- one begins before the range -/
  | before (taken : List (Bin β)) (bin : Bin β) (rest : List (Bin β)) (hbins : bins = taken ++ bin :: rest)
      (hchain : Chain s.front taken) (hbefore : bin.ts1 < s.range.nanoBeg)
      (hgap : gapIn s.range.nanoBeg s.front bins = none) :
      Handled provider s ret bins (some (.error (.inputBeforeRange ⟨bin.ts1, bin.ts2⟩ s.range), s.passed taken))
  /-- there is a gap before one, and it is asked for -/
  | gap (taken : List (Bin β)) (bin : Bin β) (rest : List (Bin β)) (hbins : bins = taken ++ bin :: rest)
      (hchain : Chain s.front taken) (hle : s.range.nanoBeg ≤ bin.ts1) (hne : bin.ts1 ≠ endOf s.front taken)
      (hgap : gapIn s.range.nanoBeg s.front bins = some ⟨endOf s.front taken, bin.ts1⟩) :
      Handled provider s ret bins
        (((s.passed taken).setupInpFiner provider ⟨endOf s.front taken, bin.ts1⟩ true).map fun (r, t) =>
          (r.map fun _ => (bin :: rest, ret ++ taken), t))

/-- One more bin is passed on before the others. -/
theorem Handled.cons {ret : List (Bin β)} {r : Option (Except Error (List (Bin β) × List (Bin β)) × GapFill β)}
    (hle : s.range.nanoBeg ≤ bin.ts1) (hts : bin.ts1 = s.front)
    (h : Handled provider { s with lastBinTs2 := some bin.ts2 } (ret ++ [bin]) bins r) :
    Handled provider s ret (bin :: bins) r := by
  have hcons : gapIn s.range.nanoBeg s.front (bin :: bins) = gapIn s.range.nanoBeg bin.ts2 bins := by
    rw [gapIn, if_neg (not_lt.mpr hle), if_pos hts]
  cases h with
  | all hchain hgap =>
      have hall : Handled provider s ret (bin :: bins) _ := .all ⟨hts, hchain⟩ (hcons.trans hgap)
      rwa [passed, List.append_cons] at hall
  | before taken bin' rest hbins hchain hbefore hgap =>
      exact .before (bin :: taken) bin' rest (by rw [hbins]; rfl) ⟨hts, hchain⟩ hbefore (hcons.trans hgap)
  | gap taken bin' rest hbins hchain hle hne hgap =>
      have hgap' : Handled provider s ret (bin :: bins) _ :=
        .gap (bin :: taken) bin' rest (by rw [hbins]; rfl) ⟨hts, hchain⟩ hle hne (hcons.trans hgap)
      rwa [passed, List.append_cons] at hgap'

/-- Everything that can come of bins from the cache. -/
theorem handleBins_handled (provider : FinerProvider β) (s : GapFill β) (ret bins : List (Bin β))
    (hret : s.lastBinTs2 = none → ret = []) : Handled provider s ret bins (s.handleBins provider ret bins) := by
  induction bins generalizing s ret with
  | nil =>
      have hall : Handled provider s ret [] _ := .all trivial rfl
      rwa [List.append_nil] at hall
  | cons bin bins ih =>
      rw [handleBins]
      by_cases hbefore : bin.ts1 < s.range.nanoBeg
      · rw [if_pos hbefore]
        exact .before [] bin bins rfl trivial hbefore (if_pos hbefore)
      · rw [if_neg hbefore]
        have hfound : bin.ts1 ≠ s.front → gapIn s.range.nanoBeg s.front (bin :: bins) = some ⟨s.front, bin.ts1⟩ := by
          intro hne
          rw [gapIn, if_neg hbefore, if_neg hne]
        have hnext := ih { s with lastBinTs2 := some bin.ts2 } (ret ++ [bin]) nofun
        cases hlast : s.lastBinTs2 with
        | some last =>
            have hfront := front_of_some hlast
            simp only
            by_cases hts : bin.ts1 = last
            · rw [if_neg (not_not.mpr hts)]
              exact hnext.cons (not_lt.mp hbefore) (hts.trans hfront.symm)
            · have hne : bin.ts1 ≠ s.front := fun h => hts (h.trans hfront)
              have hgap : Handled provider s ret (bin :: bins) _ :=
                .gap [] bin bins rfl trivial (not_lt.mp hbefore) hne (hfound hne)
              rw [endOf, hfront, List.append_nil] at hgap
              rw [if_pos hts]
              exact hgap
        | none =>
            have hfront := front_of_none hlast
            simp only
            by_cases hts : bin.ts1 = s.range.nanoBeg
            · rw [if_neg (not_not.mpr hts)]
              exact hnext.cons (not_lt.mp hbefore) (hts.trans hfront.symm)
            · have hne : bin.ts1 ≠ s.front := fun h => hts (h.trans hfront)
              have hgap : Handled provider s ret (bin :: bins) _ :=
                .gap [] bin bins rfl trivial (not_lt.mp hbefore) hne (hfound hne)
              rw [endOf, hfront, hret hlast, List.append_nil] at hgap
              rw [if_pos hts, hret hlast]
              exact hgap

end Passed

/-! ## Passes -/

/-- The state in which a sub-request was set up -/
def setUp (s : GapFill β) (range : NanoRange) (fillsGap : Bool) : GapFill β :=
  { s with
    inpFinerRangeFinal := false
    inpFinerRangeFinalMax := s.inpFinerRangeFinalMax + 1
    inpFinerFillsGap := fillsGap
    expFinerRange := range }

/-- The state in which the finer source is polled -/
def asking (provider : FinerProvider β) (s : GapFill β) (range : NanoRange) (fillsGap : Bool) (req : SubRequest) :
    GapFill β :=
  { s.setUp range fillsGap with
    inpFiner := some (if req = .nothing then [] else provider s.requests req)
    requests := s.requests ++ [range] }

/-- The bin is in the answer. -/
def Delivers (answer : Answer (Sitemty (List (Bin β)))) (bin : Bin β) : Prop :=
  ∃ bins, answer = .ready (sitemData bins) ∧ bin ∈ bins

/-- What a pass can do with bins from the cache -/
inductive FromCache (provider : FinerProvider β) (s : GapFill β) (bins : List (Bin β))
    (p : Pass (GapFill β) (Sitemty (List (Bin β)))) : Prop
  | all (hchain : Chain s.front bins) (hgap : gapIn s.range.nanoBeg s.front bins = none)
      (hnext : p.next? = some ({ s with inpBuf := none }.passed bins))
  | before (taken : List (Bin β)) (bin : Bin β) (rest : List (Bin β)) (hbins : bins = taken ++ bin :: rest)
      (hchain : Chain s.front taken) (hbefore : bin.ts1 < s.range.nanoBeg)
      (hgap : gapIn s.range.nanoBeg s.front bins = none)
      (hnext : p.next? = some ({ s with inpBuf := none }.passed taken))
  | gap (taken : List (Bin β)) (bin : Bin β) (rest : List (Bin β)) (hbins : bins = taken ++ bin :: rest)
      (hchain : Chain s.front taken) (hle : s.range.nanoBeg ≤ bin.ts1) (hne : bin.ts1 ≠ endOf s.front taken)
      (hgap : gapIn s.range.nanoBeg s.front bins = some ⟨endOf s.front taken, bin.ts1⟩)
      (hp : (s.subRequest ⟨endOf s.front taken, bin.ts1⟩ = none ∧ p = .panic) ∨
        (∃ e, s.subRequest ⟨endOf s.front taken, bin.ts1⟩ = some (.error e) ∧
          p.next? = some (({ s with inpBuf := none }.passed taken).setUp ⟨endOf s.front taken, bin.ts1⟩ true)) ∨
        ∃ req, s.subRequest ⟨endOf s.front taken, bin.ts1⟩ = some (.ok req) ∧
          p.next? = some ((({ s with inpBuf := some (bin :: rest) }).passed taken).asking provider
            ⟨endOf s.front taken, bin.ts1⟩ true req))

section Passes

variable {s : GapFill β} {bins taken : List (Bin β)} (provider : FinerProvider β) {range : NanoRange} {fillsGap : Bool}

theorem subRequest_passed : (s.passed taken).subRequest range = s.subRequest range := by
  rw [passed_eq]
  rfl

/-- Setting up a sub-request asks for it, unless that is refused or panics. -/
theorem setupInpFiner_eq : s.setupInpFiner provider range fillsGap = (s.subRequest range).map fun
    | .ok req => (.ok (), s.asking provider range fillsGap req)
    | .error e => (.error e, s.setUp range fillsGap) := rfl

/-- What a pass does with an answer of the finer source -/
theorem pollNext_finer {answer : Answer (Sitemty (List (Bin β)))} {rest : BinsInput β} (hdone : s.done = false)
    (hfiner : s.inpFiner = some (answer :: rest)) :
    ∃ taken final cnt, Chain s.front taken ∧ (∀ bin ∈ taken, Delivers answer bin) ∧
      (pollNext provider s).next? = some ({ s with
        inpFiner := some rest
        inpFinerRangeFinal := final
        inpFinerRangeFinalCnt := cnt }.passed taken) := by
  rcases answer with _ | ⟨e | ⟨⟨⟩ | bins⟩ | x | x⟩
  · exact ⟨[], _, _, trivial, nofun, by rw [pollNext, hdone, hfiner]; rfl⟩
  · exact ⟨[], _, _, trivial, nofun, by rw [pollNext, hdone, hfiner]; rfl⟩
  · exact ⟨[], _, _, trivial, nofun, by rw [pollNext, hdone, hfiner]; rfl⟩
  · obtain ⟨taken, others, hbins, hchain, hstate, -⟩ := handleBinsFiner_spec { s with inpFiner := some rest } bins
    refine ⟨taken, s.inpFinerRangeFinal, s.inpFinerRangeFinalCnt, hchain, ?_, ?_⟩
    · intro bin hbin
      exact ⟨bins, rfl, hbins ▸ List.mem_append_left _ hbin⟩
    · have hpass : pollNext provider s = match { s with inpFiner := some rest }.handleBinsFiner bins with
          | (.ok (), s) => .item (sitemData bins) s
          | (.error e, s) => .item (.error e.toSitemErr) s := by
        rw [pollNext, if_neg (Bool.eq_false_iff.mp hdone), hfiner]
      rw [hpass]
      generalize { s with inpFiner := some rest }.handleBinsFiner bins = result at hstate
      rcases result with ⟨e | ⟨⟩, t⟩
      · exact congrArg some hstate
      · exact congrArg some hstate
  · exact ⟨[], _, _, trivial, nofun, by rw [pollNext, hdone, hfiner]; rfl⟩
  · exact ⟨[], _, _, trivial, nofun, by rw [pollNext, hdone, hfiner]; rfl⟩

/-- The finer source is dropped where it has ended. -/
theorem pollNext_finerEnded (hdone : s.done = false) (hfiner : s.inpFiner = some []) :
    (pollNext provider s).next? = some { s with expFinerRange := ⟨0, 0⟩, inpFiner := none } := by
  have hpass : pollNext provider s = s.finerEnded := by rw [pollNext, if_neg (Bool.eq_false_iff.mp hdone), hfiner]
  rw [hpass, finerEnded]
  split
  · split_ifs <;> rfl
  · split_ifs <;> rfl

/-- What a pass does with bins from the cache -/
theorem pollNext_inpBuf (hdone : s.done = false) (hfiner : s.inpFiner = none) (hbuf : s.inpBuf = some bins) :
    FromCache provider s bins (pollNext provider s) := by
  have hhandled := handleBins_handled provider { s with inpBuf := none } [] bins fun _ => rfl
  have hpass : pollNext provider s = match { s with inpBuf := none }.handleBins provider [] bins with
    | none => .panic
    | some (.ok (keep, item), s) =>
        .item (sitemData item) { s with inpBuf := if keep.length ≠ 0 then some keep else s.inpBuf }
    | some (.error e, s) => .item (.error e.toSitemErr) s := by
    rw [pollNext, hdone, hfiner, hbuf]
    rfl
  rw [hpass]
  generalize { s with inpBuf := none }.handleBins provider [] bins = result at hhandled
  cases hhandled with
  | all hchain hgap => exact .all hchain hgap rfl
  | before taken bin rest hbins hchain hbefore hgap => exact .before taken bin rest hbins hchain hbefore hgap rfl
  | gap taken bin rest hbins hchain hle hne hgap =>
      refine .gap taken bin rest hbins hchain hle hne hgap ?_
      rw [setupInpFiner_eq provider, subRequest_passed]
      have hsame : ({ s with inpBuf := none } : GapFill β).subRequest ⟨endOf s.front taken, bin.ts1⟩ =
          s.subRequest ⟨endOf s.front taken, bin.ts1⟩ := rfl
      have hfront : ({ s with inpBuf := none } : GapFill β).front = s.front := rfl
      rw [hfront, hsame]
      rcases hsub : s.subRequest ⟨endOf s.front taken, bin.ts1⟩ with _ | e | req
      · exact .inl ⟨rfl, rfl⟩
      · exact .inr (.inl ⟨e, rfl, rfl⟩)
      · refine .inr (.inr ⟨req, rfl, ?_⟩)
        rw [passed_inpBuf s none, passed_inpBuf s (some (bin :: rest))]
        rfl

/-- Where there is a gap in front of the first bin that is held back, it is asked for. -/
theorem pollNext_held {bin : Bin β} {rest : List (Bin β)} (hdone : s.done = false) (hfiner : s.inpFiner = none)
    (hbuf : s.inpBuf = some (bin :: rest)) (hle : s.range.nanoBeg ≤ bin.ts1) (hne : bin.ts1 ≠ s.front) :
    (s.subRequest ⟨s.front, bin.ts1⟩ = none ∧ pollNext provider s = .panic) ∨
      (∃ e, s.subRequest ⟨s.front, bin.ts1⟩ = some (.error e) ∧
        (pollNext provider s).next? = some ({ s with inpBuf := none }.setUp ⟨s.front, bin.ts1⟩ true)) ∨
      ∃ req, s.subRequest ⟨s.front, bin.ts1⟩ = some (.ok req) ∧
        (pollNext provider s).next? = some (s.asking provider ⟨s.front, bin.ts1⟩ true req) := by
  have hsame : ({ s with inpBuf := some (bin :: rest) } : GapFill β) = s := by rw [← hbuf]
  cases pollNext_inpBuf provider hdone hfiner hbuf with
  | all hchain _ _ => exact absurd hchain.1 hne
  | before taken bin' rest' hbins hchain hbefore _ _ =>
      cases taken with
      | nil =>
          obtain ⟨rfl, rfl⟩ := List.cons.inj hbins
          exact absurd hle (not_le.mpr hbefore)
      | cons b taken =>
          obtain ⟨rfl, rfl⟩ := List.cons.inj hbins
          exact absurd hchain.1 hne
  | gap taken bin' rest' hbins hchain _ _ _ hp =>
      cases taken with
      | nil =>
          obtain ⟨rfl, rfl⟩ := List.cons.inj hbins
          rwa [hsame] at hp
      | cons b taken =>
          obtain ⟨rfl, rfl⟩ := List.cons.inj hbins
          exact absurd hchain.1 hne

/-- What a pass does with an answer of the cache -/
theorem pollNext_inp {answer : Answer (Sitemty (List (Bin β)))} {rest : BinsInput β} (hdone : s.done = false)
    (hfiner : s.inpFiner = none) (hbuf : s.inpBuf = none) (hinp : s.inp = some (answer :: rest)) :
    ∃ final buf, (∀ bins, buf = some bins → bins ≠ [] ∧ ∀ bin ∈ bins, Delivers answer bin) ∧
      (pollNext provider s).next? = some { s with inp := some rest, inpRangeFinal := final, inpBuf := buf } := by
  rcases answer with _ | ⟨e | ⟨⟨⟩ | bins⟩ | x | x⟩
  · exact ⟨_, none, nofun, by simp [pollNext, hdone, hfiner, hbuf, hinp, Pass.next?]; rfl⟩
  · exact ⟨_, none, nofun, by simp [pollNext, hdone, hfiner, hbuf, hinp, Pass.next?]; rfl⟩
  · exact ⟨_, none, nofun, by simp [pollNext, hdone, hfiner, hbuf, hinp, Pass.next?]; rfl⟩
  · refine ⟨_, if bins.length ≠ 0 then some bins else none, ?_,
      by simp [pollNext, hdone, hfiner, hbuf, hinp, Pass.next?]; rfl⟩
    intro bins' hbins'
    split_ifs at hbins' with hlen
    obtain rfl := Option.some.inj hbins'
    exact ⟨fun hnil => hlen (by rw [hnil]; rfl), fun bin hbin => ⟨bins, rfl, hbin⟩⟩
  · exact ⟨_, none, nofun, by simp [pollNext, hdone, hfiner, hbuf, hinp, Pass.next?]; rfl⟩
  · exact ⟨_, none, nofun, by simp [pollNext, hdone, hfiner, hbuf, hinp, Pass.next?]; rfl⟩

/-- When the cache has ended, the rest is asked for, if there is one. -/
theorem pollNext_inpEnded (hdone : s.done = false) (hfiner : s.inpFiner = none) (hbuf : s.inpBuf = none)
    (hinp : s.inp = some []) :
    (s.restRange = none ∧ pollNext provider s = .done { s with inp := none }) ∨
      ∃ range, s.restRange = some range ∧
        ((s.subRequest range = none ∧ pollNext provider s = .panic) ∨
          (∃ e, s.subRequest range = some (.error e) ∧
            (pollNext provider s).next? = some ({ s with inp := none }.setUp range false)) ∨
          ∃ req, s.subRequest range = some (.ok req) ∧
            (pollNext provider s).next? = some ({ s with inp := none }.asking provider range false req)) := by
  have hpass : pollNext provider s = s.inpEnded provider := by rw [pollNext, hdone, hfiner, hbuf, hinp]; rfl
  have hrest : ({ s with inp := none } : GapFill β).restRange = s.restRange := rfl
  rw [hpass, inpEnded, hrest]
  cases s.restRange with
  | none => exact .inl ⟨rfl, rfl⟩
  | some range =>
      have hsame : ({ s with inp := none } : GapFill β).subRequest range = s.subRequest range := rfl
      refine .inr ⟨range, rfl, ?_⟩
      simp only
      rw [setupInpFiner_eq provider, hsame]
      rcases s.subRequest range with _ | e | req
      · exact .inl ⟨rfl, rfl⟩
      · exact .inr (.inl ⟨e, rfl, rfl⟩)
      · exact .inr (.inr ⟨req, rfl, rfl⟩)

/-- At last the stream is done. -/
theorem pollNext_last (hdone : s.done = false) (hfiner : s.inpFiner = none) (hbuf : s.inpBuf = none)
    (hinp : s.inp = none) : (pollNext provider s).next? = some { s with done := true } := by
  have hpass : pollNext provider s = if s.inpFinerRangeFinalCnt = s.inpFinerRangeFinalMax then
      .item sitemRangeComplete { s with done := true } else .again { s with done := true } := by
    rw [pollNext, if_neg (Bool.eq_false_iff.mp hdone), hfiner, hbuf, hinp]
  rw [hpass]
  split_ifs <;> rfl

end Passes

end GapFill

end Timebin
end Daqbuf
