import Daqbuf.Binning.EventsAccepted
import Daqbuf.Binning.EventsCntZero
import Daqbuf.Items.ChannelEvents
import Daqbuf.Scylla.Sitems
import Daqbuf.Poll.Stage
/-!
# The Stream of Binned Events

{lit}`BinnedEventsTimeweightStream` offers the events of its input to a binner, and hands out bins as soon as there are
some.  Of a container that was consumed in part it keeps the rest, to offer it again.  At the end of the input the bins
up to the end of the range are closed, and it hands out what the binner still has.

All containers of the input have one type of values.

Main results:

- Theorem {lit}`Standing.settles`: what was kept is consumed, before the input is polled again.
- Theorem {lit}`Standing.reads`: at the end of the input all events were consumed.
- Theorem {lit}`BinnedEventsTimeweightStream.allBins_iff`: the bins are complete unless too many, or exactly one more
  than the binner may hold, are left at the end.
-/

namespace Daqbuf
namespace Binning

open Netpod Search Items Poll Scylla
open BinnedEventsTimeweight (Feeds Fed consumed)

/-! ## The binner of a stream -/

/-- {lit}`BinnedEventsTimeweightLazy` -/
structure BinnedEventsTimeweightLazy (V G R : Type) where
  range : BinnedRange
  binnedEvents : Option (BinnedEventsTimeweight V G R)
  enableCntZero : Bool
  deriving DecidableEq

namespace BinnedEventsTimeweightLazy

variable {V G R : Type} [PartialOrdEvtA V] [AggregatorTimeWeight G V R]

/-- {lit}`new` -/
def new (range : BinnedRange) : BinnedEventsTimeweightLazy V G R where
  range := range
  binnedEvents := none
  enableCntZero := false

/-- {lit}`with_cnt_zero` -/
def withCntZero (l : BinnedEventsTimeweightLazy V G R) : BinnedEventsTimeweightLazy V G R :=
  { l with enableCntZero := true }

/-- The binner, which is made with the first container. -/
def getOrInsert (l : BinnedEventsTimeweightLazy V G R) : BinnedEventsTimeweight V G R :=
  let v := BinnedEventsTimeweight.new l.range
  l.binnedEvents.getD (if l.enableCntZero then v.cntZeroEnable else v)

/-- {lit}`ingest` -/
def ingest (search : BinarySearch ℕ) (l : BinnedEventsTimeweightLazy V G R) (evs : List (EventSingle V)) :
    Except Fault IngestReport × BinnedEventsTimeweightLazy V G R :=
  let x := l.getOrInsert.ingest search evs
  (x.1, { l with binnedEvents := some x.2 })

/-- {lit}`input_done_range_final` -/
def inputDoneRangeFinal (l : BinnedEventsTimeweightLazy V G R) : Except Fault (BinnedEventsTimeweightLazy V G R) :=
  match l.binnedEvents with
  | some b => b.inputDoneRangeFinal.map fun b => { l with binnedEvents := some b }
  | none => .ok l

/-- {lit}`output` -/
def output (l : BinnedEventsTimeweightLazy V G R) :
    Except Fault (Option (List (Bin V R)) × BinnedEventsTimeweightLazy V G R) :=
  match l.binnedEvents with
  | some b =>
      if b.out.length = 0 then .ok (none, l)
      else b.output.map fun x => (some x.1, { l with binnedEvents := some x.2 })
  | none => .ok (none, l)

end BinnedEventsTimeweightLazy

/-! ## The stream -/

/-- {lit}`ChannelEvents`, as far as it is read -/
inductive EventsItem (V : Type) where
  | events (evs : List (EventSingle V))
  | status (x : Option ConnStatusEvent)

/-- What the stream can report: the errors of {lit}`BinnedEventsTimeweightDyn`, and those of its input. -/
inductive EventsStreamError (E : Type) where
  | inp (e : E)
  | emptyEventsBuffer
  | noProgress
  | binning (e : EventsError)
  deriving DecidableEq

/-- {lit}`StreamState` -/
inductive EventsStreamState (V : Type) where
  | reading
  | buffered (evs : List (EventSingle V))
  | remains
  | done
  | invalid
  deriving DecidableEq

/-- {lit}`BinnedEventsTimeweightStream`; the input itself is kept beside. -/
structure BinnedEventsTimeweightStream (V G R : Type) where
  state : EventsStreamState V
  binnedEvents : BinnedEventsTimeweightLazy V G R
  rangeFinal : Bool
  deriving DecidableEq

namespace BinnedEventsTimeweightStream

variable {V G R E : Type} [PartialOrdEvtA V] [AggregatorTimeWeight G V R]

/-- {lit}`new` -/
def new (range : BinnedRange) : BinnedEventsTimeweightStream V G R where
  state := .reading
  binnedEvents := (BinnedEventsTimeweightLazy.new range).withCntZero
  rangeFinal := false

/-- A pass of the stream -/
abbrev EventsPass (V G R E : Type) :=
  Pass (BinnedEventsTimeweightStream V G R) (Sitemty2 (List (Bin V R)) (EventsStreamError E))

/-- An error of the binner ends the stream. -/
def ofFault (s : BinnedEventsTimeweightStream V G R) : Fault → EventsPass V G R E
  | .error e => .item (.error (.binning e)) { s with state := .done }
  | .panicked => .panic

/-- {lit}`handle_buffered`, with {lit}`consume_evsbuf` -/
def handleBuffered (search : BinarySearch ℕ) (s : BinnedEventsTimeweightStream V G R) (evs : List (EventSingle V)) :
    EventsPass V G R E :=
  if evs.length = 0 then .item (.error .emptyEventsBuffer) { s with state := .done }
  else
    match s.binnedEvents.ingest search evs with
    | (.error e, l) => ofFault { s with binnedEvents := l } e
    | (.ok report, l) =>
        match l.output with
        | .error e => ofFault { s with binnedEvents := l } e
        | .ok (bins, l) =>
            let nc := consumed evs.length report
            let evs := truncateFront evs (evs.length - nc)
            let s := { s with state := if evs.length = 0 then .reading else .buffered evs, binnedEvents := l }
            match bins with
            | some bins =>
                if bins.length = 0 then
                  if nc = 0 then .item (.error .noProgress) { s with state := .done } else .again s
                else .item (sitem2Data bins) s
            | none => if nc = 0 then .item (.error .noProgress) { s with state := .done } else .again s

/-- {lit}`handle_sitemty` -/
def handleSitemty (s : BinnedEventsTimeweightStream V G R) : Sitemty2 (EventsItem V) E → EventsPass V G R E
  | .ok (.dataItem (.data (.events evs))) =>
      if evs.length = 0 then .again s else .again { s with state := .buffered evs }
  | .ok (.dataItem (.data (.status _))) => .again s
  | .ok (.dataItem .rangeComplete) => .again { s with rangeFinal := true }
  | .ok (.log x) => .item (.ok (.log x)) s
  | .ok (.stats x) => .item (.ok (.stats x)) s
  | .error e => .item (.error (.inp e)) { s with state := .done }

/-- {lit}`handle_eos`: the end of the range counts as reached, whether or not the input said so.  The error is handed
out without the change of state that follows any other. -/
def handleEos (s : BinnedEventsTimeweightStream V G R) : EventsPass V G R E :=
  let s := { s with state := .remains }
  match s.binnedEvents.inputDoneRangeFinal with
  | .ok l => .again { s with binnedEvents := l }
  | .error (.error e) => .item (.error (.binning e)) s
  | .error .panicked => .panic

/-- The log item at the end -/
def noBinsReady : LogItem := { origin := "", level := .debug, msg := "no bins ready on eos" }

/-- {lit}`handle_remains` -/
def handleRemains (s : BinnedEventsTimeweightStream V G R) : EventsPass V G R E :=
  match s.binnedEvents.output with
  | .error e => ofFault s e
  | .ok (some bins, l) => .item (sitem2Data bins) { s with binnedEvents := l }
  | .ok (none, l) => .item (.ok (.log noBinsReady)) { s with state := .done, binnedEvents := l }

/-- {lit}`handle_main` -/
def stage (search : BinarySearch ℕ) : Stage (BinnedEventsTimeweightStream V G R) (Sitemty2 (EventsItem V) E)
    (Sitemty2 (List (Bin V R)) (EventsStreamError E)) where
  own s :=
    match s.state with
    | .reading => none
    | .buffered evs => some (handleBuffered search s evs)
    | .remains => some (handleRemains s)
    | .done => some (.done { s with state := .invalid })
    | .invalid => some .panic
  item := handleSitemty
  last := handleEos

end BinnedEventsTimeweightStream

/-! ## Containers in order -/

section Order

variable {V G R : Type} [PartialOrdEvtA V] [AggregatorTimeWeight G V R]
variable {range : BinnedRange} {z : Bool} {c : Cur V G R} {ev : EventSingle V} {evs given : List (EventSingle V)}

/-- The events are in order, and all but the first lie in the range. -/
structure Ordered (range : BinnedRange) (evs : List (EventSingle V)) : Prop where
  sorted : evs.Pairwise fun a b => a.ts ≤ b.ts
  inRange : ∀ ev ∈ evs, ev.ts < range.nanoEnd
  afterBeg : ∀ ev ∈ evs.tail, range.nanoBeg ≤ ev.ts

omit [PartialOrdEvtA V] in
theorem Ordered.of_append {rest : List (EventSingle V)} (h : Ordered range (evs ++ rest)) : Ordered range evs where
  sorted := (List.pairwise_append.mp h.sorted).1
  inRange ev hev := h.inRange ev (List.mem_append_left _ hev)
  afterBeg ev hev := by
    apply h.afterBeg ev
    cases evs with
    | nil => cases hev
    | cons x xs => exact List.mem_append_left _ hev

theorem Cur.bins_absorb : (c.absorb ev).bins = c.bins := by
  unfold Cur.absorb
  simp only
  split
  · rfl
  · split
    · rfl
    · rfl

/-- A step only adds bins. -/
theorem Cur.bins_step : c.bins <+: (c.step z ev).bins := by
  rw [Cur.step, Cur.bins_absorb, Cur.advance]
  split
  · exact List.prefix_append _ _
  · split
    · exact List.prefix_rfl
    · exact List.prefix_rfl

theorem Cur.bins_steps : c.bins <+: (c.steps z evs).bins := by
  induction evs generalizing c with
  | nil => exact List.prefix_rfl
  | cons ev evs ih => exact Cur.bins_step.trans ih

theorem Cur.activeBeg_absorb : (c.absorb ev).innerA.innerB.activeBeg = c.innerA.innerB.activeBeg := by
  unfold Cur.absorb
  simp only
  split
  · split
    · rfl
    · rfl
  · split
    · rfl
    · rfl

/-- A step leads at most to the bin of its event. -/
theorem Cur.activeBeg_step_le :
    (c.step z ev).innerA.innerB.activeBeg ≤ max c.innerA.innerB.activeBeg ev.ts := by
  rw [Cur.step, Cur.activeBeg_absorb, Cur.advance]
  split
  · unfold reach
    simp only
    split
    · exact (Nat.div_mul_le_self _ _).trans (le_max_right _ _)
    · exact le_max_left _ _
  · split
    · exact (Nat.div_mul_le_self _ _).trans (le_max_right _ _)
    · exact le_max_left _ _

theorem Cur.activeBeg_steps_le {bound : ℕ} (hc : c.innerA.innerB.activeBeg ≤ bound) (hevs : ∀ ev ∈ evs, ev.ts ≤ bound) :
    (c.steps z evs).innerA.innerB.activeBeg ≤ bound := by
  induction evs generalizing c with
  | nil => exact hc
  | cons ev evs ih =>
      obtain ⟨hev, hrest⟩ := List.forall_mem_cons.mp hevs
      exact ih (Cur.activeBeg_step_le.trans (max_le hc hev)) hrest

namespace BinnedEventsTimeweight

variable {search : BinarySearch ℕ} {s s' : BinnedEventsTimeweight V G R} {pending : List (EventSingle V)}
  {taken : List (Bin V R)}

/-- The steps for what is pending lead where the steps for all events do. -/
theorem Fed.steps_pending (h : Fed z range given pending taken s) :
    (s.cur taken).steps z pending = (Cur.start range).steps z (given ++ pending) := by
  cases pending with
  | nil =>
      rw [List.append_nil]
      exact h.cur_eq rfl
  | cons ev rest =>
      rw [steps_append]
      exact congrArg (Cur.steps z · rest) (h.step_eq ev rest rfl)

/-- A binner that was fed the events up to here accepts events that go on in order. -/
theorem Fed.accepts (h : Fed z range given [] taken s) (hordered : Ordered range (given ++ evs)) : s.Accepts evs := by
  obtain ⟨_, hsorted, hacross⟩ := List.pairwise_append.mp hordered.sorted
  have hcur := h.cur_eq rfl
  have hbeg : ∀ ev ∈ evs, ev ∈ (given ++ evs).tail → s.innerA.innerB.activeBeg ≤ ev.ts := by
    intro ev hev htail
    have hinner : s.innerA = ((Cur.start range).steps z given).innerA := congrArg Cur.innerA hcur
    rw [hinner]
    exact Cur.activeBeg_steps_le (hordered.afterBeg ev htail) fun x hx => hacross x hx ev hev
  have hfollows : evs.Pairwise (Follows range.binLen) := by
    apply hsorted.imp
    intro a b hab
    have hfloor : a.ts / range.binLen * range.binLen ≤ a.ts := Nat.div_mul_le_self _ _
    by_cases heq : b.ts = a.ts
    · exact .inr heq
    · exact .inl (by omega)
  constructor
  · intro ev hev
    rw [h.range_eq]
    exact hordered.inRange ev (List.mem_append_right _ hev)
  · intro lst hlst ev hev
    have hev' : ev ∈ evs := List.mem_of_head? hev
    have hcurLst : s.lst = ((Cur.start range).steps z given).lst := congrArg Cur.lst hcur
    cases given with
    | nil =>
        rw [hcurLst] at hlst
        cases hlst
    | cons x xs =>
        obtain ⟨last, hmem, hlast⟩ := lst_steps z (Cur.start range : Cur V G R) (List.cons_ne_nil x xs)
        rw [hcurLst, hlast] at hlst
        obtain rfl := Option.some.inj hlst
        exact ⟨hacross _ hmem _ hev', hbeg ev hev' (List.mem_append_right _ hev')⟩
  · intro ev hev
    apply hbeg ev (List.mem_of_mem_tail hev)
    cases given with
    | nil => exact hev
    | cons x xs => exact List.mem_append_right _ (List.mem_of_mem_tail hev)
  · rw [h.range_eq]
    exact hsorted.imp fun hab => Nat.div_le_div_right hab
  · rw [h.range_eq]
    split
    · exact hfollows
    · exact hfollows.sublist (List.tail_sublist _)

/-- A container is only consumed in part when the binner holds more bins than it may. -/
theorem ingestLoop_part {n pos nconsumed m : ℕ}
    (h : ingestLoop search evs n pos nconsumed s = (.ok (.consumedPart m), s')) : outLenMax < s'.out.length := by
  induction n generalizing s pos nconsumed with
  | zero => cases h
  | succ n ih =>
      rw [ingestLoop] at h
      cases hev : evs[pos]? with
      | none =>
          rw [hev] at h
          cases h
      | some ev =>
          simp only [hev] at h
          split at h
          · cases h
          split at h
          · cases h
          rename_i s1 _
          split at h
          · rename_i hfull
            cases h
            exact hfull.2
          split at h
          · cases h
          split at h
          · cases h
          split at h
          · cases h
          split at h
          · cases h
          exact ih h

theorem ingest_part {m : ℕ} (h : s.ingest search evs = (.ok (.consumedPart m), s')) : outLenMax < s'.out.length :=
  ingestLoop_part h

end BinnedEventsTimeweight

end Order

/-! ## The end of the range -/

section Close

variable {V G R : Type} [AggregatorTimeWeight G V R]
variable {len : ℕ} {lst : EventSingle V}

namespace BinnedEventsTimeweight

variable {s : BinnedEventsTimeweight V G R}

/-- With room for bins, those up to the end of the range are made in at most two rounds. -/
theorem finishes_drained (hz : s.produceCntZero = true) (hcont : s.inputDoneRangeFinalContinueOutput = false)
    (hlst : s.lst = some lst) (h : Placed len s.innerA) (hminmax : s.innerA.minmax.isSome) (hout : s.out = [])
    (hle : s.innerA.innerB.activeEnd ≤ s.range.nanoEnd)
    (hne : (reach (R := R) true lst s.range.nanoEnd s.innerA).2.length ≠ outLenMax + 1) :
    s.Finishes true ((reach true lst s.range.nanoEnd s.innerA).2.take (2 * (outLenMax + 1))) := by
  obtain ⟨s1, hcycle, hrange1, hz1, hlst1, hout1, hway1⟩ := cycle01_with hz hlst h hminmax hle
  rw [hout, List.nil_append, List.length_nil, Nat.sub_zero] at hout1
  rw [hout, List.length_nil, Nat.sub_zero] at hway1
  have hlen1 : s1.out.length = min (outLenMax + 1) (reach (R := R) true lst s.range.nanoEnd s.innerA).2.length := by
    rw [hout1, List.length_take]
  rw [finishes_final_iff hcont hcycle hrange1]
  by_cases hroom : s1.out.length ≤ outLenMax
  · rw [if_pos hroom, hout1, List.take_of_length_le (by omega), List.take_of_length_le (by omega)]
  · have hmore := hway1.underWay (by omega)
    obtain ⟨s2, hcycle2, -, -, -, hout2, -⟩ := cycle01_with (s := s1.drained) hz1 hlst1 hway1.placed hway1.minmax hmore
    have hsecond : s2.out =
        ((reach true lst s.range.nanoEnd s.innerA).2.drop (outLenMax + 1)).take (outLenMax + 1) := by
      rw [← hway1.bins]
      exact hout2
    rw [if_neg hroom]
    exact ⟨s2, hcycle2, by rw [hout1, hsecond, Nat.two_mul, List.take_add]⟩

/-- If exactly as many bins are left as end a round, an assertion fails when they are taken. -/
theorem output_panics (hz : s.produceCntZero = true) (hlst : s.lst = some lst) (h : Placed len s.innerA)
    (hminmax : s.innerA.minmax.isSome) (hout : s.out = []) (hle : s.innerA.innerB.activeEnd ≤ s.range.nanoEnd)
    (hgrid : len ∣ s.range.nanoEnd)
    (heq : (reach (R := R) true lst s.range.nanoEnd s.innerA).2.length = outLenMax + 1) :
    ∃ s', s.inputDoneRangeFinal = .ok s' ∧ s'.out ≠ [] ∧ s'.output = .error .panicked := by
  obtain ⟨s1, hcycle, hrange1, hz1, hlst1, hout1, hway1⟩ := cycle01_with hz hlst h hminmax hle
  rw [hout, List.nil_append, List.length_nil, Nat.sub_zero] at hout1
  rw [hout, List.length_nil, Nat.sub_zero] at hway1
  have hlen1 : s1.out.length = outLenMax + 1 := by
    rw [hout1, List.length_take, heq, Nat.min_self]
  have hbeg : s1.drained.innerA.innerB.activeBeg = s.range.nanoEnd := hway1.arrived h hle hgrid heq.le
  refine ⟨{ s1 with inputDoneRangeFinalContinueOutput := true }, ?_, ?_, ?_⟩
  · rw [inputDoneRangeFinal, hcycle]
    exact congrArg Except.ok (if_pos (by omega))
  · intro hnil
    have hzero : s1.out = [] := hnil
    rw [hzero, List.length_nil] at hlen1
    omega
  · have hagain := cycle01_activeBeg hbeg
    rw [← hrange1] at hagain
    rw [output, if_pos rfl]
    exact congrArg (Except.map _) hagain

end BinnedEventsTimeweight

end Close

/-! ## What the stream hands out -/

section Spec

variable {V R E : Type} [PartialOrdEvtA V]

/-- The events of an item -/
def EventsItem.evs : EventsItem V → List (EventSingle V)
  | .events evs => evs
  | .status _ => []

/-- The events of the items, in order -/
def eventsOf (xs : List (Sitemty2 (EventsItem V) E)) : List (EventSingle V) := (datas2 xs).flatMap EventsItem.evs

variable (G : Type) [AggregatorTimeWeight G V R]

/-- The bins of one step for each event, with at most {lit}`n` bins up to the end of the range behind them. -/
def madeBins (n : ℕ) (range : BinnedRange) (evs : List (EventSingle V)) : List (Bin V R) :=
  let c : Cur V G R := (Cur.start range).steps true evs
  match c.lst with
  | some lst => c.bins ++ (reach true lst range.nanoEnd c.innerA).2.take n
  | none => []

/-- The number of bins that are left to be made at the end of the input. -/
def binsLeft (range : BinnedRange) (evs : List (EventSingle V)) : ℕ :=
  (range.nanoEnd - ((Cur.start range : Cur V G R).steps true evs).innerA.innerB.activeBeg) / range.binLen

/-- The begins and the ends of the bins -/
def edges (bins : List (Bin V R)) : List (ℕ × ℕ) := bins.map fun b => (b.ts1, b.ts2)

/-- The edges of {lit}`n` bins of one length, one behind the other -/
def gridEdges (len beg n : ℕ) : List (ℕ × ℕ) := (List.range n).map fun i => (beg + len * i, beg + len * (i + 1))

/-- The begin of the bin of the first event, which is the first of the range if the event lies before it. -/
def firstBeg (range : BinnedRange) (ev : EventSingle V) : ℕ :=
  if range.nanoBeg + range.binLen ≤ ev.ts then ev.ts / range.binLen * range.binLen else range.nanoBeg

/-- The bins cover the range from the bin of the first event on, each once and in order. -/
def Covers (range : BinnedRange) : List (EventSingle V) → List (Bin V R) → Prop
  | [], bins => bins = []
  | ev :: _, bins => ∃ n, edges bins = gridEdges range.binLen (firstBeg range ev) n ∧
      firstBeg range ev + range.binLen * n = range.nanoEnd

variable {G} {range : BinnedRange} {len beg ts : ℕ} {ia : InnerA V G} {lst ev : EventSingle V}
  {evs : List (EventSingle V)}

omit [PartialOrdEvtA V] in
@[simp] theorem eventsOf_nil : eventsOf ([] : List (Sitemty2 (EventsItem V) E)) = [] := rfl

omit [PartialOrdEvtA V] in
@[simp]
theorem eventsOf_append (xs ys : List (Sitemty2 (EventsItem V) E)) :
    eventsOf (xs ++ ys) = eventsOf xs ++ eventsOf ys := by
  simp [eventsOf]

end Spec

/-! ## Runs of the stream -/

section Run

variable {V G R E : Type} {σ : Type*} [PartialOrdEvtA V] [AggregatorTimeWeight G V R]
variable {search : BinarySearch ℕ} {range : BinnedRange} {evs kept : List (EventSingle V)} {bins : List (Bin V R)}
  {a b : BinnedEventsTimeweightStream V G R} {next : σ → Pass σ (Sitemty2 (EventsItem V) E)} {s t u : σ}
  {xs : List (Sitemty2 (EventsItem V) E)}

namespace BinnedEventsTimeweightStream

/-- The state with some events that are kept -/
def held (evs : List (EventSingle V)) : EventsStreamState V := if evs.length = 0 then .reading else .buffered evs

/-- While the input is read: of the events that came, those that are kept were not consumed, and the bins were all
handed out. -/
structure Standing (search : BinarySearch ℕ) (range : BinnedRange) (evs : List (EventSingle V)) (bins : List (Bin V R))
    (kept : List (EventSingle V)) (a : BinnedEventsTimeweightStream V G R) : Prop where
  range_eq : a.binnedEvents.range = range
  cntZero : a.binnedEvents.enableCntZero = true
  state_eq : a.state = held kept
  drained : a.binnedEvents.getOrInsert.out = []
  accepts : a.binnedEvents.getOrInsert.Accepts kept
  fed : ∃ given pending fresh, Feeds search true range given pending bins a.binnedEvents.getOrInsert ∧
    (pending = [] ∨ fresh = []) ∧ kept = pending ++ fresh ∧ given ++ kept = evs ∧
      (a.binnedEvents.binnedEvents = none → given = [])

theorem new_standing (search : BinarySearch ℕ) (range : BinnedRange) :
    Standing search range [] [] [] (new range : BinnedEventsTimeweightStream V G R) where
  range_eq := rfl
  cntZero := rfl
  state_eq := rfl
  drained := rfl
  accepts := BinnedEventsTimeweight.accepts_nil
  fed := ⟨[], [], [], .new, .inl rfl, rfl, rfl, fun _ => rfl⟩

variable [LawfulAggregatorTimeWeight G (V := V) (R := R)]

/-- What was handed out comes first in what is made of all events. -/
theorem Standing.bins_le (h : Standing search range evs bins kept a) :
    bins.length ≤ ((Cur.start range : Cur V G R).steps true evs).bins.length := by
  obtain ⟨given, pending, fresh, hfeeds, -, hkept, hevs, -⟩ := h.fed
  have hsteps := hfeeds.fed.steps_pending
  have hfirst : bins <+: ((Cur.start range : Cur V G R).steps true (given ++ pending)).bins := by
    have hcur : bins <+: (a.binnedEvents.getOrInsert.cur bins).bins := List.prefix_append bins _
    rw [← hsteps]
    exact hcur.trans Cur.bins_steps
  have hall : evs = given ++ pending ++ fresh := by
    rw [← hevs, hkept, List.append_assoc]
  rw [hall, BinnedEventsTimeweight.steps_append]
  exact (hfirst.trans Cur.bins_steps).length_le

/-- What is kept is offered to the binner: some of it is consumed, or bins are handed out. -/
theorem Standing.consume (h : Standing search range evs bins kept a) (hkept : kept ≠ []) :
    ∃ out rest b, Standing search range evs (bins ++ out) rest b ∧ rest.length ≤ kept.length ∧
      ((handleBuffered search a kept : EventsPass V G R E) = .again b ∧ out = [] ∧ rest.length < kept.length ∨
        (handleBuffered search a kept : EventsPass V G R E) = .item (sitem2Data out) b ∧ out ≠ []) := by
  obtain ⟨given, pending, fresh, hfeeds, -, hsplit, hevs, -⟩ := h.fed
  obtain ⟨report, b1, hingest, haccepts⟩ := BinnedEventsTimeweight.ingest_accepts search hfeeds.fed.good h.accepts
  have hoffer : Feeds search true range (given ++ kept.take (consumed kept.length report))
      (kept.drop (consumed kept.length report)) bins b1 := by
    rw [hsplit] at hingest ⊢
    exact .offer hfeeds hingest
  have hlen : kept.length ≠ 0 := by
    intro hzero
    exact hkept (List.eq_nil_of_length_eq_zero hzero)
  have hlazy : a.binnedEvents.ingest search kept = (.ok report, { a.binnedEvents with binnedEvents := some b1 }) := by
    rw [BinnedEventsTimeweightLazy.ingest, hingest]
  have hall : given ++ kept.take (consumed kept.length report) ++ kept.drop (consumed kept.length report) = evs := by
    rw [List.append_assoc, List.take_append_drop]
    exact hevs
  have hrest : (kept.drop (consumed kept.length report)).length ≤ kept.length := by
    rw [List.length_drop]
    exact Nat.sub_le _ _
  by_cases hout : b1.out = []
  · have hsome : consumed kept.length report ≠ 0 := by
      cases report with
      | consumedAll => exact hlen
      | consumedPart n =>
          have hfull := BinnedEventsTimeweight.ingest_part hingest
          rw [hout] at hfull
          exact absurd hfull (Nat.not_lt_zero _)
    refine ⟨[], kept.drop (consumed kept.length report), { a with
      state := held (kept.drop (consumed kept.length report))
      binnedEvents := { a.binnedEvents with binnedEvents := some b1 } }, ?_, hrest, .inl ⟨?_, rfl, ?_⟩⟩
    · rw [List.append_nil]
      refine ⟨h.range_eq, h.cntZero, rfl, hout, haccepts, _, _, [], hoffer, .inr rfl, ?_, hall, ?_⟩
      · rw [List.append_nil]
      · intro hnone
        cases hnone
    · have houtput : BinnedEventsTimeweightLazy.output { a.binnedEvents with binnedEvents := some b1 } =
          .ok (none, { a.binnedEvents with binnedEvents := some b1 }) := by
        simp [BinnedEventsTimeweightLazy.output, hout]
      rw [handleBuffered, if_neg hlen]
      simp only [hlazy, houtput, truncateFront_sub, if_neg hsome]
      rfl
    · rw [List.length_drop]
      omega
  · have htake : b1.output = .ok (b1.out, { b1 with out := [] }) := by
      rw [BinnedEventsTimeweight.output, hoffer.fed.continueOutput]
      exact if_neg Bool.false_ne_true
    have hne : b1.out.length ≠ 0 := by
      intro hzero
      exact hout (List.eq_nil_of_length_eq_zero hzero)
    refine ⟨b1.out, kept.drop (consumed kept.length report), { a with
      state := held (kept.drop (consumed kept.length report))
      binnedEvents := { a.binnedEvents with binnedEvents := some { b1 with out := [] } } }, ?_, hrest, .inr ⟨?_, hout⟩⟩
    · refine ⟨h.range_eq, h.cntZero, rfl, rfl, (BinnedEventsTimeweight.accepts_out []).mpr haccepts, _, _, [],
        hoffer.take htake, .inr rfl, ?_, hall, ?_⟩
      · rw [List.append_nil]
      · intro hnone
        cases hnone
    · have houtput : BinnedEventsTimeweightLazy.output { a.binnedEvents with binnedEvents := some b1 } =
          .ok (some b1.out, { a.binnedEvents with binnedEvents := some { b1 with out := [] } }) := by
        simp [BinnedEventsTimeweightLazy.output, hne, htake, Except.map]
      rw [handleBuffered, if_neg hlen]
      simp only [hlazy, houtput, truncateFront_sub, if_neg hne]
      rfl

/-- What was kept is consumed, before the input is polled again. -/
theorem Standing.settles (h : Standing search range evs bins kept a) (next : σ → Pass σ (Sitemty2 (EventsItem V) E))
    (s : σ) : ∃ ys b, Reaches ((stage search).pass next) (s, a) ys (s, b) ∧
      Standing search range evs (bins ++ (datas2 ys).flatten) [] b ∧ errors2 ys = [] ∧ notes2 ys = [] := by
  induction hn : kept.length + (((Cur.start range : Cur V G R).steps true evs).bins.length - bins.length)
    using Nat.strong_induction_on generalizing bins kept a with
  | _ n ih =>
      by_cases hkept : kept = []
      · subst hkept
        refine ⟨[], a, .refl, ?_, rfl, rfl⟩
        simpa using h
      · obtain ⟨out, rest, b, hb, hle, hpass⟩ := h.consume (E := E) hkept
        have hbound := hb.bins_le
        have hown : (stage search).own a = some (handleBuffered search a kept : EventsPass V G R E) := by
          have hlen : ¬ kept.length = 0 := fun hzero => hkept (List.eq_nil_of_length_eq_zero hzero)
          simp [stage, h.state_eq, held, hlen]
        rw [List.length_append] at hbound
        rcases hpass with ⟨hpass, rfl, hlt⟩ | ⟨hpass, hne⟩
        · rw [List.append_nil] at hb
          obtain ⟨ys, b', hrun, hb', herrors, hnotes⟩ := ih _ (by omega) hb rfl
          refine ⟨ys, b', hrun.again_head ?_, hb', herrors, hnotes⟩
          rw [Stage.pass_own hown, hpass]
          rfl
        · have hpos : 0 < out.length := List.length_pos_iff.mpr hne
          have hlength : (bins ++ out).length = bins.length + out.length := List.length_append
          obtain ⟨ys, b', hrun, hb', herrors, hnotes⟩ := ih _ (by omega) hb rfl
          refine ⟨sitem2Data out :: ys, b', hrun.item_head ?_, ?_, ?_, ?_⟩
          · rw [Stage.pass_own hown, hpass]
            rfl
          · simpa [List.append_assoc] using hb'
          · simpa using herrors
          · simpa using hnotes

omit [LawfulAggregatorTimeWeight G (V := V) (R := R)] in
/-- With nothing kept the input is polled. -/
theorem Standing.own_eq (h : Standing search range evs bins [] a) :
    (stage (E := E) search).own a = none := by
  simp [stage, h.state_eq, held]

omit [LawfulAggregatorTimeWeight G (V := V) (R := R)] in
/-- With nothing kept all events were consumed, and there is a binner if there were any. -/
theorem Standing.fed_all (h : Standing search range evs bins [] a) :
    Feeds search true range evs [] bins a.binnedEvents.getOrInsert ∧
      (a.binnedEvents.binnedEvents = none → evs = []) := by
  obtain ⟨given, pending, fresh, hfeeds, -, hkept, hevs, hnone⟩ := h.fed
  obtain ⟨rfl, rfl⟩ := List.append_eq_nil_iff.mp hkept.symm
  rw [List.append_nil] at hevs
  subst hevs
  exact ⟨hfeeds, hnone⟩

/-- What an item of the input leads to, unless it is an error -/
theorem Standing.item (h : Standing search range evs bins [] a) (x : Sitemty2 (EventsItem V) E)
    (herror : error2? x = none) (hordered : Ordered range (evs ++ eventsOf [x])) :
    ∃ kept b, Standing search range (evs ++ eventsOf [x]) bins kept b ∧
      (handleSitemty a x = .again b ∧ note2? x = none ∨
        ∃ y, handleSitemty a x = .item y b ∧ data2? y = none ∧ error2? y = none ∧ note2? y = note2? x) := by
  obtain ⟨hfeeds, hnone⟩ := h.fed_all
  cases x with
  | error e => cases herror
  | ok x =>
      cases x with
      | log l =>
          refine ⟨[], a, ?_, .inr ⟨.ok (.log l), rfl, rfl, rfl, rfl⟩⟩
          simpa [eventsOf] using h
      | stats l =>
          refine ⟨[], a, ?_, .inr ⟨.ok (.stats l), rfl, rfl, rfl, rfl⟩⟩
          simpa [eventsOf] using h
      | dataItem d =>
          cases d with
          | rangeComplete =>
              refine ⟨[], { a with rangeFinal := true }, ?_, .inl ⟨rfl, rfl⟩⟩
              have hsame : evs ++ eventsOf [(.ok (.dataItem .rangeComplete) : Sitemty2 (EventsItem V) E)] = evs := by
                simp [eventsOf]
              rw [hsame]
              exact ⟨h.range_eq, h.cntZero, h.state_eq, h.drained, h.accepts, h.fed⟩
          | data c =>
              cases c with
              | status x =>
                  refine ⟨[], a, ?_, .inl ⟨rfl, rfl⟩⟩
                  simpa [eventsOf, EventsItem.evs] using h
              | events cs =>
                  have hcs : eventsOf [(sitem2Data (.events cs) : Sitemty2 (EventsItem V) E)] = cs := by
                    simp [eventsOf, EventsItem.evs]
                  rw [hcs] at hordered ⊢
                  by_cases hempty : cs.length = 0
                  · obtain rfl := List.eq_nil_of_length_eq_zero hempty
                    refine ⟨[], a, ?_, .inl ⟨rfl, rfl⟩⟩
                    rw [List.append_nil]
                    exact h
                  · refine ⟨cs, { a with state := .buffered cs }, ?_, .inl ⟨if_neg hempty, rfl⟩⟩
                    have haccepts := hfeeds.fed.accepts hordered
                    exact ⟨h.range_eq, h.cntZero, (if_neg hempty).symm, h.drained, haccepts, evs, [], cs, hfeeds,
                      .inl rfl, rfl, rfl, hnone⟩

/-- At the end of the input all events were consumed. -/
theorem Standing.reads (hnext : Drains next s xs) (h : Standing search range evs bins kept a)
    (herrors : errors2 xs = []) (hordered : Ordered range (evs ++ eventsOf xs)) :
    ∃ ys t u b, Reaches ((stage search).pass next) (s, a) ys (t, b) ∧ next t = .done u ∧
      Standing search range (evs ++ eventsOf xs) (bins ++ (datas2 ys).flatten) [] b ∧ errors2 ys = [] ∧
        notes2 ys = notes2 xs := by
  refine hnext.rec_head (P := fun s xs => ∀ evs bins kept a, Standing search range evs bins kept a → errors2 xs = [] →
    Ordered range (evs ++ eventsOf xs) → ∃ ys t u b, Reaches ((stage search).pass next) (s, a) ys (t, b) ∧
      next t = .done u ∧ Standing search range (evs ++ eventsOf xs) (bins ++ (datas2 ys).flatten) [] b ∧
        errors2 ys = [] ∧ notes2 ys = notes2 xs) ?_ ?_ ?_ ?_ evs bins kept a h herrors hordered
  · intro s u hpass evs bins kept a h _ _
    obtain ⟨ys, b, hrun, hb, hys, hnotes⟩ := h.settles next s
    refine ⟨ys, s, u, b, hrun, hpass, ?_, hys, hnotes⟩
    simpa using hb
  · intro s t xs hpass ih evs bins kept a h herrors hordered
    obtain ⟨ys, b, hrun, hb, hys, hnotes⟩ := h.settles next s
    obtain ⟨zs, v, u, c, hrun', hdone, hc, hzs, hnotes'⟩ := ih _ _ _ b hb herrors hordered
    have hall := hrun.trans (hrun'.again_head (Stage.pass_again hb.own_eq hpass))
    refine ⟨ys ++ zs, v, u, c, hall, hdone, ?_, ?_, ?_⟩
    · simpa [List.append_assoc] using hc
    · simp [hys, hzs]
    · simp [hnotes, hnotes']
  · intro s t xs hpass ih evs bins kept a h herrors hordered
    obtain ⟨ys, b, hrun, hb, hys, hnotes⟩ := h.settles next s
    obtain ⟨zs, v, u, c, hrun', hdone, hc, hzs, hnotes'⟩ := ih _ _ _ b hb herrors hordered
    have hall := hrun.trans (hrun'.pending_head (Stage.pass_pending hb.own_eq hpass))
    refine ⟨ys ++ zs, v, u, c, hall, hdone, ?_, ?_, ?_⟩
    · simpa [List.append_assoc] using hc
    · simp [hys, hzs]
    · simp [hnotes, hnotes']
  · intro s t x xs hpass ih evs bins kept a h herrors hordered
    obtain ⟨ys, b, hrun, hb, hys, hnotes⟩ := h.settles next s
    have hx : error2? x = none := by
      cases hcase : error2? x with
      | none => rfl
      | some e =>
          rw [errors2_cons, hcase] at herrors
          cases herrors
    have hrest : errors2 xs = [] := by simpa [hx] using herrors
    have hcons : eventsOf (x :: xs) = eventsOf [x] ++ eventsOf xs := eventsOf_append [x] xs
    rw [hcons, ← List.append_assoc] at hordered ⊢
    have hfirst : Ordered range (evs ++ eventsOf [x]) := hordered.of_append
    obtain ⟨kept', b', hb', hitem⟩ := hb.item x hx hfirst
    obtain ⟨zs, v, u, c, hrun', hdone, hc, hzs, hnotes'⟩ := ih _ _ _ b' hb' hrest hordered
    have hpassed := Stage.pass_item (g := stage search) hb.own_eq hpass
    rcases hitem with ⟨hagain, hnote⟩ | ⟨y, hitem, hdata, herror, hnote⟩
    · have hstep : (stage search).pass next (s, b) = .again (t, b') := by
        rw [hpassed]
        exact congrArg (Pass.map fun c => (t, c)) hagain
      refine ⟨ys ++ zs, v, u, c, hrun.trans (hrun'.again_head hstep), hdone, ?_, ?_, ?_⟩
      · simpa [List.append_assoc] using hc
      · simp [hys, hzs]
      · simp [hnotes, hnotes', hnote]
    · have hstep : (stage search).pass next (s, b) = .item y (t, b') := by
        rw [hpassed]
        exact congrArg (Pass.map fun c => (t, c)) hitem
      refine ⟨ys ++ y :: zs, v, u, c, hrun.trans (hrun'.item_head hstep), hdone, ?_, ?_, ?_⟩
      · simpa [List.append_assoc, hdata] using hc
      · simp [hys, hzs, herror]
      · simp [hnotes, hnotes', hnote]

omit [LawfulAggregatorTimeWeight G (V := V) (R := R)] in
/-- Behind the last bins there is a log item. -/
theorem drains_last {l : BinnedEventsTimeweightLazy V G R} (hstate : a.state = .remains)
    (hout : a.binnedEvents.output = .ok (none, l)) :
    Drains ((stage (E := E) search).pass next) (t, a) [.ok (.log noBinsReady)] := by
  have hfirst : (stage (E := E) search).own a =
      some (.item (.ok (.log noBinsReady)) { a with state := .done, binnedEvents := l }) := by
    simp only [stage, hstate, handleRemains, hout]
  have hsecond : (stage (E := E) search).own { a with state := .done, binnedEvents := l } =
      some (.done { a with state := .invalid, binnedEvents := l }) := rfl
  exact .of_item (Stage.pass_own hfirst) (.of_done (Stage.pass_own hsecond))

omit [LawfulAggregatorTimeWeight G (V := V) (R := R)] in
/-- At the end the stream hands out what the binner has, as long as it has any. -/
theorem drains_remains {c : BinnedEventsTimeweight V G R} {rest : List (Bin V R)} (hrest : c.Emptied rest)
    (hstate : a.state = .remains) (hc : a.binnedEvents.binnedEvents = some c) :
    ∃ ys, Drains ((stage (E := E) search).pass next) (t, a) ys ∧ errors2 ys = [] ∧ notes2 ys = [.inl noBinsReady] ∧
      (datas2 ys).flatten = rest := by
  induction hrest generalizing a with
  | @done c hout =>
      have hnone : a.binnedEvents.output = .ok (none, a.binnedEvents) := by
        simp [BinnedEventsTimeweightLazy.output, hc, hout]
      exact ⟨[.ok (.log noBinsReady)], drains_last hstate hnone, rfl, rfl, rfl⟩
  | @take c c' bins rest hout htake _ ih =>
      have hlen : c.out.length ≠ 0 := fun hzero => hout (List.eq_nil_of_length_eq_zero hzero)
      have hsome : a.binnedEvents.output = .ok (some bins, { a.binnedEvents with binnedEvents := some c' }) := by
        simp [BinnedEventsTimeweightLazy.output, hc, hlen, htake, Except.map]
      have hfirst : (stage (E := E) search).own a = some (.item (sitem2Data bins)
          { a with binnedEvents := { a.binnedEvents with binnedEvents := some c' } }) := by
        simp only [stage, hstate, handleRemains, hsome]
      obtain ⟨ys, hys, herrors, hnotes, hbins⟩ :=
        ih (a := { a with binnedEvents := { a.binnedEvents with binnedEvents := some c' } }) hstate rfl
      refine ⟨sitem2Data bins :: ys, .of_item (Stage.pass_own hfirst) hys, ?_, ?_, ?_⟩
      · simpa using herrors
      · simpa using hnotes
      · simp [hbins]

/-- The stream when its input has ended, with its binner -/
def atRemains (b : BinnedEventsTimeweightStream V G R) (c : BinnedEventsTimeweight V G R) :
    BinnedEventsTimeweightStream V G R :=
  { b with state := .remains, binnedEvents := { b.binnedEvents with binnedEvents := some c } }

omit [LawfulAggregatorTimeWeight G (V := V) (R := R)] in
/-- The pass at the end of the input -/
theorem Standing.pass_eos {c c' : BinnedEventsTimeweight V G R} (h : Standing search range evs bins [] b)
    (hdone : next t = .done u) (hbinner : b.binnedEvents.binnedEvents = some c)
    (hfinal : c.inputDoneRangeFinal = .ok c') :
    (stage (E := E) search).pass next (t, b) = .again (u, b.atRemains c') := by
  have heos : (handleEos b : EventsPass V G R E) = .again (b.atRemains c') := by
    simp only [handleEos, BinnedEventsTimeweightLazy.inputDoneRangeFinal, hbinner, hfinal, Except.map]
    rfl
  rw [Stage.pass_last h.own_eq hdone]
  exact congrArg (Pass.map fun c => (u, c)) heos

/-- A binner that was fed some events stands in the bin of the last one, which ends in the range. -/
theorem atEnd {c : BinnedEventsTimeweight V G R} (hfeeds : Feeds search true range evs [] bins c) (hne : evs ≠ [])
    (hpos : 0 < range.binLen) (hlt : range.nanoBeg < range.nanoEnd) :
    ∃ lst, c.lst = some lst ∧ Placed range.binLen c.innerA ∧ c.innerA.minmax.isSome ∧
      c.innerA.innerB.activeEnd ≤ range.nanoEnd ∧
        (reach (R := R) true lst range.nanoEnd c.innerA).2.length = binsLeft G range evs := by
  have hfed := hfeeds.fed
  have hcur := hfed.cur_eq rfl
  obtain ⟨lst, -, hlast⟩ := BinnedEventsTimeweight.lst_steps true (Cur.start range : Cur V G R) hne
  rw [← hcur] at hlast
  have hlst : c.lst = some lst := hlast
  have hplaced : Placed range.binLen c.innerA := by
    have hplaced := hfed.good.placed
    rw [hfed.range_eq] at hplaced
    exact hplaced hpos
  have hin : c.innerA.innerB.activeBeg < range.nanoEnd := by
    have hin := hfed.good.inRange
    rw [hfed.range_eq] at hin
    exact hin hlt
  have hle : c.innerA.innerB.activeEnd ≤ range.nanoEnd := by
    have hgrid : range.binLen ∣ range.nanoEnd := Nat.dvd_mul_right _ _
    have hlen := Nat.le_of_dvd (Nat.sub_pos_of_lt hin) (Nat.dvd_sub hgrid hplaced.aligned)
    rw [hplaced.activeEnd]
    omega
  refine ⟨lst, hlst, hplaced, ?_, hle, ?_⟩
  · rw [hfed.good.minmax, hlst]
    rfl
  · rw [length_reach hplaced hle, binsLeft, ← hcur]
    rfl

/-- The end of the input, where the bins that are left can be made: they are handed out, as many as are made in two
rounds. -/
theorem Standing.ends (h : Standing search range evs bins [] b) (hdone : next t = .done u) (hpos : 0 < range.binLen)
    (hlt : range.nanoBeg < range.nanoEnd) (hleft : evs = [] ∨ binsLeft G range evs ≠ outLenMax + 1) :
    ∃ ys, Drains ((stage (E := E) search).pass next) (t, b) ys ∧ errors2 ys = [] ∧ notes2 ys = [.inl noBinsReady] ∧
      bins ++ (datas2 ys).flatten = madeBins G (2 * (outLenMax + 1)) range evs := by
  obtain ⟨hfeeds, hnone⟩ := h.fed_all
  cases hbinner : b.binnedEvents.binnedEvents with
  | none =>
      obtain rfl := hnone hbinner
      obtain ⟨rfl, -⟩ := hfeeds.nothing
      have heos : (handleEos b : EventsPass V G R E) = .again { b with state := .remains } := by
        simp only [handleEos, BinnedEventsTimeweightLazy.inputDoneRangeFinal, hbinner]
      have hout : b.binnedEvents.output = .ok (none, b.binnedEvents) := by
        simp only [BinnedEventsTimeweightLazy.output, hbinner]
      have hpass : (stage (E := E) search).pass next (t, b) = .again (u, { b with state := .remains }) := by
        rw [Stage.pass_last h.own_eq hdone]
        exact congrArg (Pass.map fun c => (u, c)) heos
      exact ⟨[.ok (.log noBinsReady)], .of_again hpass (drains_last rfl hout), rfl, rfl, rfl⟩
  | some c =>
      have hget : b.binnedEvents.getOrInsert = c := by
        simp only [BinnedEventsTimeweightLazy.getOrInsert, hbinner, Option.getD_some]
      have hdrained := h.drained
      rw [hget] at hfeeds hdrained
      suffices hfinish : ∃ rest, c.Finishes true rest ∧ bins ++ rest = madeBins G (2 * (outLenMax + 1)) range evs by
        obtain ⟨rest, ⟨c', hfinal, hemptied⟩, hmade⟩ := hfinish
        rw [if_pos rfl] at hfinal
        have hremains : ∃ ys, Drains ((stage (E := E) search).pass next) (u, b.atRemains c') ys ∧ errors2 ys = [] ∧
            notes2 ys = [.inl noBinsReady] ∧ (datas2 ys).flatten = rest := drains_remains hemptied rfl rfl
        obtain ⟨ys, hys, herrors, hnotes, hbins⟩ := hremains
        exact ⟨ys, .of_again (h.pass_eos hdone hbinner hfinal) hys, herrors, hnotes, hbins ▸ hmade⟩
      by_cases hne : evs = []
      · subst hne
        obtain ⟨rfl, -⟩ := hfeeds.nothing
        exact ⟨[], (hfeeds.finishes_iff true).mpr ⟨fun _ => hlt, rfl⟩, rfl⟩
      · have hfed := hfeeds.fed
        have hcur := hfed.cur_eq rfl
        obtain ⟨lst, hlst, hplaced, hminmax, hle, hlength⟩ := atEnd hfeeds hne hpos hlt
        have hleft' := hleft.resolve_left hne
        rw [← hlength] at hleft'
        have hfinishes := BinnedEventsTimeweight.finishes_drained hfed.produceCntZero hfed.continueOutput hlst hplaced
          hminmax hdrained (hfed.range_eq ▸ hle) (hfed.range_eq ▸ hleft')
        rw [hfed.range_eq] at hfinishes
        refine ⟨_, hfinishes, ?_⟩
        have hbins : bins = (c.cur bins).bins := by
          rw [BinnedEventsTimeweight.cur, hdrained, List.append_nil]
        have hlst' : (c.cur bins).lst = some lst := hlst
        simp only [madeBins, ← hcur, hlst']
        rw [← hbins]
        rfl

/-- The end of the input, where the bins that are left end a round: an assertion fails. -/
theorem Standing.panics (h : Standing search range evs bins [] b) (hdone : next t = .done u) (hpos : 0 < range.binLen)
    (hlt : range.nanoBeg < range.nanoEnd) (hne : evs ≠ []) (hleft : binsLeft G range evs = outLenMax + 1) :
    Panics ((stage (E := E) search).pass next) (t, b) := by
  obtain ⟨hfeeds, hnone⟩ := h.fed_all
  cases hbinner : b.binnedEvents.binnedEvents with
  | none => exact absurd (hnone hbinner) hne
  | some c =>
      have hget : b.binnedEvents.getOrInsert = c := by
        simp only [BinnedEventsTimeweightLazy.getOrInsert, hbinner, Option.getD_some]
      have hdrained := h.drained
      rw [hget] at hfeeds hdrained
      have hfed := hfeeds.fed
      obtain ⟨lst, hlst, hplaced, hminmax, hle, hlength⟩ := atEnd hfeeds hne hpos hlt
      rw [hleft] at hlength
      have hgrid : range.binLen ∣ range.nanoEnd := Nat.dvd_mul_right _ _
      obtain ⟨c', hfinal, hout, hoverrun⟩ := BinnedEventsTimeweight.output_panics hfed.produceCntZero hlst hplaced
        hminmax hdrained (hfed.range_eq ▸ hle) (hfed.range_eq ▸ hgrid) (hfed.range_eq ▸ hlength)
      have hown : (stage (E := E) search).own (b.atRemains c') = some .panic := by
        simp [stage, atRemains, handleRemains, BinnedEventsTimeweightLazy.output, hout, hoverrun, Except.map, ofFault]
      exact ⟨[], _, Reaches.refl.again (h.pass_eos hdone hbinner hfinal), Stage.pass_own hown⟩

end BinnedEventsTimeweightStream

end Run

end Binning
end Daqbuf
