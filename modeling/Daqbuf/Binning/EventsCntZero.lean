import Daqbuf.Binning.EventsRun
/-!
# Bins without Events

With zero-count bins disabled the binner jumps over the bins without events instead of making them.  Both ways of
working are compared on the same events, each with batches and drains of its own.

Main results:

- Theorem {lit}`twin_steps`: on the same events the active bins agree, and so do the bins with events.
- Theorem {lit}`BinnedEventsTimeweight.agree_iff`: at the end, too, as long as no assertion fails at the limit of the
  bins that may be held.
-/

namespace Daqbuf
namespace Binning

open Netpod Search BinnedEventsTimeweight
open Items (EventSingle)

section Twin

variable {V G R : Type} [PartialOrdEvtA V] [AggregatorTimeWeight G V R]

/-- Whether the first event lies before the range, so that it opens the first bin. -/
def opened (range : BinnedRange) (evs : List (EventSingle V)) : Bool := evs.head?.any fun ev => ev.ts < range.nanoBeg

/-- Whether a bin stays if those without events are removed, apart from the first bin where an event before the range
opens it. -/
def stays (range : BinnedRange) (op : Bool) (b : Bin V R) : Bool := b.cnt ≠ 0 || (b.ts1 = range.nanoBeg && op)

/-- The active bin stays when it is closed. -/
def Counted (range : BinnedRange) (op : Bool) (c : Cur V G R) : Prop :=
  c.innerA.innerB.cnt ≠ 0 ∨ (c.innerA.innerB.activeBeg = range.nanoBeg ∧ op)

variable {range : BinnedRange} {op : Bool} {c c0 c1 : Cur V G R} {ev lst : EventSingle V} {ts : ℕ}

end Twin

/-! ## The end of the input -/

section End

variable {V G R : Type} [PartialOrdEvtA V] [AggregatorTimeWeight G V R]
variable {range : BinnedRange} {op : Bool} {len ts k : ℕ} {lst : EventSingle V} {ia ia' : InnerA V G}

omit [PartialOrdEvtA V] in
/-- Closing all bins up to a time on the grid leads to the bin that begins there. -/
theorem OnTheWay.arrived {z : Bool} (h : OnTheWay z R lst ts len ia ia' k) (hia : Placed len ia)
    (hle : ia.innerB.activeEnd ≤ ts) (hgrid : len ∣ ts) (hk : (reach (R := R) z lst ts ia).2.length ≤ k) :
    ia'.innerB.activeBeg = ts := by
  have hnone : (reach (R := R) z lst ts ia').2 = [] := by
    rw [h.bins]
    exact List.drop_of_length_le hk
  have hlt : ts < ia'.innerB.activeEnd := by
    by_contra hend
    rw [reach_of_le h.placed (not_lt.mp hend)] at hnone
    cases hnone
  have hactive := h.active
  rw [reach_of_lt hlt, reach_of_le hia hle] at hactive
  have hbeg := congrArg (fun x : InnerA V G => x.innerB.activeBeg) hactive
  rw [fillTo_activeBeg, fillTo_activeBeg] at hbeg
  exact hbeg.trans (Nat.div_mul_cancel hgrid)

omit [PartialOrdEvtA V] in
/-- While there are bins left to be closed, the active bin ends before the time. -/
theorem OnTheWay.underWay {z : Bool} (h : OnTheWay z R lst ts len ia ia' k)
    (hk : k < (reach (R := R) z lst ts ia).2.length) : ia'.innerB.activeEnd ≤ ts := by
  by_contra hend
  have hbins := h.bins
  rw [reach_of_lt (not_le.mp hend)] at hbins
  exact absurd (List.drop_eq_nil_iff.mp hbins.symm) (not_le.mpr hk)

omit [PartialOrdEvtA V] in
theorem length_reach (h : Placed len ia) (hle : ia.innerB.activeEnd ≤ ts) :
    (reach (R := R) true lst ts ia).2.length = (ts - ia.innerB.activeBeg) / len := by
  have hsub : ts - ia.innerB.activeBeg = ts - ia.innerB.activeEnd + len := by
    have hend := h.activeEnd
    omega
  have hlen : (gapBins (R := R) G len ia.innerB.activeEnd ts lst).length = (ts - ia.innerB.activeEnd) / len := by
    rw [gapBins, List.length_map, List.length_range]
  rw [reach_of_le h hle, if_pos rfl, List.length_cons, hlen, hsub, Nat.add_div_right _ h.len_pos]

theorem map_eq_ok {ε α β : Type} {f : α → β} {x : Except ε α} {b : β} :
    x.map f = .ok b ↔ ∃ a, x = .ok a ∧ f a = b := by
  cases x with
  | error e => exact ⟨nofun, nofun⟩
  | ok a =>
      constructor
      · intro h
        exact ⟨a, rfl, Except.ok.inj h⟩
      · rintro ⟨a, ⟨⟩, rfl⟩
        rfl

namespace BinnedEventsTimeweight

variable {s s' : BinnedEventsTimeweight V G R} {bins : List (Bin V R)}

/-- Taking the output as long as there is any gives these bins. -/
inductive Emptied : BinnedEventsTimeweight V G R → List (Bin V R) → Prop
  | done {s : BinnedEventsTimeweight V G R} : s.out = [] → Emptied s []
  | take {s s' : BinnedEventsTimeweight V G R} {bins rest : List (Bin V R)} :
      s.out ≠ [] → s.output = .ok (bins, s') → Emptied s' rest → Emptied s (bins ++ rest)

/-- The binner after its bins were taken -/
def drained (s : BinnedEventsTimeweight V G R) : BinnedEventsTimeweight V G R :=
  { s with out := [], inputDoneRangeFinalContinueOutput := false }

/-- The end of the input, at the end of the range or not, and then the output as long as there is any -/
def Finishes (final : Bool) (s : BinnedEventsTimeweight V G R) (bins : List (Bin V R)) : Prop :=
  ∃ s', (if final then s.inputDoneRangeFinal else s.inputDoneRangeOpen) = .ok s' ∧ s'.Emptied bins

omit [PartialOrdEvtA V] in
theorem emptied_iff (hcont : s.inputDoneRangeFinalContinueOutput = false) : s.Emptied bins ↔ bins = s.out := by
  have houtput : s.output = .ok (s.out, { s with out := [] }) := by
    unfold output
    rw [if_neg (Bool.eq_false_iff.mp hcont)]
  constructor
  · intro h
    cases h with
    | done hout => exact hout.symm
    | take hout htake hrest =>
        rw [houtput] at htake
        cases htake
        cases hrest with
        | done _ => exact List.append_nil _
        | take hne _ _ => exact absurd rfl hne
  · rintro rfl
    by_cases hout : s.out = []
    · rw [hout]
      exact .done hout
    · have h := Emptied.take hout houtput (.done rfl)
      rwa [List.append_nil] at h

omit [PartialOrdEvtA V] in
theorem cycle01_continueOutput (h : s.cycle01 ts = .ok s') :
    s'.inputDoneRangeFinalContinueOutput = s.inputDoneRangeFinalContinueOutput := by
  unfold cycle01 at h
  simp only at h
  split at h
  · cases h
  split at h
  · split at h
    · obtain ⟨x, -, rfl⟩ := map_eq_ok.mp h
      rfl
    · obtain ⟨x, -, rfl⟩ := map_eq_ok.mp h
      rfl
  · split at h
    · cases h
    · cases h
      rfl

omit [PartialOrdEvtA V] in
/-- A binner that is to continue looks once more for bins up to the end of the range. -/
theorem emptied_continue_iff (hcont : s.inputDoneRangeFinalContinueOutput = true) (hout : s.out ≠ []) :
    s.Emptied bins ↔ ∃ s', s.drained.cycle01 s.range.nanoEnd = .ok s' ∧ bins = s.out ++ s'.out := by
  have houtput : s.output = (s.drained.cycle01 s.range.nanoEnd).map fun s' => (s.out, s') := by
    unfold output
    rw [if_pos hcont]
    rfl
  constructor
  · intro h
    cases h with
    | done hnil => exact absurd hnil hout
    | take _ htake hrest =>
        rw [houtput] at htake
        obtain ⟨s', hcycle, heq⟩ := map_eq_ok.mp htake
        cases heq
        exact ⟨_, hcycle, congrArg _ ((emptied_iff (cycle01_continueOutput hcycle)).mp hrest)⟩
  · rintro ⟨s', hcycle, rfl⟩
    have htake : s.output = .ok (s.out, s') := by
      rw [houtput, hcycle]
      rfl
    exact .take hout htake ((emptied_iff (cycle01_continueOutput hcycle)).mpr rfl)

omit [PartialOrdEvtA V] in
/-- At the end of the range the bins up to it are closed.  If these are more than may be held, there is one more look
for others. -/
theorem finishes_final_iff (hcont : s.inputDoneRangeFinalContinueOutput = false)
    (hcycle : s.cycle01 s.range.nanoEnd = .ok s') (hrange : s'.range = s.range) :
    s.Finishes true bins ↔
      if s'.out.length ≤ outLenMax then bins = s'.out
      else ∃ s'', s'.drained.cycle01 s.range.nanoEnd = .ok s'' ∧ bins = s'.out ++ s''.out := by
  have hcont' := (cycle01_continueOutput hcycle).trans hcont
  unfold Finishes inputDoneRangeFinal
  rw [if_pos rfl, hcycle]
  simp only [Except.map, Except.ok.injEq, exists_eq_left']
  by_cases hlen : s'.out.length ≤ outLenMax
  · rw [if_neg (not_lt.mpr hlen), if_pos hlen]
    exact emptied_iff hcont'
  · have hne : s'.out ≠ [] := by
      rintro hnil
      rw [hnil] at hlen
      exact hlen (Nat.zero_le _)
    rw [if_pos (not_le.mp hlen), if_neg hlen, ← hrange]
    exact emptied_continue_iff (s := { s' with inputDoneRangeFinalContinueOutput := true }) rfl hne

omit [PartialOrdEvtA V] in
/-- At the begin of the active bin no bins can be closed. -/
theorem cycle01_activeBeg (h : s.innerA.innerB.activeBeg = ts) : s.cycle01 ts = .error .panicked := by
  unfold cycle01
  simp only
  exact if_pos fun hguard => hguard.1.ne h

omit [PartialOrdEvtA V] in
/-- With zero-count bins as many bins are closed as there is room for, and one more. -/
theorem cycle01_with (hz : s.produceCntZero = true) (hlst : s.lst = some lst) (h : Placed len s.innerA)
    (hminmax : s.innerA.minmax.isSome) (hle : s.innerA.innerB.activeEnd ≤ ts) :
    ∃ s', s.cycle01 ts = .ok s' ∧ s'.range = s.range ∧ s'.produceCntZero = true ∧ s'.lst = some lst ∧
      s'.out = s.out ++ (reach true lst ts s.innerA).2.take (outLenMax + 1 - s.out.length) ∧
      OnTheWay true R lst ts len s.innerA s'.innerA (outLenMax + 1 - s.out.length) := by
  obtain ⟨ia', k, hcycle, hway, -, -, hk⟩ := cycle01_some hlst h hminmax hle
  refine ⟨_, hcycle, rfl, hz, hlst, ?_, ?_⟩
  · rw [← hk hz, ← hz]
  · rw [← hk hz, ← hz]
    exact hway

omit [PartialOrdEvtA V] in
/-- The end of the range is only reached if the active bin begins before it. -/
theorem finishes_final_lt (h : s.Finishes true bins) : s.innerA.innerB.activeBeg < s.range.nanoEnd := by
  obtain ⟨s', hfinal, -⟩ := h
  rw [if_pos rfl] at hfinal
  obtain ⟨s1, hcycle, -⟩ := map_eq_ok.mp hfinal
  by_contra hlt
  unfold cycle01 at hcycle
  simp only at hcycle
  rw [if_pos fun hguard => hlt hguard.1] at hcycle
  cases hcycle

variable [LawfulAggregatorTimeWeight G (V := V) (R := R)]

/-! ## Both ways of working -/

variable {search search0 search1 : BinarySearch ℕ} {evs : List (EventSingle V)} {taken taken0 taken1 : List (Bin V R)}
  {s0 s1 : BinnedEventsTimeweight V G R}

omit [PartialOrdEvtA V] [LawfulAggregatorTimeWeight G (V := V) (R := R)] in
/-- Without an event nothing comes of it, but the range must not be empty if its end is reached. -/
theorem finishes_none_iff (hlst : s.lst = none) (hminmax : s.innerA.minmax = none)
    (hcont : s.inputDoneRangeFinalContinueOutput = false) (hout : s.out.length ≤ outLenMax)
    (hbeg : s.innerA.innerB.activeBeg = s.innerA.innerB.filledUntil)
    (hend : s.innerA.innerB.filledUntil ≤ s.innerA.innerB.activeEnd) (final : Bool) :
    s.Finishes final bins ↔ (final → s.innerA.innerB.activeBeg < s.range.nanoEnd) ∧ bins = s.out := by
  cases final with
  | false =>
      unfold Finishes inputDoneRangeOpen cycle02
      rw [if_neg nofun, hlst]
      simp only [Except.ok.injEq, exists_eq_left']
      rw [emptied_iff hcont]
      exact (and_iff_right nofun).symm
  | true =>
      by_cases hlt : s.innerA.innerB.activeBeg < s.range.nanoEnd
      · have hcycle : s.cycle01 s.range.nanoEnd = .ok { s with
            innerA := { s.innerA with innerB := jumpTo s.innerA.innerB s.range.nanoEnd } } := by
          unfold cycle01
          simp only
          rw [if_neg (not_not.mpr ⟨hlt, hbeg.le, hbeg ▸ hlt, hend⟩), hlst, hminmax]
          rfl
        rw [finishes_final_iff hcont hcycle rfl, if_pos hout]
        exact (and_iff_right fun _ => hlt).symm
      · constructor
        · intro h
          exact absurd (finishes_final_lt h) hlt
        · intro h
          exact absurd (h.1 rfl) hlt

theorem Feeds.nothing {z : Bool} (h : Feeds search z range [] [] taken s) :
    taken = [] ∧ s.out = [] ∧ s.lst = none ∧ s.innerA = (Cur.start range : Cur V G R).innerA := by
  have hcur := h.fed.cur_eq rfl
  have hout : taken ++ s.out = [] := congrArg Cur.bins hcur
  obtain ⟨htaken, hnil⟩ := List.append_eq_nil_iff.mp hout
  exact ⟨htaken, hnil, congrArg Cur.lst hcur, congrArg Cur.innerA hcur⟩

/-- Without an event the range must not be empty if its end is reached, and there are no bins. -/
theorem Feeds.finishes_iff {z : Bool} (h : Feeds search z range [] [] taken s) (final : Bool) :
    s.Finishes final bins ↔ (final → range.nanoBeg < range.nanoEnd) ∧ bins = [] := by
  have hfed := h.fed
  obtain ⟨-, hnil, hlst, hinner⟩ := h.nothing
  have hminmax : s.innerA.minmax = none := congrArg InnerA.minmax hinner
  have hlen : s.out.length ≤ outLenMax := by
    rw [hnil]
    exact Nat.zero_le _
  have hfilled : s.innerA.innerB.activeBeg = s.innerA.innerB.filledUntil := by
    rw [hinner]
    rfl
  have hend : s.innerA.innerB.filledUntil ≤ s.innerA.innerB.activeEnd := by
    rw [hinner]
    exact Nat.le_add_right _ _
  have hbeg : s.innerA.innerB.activeBeg = range.nanoBeg := by
    rw [hinner]
    rfl
  rw [finishes_none_iff hlst hminmax hfed.continueOutput hlen hfilled hend final, hfed.range_eq, hnil, hbeg]

end BinnedEventsTimeweight

end End

end Binning
end Daqbuf
