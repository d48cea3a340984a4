import Daqbuf.Items.ContainerEvents
import Daqbuf.Poll.Loop
/-!
# The Range Filter

{lit}`RangeFilter2` cuts a stream of containers down to a range of time.  With the one-before flag it
also lets through the last event before the range, which it has to hold back, over any number of
containers, until it knows that no later one follows.

Main results:

- Theorem {lit}`handleItem_handled`: everything that the filter can do with one container.
- Theorem {lit}`drains_outputs`: the poll loop computes a recursion on what the input delivers.
- Theorem {lit}`keepsRange_iff`: the filter keeps exactly the requested range if and only if no
  container that lies wholly behind the range arrives while the filter still looks for its first event
  inside the range.
-/

namespace Daqbuf
namespace Streams

open Netpod Items Search Poll
open ContainerEvents (slotEvents slotEvents_none slotEvents_some)

/-- {lit}`RangeFilter2`; the polled input is the script of its answers. -/
structure RangeFilter2 (T : Type*) where
  inp : Script (Sitemty T)
  range : NanoRange
  oneBefore : Bool
  oneBeforeDone : Bool := false
  stats : RangeFilterStats := {}
  slot1 : Option T := none
  slot2 : Option T := none
  haveRangeComplete : Bool := false
  inpDone : Bool := false
  racoDone : Bool := false
  done : Bool := false
  complete : Bool := false
  tsmax : ℕ := 0
  deriving DecidableEq

namespace RangeFilter2

/-- {lit}`Error` -/
inductive Error where
  | drainUnclean
  | unordered
  | logic
  deriving DecidableEq, Repr

/-- The error as a stream item. -/
def Error.toSitemErr : Error → SitemErr
  | .drainUnclean => .fromVariant "RangeFilter2" "DrainUnclean"
  | .unordered => .fromVariant "RangeFilter2" "Unordered"
  | .logic => .fromVariant "RangeFilter2" "Logic"

/-! ## The filter -/

section Filter

variable {T : Type*} [MergeableTy T]

/-- {lit}`new` -/
def new (inp : Script (Sitemty T)) (range : NanoRange) (oneBefore : Bool) : RangeFilter2 T :=
  { inp := inp, range := range, oneBefore := oneBefore }

/-- {lit}`prune_high`: drops the events from {lit}`ts` on.  An unclean drain is only logged. -/
def pruneHigh (s : RangeFilter2 T) (item : T) (ts : ℕ) : T × RangeFilter2 T :=
  let n := MergeableTy.len item
  match MergeableTy.findHighestIndexLt item ts with
  | some ihlt =>
      if ihlt + 1 = n then
        (item, { s with stats := { s.stats with
          itemsNoPruneHigh := s.stats.itemsNoPruneHigh + 1 } })
      else
        ((MergeableTy.drainIntoNew item (ihlt + 1) n).2, { s with stats := { s.stats with
          itemsPartPruneHigh := s.stats.itemsPartPruneHigh + 1 } })
  | none =>
      ((MergeableTy.drainIntoNew item 0 n).2, { s with stats := { s.stats with
        itemsAllPruneHigh := s.stats.itemsAllPruneHigh + 1 } })

/-- {lit}`handle_item` -/
def handleItem (s : RangeFilter2 T) (item : T) : Except Error (Option T) × RangeFilter2 T :=
  match MergeableTy.tsMin item, MergeableTy.tsMax item with
  | some min, some max =>
      if min < s.tsmax then
        (.error .unordered, s)
      else
        let s := { s with tsmax := max }
        let (item, s) := s.pruneHigh item s.range.fin
        if s.oneBefore && !s.oneBeforeDone then
          match MergeableTy.findLowestIndexGe item s.range.beg with
          | some ilge =>
              let s := { s with oneBeforeDone := true }
              if ilge = 0 then
                match s.slot1 with
                | some sl1 => (.ok (some sl1), { s with slot1 := none, slot2 := some item })
                | none => (.ok (some item), s)
              else
                match MergeableTy.drainIntoNew item 0 (ilge - 1) with
                | (.done _, item) => (.ok (some item), { s with slot1 := none })
                | (.partially _, _) => (.error .drainUnclean, s)
                | (.notCompatible, _) => (.error .drainUnclean, s)
          | none =>
              let n := MergeableTy.len item
              if n = 0 then
                (.error .logic, s)
              else
                match MergeableTy.drainIntoNew item (n - 1) n with
                | (.done keep, _) => (.ok none, { s with slot1 := some keep })
                | (.partially _, _) => (.error .drainUnclean, s)
                | (.notCompatible, _) => (.error .drainUnclean, s)
        else
          match MergeableTy.findLowestIndexGe item s.range.beg with
          | some ilge =>
              if ilge = 0 then
                (.ok (some item), s)
              else
                let s := { s with stats := { s.stats with
                  itemsPruneLow := s.stats.itemsPruneLow + 1 } }
                match MergeableTy.drainIntoNew item 0 ilge with
                | (.done _, item) =>
                    if MergeableTy.len item = 0 then (.ok none, s) else (.ok (some item), s)
                | (.partially _, _) => (.error .drainUnclean, s)
                | (.notCompatible, _) => (.error .drainUnclean, s)
          | none => (.ok none, s)
  | _, _ =>
      (.ok none, { s with stats := { s.stats with recvEmpty := s.stats.recvEmpty + 1 } })

/-- The branch of {lit}`poll_next` that polls the input. -/
def pollInp (s : RangeFilter2 T) : Pass (RangeFilter2 T) (Sitemty T) :=
  match s.inp with
  | .ready (sitemData item) :: rest =>
      match { s with inp := rest }.handleItem item with
      | (.ok (some item), s) => .item (sitemData item) s
      | (.ok none, s) => .again s
      | (.error e, s) => .item (.error e.toSitemErr) { s with inpDone := true }
  | .ready sitemRangeComplete :: rest => .again { s with inp := rest, haveRangeComplete := true }
  | .ready k :: rest => .item k { s with inp := rest }
  | [] =>
      let s := { s with inpDone := true }
      match s.slot1 with
      | some sl1 => .item (sitemData sl1) { s with slot1 := none }
      | none => .again s
  | .pending :: rest => .pending { s with inp := rest }

/-- One pass of {lit}`poll_next`. -/
def pollNext (s : RangeFilter2 T) : Pass (RangeFilter2 T) (Sitemty T) :=
  if s.complete then
    .item (sitemErrFromString "poll next on complete") s
  else if s.done then
    .done { s with complete := true }
  else if s.racoDone then
    .item (.ok (.stats (.rangeFilterStats s.stats))) { s with done := true, stats := {} }
  else if s.inpDone then
    let s := { s with racoDone := true }
    if s.haveRangeComplete then .item sitemRangeComplete s else .again s
  else
    match s.slot2 with
    | some item => .item (sitemData item) { s with slot2 := none }
    | none => s.pollInp

end Filter

/-! ## What the filter is for -/

section Spec

variable {V : Type*}

/-- The event lies inside the range. -/
abbrev Inside (range : NanoRange) (ev : EventSingle V) : Prop :=
  range.beg ≤ ev.ts ∧ ev.ts < range.fin

/-- The events inside the range. -/
def inside (range : NanoRange) (evs : List (EventSingle V)) : List (EventSingle V) :=
  evs.filter fun ev => Inside range ev

/-- The last event of a list, as a list. -/
def lastOf (evs : List (EventSingle V)) : List (EventSingle V) := evs.getLast?.toList

/-- The events that are to be kept: with the one-before flag the last event before the range, then
the events inside of it. -/
def kept (range : NanoRange) (oneBefore : Bool) (evs : List (EventSingle V)) :
    List (EventSingle V) :=
  (if oneBefore then lastOf (evs.filter fun ev => ev.ts < range.beg) else []) ++ inside range evs

/-- The filter did what it is for. -/
structure KeepsRange (range : NanoRange) (oneBefore : Bool)
    (input output : List (Sitemty (ContainerEvents V))) : Prop where
  no_error : errors output = []
  events : ContainerEvents.eventsOf (datas output) =
    kept range oneBefore (ContainerEvents.eventsOf (datas input))
  range_complete : completes output = if 0 < completes input then 1 else 0
  complete_last : CompleteIsLast output

/-- With the one-before flag set, no event lies between the end and the begin of an inverted range,
and unless some event lies inside the range, every container that holds events holds one from before
the range end. -/
def FirstInsideInTime (range : NanoRange) (oneBefore : Bool) (batches : List (ContainerEvents V)) :
    Prop :=
  oneBefore = true →
    (∀ ev ∈ ContainerEvents.eventsOf batches, ¬ (range.fin ≤ ev.ts ∧ ev.ts < range.beg)) ∧
      ((∃ ev ∈ ContainerEvents.eventsOf batches, Inside range ev) ∨
        ∀ batch ∈ batches, batch.evs ≠ [] → ∃ ev ∈ batch.evs, ev.ts < range.fin)

end Spec

/-! ## One item -/

section Cut

variable {T ε : Type*} (view : T → List ε) (ts : ε → ℕ)

/-- The entries of a slot. -/
def slotView (slot : Option T) : List ε := slot.toList.flatMap view

variable {view} in
@[simp]
theorem slotView_none : slotView view none = [] := rfl

variable {view} in
@[simp]
theorem slotView_some (item : T) : slotView view (some item) = view item := by
  simp [slotView]

variable [MergeableTy T]

/-- Searching and draining an item is cutting the list of its entries. -/
structure Cuttable (item : T) (beg : ℕ) : Prop where
  find_none : MergeableTy.findLowestIndexGe item beg = none → ∀ e ∈ view item, ts e < beg
  find_some : ∀ i, MergeableTy.findLowestIndexGe item beg = some i →
    i < (view item).length ∧ (view item).take i = (view item).filter (fun e => ts e < beg) ∧
      (view item).drop i = (view item).filter fun e => beg ≤ ts e
  drain_front : ∀ i < (view item).length, ∃ x rest,
    MergeableTy.drainIntoNew item 0 i = (.done x, rest) ∧ view rest = (view item).drop i
  drain_last : view item ≠ [] → ∃ keep rest,
    MergeableTy.drainIntoNew item ((view item).length - 1) (view item).length = (.done keep, rest) ∧
      view keep = (view item).getLast?.toList

/-- What {lit}`handle_item` can do with an item, when {lit}`pruned` is what is left of it before the range end. -/
inductive Cut (s : RangeFilter2 T) (pruned : T) (tsmax : ℕ) : Except Error (Option T) × RangeFilter2 T → Prop
  /-- the filter is seeking, and nothing is left -/
  | high (stats : RangeFilterStats) (hseek : s.oneBefore = true ∧ s.oneBeforeDone = false) (hnil : view pruned = []) :
      Cut s pruned tsmax (.error .logic, { s with stats := stats, tsmax := tsmax })
  /-- the filter is seeking, and all that is left precedes the range -/
  | hold (stats : RangeFilterStats) (hseek : s.oneBefore = true ∧ s.oneBeforeDone = false) (hne : view pruned ≠ [])
      (hbefore : ∀ e ∈ view pruned, ts e < s.range.beg) (keep rest : T)
      (hdrain : MergeableTy.drainIntoNew pruned ((view pruned).length - 1) (view pruned).length = (.done keep, rest))
      (hkeep : view keep = (view pruned).getLast?.toList) :
      Cut s pruned tsmax (.ok none, { s with stats := stats, tsmax := tsmax, slot1 := some keep })
  /-- the filter is seeking, and finds its first entry -/
  | found (stats : RangeFilterStats) (hseek : s.oneBefore = true ∧ s.oneBeforeDone = false) (out : T) (slot2 : Option T)
      (hfound : (view pruned).filter (fun e => s.range.beg ≤ ts e) ≠ [])
      (hentries : view out ++ slotView view slot2 =
        (slotView view s.slot1 ++ (view pruned).filter fun e => ts e < s.range.beg).getLast?.toList ++
          (view pruned).filter fun e => s.range.beg ≤ ts e) :
      Cut s pruned tsmax (.ok (some out), { s with
        stats := stats, tsmax := tsmax, oneBeforeDone := true, slot1 := none, slot2 := slot2 })
  /-- the filter is not seeking -/
  | pass (stats : RangeFilterStats) (hseek : ¬ (s.oneBefore = true ∧ s.oneBeforeDone = false)) (out : Option T)
      (hentries : slotView view out = (view pruned).filter fun e => s.range.beg ≤ ts e) :
      Cut s pruned tsmax (.ok out, { s with stats := stats, tsmax := tsmax })

variable {view ts} {s : RangeFilter2 T} {item pruned : T} {stats : RangeFilterStats} {min max : ℕ}

/-- Everything that the filter can do with an item that can be cut. -/
theorem handleItem_cut (hlen : ∀ x : T, MergeableTy.len x = (view x).length) (hcut : Cuttable view ts pruned s.range.beg)
    (hmin : MergeableTy.tsMin item = some min) (hmax : MergeableTy.tsMax item = some max) (hle : s.tsmax ≤ min)
    (hprune : { s with tsmax := max }.pruneHigh item s.range.fin = (pruned, { s with tsmax := max, stats := stats }))
    (hslot : (slotView view s.slot1).length ≤ 1) (hslot2 : s.slot2 = none) :
    Cut view ts s pruned max (s.handleItem item) := by
  simp only [handleItem, hmin, hmax, if_neg (not_lt.mpr hle), hprune]
  by_cases hseek : s.oneBefore = true ∧ s.oneBeforeDone = false
  · rw [if_pos (by simp [hseek.1, hseek.2])]
    cases hfind : MergeableTy.findLowestIndexGe pruned s.range.beg with
    | some ilge =>
        obtain ⟨hlt, htake, hdrop⟩ := hcut.find_some ilge hfind
        have hfound : (view pruned).filter (fun e => s.range.beg ≤ ts e) ≠ [] := by
          rw [← hdrop, ne_eq, List.drop_eq_nil_iff, not_le]
          exact hlt
        simp only
        by_cases hzero : ilge = 0
        · subst ilge
          rw [List.take_zero] at htake
          rw [List.drop_zero] at hdrop
          rw [if_pos rfl]
          cases hslot1 : s.slot1 with
          | some sl1 =>
              rw [hslot1, slotView_some] at hslot
              refine .found stats hseek sl1 (some pruned) hfound ?_
              rw [slotView_some, hslot1, slotView_some, ← htake, ← hdrop, List.append_nil]
              -- the held item has one entry at most
              rcases hview : view sl1 with _ | ⟨e, _ | ⟨e', es⟩⟩
              · rfl
              · rfl
              · simp [hview] at hslot
          | none =>
              refine (Cut.found (s := s) stats hseek pruned s.slot2 hfound ?_)
              rw [hslot1, hslot2, slotView_none, List.append_nil, ← htake, ← hdrop]
              rfl
        · rw [if_neg hzero]
          obtain ⟨x, rest, hdrain, hrest⟩ := hcut.drain_front (ilge - 1) (by omega)
          rw [hdrain]
          refine .found stats hseek rest s.slot2 hfound ?_
          have hpred : ilge - 1 + 1 = ilge := by omega
          have hsplit := List.take_succ_eq_append_getElem (show ilge - 1 < (view pruned).length by omega)
          rw [hpred] at hsplit
          rw [hslot2, slotView_none, List.append_nil, hrest, ← htake, ← hdrop, hsplit, ← List.append_assoc,
            List.getLast?_concat, List.drop_eq_getElem_cons (show ilge - 1 < (view pruned).length by omega), hpred]
          rfl
    | none =>
        simp only [hlen]
        by_cases hnil : view pruned = []
        · rw [if_pos (by rw [hnil]; rfl)]
          exact .high stats hseek hnil
        · rw [if_neg (by simpa using hnil)]
          obtain ⟨keep, rest, hdrain, hkeep⟩ := hcut.drain_last hnil
          rw [hdrain]
          exact .hold stats hseek hnil (hcut.find_none hfind) keep rest hdrain hkeep
  · rw [if_neg (by simpa using hseek)]
    cases hfind : MergeableTy.findLowestIndexGe pruned s.range.beg with
    | some ilge =>
        obtain ⟨hlt, -, hdrop⟩ := hcut.find_some ilge hfind
        simp only
        by_cases hzero : ilge = 0
        · subst ilge
          exact .pass stats hseek (some pruned) (by rw [slotView_some, ← hdrop, List.drop_zero])
        · rw [if_neg hzero]
          obtain ⟨x, rest, hdrain, hrest⟩ := hcut.drain_front ilge hlt
          rw [hdrain]
          simp only [hlen]
          by_cases hnil : view rest = []
          · rw [if_pos (by rw [hnil]; rfl)]
            exact .pass _ hseek none (by rw [slotView_none, ← hdrop, ← hrest, hnil])
          · rw [if_neg (by simpa using hnil)]
            exact .pass _ hseek (some rest) (by rw [slotView_some, ← hdrop, ← hrest])
    | none =>
        refine .pass stats hseek none ?_
        rw [slotView_none, eq_comm, List.filter_eq_nil_iff]
        intro e he
        simpa using hcut.find_none hfind e he

end Cut

/-! ## One container -/

section HandleItem

variable {V : Type*}

/-- The filter still looks for its first event inside the range. -/
abbrev Seeking {T : Type*} (s : RangeFilter2 T) : Prop :=
  s.oneBefore = true ∧ s.oneBeforeDone = false

/-- An event of the inside is in the list, and conversely when it lies inside the range. -/
theorem mem_inside {range : NanoRange} {evs : List (EventSingle V)} {ev : EventSingle V} :
    ev ∈ inside range evs ↔ ev ∈ evs ∧ Inside range ev := by
  simp [inside]

/-- The part from the range begin on of what precedes the range end is the inside. -/
theorem filter_ge_filter_lt (range : NanoRange) (evs : List (EventSingle V)) :
    (evs.filter fun ev => ev.ts < range.fin).filter (fun ev => range.beg ≤ ev.ts) =
      inside range evs := by
  simp [inside, List.filter_filter]

/-- When something lies inside the range, all that precedes the range precedes its end. -/
theorem filter_lt_filter_lt {range : NanoRange} {evs : List (EventSingle V)}
    (hinside : inside range evs ≠ []) :
    (evs.filter fun ev => ev.ts < range.fin).filter (fun ev => ev.ts < range.beg) =
      evs.filter fun ev => ev.ts < range.beg := by
  rcases List.exists_mem_of_ne_nil _ hinside with ⟨ev, hev⟩
  rcases mem_inside.mp hev with ⟨_, hbeg, hfin⟩
  rw [List.filter_filter]
  refine List.filter_congr fun e _ => ?_
  by_cases hlt : e.ts < range.beg
  · have hlt' : e.ts < range.fin := by omega
    simp [hlt, hlt']
  · simp [hlt]

/-- The last event behind some others is that of the part that is not empty. -/
theorem lastOf_append_of_ne_nil (xs : List (EventSingle V)) {ys : List (EventSingle V)}
    (hne : ys ≠ []) : lastOf (xs ++ ys) = lastOf ys := by
  simp [lastOf, List.getLast?_append_of_ne_nil xs hne]

/-- The last event of a list that ends in it. -/
@[simp]
theorem lastOf_concat (xs : List (EventSingle V)) (ev : EventSingle V) :
    lastOf (xs ++ [ev]) = [ev] := by
  simp [lastOf]

variable [EventValueType V]

/-- Pruning keeps the events before the bound. -/
theorem pruneHigh_eq (s : RangeFilter2 (ContainerEvents V)) {item : ContainerEvents V} (ts : ℕ)
    (hsorted : TsSorted item.evs) :
    ∃ stats, s.pruneHigh item ts =
      ({ item with evs := item.evs.filter fun ev => ev.ts < ts }, { s with stats := stats }) := by
  unfold pruneHigh
  simp only [ContainerEvents.mergeable_findHighestIndexLt, ContainerEvents.mergeable_len,
    ContainerEvents.mergeable_drainIntoNew]
  cases hfind : item.findHighestIndexLt ts with
  | some ihlt =>
      rcases ContainerEvents.findHighestIndexLt_eq_some hsorted hfind with ⟨_, htake, _⟩
      by_cases hlen : ihlt + 1 = item.len
      · have hall : item.evs.filter (fun ev => ev.ts < ts) = item.evs := by
          rw [← htake, hlen]
          exact List.take_length
        exact ⟨_, (if_pos hlen).trans (by rw [hall])⟩
      · exact ⟨_, (if_neg hlen).trans (by rw [ContainerEvents.drainIntoNew_suffix, htake])⟩
  | none =>
      have hhigh := (ContainerEvents.findHighestIndexLt_eq_none hsorted).mp hfind
      have hnil : item.evs.filter (fun ev => ev.ts < ts) = [] := by
        rw [List.filter_eq_nil_iff]
        intro ev hev
        simpa using hhigh ev hev
      have hdrain : (item.drainIntoNew 0 item.len).2 = { item with evs := [] } := by
        simp [ContainerEvents.len]
      exact ⟨_, by rw [hdrain, hnil]⟩

/-- What {lit}`handle_item` can do with an ordered container that is not earlier than what came
before. -/
inductive Handled (s : RangeFilter2 (ContainerEvents V)) (item : ContainerEvents V) :
    Except Error (Option (ContainerEvents V)) × RangeFilter2 (ContainerEvents V) → Prop
  /-- the container is empty -/
  | empty (stats : RangeFilterStats) (hempty : item.evs = []) :
      Handled s item (.ok none, { s with stats := stats })
  /-- all that precedes the range end precedes the range as well, its last event is held back -/
  | hold (stats : RangeFilterStats) (tsmax : ℕ) (hlast : ∃ ev ∈ item.evs, ev.ts = tsmax)
      (hseek : s.Seeking) (init : List (EventSingle V))
      (ev : EventSingle V) (hlow : item.evs.filter (fun ev => ev.ts < s.range.fin) = init ++ [ev])
      (hinside : inside s.range item.evs = []) :
      Handled s item
        (.ok none, { s with stats := stats, tsmax := tsmax, slot1 := some { evs := [ev] } })
  /-- nothing precedes the range end while the filter is still seeking -/
  | high (stats : RangeFilterStats) (tsmax : ℕ) (hseek : s.Seeking) (hne : item.evs ≠ [])
      (hhigh : ∀ ev ∈ item.evs, s.range.fin ≤ ev.ts) :
      Handled s item (.error .logic, { s with stats := stats, tsmax := tsmax })
  /-- the first event inside the range is found -/
  | found (stats : RangeFilterStats) (tsmax : ℕ) (hlast : ∃ ev ∈ item.evs, ev.ts = tsmax)
      (hseek : s.Seeking)
      (out : ContainerEvents V) (slot2 : Option (ContainerEvents V))
      (hinside : inside s.range item.evs ≠ [])
      (hevents : out.evs ++ slotEvents slot2 =
        lastOf (slotEvents s.slot1 ++ item.evs.filter fun ev => ev.ts < s.range.beg) ++
          inside s.range item.evs) :
      Handled s item (.ok (some out), { s with
        stats := stats, tsmax := tsmax, oneBeforeDone := true, slot1 := none, slot2 := slot2 })
  /-- the filter is not seeking, the events inside the range pass -/
  | pass (stats : RangeFilterStats) (tsmax : ℕ) (hlast : ∃ ev ∈ item.evs, ev.ts = tsmax)
      (hseek : ¬ s.Seeking)
      (out : Option (ContainerEvents V)) (hevents : slotEvents out = inside s.range item.evs) :
      Handled s item (.ok out, { s with stats := stats, tsmax := tsmax })

/-- An ordered container can be cut. -/
theorem cuttable_of_sorted {item : ContainerEvents V} (beg : ℕ) (hsorted : TsSorted item.evs) :
    Cuttable ContainerEvents.evs EventSingle.ts item beg where
  find_none := ContainerEvents.findLowestIndexGe_eq_none.mp
  find_some _ := ContainerEvents.findLowestIndexGe_eq_some hsorted
  drain_front i _ := ⟨_, _, ContainerEvents.drainIntoNew_prefix item i, rfl⟩
  drain_last hne := by
    refine ⟨_, _, ContainerEvents.drainIntoNew_suffix item _, ?_⟩
    rcases (List.eq_nil_or_concat item.evs).resolve_left hne with ⟨init, ev, hconcat⟩
    simp [hconcat]

/-- Everything that the filter can do with one container. -/
theorem handleItem_handled (s : RangeFilter2 (ContainerEvents V)) (item : ContainerEvents V)
    (hsorted : TsSorted item.evs) (hlow : ∀ ev ∈ item.evs, s.tsmax ≤ ev.ts)
    (hslot : slotEvents s.slot1 = lastOf (slotEvents s.slot1)) (hslot2 : s.slot2 = none) :
    Handled s item (s.handleItem item) := by
  by_cases hempty : item.evs = []
  · have hmin := ContainerEvents.tsMin_eq_none.mpr hempty
    simp only [handleItem, ContainerEvents.mergeable_tsMin, hmin]
    exact .empty _ hempty
  rcases List.exists_cons_of_ne_nil hempty with ⟨ev0, rest, hcons⟩
  rcases List.eq_nil_or_concat item.evs |>.resolve_left hempty with ⟨init, evN, hconcat⟩
  have hmin : item.tsMin = some ev0.ts := ContainerEvents.tsMin_eq_some.mpr ⟨ev0, rest, hcons, rfl⟩
  have hmax : item.tsMax = some evN.ts :=
    ContainerEvents.tsMax_eq_some.mpr ⟨init, evN, by simpa using hconcat, rfl⟩
  have hlow0 : s.tsmax ≤ ev0.ts := hlow ev0 (by simp [hcons])
  have hlast : ∃ ev ∈ item.evs, ev.ts = evN.ts := ⟨evN, by simp [hconcat], rfl⟩
  have hone : (slotView ContainerEvents.evs s.slot1).length ≤ 1 := by
    change (slotEvents s.slot1).length ≤ 1
    rw [hslot, lastOf]
    exact Option.length_toList_le
  rcases pruneHigh_eq { s with tsmax := evN.ts } s.range.fin hsorted with ⟨stats, hprune⟩
  have hcut := handleItem_cut (fun _ => rfl)
    (cuttable_of_sorted s.range.beg (hsorted.sublist List.filter_sublist)) hmin hmax hlow0 hprune hone hslot2
  generalize hP : item.evs.filter (fun ev => ev.ts < s.range.fin) = P at hcut
  have hin : P.filter (fun ev => s.range.beg ≤ ev.ts) = inside s.range item.evs := by
    rw [← hP, filter_ge_filter_lt]
  generalize s.handleItem item = result at hcut
  cases hcut with
  | high stats hseek hnil =>
      refine .high stats evN.ts hseek hempty fun ev hev => ?_
      change P = [] at hnil
      rw [← hP, List.filter_eq_nil_iff] at hnil
      simpa using hnil ev hev
  | hold stats hseek hne hbefore keep rest hdrain hkeep =>
      rcases (List.eq_nil_or_concat P).resolve_left hne with ⟨low, ev, rfl⟩
      rw [List.concat_eq_append] at hP
      have hinside : inside s.range item.evs = [] := by
        rw [← hin, List.filter_eq_nil_iff]
        intro e he
        simpa using hbefore e he
      have hdrained := ContainerEvents.drainIntoNew_suffix { item with evs := low.concat ev } ((low.concat ev).length - 1)
      have hkept : keep = { evs := [ev] } := by
        have heq := (Prod.mk.inj (hdrain.symm.trans hdrained)).1
        simpa using heq
      subst hkept
      exact .hold stats evN.ts hlast hseek low ev hP hinside
  | found stats hseek out slot2 hfound hentries =>
      have hinside : inside s.range item.evs ≠ [] := hin ▸ hfound
      refine .found stats evN.ts hlast hseek out slot2 hinside (hentries.trans ?_)
      rw [← filter_lt_filter_lt hinside, hP, ← hin]
      rfl
  | pass stats hseek out hentries =>
      exact .pass stats evN.ts hlast hseek out (hentries.trans hin)

end HandleItem

/-! ## The loop as a recursion on its input -/

section Loop

variable {T : Type*} [MergeableTy T]

/-- No stage of the ending has begun. -/
structure Running (s : RangeFilter2 T) : Prop where
  inp_done : s.inpDone = false
  raco_done : s.racoDone = false
  done : s.done = false
  complete : s.complete = false

/-- The items that end the stream. -/
def ending (s : RangeFilter2 T) : List (Sitemty T) :=
  (if s.haveRangeComplete then [sitemRangeComplete] else []) ++
    [.ok (.stats (.rangeFilterStats s.stats))]

/-- The items that the filter hands out when its input delivers the given script. -/
def outputs (s : RangeFilter2 T) : Script (Sitemty T) → List (Sitemty T)
  | .ready (sitemData item) :: rest =>
      match { s with inp := rest }.handleItem item with
      | (.ok out, s) =>
          (out.toList ++ s.slot2.toList).map (fun x => sitemData x) ++
            outputs { s with slot2 := none } rest
      | (.error e, s) => .error e.toSitemErr :: ending s
  | .ready sitemRangeComplete :: rest =>
      outputs { s with inp := rest, haveRangeComplete := true } rest
  | .ready k :: rest => k :: outputs { s with inp := rest } rest
  | .pending :: rest => outputs { s with inp := rest } rest
  | [] => s.slot1.toList.map (fun x => sitemData x) ++ ending s

/-- Handling a container touches neither the input nor the stages of the ending. -/
theorem handleItem_frame (s : RangeFilter2 T) (item : T) :
    ∃ oneBeforeDone stats slot1 slot2 tsmax, (s.handleItem item).2 = { s with
      oneBeforeDone := oneBeforeDone, stats := stats, slot1 := slot1, slot2 := slot2,
      tsmax := tsmax } := by
  have hprune : ∀ (s : RangeFilter2 T) ts, ∃ stats, (s.pruneHigh item ts).2 =
      { s with stats := stats } := by
    intro s ts
    simp only [pruneHigh]
    split
    · split
      · exact ⟨_, rfl⟩
      · exact ⟨_, rfl⟩
    · exact ⟨_, rfl⟩
  unfold handleItem
  split
  · rename_i min max _ _
    split
    · exact ⟨_, _, _, _, _, rfl⟩
    · rcases hprune { s with tsmax := max } s.range.fin with ⟨stats, hstats⟩
      simp only
      generalize { s with tsmax := max }.pruneHigh item s.range.fin = pruned at hstats
      rcases pruned with ⟨item, s'⟩
      simp only at hstats
      subst s'
      repeat' (first | exact ⟨_, _, _, _, _, rfl⟩ | split)
  · exact ⟨_, _, _, _, _, rfl⟩

/-- Once the input is done, the filter hands out the ending. -/
theorem drains_ending {s : RangeFilter2 T} (hinp : s.inpDone = true) (hraco : s.racoDone = false)
    (hdone : s.done = false) (hcomplete : s.complete = false) : Drains pollNext s (ending s) := by
  have hend : Drains pollNext { s with racoDone := true, done := true, stats := {} } [] := by
    refine .of_done (t := { s with racoDone := true, done := true, stats := {}, complete := true }) ?_
    simp [pollNext, hcomplete]
  have hstats : Drains pollNext { s with racoDone := true }
      [.ok (.stats (.rangeFilterStats s.stats))] := by
    refine .of_item ?_ hend
    simp [pollNext, hdone, hcomplete]
  cases hhave : s.haveRangeComplete with
  | true =>
      have hpass : pollNext s = .item sitemRangeComplete { s with racoDone := true } := by
        simp [pollNext, hinp, hraco, hdone, hcomplete, hhave]
      simpa [ending, hhave] using Drains.of_item hpass hstats
  | false =>
      have hpass : pollNext s = .again { s with racoDone := true } := by
        simp [pollNext, hinp, hraco, hdone, hcomplete, hhave]
      simpa [ending, hhave] using Drains.of_again hpass hstats

/-- While the filter runs with an empty second slot, it polls its input. -/
theorem pollNext_running {s : RangeFilter2 T} (hrun : s.Running) (hslot2 : s.slot2 = none) :
    pollNext s = s.pollInp := by
  simp [pollNext, hrun.inp_done, hrun.raco_done, hrun.done, hrun.complete, hslot2]

/-- While the filter runs, the second slot is handed out before the input is polled. -/
theorem drains_slot2 {s : RangeFilter2 T} (hrun : s.Running) {rest : List (Sitemty T)}
    (hrest : Drains pollNext { s with slot2 := none } rest) :
    Drains pollNext s (s.slot2.toList.map (fun x => sitemData x) ++ rest) := by
  rcases hrun with ⟨hinp, hraco, hdone, hcomplete⟩
  cases hslot2 : s.slot2 with
  | none =>
      have hsame : { s with slot2 := none } = s := by rw [← hslot2]
      rw [hsame] at hrest
      simpa using hrest
  | some item =>
      have hpass : pollNext s = .item (sitemData item) { s with slot2 := none } := by
        simp [pollNext, hinp, hraco, hdone, hcomplete, hslot2]
      simpa using Drains.of_item hpass hrest

/-- The poll loop hands out what the recursion on its input computes. -/
theorem drains_outputs (script : Script (Sitemty T)) (s : RangeFilter2 T) (hrun : s.Running)
    (hinp : s.inp = script) (hslot2 : s.slot2 = none) : Drains pollNext s (outputs s script) := by
  induction script generalizing s with
  | nil =>
      have hend : Drains pollNext { s with inpDone := true, slot1 := none } (ending s) :=
        drains_ending rfl hrun.raco_done hrun.done hrun.complete
      cases hslot1 : s.slot1 with
      | none =>
          have hpass : pollNext s = .again { s with inpDone := true, slot1 := none } := by
            simp [pollNext_running hrun hslot2, pollInp, hinp, hslot1]
          simpa [outputs, hslot1] using Drains.of_again hpass hend
      | some sl1 =>
          have hpass : pollNext s =
              .item (sitemData sl1) { s with inpDone := true, slot1 := none } := by
            simp [pollNext_running hrun hslot2, pollInp, hinp, hslot1]
          simpa [outputs, hslot1] using Drains.of_item hpass hend
  | cons answer rest ih =>
      have hnext := ih { s with inp := rest } ⟨hrun.1, hrun.2, hrun.3, hrun.4⟩ rfl hslot2
      have hpass : pollNext s = pollInp { s with inp := answer :: rest } := by
        rw [pollNext_running hrun hslot2, ← hinp]
      rcases answer with _ | ⟨e | ⟨⟨⟩ | item⟩ | x | x⟩
      · exact .of_pending hpass hnext
      · exact .of_item hpass hnext
      · exact .of_again hpass (ih { s with inp := rest, haveRangeComplete := true }
          ⟨hrun.1, hrun.2, hrun.3, hrun.4⟩ rfl hslot2)
      · rcases handleItem_frame { s with inp := rest } item with
          ⟨oneBeforeDone, stats, slot1, slot2, tsmax, hframe⟩
        have houtputs : outputs s (.ready (sitemData item) :: rest) =
          match { s with inp := rest }.handleItem item with
          | (.ok out, s) =>
              (out.toList ++ s.slot2.toList).map (fun x => sitemData x) ++
                outputs { s with slot2 := none } rest
          | (.error e, s) => .error e.toSitemErr :: ending s := rfl
        have hpass : pollNext s =
          match { s with inp := rest }.handleItem item with
          | (.ok (some item), s) => .item (sitemData item) s
          | (.ok none, s) => .again s
          | (.error e, s) => .item (.error e.toSitemErr) { s with inpDone := true } := hpass
        rw [houtputs]
        generalize { s with inp := rest }.handleItem item = result at hpass hframe
        rcases result with ⟨e | out, s'⟩ <;> simp only at hframe hpass ⊢
        · subst s'
          exact .of_item hpass (drains_ending rfl hrun.raco_done hrun.done hrun.complete)
        · subst s'
          have hrun' : Running { s with
              inp := rest, oneBeforeDone := oneBeforeDone, stats := stats, slot1 := slot1,
              slot2 := slot2, tsmax := tsmax } := ⟨hrun.1, hrun.2, hrun.3, hrun.4⟩
          have hrest := drains_slot2 hrun' (ih { s with
            inp := rest, oneBeforeDone := oneBeforeDone, stats := stats, slot1 := slot1,
            slot2 := none, tsmax := tsmax } ⟨hrun.1, hrun.2, hrun.3, hrun.4⟩ rfl rfl)
          simp only [List.map_append, List.append_assoc]
          cases out with
          | none => exact .of_again hpass hrest
          | some out => exact .of_item hpass hrest
      · exact .of_item hpass hnext
      · exact .of_item hpass hnext

end Loop

/-! ## What the filter hands out -/

section Run

variable {V : Type*}

/-- The filter is between two polls of its input, which still delivers the given events. -/
structure Consistent (s : RangeFilter2 (ContainerEvents V)) (evs : List (EventSingle V)) : Prop where
  slot1_last : slotEvents s.slot1 = lastOf (slotEvents s.slot1)
  slot1_seeking : ¬ s.Seeking → s.slot1 = none
  slot2_none : s.slot2 = none
  sorted : TsSorted evs
  tsmax_le : ∀ ev ∈ evs, s.tsmax ≤ ev.ts

/-- Consistency depends neither on the input nor on the range-complete flag. -/
theorem Consistent.frame {s : RangeFilter2 (ContainerEvents V)} {evs : List (EventSingle V)}
    (hcons : Consistent s evs) (inp : Script (Sitemty (ContainerEvents V))) (have_ : Bool) :
    Consistent { s with inp := inp, haveRangeComplete := have_ } evs :=
  ⟨hcons.1, hcons.2, hcons.3, hcons.4, hcons.5⟩

/-- The filter is consistent again after it handled a container and emptied the second slot. -/
theorem Handled.consistent {s s' : RangeFilter2 (ContainerEvents V)} {item : ContainerEvents V}
    {out : Option (ContainerEvents V)} {evs : List (EventSingle V)}
    (hhandled : Handled s item (.ok out, s')) (hcons : Consistent s (item.evs ++ evs)) :
    Consistent { s' with slot2 := none } evs := by
  rcases hcons with ⟨hlast, hseeking, hslot2, hsorted, htsmax⟩
  rcases sortedBy_append.mp hsorted with ⟨_, hsorted', hcross⟩
  have hbound : ∀ tsmax, (∃ ev ∈ item.evs, ev.ts = tsmax) → ∀ ev ∈ evs, tsmax ≤ ev.ts := by
    rintro tsmax ⟨ev, hev, rfl⟩ ev' hev'
    exact hcross ev hev ev' hev'
  cases hhandled with
  | empty stats hempty =>
      exact ⟨hlast, hseeking, rfl, hsorted', fun ev hev => htsmax ev (by simp [hev])⟩
  | hold stats tsmax hmem hseek init ev hlow hinside =>
      exact ⟨by simp [lastOf], fun hnot => (hnot hseek).elim, rfl, hsorted', hbound tsmax hmem⟩
  | found stats tsmax hmem hseek out slot2 hinside hevents =>
      exact ⟨by simp [lastOf], fun _ => rfl, rfl, hsorted', hbound tsmax hmem⟩
  | pass stats tsmax hmem hseek out hevents =>
      exact ⟨hlast, hseeking, rfl, hsorted', hbound tsmax hmem⟩

/-- The events that the filter still owes its caller. -/
def owed (s : RangeFilter2 (ContainerEvents V)) (evs : List (EventSingle V)) :
    List (EventSingle V) :=
  (if s.Seeking then lastOf (slotEvents s.slot1 ++ evs.filter fun ev => ev.ts < s.range.beg)
    else []) ++ inside s.range evs

/-- What is in time stays in time behind a container that held nothing inside the range. -/
theorem FirstInsideInTime.tail {range : NanoRange} {oneBefore : Bool} {item : ContainerEvents V}
    {batches : List (ContainerEvents V)}
    (htime : FirstInsideInTime range oneBefore (item :: batches))
    (hinside : inside range item.evs = []) : FirstInsideInTime range oneBefore batches := by
  intro hone
  rcases htime hone with ⟨hproper, hfirst⟩
  refine ⟨fun ev hev => hproper ev (by simp [hev]), ?_⟩
  rcases hfirst with ⟨ev, hev, hin⟩ | hall
  · rcases List.mem_append.mp (by simpa using hev) with hev | hev
    · have hmem := mem_inside.mpr ⟨hev, hin⟩
      simp [hinside] at hmem
    · exact .inl ⟨ev, hev, hin⟩
  · exact .inr fun batch hbatch => hall batch (by simp [hbatch])

/-- What is owed depends neither on the input nor on the range-complete flag. -/
@[simp]
theorem owed_frame (s : RangeFilter2 (ContainerEvents V)) (evs : List (EventSingle V))
    (inp : Script (Sitemty (ContainerEvents V))) (have_ : Bool) :
    owed { s with inp := inp, haveRangeComplete := have_ } evs = owed s evs := rfl

/-- A container in which all that precedes the range end precedes the range is owed by its last such
event. -/
theorem owed_hold {s : RangeFilter2 (ContainerEvents V)} {evs evs' init : List (EventSingle V)}
    {ev : EventSingle V} (hseek : s.Seeking)
    (hlow : evs.filter (fun ev => ev.ts < s.range.fin) = init ++ [ev])
    (hproper : ∀ ev ∈ evs, ¬ (s.range.fin ≤ ev.ts ∧ ev.ts < s.range.beg))
    (hinside : inside s.range evs = []) :
    owed s (evs ++ evs') = lastOf (ev :: evs'.filter fun ev => ev.ts < s.range.beg) ++
      inside s.range evs' := by
  have hbefore : evs.filter (fun ev => ev.ts < s.range.beg) = init ++ [ev] := by
    rw [← hlow]
    refine List.filter_congr fun e he => ?_
    have hmem : e ∉ inside s.range evs := by simp [hinside]
    have hnot : ¬ Inside s.range e := fun hin => hmem (mem_inside.mpr ⟨he, hin⟩)
    have hproper := hproper e he
    have hiff : e.ts < s.range.beg ↔ e.ts < s.range.fin := by omega
    simp [hiff]
  have hsplit : inside s.range (evs ++ evs') = inside s.range evs' := by
    simpa [inside] using hinside
  rw [owed, if_pos hseek, hsplit, List.filter_append, hbefore]
  have happend : slotEvents s.slot1 ++ ((init ++ [ev]) ++ evs'.filter fun ev => ev.ts < s.range.beg) =
      (slotEvents s.slot1 ++ init) ++ (ev :: evs'.filter fun ev => ev.ts < s.range.beg) := by simp
  rw [happend, lastOf_append_of_ne_nil _ (List.cons_ne_nil _ _)]

/-- Behind a container with an event inside the range nothing precedes the range. -/
theorem owed_found {s : RangeFilter2 (ContainerEvents V)} {evs evs' : List (EventSingle V)}
    (hseek : s.Seeking) (hsorted : TsSorted (evs ++ evs')) (hinside : inside s.range evs ≠ []) :
    owed s (evs ++ evs') =
      (lastOf (slotEvents s.slot1 ++ evs.filter fun ev => ev.ts < s.range.beg) ++
        inside s.range evs) ++ inside s.range evs' := by
  rcases List.exists_mem_of_ne_nil _ hinside with ⟨ev, hev⟩
  rcases mem_inside.mp hev with ⟨hev, hbeg, _⟩
  have hnone : evs'.filter (fun ev => ev.ts < s.range.beg) = [] := by
    rw [List.filter_eq_nil_iff]
    intro ev' hev'
    have hle := (sortedBy_append.mp hsorted).2.2 ev hev ev' hev'
    simpa using hbeg.trans hle
  simp [owed, hseek, hnone, inside]

/-- Handling a container moves what it hands out from what the filter owes. -/
theorem Handled.owed {s s' : RangeFilter2 (ContainerEvents V)} {item : ContainerEvents V}
    {out : Option (ContainerEvents V)} {evs : List (EventSingle V)}
    (hhandled : Handled s item (.ok out, s')) (hcons : Consistent s (item.evs ++ evs))
    (hproper : s.Seeking → ∀ ev ∈ item.evs, ¬ (s.range.fin ≤ ev.ts ∧ ev.ts < s.range.beg)) :
    s.owed (item.evs ++ evs) =
      slotEvents out ++ slotEvents s'.slot2 ++ RangeFilter2.owed { s' with slot2 := none } evs := by
  have hslot2 : slotEvents s.slot2 = [] := by rw [hcons.slot2_none, slotEvents_none]
  cases hhandled with
  | empty stats hempty => simp [hempty, hslot2, RangeFilter2.owed]
  | hold stats tsmax hmem hseek init ev hlow hinside =>
      rw [owed_hold hseek hlow (hproper hseek) hinside, slotEvents_none, hslot2]
      simp [RangeFilter2.owed, if_pos hseek]
  | found stats tsmax hmem hseek out slot2 hinside hevents =>
      rw [owed_found hseek hcons.sorted hinside, ← hevents, slotEvents_some]
      simp [RangeFilter2.owed]
  | pass stats tsmax hmem hseek out hevents =>
      simp [RangeFilter2.owed, if_neg hseek, hevents, hslot2, inside]

/-- What is in time stays in time when a container is handled. -/
theorem Handled.inTime {s s' : RangeFilter2 (ContainerEvents V)} {item : ContainerEvents V}
    {out : Option (ContainerEvents V)} {batches : List (ContainerEvents V)}
    (hhandled : Handled s item (.ok out, s'))
    (htime : FirstInsideInTime s.range (s.oneBefore && !s.oneBeforeDone) (item :: batches)) :
    FirstInsideInTime s'.range (s'.oneBefore && !s'.oneBeforeDone) batches := by
  cases hhandled with
  | empty stats hempty => exact htime.tail (by simp [hempty, inside])
  | hold stats tsmax hmem hseek init ev hlow hinside => exact htime.tail hinside
  | found stats tsmax hmem hseek out slot2 hinside hevents =>
      intro hone
      simp at hone
  | pass stats tsmax hmem hseek out hevents =>
      intro hone
      exact (hseek (by simpa using hone)).elim

/-- When the first event inside the range comes in time, no container is too high. -/
theorem Handled.no_error {s s' : RangeFilter2 (ContainerEvents V)} {item : ContainerEvents V}
    {e : Error} {batches : List (ContainerEvents V)}
    (hsorted : TsSorted (item.evs ++ ContainerEvents.eventsOf batches))
    (htime : FirstInsideInTime s.range (s.oneBefore && !s.oneBeforeDone) (item :: batches)) :
    ¬ Handled s item (.error e, s') := by
  intro hhandled
  cases hhandled with
  | high stats tsmax hseek hne hhigh =>
      rcases (htime (by simp [hseek.1, hseek.2])).2 with ⟨ev, hev, _, hfin⟩ | hall
      · rcases List.mem_append.mp (by simpa using hev) with hev | hev
        · exact absurd hfin (hhigh ev hev).not_gt
        · rcases List.exists_mem_of_ne_nil _ hne with ⟨first, hfirst⟩
          have hle := (sortedBy_append.mp hsorted).2.2 first hfirst ev hev
          have hhigh := hhigh first hfirst
          omega
      · rcases hall item (by simp) hne with ⟨ev, hev, hfin⟩
        exact absurd hfin (hhigh ev hev).not_gt

/-- A container without an event inside the range leaves a filter seeking, unless it is too high. -/
theorem Handled.seeking {s s' : RangeFilter2 (ContainerEvents V)} {item : ContainerEvents V}
    {out : Option (ContainerEvents V)} (hhandled : Handled s item (.ok out, s')) (hseek : s.Seeking)
    (hnone : ∀ ev ∈ item.evs, ¬ Inside s.range ev) :
    s'.Seeking ∧ (item.evs ≠ [] → ∃ ev ∈ item.evs, ev.ts < s.range.fin) := by
  cases hhandled with
  | empty stats hempty => exact ⟨hseek, fun hne => (hne hempty).elim⟩
  | hold stats tsmax hmem _ init ev hlow hinside =>
      have hev : ev ∈ item.evs.filter fun ev => ev.ts < s.range.fin := by simp [hlow]
      rw [List.mem_filter] at hev
      exact ⟨hseek, fun _ => ⟨ev, hev.1, by simpa using hev.2⟩⟩
  | found stats tsmax hmem _ out slot2 hinside hevents =>
      rcases List.exists_mem_of_ne_nil _ hinside with ⟨ev, hev⟩
      rw [mem_inside] at hev
      exact (hnone ev hev.1 hev.2).elim
  | pass stats tsmax hmem hnot out hevents => exact (hnot hseek).elim

/-- The last event of a list is in the list. -/
theorem mem_of_mem_lastOf {evs : List (EventSingle V)} {ev : EventSingle V} (hev : ev ∈ lastOf evs) :
    ev ∈ evs := by
  rw [lastOf, Option.mem_toList] at hev
  exact List.mem_of_getLast? hev

/-- What is handed out or held back precedes the range end. -/
theorem Handled.lt_fin {s s' : RangeFilter2 (ContainerEvents V)} {item : ContainerEvents V}
    {out : Option (ContainerEvents V)} (hhandled : Handled s item (.ok out, s'))
    (hslot2 : s.slot2 = none) (hslot : ∀ ev ∈ slotEvents s.slot1, ev.ts < s.range.fin) :
    (∀ ev ∈ slotEvents out ++ slotEvents s'.slot2, ev.ts < s.range.fin) ∧
      ∀ ev ∈ slotEvents s'.slot1, ev.ts < s.range.fin := by
  cases hhandled with
  | empty stats hempty => exact ⟨by simp [hslot2], hslot⟩
  | hold stats tsmax hmem hseek init ev hlow hinside =>
      have hev : ev ∈ item.evs.filter fun ev => ev.ts < s.range.fin := by simp [hlow]
      rw [List.mem_filter] at hev
      exact ⟨by simp [hslot2], by simpa using hev.2⟩
  | found stats tsmax hmem hseek out slot2 hinside hevents =>
      refine ⟨?_, by simp⟩
      intro ev hev
      rw [slotEvents_some, hevents] at hev
      rcases List.mem_append.mp hev with hev | hev
      · rcases List.mem_append.mp (mem_of_mem_lastOf hev) with hev | hev
        · exact hslot ev hev
        · rw [← filter_lt_filter_lt hinside, List.mem_filter, List.mem_filter] at hev
          simpa using hev.1.2
      · exact (mem_inside.mp hev).2.2
  | pass stats tsmax hmem hseek out hevents =>
      refine ⟨?_, hslot⟩
      intro ev hev
      simp only [hslot2, slotEvents_none, List.append_nil, hevents] at hev
      exact (mem_inside.mp hev).2.2

variable [EventValueType V]

/-- What is handed out for a container, and the state that is left. -/
theorem outputs_data (s : RangeFilter2 (ContainerEvents V)) (item : ContainerEvents V)
    (rest : Script (Sitemty (ContainerEvents V))) {evs : List (EventSingle V)}
    (hcons : Consistent s (item.evs ++ evs)) :
    (∃ e s', Handled { s with inp := rest } item (.error e, s') ∧
        outputs s (.ready (sitemData item) :: rest) = .error e.toSitemErr :: ending s') ∨
      ∃ out s', Handled { s with inp := rest } item (.ok out, s') ∧
        Consistent { s' with slot2 := none } evs ∧
        s'.haveRangeComplete = s.haveRangeComplete ∧ s'.range = s.range ∧
        outputs s (.ready (sitemData item) :: rest) =
          (out.toList ++ s'.slot2.toList).map (fun x => sitemData x) ++
            outputs { s' with slot2 := none } rest := by
  have hcons1 := hcons.frame rest s.haveRangeComplete
  have hhandled := handleItem_handled { s with inp := rest } item
    (sortedBy_append.mp hcons.sorted).1 (fun ev hev => hcons.tsmax_le ev (by simp [hev]))
    hcons.slot1_last hcons.slot2_none
  rcases handleItem_frame { s with inp := rest } item with ⟨_, _, _, _, _, hstate⟩
  simp only [outputs]
  generalize { s with inp := rest }.handleItem item = result at hhandled hstate
  rcases result with ⟨e | out, s'⟩
  · exact .inl ⟨e, s', hhandled, rfl⟩
  · refine .inr ⟨out, s', hhandled, hhandled.consistent hcons1, ?_, ?_, rfl⟩
    · exact (congrArg haveRangeComplete hstate :)
    · exact (congrArg range hstate :)

/-- A filter that is in time hands out what it owes and no error, then the range-complete marker when
it received one, then its statistics. -/
theorem outputs_eq_owed (script : Script (Sitemty (ContainerEvents V)))
    (s : RangeFilter2 (ContainerEvents V))
    (hcons : Consistent s (ContainerEvents.eventsOf (datas script.items)))
    (htime : FirstInsideInTime s.range (s.oneBefore && !s.oneBeforeDone) (datas script.items))
    (herr : errors script.items = []) :
    ∃ pre stats, outputs s script = pre ++
        (if s.haveRangeComplete ∨ 0 < completes script.items then [sitemRangeComplete] else []) ++
          [.ok (.stats stats)] ∧
      errors pre = [] ∧ completes pre = 0 ∧
      ContainerEvents.eventsOf (datas pre) =
        owed s (ContainerEvents.eventsOf (datas script.items)) := by
  induction script generalizing s with
  | nil =>
      refine ⟨s.slot1.toList.map (fun x => sitemData x), .rangeFilterStats s.stats,
        by simp [outputs, ending], ?_, ?_, ?_⟩
      · cases s.slot1 <;> simp
      · cases s.slot1 <;> simp
      · have hlast := hcons.slot1_last
        have hseeking := hcons.slot1_seeking
        by_cases hseek : s.Seeking
        · cases hslot1 : s.slot1 with
          | none => simp [owed, inside, hslot1, lastOf]
          | some c =>
              rw [hslot1] at hlast
              simpa [owed, inside, hslot1, if_pos hseek] using hlast
        · simp [owed, inside, hseek, hseeking hseek]
  | cons answer rest ih =>
      rcases answer with _ | ⟨e | ⟨⟨⟩ | item⟩ | x | x⟩
      · exact ih { s with inp := rest } (hcons.frame _ _) htime herr
      · simp at herr
      · have hrest := ih { s with inp := rest, haveRangeComplete := true } (hcons.frame _ _) htime
          (by simpa using herr)
        rw [owed_frame] at hrest
        simpa [outputs] using hrest
      · simp only [Script.items_ready, datas_cons, data?_data, Option.toList_some,
          List.singleton_append, ContainerEvents.eventsOf_cons] at hcons htime ⊢
        rcases outputs_data s item rest hcons with ⟨e, s', hhandled, _⟩ |
          ⟨out, s', hhandled, hcons', hflag, _, hout⟩
        · exact (Handled.no_error (s := { s with inp := rest }) hcons.sorted htime hhandled).elim
        · have howed := hhandled.owed (hcons.frame rest s.haveRangeComplete)
            (fun hseek ev hev => (htime (by simpa using hseek)).1 ev (by simp [hev]))
          rw [owed_frame] at howed
          rcases ih _ hcons' (hhandled.inTime htime) (by simpa using herr) with
            ⟨pre, stats, hrest, herrs, hcompl, hevents⟩
          refine ⟨(out.toList ++ s'.slot2.toList).map (fun x => sitemData x) ++ pre, stats,
            ?_, ?_, ?_, ?_⟩
          · rw [hout, hrest, ← hflag]
            simp
          · simpa using herrs
          · simpa using hcompl
          · rw [howed, datas_append, datas_map_data, ContainerEvents.eventsOf_append, hevents,
              ContainerEvents.eventsOf_append]
            rfl
      · rcases ih { s with inp := rest } (hcons.frame _ _) htime (by simpa using herr) with
          ⟨pre, stats, hout, hpre⟩
        rw [owed_frame] at hpre
        exact ⟨.ok (.log x) :: pre, stats, by simp [outputs, hout], by simpa using hpre⟩
      · rcases ih { s with inp := rest } (hcons.frame _ _) htime (by simpa using herr) with
          ⟨pre, stats, hout, hpre⟩
        rw [owed_frame] at hpre
        exact ⟨.ok (.stats x) :: pre, stats, by simp [outputs, hout], by simpa using hpre⟩

/-- Without any event inside the range, a container that is too high is answered by an error. -/
theorem errors_outputs_ne_nil (script : Script (Sitemty (ContainerEvents V)))
    (s : RangeFilter2 (ContainerEvents V))
    (hcons : Consistent s (ContainerEvents.eventsOf (datas script.items))) (hseek : s.Seeking)
    (hnone : ∀ ev ∈ ContainerEvents.eventsOf (datas script.items), ¬ Inside s.range ev)
    (hhigh : ∃ batch ∈ datas script.items, batch.evs ≠ [] ∧
      ∀ ev ∈ batch.evs, s.range.fin ≤ ev.ts) :
    errors (outputs s script) ≠ [] := by
  induction script generalizing s with
  | nil => simp at hhigh
  | cons answer rest ih =>
      rcases answer with _ | ⟨e | ⟨⟨⟩ | item⟩ | x | x⟩
      · exact ih { s with inp := rest } (hcons.frame _ _) hseek hnone hhigh
      · simp [outputs]
      · exact ih { s with inp := rest, haveRangeComplete := true } (hcons.frame _ _) hseek hnone hhigh
      · simp only [Script.items_ready, datas_cons, data?_data, Option.toList_some,
          List.singleton_append, ContainerEvents.eventsOf_cons] at hcons hnone hhigh
        rcases outputs_data s item rest hcons with ⟨e, s', _, hout⟩ |
          ⟨out, s', hhandled, hcons', _, hrange, hout⟩
        · simp [hout]
        · rcases hhandled.seeking hseek (fun ev hev => hnone ev (by simp [hev])) with
            ⟨hseek', hlow⟩
          rw [hout, errors_append, errors_map_data, List.nil_append]
          refine ih _ hcons' hseek' (fun ev hev => ?_) ?_
          · simpa [hrange] using hnone ev (by simp [hev])
          · rcases hhigh with ⟨batch, hbatch, hne, hfin⟩
            rcases List.mem_cons.mp hbatch with rfl | hbatch
            · rcases hlow hne with ⟨ev, hev, hlt⟩
              exact absurd hlt (hfin ev hev).not_gt
            · exact ⟨batch, hbatch, hne, by simpa [hrange] using hfin⟩
      · simpa [outputs] using ih { s with inp := rest } (hcons.frame _ _) hseek hnone hhigh
      · simpa [outputs] using ih { s with inp := rest } (hcons.frame _ _) hseek hnone hhigh

/-- Every event that the filter hands out precedes the range end. -/
theorem outputs_lt_fin (script : Script (Sitemty (ContainerEvents V)))
    (s : RangeFilter2 (ContainerEvents V))
    (hcons : Consistent s (ContainerEvents.eventsOf (datas script.items)))
    (hslot : ∀ ev ∈ slotEvents s.slot1, ev.ts < s.range.fin) :
    ∀ ev ∈ ContainerEvents.eventsOf (datas (outputs s script)), ev.ts < s.range.fin := by
  induction script generalizing s with
  | nil =>
      cases hslot1 : s.slot1 with
      | none => cases hflag : s.haveRangeComplete <;> simp [outputs, ending, hslot1, hflag]
      | some c =>
          rw [hslot1] at hslot
          cases hflag : s.haveRangeComplete <;> simpa [outputs, ending, hslot1, hflag] using hslot
  | cons answer rest ih =>
      rcases answer with _ | ⟨e | ⟨⟨⟩ | item⟩ | x | x⟩
      · exact ih { s with inp := rest } (hcons.frame _ _) hslot
      · simpa [outputs] using ih { s with inp := rest } (hcons.frame _ _) hslot
      · exact ih { s with inp := rest, haveRangeComplete := true } (hcons.frame _ _) hslot
      · simp only [Script.items_ready, datas_cons, data?_data, Option.toList_some,
          List.singleton_append, ContainerEvents.eventsOf_cons] at hcons
        rcases outputs_data s item rest hcons with ⟨e, s', _, hout⟩ |
          ⟨out, s', hhandled, hcons', _, hrange, hout⟩
        · rw [hout]
          cases hflag : s'.haveRangeComplete <;> simp [ending, hflag]
        · rcases hhandled.lt_fin hcons.slot2_none hslot with ⟨hnow, hslot'⟩
          intro ev hev
          rw [hout, datas_append, datas_map_data, ContainerEvents.eventsOf_append,
            ContainerEvents.eventsOf_append] at hev
          rcases List.mem_append.mp hev with hev | hev
          · exact hnow ev hev
          · rw [← hrange]
            exact ih _ hcons' (by simpa [hrange] using hslot') ev hev
      · simpa [outputs] using ih { s with inp := rest } (hcons.frame _ _) hslot
      · simpa [outputs] using ih { s with inp := rest } (hcons.frame _ _) hslot

end Run

/-! ## The requested range -/

section Correct

variable {V : Type*}

/-- The fresh filter is consistent with any ordered input. -/
theorem consistent_new [EventValueType V] (script : Script (Sitemty (ContainerEvents V)))
    (range : NanoRange) (oneBefore : Bool) {evs : List (EventSingle V)} (hsorted : TsSorted evs) :
    Consistent (new script range oneBefore) evs :=
  ⟨by simp [new, lastOf], fun _ => rfl, rfl, hsorted, fun _ _ => Nat.zero_le _⟩

/-- The shape of the outcome of a filter that is in time is what it is for. -/
theorem KeepsRange.of_shape {range : NanoRange} {oneBefore : Bool}
    {input pre : List (Sitemty (ContainerEvents V))} (stats : StatsItem) (herrs : errors pre = [])
    (hcompl : completes pre = 0) (hevents : ContainerEvents.eventsOf (datas pre) =
      kept range oneBefore (ContainerEvents.eventsOf (datas input))) :
    KeepsRange range oneBefore input (pre ++
      (if 0 < completes input then [sitemRangeComplete] else []) ++ [.ok (.stats stats)]) := by
  by_cases hinput : 0 < completes input
  · refine ⟨?_, ?_, ?_, ?_⟩
    · simp [hinput, herrs]
    · simp [hinput, hevents]
    · simp [hinput, hcompl]
    · rw [if_pos hinput, List.append_assoc]
      exact completeIsLast_append_cons hcompl (by simp) (by simp)
  · refine ⟨?_, ?_, ?_, ?_⟩
    · simp [hinput, herrs]
    · simp [hinput, hevents]
    · simp [hinput, hcompl]
    · exact completeIsLast_of_completes_eq_zero (by simp [hinput, hcompl])

/-- In an inverted range, the last event before the range begin does not precede the range end when
some event lies between the two. -/
theorem exists_kept_not_lt_fin {range : NanoRange} {evs : List (EventSingle V)} {ev : EventSingle V}
    (hsorted : TsSorted evs) (hev : ev ∈ evs) (hfin : range.fin ≤ ev.ts) (hbeg : ev.ts < range.beg) :
    ∃ last ∈ kept range true evs, range.fin ≤ last.ts := by
  have hmem : ev ∈ evs.filter fun ev => ev.ts < range.beg := by simp [hev, hbeg]
  have hne : evs.filter (fun ev => ev.ts < range.beg) ≠ [] := List.ne_nil_of_mem hmem
  rcases (List.eq_nil_or_concat _).resolve_left hne with ⟨init, last, hlast⟩
  rw [List.concat_eq_append] at hlast
  refine ⟨last, by simp [kept, hlast], ?_⟩
  have hle := (hsorted.sublist List.filter_sublist).le_getLast hmem last (by simp [hlast])
  omega

variable [EventValueType V]

/-- The filter keeps exactly the requested range if and only if it finds its first event inside the
range in time. -/
theorem keepsRange_iff (script : Script (Sitemty (ContainerEvents V))) (range : NanoRange)
    (oneBefore : Bool) (hsorted : TsSorted (ContainerEvents.eventsOf (datas script.items)))
    (herr : errors script.items = []) :
    ∃ output, Drains pollNext (new script range oneBefore) output ∧
      (KeepsRange range oneBefore script.items output ↔
        FirstInsideInTime range oneBefore (datas script.items)) := by
  have hdrains : Drains pollNext (new script range oneBefore)
      (outputs (new script range oneBefore) script) :=
    drains_outputs script _ ⟨rfl, rfl, rfl, rfl⟩ rfl rfl
  have hcons := consistent_new script range oneBefore hsorted
  refine ⟨_, hdrains, ?_, ?_⟩
  · -- otherwise the filter reports an error, or hands out a wrong event before an inverted range
    intro hkeeps hone
    subst oneBefore
    have hproper : ∀ ev ∈ ContainerEvents.eventsOf (datas script.items),
        ¬ (range.fin ≤ ev.ts ∧ ev.ts < range.beg) := by
      rintro ev hev ⟨hfin, hbeg⟩
      rcases exists_kept_not_lt_fin hsorted hev hfin hbeg with ⟨last, hlast, hlastfin⟩
      rw [← hkeeps.events] at hlast
      exact absurd (outputs_lt_fin script _ hcons (by simp [new]) last hlast) hlastfin.not_gt
    refine ⟨hproper, ?_⟩
    by_contra hlate
    push Not at hlate
    rcases hlate with ⟨hnone, hhigh⟩
    refine errors_outputs_ne_nil script _ hcons ⟨rfl, rfl⟩ ?_ hhigh hkeeps.no_error
    rintro ev hev ⟨hbeg, hfin⟩
    exact hnone ev hev ⟨hbeg, hfin⟩
  · intro htime
    rcases outputs_eq_owed script (new script range oneBefore) hcons
      (by simpa [new] using htime) herr with ⟨pre, stats, hout, herrs, hcompl, hevents⟩
    have howed : owed (new script range oneBefore)
        (ContainerEvents.eventsOf (datas script.items)) =
        kept range oneBefore (ContainerEvents.eventsOf (datas script.items)) := by
      cases oneBefore with
      | false => simp [owed, kept, new]
      | true =>
          rw [owed, if_pos ⟨rfl, rfl⟩, kept, if_pos rfl]
          rfl
    rw [hout]
    simpa [new] using KeepsRange.of_shape stats herrs hcompl (hevents.trans howed)

/-- The equivalence on an input where the one event before the range is carried over a batch. -/
theorem keepsRange_iff_carried :
    ∃ output, Drains pollNext (new (T := ContainerEvents UInt64)
        [.ready (sitemData { evs := [⟨5, 1⟩] }), .pending, .ready (sitemData { evs := [⟨12, 2⟩] }),
          .ready sitemRangeComplete] ⟨10, 20⟩ true) output ∧
      (KeepsRange (V := UInt64) ⟨10, 20⟩ true
          [sitemData { evs := [⟨5, 1⟩] }, sitemData { evs := [⟨12, 2⟩] }, sitemRangeComplete] output ↔
        FirstInsideInTime ⟨10, 20⟩ true
          [({ evs := [⟨5, 1⟩] } : ContainerEvents UInt64), { evs := [⟨12, 2⟩] }]) :=
  keepsRange_iff _ _ _ (by simp [SortedBy]) rfl

/-- With the range from 10 to 20, an event at 5 and, in the next container, one at 25, the filter
reports a logic error and loses the event before the range. -/
theorem not_keepsRange_high_batch :
    TsSorted (ContainerEvents.eventsOf
      [({ evs := [⟨5, 1⟩] } : ContainerEvents UInt64), { evs := [⟨25, 2⟩] }]) ∧
    ∃ output, Drains pollNext (new (T := ContainerEvents UInt64)
        [.ready (sitemData { evs := [⟨5, 1⟩] }), .ready (sitemData { evs := [⟨25, 2⟩] })]
        ⟨10, 20⟩ true) output ∧
      ¬ KeepsRange (V := UInt64) ⟨10, 20⟩ true
        [sitemData { evs := [⟨5, 1⟩] }, sitemData { evs := [⟨25, 2⟩] }] output := by
  refine ⟨by simp [SortedBy], _, drive_drains 8 rfl, fun hkeeps => ?_⟩
  have herr := hkeeps.no_error
  simp at herr

end Correct

end RangeFilter2

end Streams
end Daqbuf
