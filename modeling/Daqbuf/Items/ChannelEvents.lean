import Daqbuf.Items.ContainerEvents
/-!
# Channel Events

A {lit}`ChannelEvents` item is a batch of events, or one change of the connection status.  The batches
have values of different types, which the source tells apart at run time; here the type is an index.

Main results:

- Theorems {lit}`tsMin_eq` and {lit}`tsMax_eq`: the timestamps that merging looks at are those of the
  first and the last entry.
- Theorem {lit}`isMonotonic_of_timeOrdered`: items whose entries are in order pass the check of the
  merger.
-/

namespace Daqbuf
namespace Items

open Netpod Search

/-- {lit}`ConnStatus` -/
inductive ConnStatus where
  | connect
  | disconnect
  deriving DecidableEq, Repr

/-- {lit}`ConnStatusEvent`; the date is in milliseconds since the epoch. -/
structure ConnStatusEvent where
  ts : ℕ
  datetime : ℕ
  status : ConnStatus
  deriving DecidableEq, Repr

/-- {lit}`new` -/
def ConnStatusEvent.new (ts : ℕ) (status : ConnStatus) : ConnStatusEvent :=
  { ts := ts, datetime := ts / 1000000, status := status }

/-- {lit}`byte_estimate` of a status. -/
def ConnStatusEvent.byteEstimate (_ : ConnStatusEvent) : UInt32 := 32

/-- {lit}`ChannelEvents` -/
inductive ChannelEvents {κ : Type*} (V : κ → Type*) where
  | events (k : κ) (c : ContainerEvents (V k))
  | status (x : Option ConnStatusEvent)

/-- One entry of a stream of channel events. -/
inductive Entry {κ : Type*} (V : κ → Type*) where
  | event (k : κ) (ev : EventSingle (V k))
  | status (st : ConnStatusEvent)

namespace Entry

variable {κ : Type*} {V : κ → Type*}

/-- The timestamp of an entry. -/
def ts : Entry V → ℕ
  | event _ ev => ev.ts
  | status st => st.ts

/-- The entry is a data event. -/
def isEvent : Entry V → Bool
  | event _ _ => true
  | status _ => false

@[simp] theorem ts_event (k : κ) (ev : EventSingle (V k)) : ts (event k ev) = ev.ts := rfl
@[simp] theorem ts_status (st : ConnStatusEvent) : ts (status st : Entry V) = st.ts := rfl
@[simp] theorem isEvent_event (k : κ) (ev : EventSingle (V k)) : isEvent (event k ev) = true := rfl
@[simp] theorem isEvent_status (st : ConnStatusEvent) : isEvent (status st : Entry V) = false := rfl

end Entry

namespace ChannelEvents

variable {κ : Type*} {V : κ → Type*}

/-! ## Operations -/

/-- {lit}`is_events` -/
def isEvents : ChannelEvents V → Bool
  | events _ _ => true
  | status _ => false

/-- {lit}`len` -/
def len : ChannelEvents V → ℕ
  | events _ c => c.len
  | status (some _) => 1
  | status none => 0

/-- {lit}`byte_estimate` -/
def byteEstimate [∀ k, EventValueType (V k)] : ChannelEvents V → UInt32 × ChannelEvents V
  | events k c => (c.byteEstimate.1, events k c.byteEstimate.2)
  | status (some st) => (st.byteEstimate, status (some st))
  | status none => (0, status none)

/-- {lit}`ts_min` -/
def tsMin : ChannelEvents V → Option ℕ
  | events _ c => c.tsMin
  | status (some st) => some st.ts
  | status none => none

/-- {lit}`ts_max` -/
def tsMax : ChannelEvents V → Option ℕ
  | events _ c => c.tsMax
  | status (some st) => some st.ts
  | status none => none

/-- {lit}`find_lowest_index_gt` -/
def findLowestIndexGt : ChannelEvents V → ℕ → Option ℕ
  | events _ c, ts => c.findLowestIndexGt ts
  | status (some st), ts => if st.ts > ts then some 0 else none
  | status none, _ => none

/-- {lit}`find_lowest_index_ge` -/
def findLowestIndexGe : ChannelEvents V → ℕ → Option ℕ
  | events _ c, ts => c.findLowestIndexGe ts
  | status (some st), ts => if st.ts ≥ ts then some 0 else none
  | status none, _ => none

/-- {lit}`find_highest_index_lt` -/
def findHighestIndexLt : ChannelEvents V → ℕ → Option ℕ
  | events _ c, ts => c.findHighestIndexLt ts
  | status (some st), ts => if st.ts < ts then some 0 else none
  | status none, _ => none

/-- {lit}`drain_into`; the containers of two value types are not compatible. -/
def drainInto [DecidableEq κ] (src dst : ChannelEvents V) (beg fin : ℕ) :
    DrainIntoDstResult × ChannelEvents V × ChannelEvents V :=
  match src, dst with
  | events k c, events j d =>
      if h : j = k then
        let (res, c, d) := c.drainInto (h ▸ d) beg fin
        (res, events k c, events k d)
      else
        (.notCompatible, src, dst)
  | events _ _, status _ => (.notCompatible, src, dst)
  | status _, events _ _ => (.notCompatible, src, dst)
  | status _, status (some _) => (.partially, src, dst)
  | status x, status none => (.done, status none, status x)

/-- {lit}`drain_into_new`; a status is copied. -/
def drainIntoNew (src : ChannelEvents V) (beg fin : ℕ) :
    DrainIntoNewResult (ChannelEvents V) × ChannelEvents V :=
  match src with
  | events k c =>
      match c.drainIntoNew beg fin with
      | (.done x, c) => (.done (events k x), events k c)
      | (.partially x, c) => (.partially (events k x), events k c)
      | (.notCompatible, c) => (.notCompatible, events k c)
  | status x => (.done (status x), status x)

/-- Draining a batch drains its container. -/
theorem drainIntoNew_events {k : κ} {c x rest : ContainerEvents (V k)} {beg fin : ℕ}
    (hdrain : c.drainIntoNew beg fin = (.done x, rest)) :
    (events k c).drainIntoNew beg fin = (.done (events k x), events k rest) := by
  rw [drainIntoNew, hdrain]

/-- {lit}`is_monotonic` -/
def isMonotonic : ChannelEvents V → Bool
  | events _ c => c.isMonotonic
  | status _ => true

instance instMergeableTy [DecidableEq κ] [∀ k, EventValueType (V k)] :
    MergeableTy (ChannelEvents V) where
  len := len
  byteEstimate := byteEstimate
  tsMin := tsMin
  tsMax := tsMax
  findLowestIndexGt := findLowestIndexGt
  findLowestIndexGe := findLowestIndexGe
  findHighestIndexLt := findHighestIndexLt
  drainInto := drainInto
  drainIntoNew := drainIntoNew
  isMonotonic := isMonotonic

section Mergeable

variable [DecidableEq κ] [∀ k, EventValueType (V k)] (c d : ChannelEvents V) (ts : ℕ) (beg fin : ℕ)

@[simp] theorem channel_len : MergeableTy.len c = c.len := rfl
@[simp] theorem channel_byteEstimate : MergeableTy.byteEstimate c = c.byteEstimate := rfl
@[simp] theorem channel_tsMin : MergeableTy.tsMin c = c.tsMin := rfl
@[simp] theorem channel_tsMax : MergeableTy.tsMax c = c.tsMax := rfl
@[simp] theorem channel_findLowestIndexGt :
    MergeableTy.findLowestIndexGt c ts = c.findLowestIndexGt ts := rfl
@[simp] theorem channel_drainInto :
    MergeableTy.drainInto c d beg fin = c.drainInto d beg fin := rfl
@[simp] theorem channel_drainIntoNew :
    MergeableTy.drainIntoNew c beg fin = c.drainIntoNew beg fin := rfl
@[simp] theorem channel_isMonotonic : MergeableTy.isMonotonic c = c.isMonotonic := rfl

end Mergeable

/-! ## Entries -/

/-- The entries of an item. -/
def entries : ChannelEvents V → List (Entry V)
  | events k c => c.evs.map (Entry.event k)
  | status x => x.toList.map Entry.status

@[simp] theorem entries_events (k : κ) (c : ContainerEvents (V k)) :
    entries (events k c) = c.evs.map (Entry.event k) := rfl
@[simp] theorem entries_status (x : Option ConnStatusEvent) :
    entries (status x : ChannelEvents V) = x.toList.map Entry.status := rfl

/-- The entries of a sequence of items. -/
def entriesOf (cs : List (ChannelEvents V)) : List (Entry V) := cs.flatMap entries

@[simp] theorem entriesOf_nil : entriesOf ([] : List (ChannelEvents V)) = [] := rfl
@[simp] theorem entriesOf_cons (c : ChannelEvents V) (cs : List (ChannelEvents V)) :
    entriesOf (c :: cs) = entries c ++ entriesOf cs := List.flatMap_cons
@[simp] theorem entriesOf_append (cs ds : List (ChannelEvents V)) :
    entriesOf (cs ++ ds) = entriesOf cs ++ entriesOf ds := List.flatMap_append

/-- Entries in the order of their timestamps. -/
abbrev TimeOrdered (es : List (Entry V)) : Prop := SortedBy Entry.ts es

/-- The timestamps of the data events among entries. -/
def eventTss (es : List (Entry V)) : List ℕ := (es.filter Entry.isEvent).map Entry.ts

theorem mem_eventTss {es : List (Entry V)} {ts : ℕ} :
    ts ∈ eventTss es ↔ ∃ e ∈ es, e.isEvent = true ∧ e.ts = ts := by
  simp [eventTss, and_assoc]

theorem eventTss_append (es fs : List (Entry V)) :
    eventTss (es ++ fs) = eventTss es ++ eventTss fs := by
  simp [eventTss]

theorem len_eq (c : ChannelEvents V) : c.len = c.entries.length := by
  rcases c with ⟨k, c⟩ | _ | st
  · simp [len, ContainerEvents.len]
  · rfl
  · rfl

/-- The first timestamp is that of the first entry. -/
theorem tsMin_eq (c : ChannelEvents V) : c.tsMin = c.entries.head?.map Entry.ts := by
  rcases c with ⟨k, c⟩ | _ | st
  · simp [tsMin, ContainerEvents.tsMin, Function.comp_def]
  · rfl
  · rfl

/-- The last timestamp is that of the last entry. -/
theorem tsMax_eq (c : ChannelEvents V) : c.tsMax = c.entries.getLast?.map Entry.ts := by
  rcases c with ⟨k, c⟩ | _ | st
  · simp [tsMax, ContainerEvents.tsMax, Function.comp_def]
  · rfl
  · rfl

/-- An item of events has no status among its entries, and a status item no event. -/
theorem isEvent_of_mem_entries {c : ChannelEvents V} {e : Entry V} (he : e ∈ c.entries) :
    e.isEvent = c.isEvents := by
  rcases c with ⟨k, c⟩ | x
  · rcases List.mem_map.mp he with ⟨ev, _, rfl⟩
    rfl
  · rcases List.mem_map.mp he with ⟨st, _, rfl⟩
    rfl

/-- The only entry of a status item is the first and the last one. -/
theorem tsMin_eq_tsMax {c : ChannelEvents V} (hstatus : c.isEvents = false) : c.tsMin = c.tsMax := by
  rcases c with ⟨k, c⟩ | _ | st
  · simp [isEvents] at hstatus
  · rfl
  · rfl

/-- Items whose entries are in order are monotonic. -/
theorem isMonotonic_of_timeOrdered {c : ChannelEvents V} (hordered : TimeOrdered c.entries) :
    c.isMonotonic = true := by
  rcases c with ⟨k, c⟩ | x
  · refine ContainerEvents.isMonotonic_of_sorted ?_
    simpa [SortedBy, List.pairwise_map] using hordered
  · rfl

/-- Computing the byte estimate touches no entry. -/
@[simp]
theorem byteEstimate_entries [∀ k, EventValueType (V k)] (c : ChannelEvents V) :
    c.byteEstimate.2.entries = c.entries := by
  rcases c with ⟨k, c⟩ | _ | st
  · simp [byteEstimate]
  · rfl
  · rfl

end ChannelEvents

end Items
end Daqbuf
