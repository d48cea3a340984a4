import Daqbuf.Items.Merge
import Daqbuf.Search.PartitionPoint
/-!
# Event Containers

{lit}`ContainerEvents` holds events in the order of their timestamps.  The two parallel deques of the
source are one list of events here, so that their lengths cannot differ.

Main results:

- Theorems {lit}`findLowestIndexGt_eq_some`, {lit}`findLowestIndexGe_eq_some` and
  {lit}`findHighestIndexLt_eq_some`: in an ordered container, cutting at the found index is
  filtering by the timestamp.
- Theorem {lit}`drain_prefix`: what draining a prefix moves and what it leaves.
-/

namespace Daqbuf
namespace Items

open Netpod Search

/-- {lit}`EventSingle` -/
structure EventSingle (V : Type*) where
  ts : ℕ
  val : V
  deriving DecidableEq, Repr

/-- The part of {lit}`EventValueType` that containers use: what the values of a container count for each of them.
These are summed in 32 bits, without a check for an overflow. -/
class EventValueType (V : Type*) where
  byteEstimate : V → UInt32

instance : EventValueType UInt8 := ⟨fun _ => 1⟩
instance : EventValueType UInt16 := ⟨fun _ => 2⟩
instance : EventValueType UInt32 := ⟨fun _ => 4⟩
instance : EventValueType UInt64 := ⟨fun _ => 8⟩
instance : EventValueType String := ⟨fun s => UInt32.ofNat s.utf8ByteSize⟩
instance instEventValueTypeListBool : EventValueType (List Bool) := ⟨fun xs => UInt32.ofNat xs.length * 24⟩

/-- The events are in the order of their timestamps. -/
abbrev TsSorted {V : Type*} (evs : List (EventSingle V)) : Prop := SortedBy EventSingle.ts evs

/-- The timestamps increase strictly. -/
abbrev TsStrict {V : Type*} (evs : List (EventSingle V)) : Prop := StrictlySortedBy EventSingle.ts evs

/-- {lit}`ContainerEvents`: the events, and the cached byte estimate. -/
structure ContainerEvents (V : Type*) where
  evs : List (EventSingle V)
  byteEstimateCache : Option UInt32 := none
  deriving DecidableEq, Repr

namespace ContainerEvents

variable {V : Type*}

/-! ## Operations -/

/-- {lit}`new` -/
def new : ContainerEvents V := { evs := [] }

/-- {lit}`len` -/
def len (c : ContainerEvents V) : ℕ := c.evs.length

/-- {lit}`push_back` -/
def pushBack (c : ContainerEvents V) (ts : ℕ) (val : V) : ContainerEvents V :=
  { evs := c.evs ++ [{ ts := ts, val := val }] }

/-- {lit}`truncate_front`: keeps the last {lit}`len` events. -/
def truncateFront (c : ContainerEvents V) (len : ℕ) : ContainerEvents V :=
  if len < c.len then { c with evs := c.evs.drop (c.len - len) } else c

/-- {lit}`clear` -/
def clear (_ : ContainerEvents V) : ContainerEvents V := { evs := [], byteEstimateCache := some 0 }

/-- The events that are later than a timestamp and than all before them. -/
def keepUnique (tsmin : ℕ) : List (EventSingle V) → List (EventSingle V)
  | [] => []
  | ev :: evs => if ev.ts > tsmin then ev :: keepUnique ev.ts evs else keepUnique tsmin evs

/-- The other events. -/
def repeated (tsmin : ℕ) : List (EventSingle V) → List (EventSingle V)
  | [] => []
  | ev :: evs => if ev.ts > tsmin then repeated ev.ts evs else ev :: repeated tsmin evs

/-- {lit}`retain_unique_ts`.  The cached byte estimate stays as it is. -/
def retainUniqueTs (c : ContainerEvents V) (tsmin : ℕ) : ContainerEvents V :=
  { c with evs := keepUnique tsmin c.evs }

/-- {lit}`byte_estimate_mut`: the cached estimate, or else a fresh one that is cached. -/
def byteEstimate [EventValueType V] (c : ContainerEvents V) : UInt32 × ContainerEvents V :=
  match c.byteEstimateCache with
  | some x => (x, c)
  | none =>
      let x := 8 * UInt32.ofNat c.len + (c.evs.map fun ev => EventValueType.byteEstimate ev.val).sum
      (x, { c with byteEstimateCache := some x })

/-- {lit}`ts_min` -/
def tsMin (c : ContainerEvents V) : Option ℕ := c.evs.head?.map EventSingle.ts

/-- {lit}`ts_max` -/
def tsMax (c : ContainerEvents V) : Option ℕ := c.evs.getLast?.map EventSingle.ts

/-- {lit}`find_lowest_index_gt` -/
def findLowestIndexGt (c : ContainerEvents V) (ts : ℕ) : Option ℕ :=
  let x := partitionPoint (fun ev => decide (ev.ts ≤ ts)) c.evs
  if x ≥ c.len then none else some x

/-- {lit}`find_lowest_index_ge` -/
def findLowestIndexGe (c : ContainerEvents V) (ts : ℕ) : Option ℕ :=
  let x := partitionPoint (fun ev => decide (ev.ts < ts)) c.evs
  if x ≥ c.len then none else some x

/-- {lit}`find_highest_index_lt` -/
def findHighestIndexLt (c : ContainerEvents V) (ts : ℕ) : Option ℕ :=
  let x := partitionPoint (fun ev => decide (ev.ts < ts)) c.evs
  if x = 0 then none else some (x - 1)

/-- {lit}`drain_into`: the events in the index range move from {lit}`src` to the end of {lit}`dst`.
The byte estimates that are cached in the two containers stay as they are. -/
def drainInto (src dst : ContainerEvents V) (beg fin : ℕ) :
    DrainIntoDstResult × ContainerEvents V × ContainerEvents V :=
  (.done,
    { src with evs := src.evs.take beg ++ src.evs.drop fin },
    { dst with evs := dst.evs ++ (src.evs.take fin).drop beg })

/-- {lit}`drain_into_new` -/
def drainIntoNew (src : ContainerEvents V) (beg fin : ℕ) :
    DrainIntoNewResult (ContainerEvents V) × ContainerEvents V :=
  let (_, src, dst) := src.drainInto new beg fin
  (.done dst, src)

/-- {lit}`is_monotonic`: no event is later than its successor. -/
def isMonotonic (c : ContainerEvents V) : Bool :=
  (c.evs.zip c.evs.tail).all fun p => decide (¬ p.1.ts > p.2.ts)

theorem keepUnique_sublist (tsmin : ℕ) (evs : List (EventSingle V)) : (keepUnique tsmin evs).Sublist evs := by
  induction evs generalizing tsmin with
  | nil => exact List.Sublist.refl _
  | cons ev evs ih =>
      rw [keepUnique]
      split_ifs
      · exact (ih ev.ts).cons_cons ev
      · exact (ih tsmin).cons ev

instance instMergeableTy [EventValueType V] : MergeableTy (ContainerEvents V) where
  len := len
  byteEstimate := byteEstimate
  tsMin := tsMin
  tsMax := tsMax
  findLowestIndexGt := findLowestIndexGt
  findLowestIndexGe := findLowestIndexGe
  findHighestIndexLt := findHighestIndexLt
  drainInto := drainInto
  drainIntoNew := drainIntoNew
  isMonotonic := isMonotonic

section Mergeable

variable [EventValueType V] (c d : ContainerEvents V) (ts : ℕ) (beg fin : ℕ)

@[simp] theorem mergeable_len : MergeableTy.len c = c.len := rfl
@[simp] theorem mergeable_byteEstimate : MergeableTy.byteEstimate c = c.byteEstimate := rfl
@[simp] theorem mergeable_tsMin : MergeableTy.tsMin c = c.tsMin := rfl
@[simp] theorem mergeable_tsMax : MergeableTy.tsMax c = c.tsMax := rfl
@[simp] theorem mergeable_findLowestIndexGt :
    MergeableTy.findLowestIndexGt c ts = c.findLowestIndexGt ts := rfl
@[simp] theorem mergeable_findLowestIndexGe :
    MergeableTy.findLowestIndexGe c ts = c.findLowestIndexGe ts := rfl
@[simp] theorem mergeable_findHighestIndexLt :
    MergeableTy.findHighestIndexLt c ts = c.findHighestIndexLt ts := rfl
@[simp] theorem mergeable_drainInto :
    MergeableTy.drainInto c d beg fin = c.drainInto d beg fin := rfl
@[simp] theorem mergeable_drainIntoNew :
    MergeableTy.drainIntoNew c beg fin = c.drainIntoNew beg fin := rfl
@[simp] theorem mergeable_isMonotonic : MergeableTy.isMonotonic c = c.isMonotonic := rfl

end Mergeable

/-! ## Batches of a stream -/

/-- All events of a sequence of batches. -/
def eventsOf (cs : List (ContainerEvents V)) : List (EventSingle V) := cs.flatMap evs

@[simp]
theorem eventsOf_nil : eventsOf ([] : List (ContainerEvents V)) = [] := rfl

@[simp]
theorem eventsOf_cons (c : ContainerEvents V) (cs : List (ContainerEvents V)) :
    eventsOf (c :: cs) = c.evs ++ eventsOf cs := List.flatMap_cons

@[simp]
theorem eventsOf_append (cs ds : List (ContainerEvents V)) :
    eventsOf (cs ++ ds) = eventsOf cs ++ eventsOf ds := List.flatMap_append

/-- The events of an optional container. -/
def slotEvents (slot : Option (ContainerEvents V)) : List (EventSingle V) :=
  ContainerEvents.eventsOf slot.toList

@[simp]
theorem slotEvents_none : slotEvents (none : Option (ContainerEvents V)) = [] := rfl

@[simp]
theorem slotEvents_some (c : ContainerEvents V) : slotEvents (some c) = c.evs := by
  simp [slotEvents]

/-! ## First and last timestamp -/

theorem tsMin_eq_some {c : ContainerEvents V} {ts : ℕ} :
    c.tsMin = some ts ↔ ∃ ev rest, c.evs = ev :: rest ∧ ev.ts = ts := by
  unfold tsMin
  cases c.evs with
  | nil => simp
  | cons ev rest => simp

theorem tsMax_eq_some {c : ContainerEvents V} {ts : ℕ} :
    c.tsMax = some ts ↔ ∃ init ev, c.evs = init ++ [ev] ∧ ev.ts = ts := by
  unfold tsMax
  constructor
  · intro hmax
    rcases Option.map_eq_some_iff.mp hmax with ⟨ev, hev, hts⟩
    rcases List.getLast?_eq_some_iff.mp hev with ⟨init, hinit⟩
    exact ⟨init, ev, hinit, hts⟩
  · rintro ⟨init, ev, hevs, rfl⟩
    simp [hevs]

theorem tsMin_eq_none {c : ContainerEvents V} : c.tsMin = none ↔ c.evs = [] := by
  simp [tsMin]

theorem tsMax_eq_none {c : ContainerEvents V} : c.tsMax = none ↔ c.evs = [] := by
  simp [tsMax]

/-- Computing the byte estimate touches no event. -/
@[simp]
theorem byteEstimate_evs [EventValueType V] (c : ContainerEvents V) :
    c.byteEstimate.2.evs = c.evs := by
  unfold byteEstimate
  split <;> rfl

/-- Ordered containers are monotonic. -/
theorem isMonotonic_of_sorted {c : ContainerEvents V} (hsorted : TsSorted c.evs) :
    c.isMonotonic = true := by
  rcases c with ⟨evs, cache⟩
  simp only [isMonotonic, List.all_eq_true]
  rintro ⟨ev, ev'⟩ hmem
  induction evs with
  | nil => simp at hmem
  | cons first rest ih =>
      cases rest with
      | nil => simp at hmem
      | cons second rest =>
          rcases List.pairwise_cons.mp hsorted with ⟨hfirst, hrest⟩
          simp only [List.tail_cons, List.zip_cons_cons, List.mem_cons, Prod.mk.injEq] at hmem
          rcases hmem with ⟨rfl, rfl⟩ | hmem
          · simpa using hfirst ev' (by simp)
          · exact ih hrest hmem

/-! ## Searching an ordered container -/

section Find

variable {c : ContainerEvents V} {ts : ℕ} {i : ℕ}

/-- Not finding an index from a timestamp on means that every event is earlier. -/
theorem findLowestIndexGe_eq_none : c.findLowestIndexGe ts = none ↔ ∀ ev ∈ c.evs, ev.ts < ts := by
  have hlen := length_le_partitionPoint_iff (fun ev => decide (ev.ts < ts)) c.evs
  simpa [findLowestIndexGe, len] using hlen

/-- Not finding an index after a timestamp means that no event is later. -/
theorem findLowestIndexGt_eq_none : c.findLowestIndexGt ts = none ↔ ∀ ev ∈ c.evs, ev.ts ≤ ts := by
  have hlen := length_le_partitionPoint_iff (fun ev => decide (ev.ts ≤ ts)) c.evs
  simpa [findLowestIndexGt, len] using hlen

/-- Not finding an index before a timestamp means that no event is earlier. -/
theorem findHighestIndexLt_eq_none (hsorted : TsSorted c.evs) :
    c.findHighestIndexLt ts = none ↔ ∀ ev ∈ c.evs, ts ≤ ev.ts := by
  have hzero := partitionPoint_eq_zero_iff (hsorted.partitioned_lt ts)
  simpa [findHighestIndexLt] using hzero

private theorem filter_not_lt (evs : List (EventSingle V)) (ts : ℕ) :
    (evs.filter fun ev => !decide (ev.ts < ts)) = evs.filter fun ev => ts ≤ ev.ts := by
  congr 1
  funext ev
  by_cases hlt : ev.ts < ts
  · simp [hlt]
  · simp [hlt, le_of_not_gt hlt]

private theorem filter_not_le (evs : List (EventSingle V)) (ts : ℕ) :
    (evs.filter fun ev => !decide (ev.ts ≤ ts)) = evs.filter fun ev => ts < ev.ts := by
  congr 1
  funext ev
  by_cases hle : ev.ts ≤ ts
  · simp [hle]
  · simp [hle, lt_of_not_ge hle]

/-- The index of the first event from a timestamp on splits an ordered container there. -/
theorem findLowestIndexGe_eq_some (hsorted : TsSorted c.evs)
    (hfind : c.findLowestIndexGe ts = some i) :
    i < c.len ∧ c.evs.take i = c.evs.filter (fun ev => ev.ts < ts) ∧
      c.evs.drop i = c.evs.filter fun ev => ts ≤ ev.ts := by
  simp only [findLowestIndexGe] at hfind
  split at hfind <;> rename_i hlen
  · simp at hfind
  · simp only [Option.some.injEq] at hfind
    subst i
    have hpart := hsorted.partitioned_lt ts
    refine ⟨by omega, take_partitionPoint hpart, ?_⟩
    rw [drop_partitionPoint hpart, filter_not_lt]

/-- The index of the first event after a timestamp splits an ordered container there. -/
theorem findLowestIndexGt_eq_some (hsorted : TsSorted c.evs)
    (hfind : c.findLowestIndexGt ts = some i) :
    i < c.len ∧ c.evs.take i = c.evs.filter (fun ev => ev.ts ≤ ts) ∧
      c.evs.drop i = c.evs.filter fun ev => ts < ev.ts := by
  simp only [findLowestIndexGt] at hfind
  split at hfind <;> rename_i hlen
  · simp at hfind
  · simp only [Option.some.injEq] at hfind
    subst i
    have hpart := hsorted.partitioned_le ts
    refine ⟨by omega, take_partitionPoint hpart, ?_⟩
    rw [drop_partitionPoint hpart, filter_not_le]

/-- The index of the last event before a timestamp splits an ordered container behind it. -/
theorem findHighestIndexLt_eq_some (hsorted : TsSorted c.evs)
    (hfind : c.findHighestIndexLt ts = some i) :
    i < c.len ∧ c.evs.take (i + 1) = c.evs.filter (fun ev => ev.ts < ts) ∧
      c.evs.drop (i + 1) = c.evs.filter fun ev => ts ≤ ev.ts := by
  simp only [findHighestIndexLt] at hfind
  split at hfind <;> rename_i hzero
  · simp at hfind
  · simp only [Option.some.injEq] at hfind
    have hpart := hsorted.partitioned_lt ts
    have hle := partitionPoint_le_length (fun ev => decide (ev.ts < ts)) c.evs
    have hsucc : i + 1 = partitionPoint (fun ev => decide (ev.ts < ts)) c.evs := by omega
    refine ⟨by unfold len; omega, ?_, ?_⟩
    · rw [hsucc, take_partitionPoint hpart]
    · rw [hsucc, drop_partitionPoint hpart, filter_not_lt]

end Find

/-! ## Draining -/

/-- Draining a prefix moves it and leaves the rest. -/
@[simp]
theorem drain_prefix (src dst : ContainerEvents V) (fin : ℕ) :
    src.drainInto dst 0 fin =
      (.done, { src with evs := src.evs.drop fin },
        { dst with evs := dst.evs ++ src.evs.take fin }) := by
  simp [drainInto]

/-- Draining a prefix into a new container moves it and leaves the rest. -/
@[simp]
theorem drainIntoNew_prefix (src : ContainerEvents V) (fin : ℕ) :
    src.drainIntoNew 0 fin =
      (.done { evs := src.evs.take fin }, { src with evs := src.evs.drop fin }) := by
  simp [drainIntoNew, new]

/-- Draining a suffix into a new container moves it and leaves the rest. -/
theorem drainIntoNew_suffix (src : ContainerEvents V) (beg : ℕ) :
    src.drainIntoNew beg src.len =
      (.done { evs := src.evs.drop beg }, { src with evs := src.evs.take beg }) := by
  simp [drainIntoNew, drainInto, new, len]

end ContainerEvents

end Items
end Daqbuf
