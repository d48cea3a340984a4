import Daqbuf.Items.ContainerEvents
import Daqbuf.Items.MergerRun
import Daqbuf.Search.OrderedMerge
/-!
# Merging Event Streams

The merger on streams of event containers whose timestamps increase strictly.

Main results:

- Theorem {lit}`process_advances`: one call of {lit}`process` drops an empty container or performs one
  step of ordered merging.
- Theorem {lit}`rules_mergedSoFar`: every step of a run keeps what was merged so far.
- Theorem {lit}`mergesInputs_iff`: the merger does what it is for if and only if some input did not
  deliver the range-complete marker, since it never hands on its own.
-/

namespace Daqbuf
namespace Items

open Netpod Poll Search
open ContainerEvents (eventsOf slotEvents slotEvents_none slotEvents_some)

variable {V : Type*}

/-! ## What is left of a lane -/

namespace Lane

/-- The events of a lane that were not merged yet. -/
def rest (lane : Lane (ContainerEvents V)) : List (EventSingle V) :=
  slotEvents lane.item ++ eventsOf (datas lane.script.items)

/-- Drops what is not later than {lit}`upto` from the item of a lane. -/
def keepAfter (upto : ℕ) (lane : Lane (ContainerEvents V)) : Lane (ContainerEvents V) :=
  lane.mapItem fun c => { c with evs := c.evs.filter fun ev => upto < ev.ts }

/-- A lane whose item is later loses nothing. -/
theorem keepAfter_eq_self {upto : ℕ} {lane : Lane (ContainerEvents V)}
    (hlater : ∀ ev ∈ slotEvents lane.item, upto < ev.ts) : lane.keepAfter upto = lane := by
  rcases lane with ⟨inp, _ | ⟨evs, cache⟩, flag⟩
  · rfl
  · have hall : evs.filter (fun ev => upto < ev.ts) = evs := by
      rw [List.filter_eq_self]
      intro ev hev
      simpa using hlater ev (by simpa using hev)
    simp [keepAfter, mapItem, hall]

/-- The events that were not merged yet are those of the containers that the lane holds. -/
theorem eventsOf_held (lane : Lane (ContainerEvents V)) : eventsOf lane.held = lane.rest := by
  cases hitem : lane.item <;> simp [held, rest, hitem]

/-- A loaded lane without an item has nothing left. -/
theorem rest_eq_nil {lane : Lane (ContainerEvents V)} (hloaded : lane.Loaded)
    (hnone : lane.item = none) : lane.rest = [] := by
  have hinp := hloaded.resolve_left (not_not.mpr hnone)
  simp [rest, script, hnone, hinp]

/-- When the item holds events, none from before a bound, then neither does the rest of the lane. -/
theorem le_of_mem_rest {upto : ℕ} {lane : Lane (ContainerEvents V)} (hstrict : TsStrict lane.rest)
    (hloaded : lane.Loaded)
    (hitem : ∀ c, lane.item = some c → c.evs ≠ [] ∧ ∀ ev ∈ c.evs, upto ≤ ev.ts) :
    ∀ ev ∈ lane.rest, upto ≤ ev.ts ∧ (ev ∉ slotEvents lane.item → upto < ev.ts) := by
  intro ev hev
  cases hc : lane.item with
  | none => simp [rest_eq_nil hloaded hc] at hev
  | some c =>
      rcases hitem c hc with ⟨hne, hge⟩
      rw [rest, hc, slotEvents_some] at hev hstrict
      rw [slotEvents_some]
      rcases List.mem_append.mp hev with hev | hev
      · exact ⟨hge ev hev, fun hnot => (hnot hev).elim⟩
      · rcases List.exists_mem_of_ne_nil _ hne with ⟨first, hfirst⟩
        have hlt := (strictlySortedBy_append.mp hstrict).2.2 first hfirst ev hev
        have hge := hge first hfirst
        exact ⟨by omega, fun _ => by omega⟩

/-- Dropping what is not later from such an item drops it from the rest of the lane. -/
theorem rest_keepAfter {upto : ℕ} {lane : Lane (ContainerEvents V)}
    (hlater : ∀ ev ∈ lane.rest, ev ∉ slotEvents lane.item → upto < ev.ts)
    (hstrict : TsStrict lane.rest) :
    (lane.keepAfter upto).rest = lane.rest.filter fun ev => upto < ev.ts := by
  have hscript : (eventsOf (datas lane.script.items)).filter (fun ev => upto < ev.ts) =
      eventsOf (datas lane.script.items) := by
    rw [List.filter_eq_self]
    intro ev hev
    have hnot : ev ∉ slotEvents lane.item := fun hmem =>
      absurd ((strictlySortedBy_append.mp hstrict).2.2 ev hmem ev hev) (lt_irrefl _)
    simpa using hlater ev (by simp [rest, hev]) hnot
  rw [rest, rest, List.filter_append, hscript]
  cases hc : lane.item with
  | none => simp [keepAfter, mapItem, hc, script]
  | some c => simp [keepAfter, mapItem, hc, script]

/-- Dropping events from items does not touch the inputs. -/
theorem map_inp_keepAfter (upto : ℕ) (lanes : List (Lane (ContainerEvents V))) :
    (lanes.map (keepAfter upto)).map inp = lanes.map inp := by
  rw [List.map_map]
  rfl

end Lane

namespace Merger

/-- What holds of one element and of all others holds of all. -/
theorem forall_mem_middle {α : Type*} {P : α → Prop} {pre post : List α} {x : α}
    (hothers : ∀ y ∈ pre ++ post, P y) (hx : P x) : ∀ y ∈ pre ++ x :: post, P y := by
  intro y hy
  rcases List.mem_append.mp hy with hy | hy
  · exact hothers y (List.mem_append_left _ hy)
  · rcases List.mem_cons.mp hy with rfl | hy
    · exact hx
    · exact hothers y (List.mem_append_right _ hy)

/-- An item with a first event has a last one. -/
theorem exists_concat {item : ContainerEvents V} {t : ℕ} (hmin : item.tsMin = some t) :
    ∃ init last, item.evs = init ++ [last] ∧ item.tsMax = some last.ts := by
  rcases ContainerEvents.tsMin_eq_some.mp hmin with ⟨ev, evs, hevs, _⟩
  have hne : item.evs ≠ [] := by simp [hevs]
  rcases (List.eq_nil_or_concat item.evs).resolve_left hne with ⟨init, last, hlast⟩
  rw [List.concat_eq_append] at hlast
  exact ⟨init, last, hlast, ContainerEvents.tsMax_eq_some.mpr ⟨init, last, hlast, rfl⟩⟩

/-- The item at the position that the scan found. -/
theorem item_at {T : Type*} (s : Merger T) {pre post : List (Lane T)} {lane : Lane T} {item : T}
    (hlanes : s.lanes = pre ++ lane :: post) (hitem : lane.item = some item) :
    s.lanes[pre.length]?.bind Lane.item = some item := by
  simp [hlanes, hitem]

/-- The detection of non-monotonic timestamps touches nothing but the bound. -/
theorem detectNonMono_eq {T : Type*} (s : Merger T) (tslows : Tslows) :
    ∃ dim0ixMax, s.detectNonMono tslows = { s with dim0ixMax := dim0ixMax } := by
  unfold detectNonMono
  split
  · split
    · exact ⟨_, rfl⟩
    · exact ⟨_, rfl⟩
  · exact ⟨_, rfl⟩

variable [EventValueType V]

/-! ## Taking and dropping events -/

/-- Draining up to a timestamp into another container moves what is not later. -/
theorem drainIntoDstUpto_eq (src dst : ContainerEvents V) (upto : ℕ) (hsorted : TsSorted src.evs) :
    drainIntoDstUpto src dst upto =
      (.done, { src with evs := src.evs.filter fun ev => upto < ev.ts },
        { dst with evs := dst.evs ++ src.evs.filter fun ev => ev.ts ≤ upto }) := by
  simp only [drainIntoDstUpto, ContainerEvents.mergeable_findLowestIndexGt,
    ContainerEvents.mergeable_drainInto, ContainerEvents.mergeable_len,
    ContainerEvents.drain_prefix]
  cases hfind : src.findLowestIndexGt upto with
  | some ilgt =>
      rcases ContainerEvents.findLowestIndexGt_eq_some hsorted hfind with ⟨_, htake, hdrop⟩
      simp only [htake, hdrop]
  | none =>
      have hall := ContainerEvents.findLowestIndexGt_eq_none.mp hfind
      have hkeep : src.evs.filter (fun ev => ev.ts ≤ upto) = src.evs := by
        rw [List.filter_eq_self]
        intro ev hev
        simpa using hall ev hev
      have hdrop : src.evs.filter (fun ev => upto < ev.ts) = [] := by
        rw [List.filter_eq_nil_iff]
        intro ev hev
        simpa using hall ev hev
      simp [hkeep, hdrop, ContainerEvents.len]

/-- Draining up to a timestamp into a new container moves what is not later. -/
theorem drainIntoNewUpto_eq (src : ContainerEvents V) (upto : ℕ) (hsorted : TsSorted src.evs) :
    drainIntoNewUpto src upto =
      (.done { evs := src.evs.filter fun ev => ev.ts ≤ upto },
        { src with evs := src.evs.filter fun ev => upto < ev.ts }) := by
  have hdst := drainIntoDstUpto_eq src ContainerEvents.new upto hsorted
  simp only [drainIntoDstUpto, drainIntoNewUpto, ContainerEvents.mergeable_findLowestIndexGt,
    ContainerEvents.mergeable_drainInto, ContainerEvents.mergeable_drainIntoNew,
    ContainerEvents.mergeable_len, ContainerEvents.drain_prefix,
    ContainerEvents.drainIntoNew_prefix] at hdst ⊢
  cases hfind : src.findLowestIndexGt upto <;>
    · rw [hfind] at hdst
      simp only [Prod.mk.injEq, ContainerEvents.mk.injEq, ContainerEvents.new, List.nil_append] at hdst
      simp [hdst.2.1, hdst.2.2]

/-- Taking into the output up to a timestamp moves what is not later. -/
theorem takeIntoOutputUpto_eq (s : Merger (ContainerEvents V)) (src : ContainerEvents V) (upto : ℕ)
    (hsorted : TsSorted src.evs) :
    ∃ out, s.takeIntoOutputUpto src upto =
        (.done, { src with evs := src.evs.filter fun ev => upto < ev.ts }, { s with out := some out }) ∧
      out.evs = slotEvents s.out ++ src.evs.filter fun ev => ev.ts ≤ upto := by
  unfold takeIntoOutputUpto
  cases hout : s.out with
  | some out =>
      simp only [drainIntoDstUpto_eq src out upto hsorted, slotEvents_some]
      exact ⟨_, rfl, rfl⟩
  | none =>
      simp only [drainIntoNewUpto_eq src upto hsorted, slotEvents_none, List.nil_append]
      exact ⟨_, rfl, rfl⟩

/-- Discarding up to a timestamp from an ordered item keeps what is later. -/
theorem discardItem_eq (fuel : ℕ) (item : ContainerEvents V) (upto : ℕ)
    (hsorted : TsSorted item.evs) :
    discardItem fuel item upto =
      some { item with evs := item.evs.filter fun ev => upto < ev.ts } := by
  unfold discardItem
  rw [ContainerEvents.mergeable_tsMin]
  cases hmin : item.tsMin with
  | none =>
      have hnil := ContainerEvents.tsMin_eq_none.mp hmin
      rcases item with ⟨evs, cache⟩
      simp only at hnil
      simp [hnil]
  | some ts =>
      rcases ContainerEvents.tsMin_eq_some.mp hmin with ⟨ev, evs, hevs, rfl⟩
      by_cases hle : ev.ts ≤ upto
      · simp [hle, drainIntoNewUpto_eq item upto hsorted]
      · have hall : item.evs.filter (fun ev => upto < ev.ts) = item.evs := by
          rw [List.filter_eq_self]
          intro ev' hev'
          rw [hevs] at hsorted hev'
          have hfirst := hsorted.head_le hev'
          simp only [decide_eq_true_eq]
          omega
        simp [hle, hall]

/-- Discarding up to a timestamp from ordered items keeps what is later. -/
theorem discard_eq (upto : ℕ) (lanes : List (Lane (ContainerEvents V)))
    (hsorted : ∀ lane ∈ lanes, TsSorted (slotEvents lane.item)) :
    discard upto lanes = (lanes.map (Lane.keepAfter upto), true) := by
  refine discard_eq_mapItem fun lane hlane item hitem => discardItem_eq _ item upto ?_
  simpa [hitem] using hsorted lane hlane

/-! ## One step of processing -/

/-- Raising the bound to the last timestamp of an output that holds events. -/
theorem raiseDim0ixMax_eq (s : Merger (ContainerEvents V)) {out : ContainerEvents V}
    {init : List (EventSingle V)} {last : EventSingle V} (hout : s.out = some out)
    (hevs : out.evs = init ++ [last]) :
    s.raiseDim0ixMax = .ok { s with dim0ixMax := last.ts } := by
  have hmax : out.tsMax = some last.ts := ContainerEvents.tsMax_eq_some.mpr ⟨init, last, hevs, rfl⟩
  simp [raiseDim0ixMax, hout, hmax]

section Take

variable (s : Merger (ContainerEvents V)) {pre post : List (Lane (ContainerEvents V))}
  {lane : Lane (ContainerEvents V)} {item : ContainerEvents V} {init : List (EventSingle V)}
  {last : EventSingle V}

/-- Taking a whole item moves all of its events. -/
theorem takeAll_eq (hlanes : s.lanes = pre ++ lane :: post) (hsorted : TsSorted item.evs)
    (hbound : ∀ ev ∈ item.evs, ev.ts ≤ u64Max) (hevs : item.evs = init ++ [last]) :
    ∃ out, s.takeAll pre.length item = .ok { s with
        lanes := pre ++ { lane with item := none } :: post, out := some out,
        dim0ixMax := last.ts } ∧
      out.evs = slotEvents s.out ++ item.evs := by
  have hall : item.evs.filter (fun ev => ev.ts ≤ u64Max) = item.evs := by
    rw [List.filter_eq_self]
    intro ev hev
    simpa using hbound ev hev
  rw [takeAll, setItem_eq hlanes]
  rcases takeIntoOutputUpto_eq
    { s with lanes := pre ++ { lane with item := none } :: post } item u64Max hsorted with
    ⟨out, htake, hout⟩
  rw [hall] at hout
  refine ⟨out, ?_, hout⟩
  rw [takeIntoOutputAll, htake]
  exact raiseDim0ixMax_eq _ rfl (hout.trans (by rw [hevs, List.append_assoc]))

/-- Taking a part of an item moves the events up to a timestamp. -/
theorem takeUpto_eq {tl1 : ℕ} (hlanes : s.lanes = pre ++ lane :: post)
    (hsorted : TsSorted item.evs) (hmoved : item.evs.filter (fun ev => ev.ts ≤ tl1) = init ++ [last])
    (hrest : item.evs.filter (fun ev => tl1 < ev.ts) ≠ []) :
    ∃ out, s.takeUpto pre.length item tl1 = .ok { s with
        lanes := pre ++ { lane with
          item := some { item with evs := item.evs.filter fun ev => tl1 < ev.ts } } :: post,
        out := some out, dim0ixMax := last.ts } ∧
      out.evs = slotEvents s.out ++ (init ++ [last]) := by
  rw [takeUpto, setItem_eq hlanes]
  rcases takeIntoOutputUpto_eq
    { s with lanes := pre ++ { lane with item := none } :: post } item tl1 hsorted with
    ⟨out, htake, hout⟩
  rw [hmoved] at hout
  refine ⟨out, ?_, hout⟩
  have hlen : ContainerEvents.len
      { item with evs := item.evs.filter fun ev => tl1 < ev.ts } ≠ 0 := by
    simpa [ContainerEvents.len] using hrest
  rw [htake]
  simp only [afterTake, ContainerEvents.mergeable_len, if_neg hlen]
  rw [setItem_eq rfl]
  exact raiseDim0ixMax_eq _ rfl (hout.trans (List.append_assoc _ _ _).symm)

end Take

/-- What one call of {lit}`process` does to lanes that hold event containers. -/
inductive Advances (s s' : Merger (ContainerEvents V)) : Prop
  /-- an empty container is dropped -/
  | drop (pre post : List (Lane (ContainerEvents V))) (lane : Lane (ContainerEvents V))
      (item : ContainerEvents V) (hlanes : s.lanes = pre ++ lane :: post)
      (hitem : lane.item = some item) (hempty : item.evs = [])
      (hlanes' : s'.lanes = pre ++ { lane with item := none } :: post) (hout : s'.out = s.out)
  /-- the first events of one container move to the output -/
  | take (pre post : List (Lane (ContainerEvents V))) (lane : Lane (ContainerEvents V))
      (item : ContainerEvents V) (hlanes : s.lanes = pre ++ lane :: post)
      (hitem : lane.item = some item) (init rest : List (EventSingle V)) (last : EventSingle V)
      (hevs : item.evs = init ++ last :: rest)
      (hothers : ∀ other ∈ pre ++ post, ∀ c, other.item = some c →
        c.evs ≠ [] ∧ ∀ ev ∈ c.evs, last.ts ≤ ev.ts)
      (left : Option (ContainerEvents V)) (hleft : slotEvents left = rest)
      (hlanes' : s'.lanes =
        (pre ++ { lane with item := left } :: post).map (Lane.keepAfter last.ts))
      (out : ContainerEvents V) (hout : s'.out = some out)
      (hmoved : out.evs = slotEvents s.out ++ (init ++ [last]))

/-- The items of other lanes, all with a first timestamp from a bound on, hold events from it on. -/
theorem others_ge {others : List (Lane (ContainerEvents V))} {t u : ℕ} (htu : t ≤ u)
    (hsorted : ∀ other ∈ others, TsSorted (slotEvents other.item))
    (hothers : ∀ other ∈ others, ∀ item, other.item = some item →
      ∃ v, MergeableTy.tsMin item = some v ∧ u ≤ v) :
    ∀ other ∈ others, ∀ c, other.item = some c → c.evs ≠ [] ∧ ∀ ev ∈ c.evs, t ≤ ev.ts := by
  intro other hother c hc
  rcases hothers other hother c hc with ⟨v, hv, huv⟩
  rcases ContainerEvents.tsMin_eq_some.mp hv with ⟨first, evs, hevs, rfl⟩
  have hsorted := hsorted other hother
  rw [hc, slotEvents_some, hevs] at hsorted
  refine ⟨by simp [hevs], fun ev hev => ?_⟩
  rw [hevs] at hev
  have hle := hsorted.head_le hev
  omega

/-- The same for a bound that is passed, as a fact about the events alone. -/
theorem others_gt {others : List (Lane (ContainerEvents V))} {t u : ℕ} (htu : t < u)
    (hsorted : ∀ other ∈ others, TsSorted (slotEvents other.item))
    (hothers : ∀ other ∈ others, ∀ item, other.item = some item →
      ∃ v, MergeableTy.tsMin item = some v ∧ u ≤ v) :
    ∀ other ∈ others, ∀ ev ∈ slotEvents other.item, t < ev.ts := by
  intro other hother ev hev
  cases hc : other.item with
  | none => simp [hc] at hev
  | some c =>
      rw [hc, slotEvents_some] at hev
      exact htu.trans_le ((others_ge le_rfl hsorted hothers other hother c hc).2 ev hev)

/-- Dropping duplicates keeps of every item what is later than the bound: either it discards the rest,
or there is nothing to discard. -/
theorem dropDuplicates_ok (s : Merger (ContainerEvents V)) (tslows : Tslows)
    (hsorted : ∀ lane ∈ s.lanes, TsSorted (slotEvents lane.item))
    (hlater : (∀ i tl1, tslows.2 = some (i, tl1) → s.dim0ixMax < tl1) →
      ∀ lane ∈ s.lanes, ∀ ev ∈ slotEvents lane.item, s.dim0ixMax < ev.ts) :
    dropDuplicates tslows (.ok s) =
      .ok { s with lanes := s.lanes.map (Lane.keepAfter s.dim0ixMax) } := by
  have hkeep : (∀ lane ∈ s.lanes, ∀ ev ∈ slotEvents lane.item, s.dim0ixMax < ev.ts) →
      s.lanes.map (Lane.keepAfter s.dim0ixMax) = s.lanes := by
    intro hall
    conv_rhs => rw [← List.map_id s.lanes]
    exact List.map_congr_left fun lane hlane => Lane.keepAfter_eq_self (hall lane hlane)
  rcases tslows with ⟨low, _ | ⟨i, tl1⟩⟩
  · rw [hkeep (hlater (by simp))]
    rfl
  · simp only [dropDuplicates]
    by_cases hle : tl1 ≤ s.dim0ixMax
    · simp [hle, discard_eq _ _ hsorted]
    · rw [if_neg hle, hkeep (hlater ?_)]
      intro i' tl1' hsecond
      simp only [Option.some.injEq, Prod.mk.injEq] at hsecond
      omega

section Process

variable (s : Merger (ContainerEvents V)) {pre post : List (Lane (ContainerEvents V))}
  {lane : Lane (ContainerEvents V)} {item : ContainerEvents V} {t : ℕ}

/-- Without another item, the whole item is taken. -/
theorem process_one (hlanes : s.lanes = pre ++ lane :: post) (hitem : lane.item = some item)
    (hstrict : TsStrict item.evs) (hbound : ∀ ev ∈ item.evs, ev.ts ≤ u64Max)
    (hmin : item.tsMin = some t) (hothers : ∀ other ∈ pre ++ post, other.item = none) :
    ∃ s', dropDuplicates (some (pre.length, t), none) (s.take (some (pre.length, t), none)) = .ok s' ∧
      SameStream s s' ∧ Advances s s' := by
  rcases exists_concat hmin with ⟨init, last, hevs, _⟩
  rcases takeAll_eq { s with takeItemSingleInpCnt := s.takeItemSingleInpCnt + 1 } hlanes
    hstrict.sorted hbound hevs with ⟨out, htake, hout⟩
  have hnone : ∀ other ∈ pre ++ { lane with item := none } :: post, other.item = none :=
    forall_mem_middle hothers rfl
  simp only [take, item_at s hlanes hitem, htake]
  rw [dropDuplicates_ok _ _ (fun other hother => by simp [hnone other hother])
    (fun _ other hother => by simp [hnone other hother])]
  refine ⟨_, rfl, ⟨?_, rfl, rfl, rfl, rfl, rfl⟩, ?_⟩
  · rw [Lane.map_inp_keepAfter, hlanes]
    simp
  · refine .take pre post lane item hlanes hitem init [] last hevs (fun other hother c hc => ?_) none
      rfl rfl out rfl (by rw [hout, hevs])
    simp [hothers other hother] at hc

/-- Without an earlier event in another item, the whole item is taken. -/
theorem process_full {i1 tl1 th0 : ℕ} (hlanes : s.lanes = pre ++ lane :: post)
    (hitem : lane.item = some item) (hstrict : TsStrict item.evs)
    (hbound : ∀ ev ∈ item.evs, ev.ts ≤ u64Max) (hmin : item.tsMin = some t)
    (hmax : item.tsMax = some th0) (hle : th0 ≤ tl1)
    (hsorted : ∀ other ∈ pre ++ post, TsSorted (slotEvents other.item))
    (hothers : ∀ other ∈ pre ++ post, ∀ item, other.item = some item →
      ∃ u, MergeableTy.tsMin item = some u ∧ tl1 ≤ u) :
    ∃ s', dropDuplicates (some (pre.length, t), some (i1, tl1))
        (s.take (some (pre.length, t), some (i1, tl1))) = .ok s' ∧
      SameStream s s' ∧ Advances s s' := by
  rcases exists_concat hmin with ⟨init, last, hevs, hlast⟩
  rw [hlast, Option.some.injEq] at hmax
  subst th0
  rcases takeAll_eq { s with takeItemFullCnt := s.takeItemFullCnt + 1 } hlanes
    hstrict.sorted hbound hevs with ⟨out, htake, hout⟩
  simp only [take, item_at s hlanes hitem, ContainerEvents.mergeable_tsMax, hlast, if_pos hle, htake]
  rw [dropDuplicates_ok]
  · refine ⟨_, rfl, ⟨?_, rfl, rfl, rfl, rfl, rfl⟩, ?_⟩
    · rw [Lane.map_inp_keepAfter, hlanes]
      simp
    · exact .take pre post lane item hlanes hitem init [] last hevs (others_ge hle hsorted hothers)
        none rfl rfl out rfl (by rw [hout, hevs])
  · exact forall_mem_middle hsorted (by simp)
  · intro hlater
    exact forall_mem_middle (others_gt (hlater i1 tl1 rfl) hsorted hothers) (by simp)

/-- Otherwise a part of the item is taken. -/
theorem process_partial {i1 tl1 th0 : ℕ} (hlanes : s.lanes = pre ++ lane :: post)
    (hitem : lane.item = some item) (hstrict : TsStrict item.evs) (hmin : item.tsMin = some t)
    (hlow : t ≤ tl1) (hmax : item.tsMax = some th0) (hlt : tl1 < th0)
    (hsorted : ∀ other ∈ pre ++ post, TsSorted (slotEvents other.item))
    (hothers : ∀ other ∈ pre ++ post, ∀ item, other.item = some item →
      ∃ u, MergeableTy.tsMin item = some u ∧ tl1 ≤ u) :
    ∃ s', dropDuplicates (some (pre.length, t), some (i1, tl1))
        (s.take (some (pre.length, t), some (i1, tl1))) = .ok s' ∧
      SameStream s s' ∧ Advances s s' := by
  have hcut := cut_le_of_sorted hstrict.sorted tl1
  generalize hrest : item.evs.filter (fun ev => tl1 < ev.ts) = rest at hcut
  have hmoved : item.evs.filter (fun ev => ev.ts ≤ tl1) ≠ [] := by
    rcases ContainerEvents.tsMin_eq_some.mp hmin with ⟨ev, evs, hevs, rfl⟩
    exact List.ne_nil_of_mem (a := ev) (List.mem_filter.mpr ⟨by simp [hevs], by simpa using hlow⟩)
  have hne : item.evs.filter (fun ev => tl1 < ev.ts) ≠ [] := by
    rcases ContainerEvents.tsMax_eq_some.mp hmax with ⟨evs, ev, hevs, rfl⟩
    exact List.ne_nil_of_mem (a := ev) (List.mem_filter.mpr ⟨by simp [hevs], by simpa using hlt⟩)
  rcases (List.eq_nil_or_concat _).resolve_left hmoved with ⟨init, last, hlast⟩
  rw [List.concat_eq_append] at hlast
  have hlastle : last.ts ≤ tl1 := by
    have hmem : last ∈ item.evs.filter fun ev => ev.ts ≤ tl1 := by simp [hlast]
    simpa using (List.mem_filter.mp hmem).2
  rcases takeUpto_eq { s with takeItemPartialCnt := s.takeItemPartialCnt + 1 } hlanes
    hstrict.sorted hlast hne with ⟨out, htake, hout⟩
  simp only [take, item_at s hlanes hitem, ContainerEvents.mergeable_tsMax, hmax,
    if_neg (not_le.mpr hlt), htake]
  rw [dropDuplicates_ok]
  · refine ⟨_, rfl, ⟨?_, rfl, rfl, rfl, rfl, rfl⟩, ?_⟩
    · rw [Lane.map_inp_keepAfter, hlanes]
      simp
    · refine .take pre post lane item hlanes hitem init rest last ?_
        (others_ge hlastle hsorted hothers) _ ?_ rfl out rfl hout
      · rw [← hcut, hlast, List.append_assoc, List.singleton_append]
      · rw [slotEvents_some, hrest]
  · refine forall_mem_middle hsorted ?_
    rw [slotEvents_some]
    exact hstrict.sorted.sublist List.filter_sublist
  · intro hlater
    refine forall_mem_middle (others_gt (hlater i1 tl1 rfl) hsorted hothers) fun ev hev => ?_
    rw [slotEvents_some, List.mem_filter] at hev
    exact (hlater i1 tl1 rfl).trans (by simpa using hev.2)

end Process

/-- On ordered items, one of which exists, {lit}`process` advances. -/
theorem process_advances (s : Merger (ContainerEvents V))
    (hitems : ∀ lane ∈ s.lanes, TsStrict (slotEvents lane.item) ∧
      ∀ ev ∈ slotEvents lane.item, ev.ts ≤ u64Max)
    (hsome : ∃ lane ∈ s.lanes, lane.item ≠ none) :
    ∃ s', s.process = .ok s' ∧ SameStream s s' ∧ Advances s s' := by
  unfold process
  cases hscan : scan s.lanes 0 (none, none) with
  | error i =>
      rcases scan_error [] hscan with ⟨pre, lane, post, item, hlanes, rfl, hitem, hmin⟩
      rw [List.nil_append] at hlanes
      refine ⟨_, rfl, ?_, ?_⟩
      · rw [setItem_eq hlanes]
        exact ⟨by simp [hlanes], rfl, rfl, rfl, rfl, rfl⟩
      · rw [setItem_eq hlanes]
        exact .drop pre post lane item hlanes hitem (ContainerEvents.tsMin_eq_none.mp hmin) rfl rfl
  | ok tslows =>
      have hlows := scan_lows [] (.zero (by simp)) hscan
      rw [List.nil_append] at hlows
      rcases detectNonMono_eq s tslows with ⟨dim0ixMax, hdetect⟩
      simp only [hdetect]
      -- processing goes on from a state that differs from `s` in the bound only
      suffices hgoal : ∀ s1 : Merger (ContainerEvents V), s1.lanes = s.lanes →
          ∃ s', dropDuplicates tslows (s1.take tslows) = .ok s' ∧ SameStream s1 s' ∧ Advances s1 s' by
        rcases hgoal { s with dim0ixMax := dim0ixMax } rfl with ⟨s', hok, hsame, hadv⟩
        refine ⟨s', hok, ⟨hsame.1, hsame.2, hsame.3, hsame.4, hsame.5, hsame.6⟩, ?_⟩
        cases hadv with
        | drop pre post lane item hlanes hitem hempty hlanes' hout =>
            exact .drop pre post lane item hlanes hitem hempty hlanes' hout
        | take pre post lane item hlanes hitem init rest last hevs hothers left hleft hlanes' out hout
            hmoved =>
            exact .take pre post lane item hlanes hitem init rest last hevs hothers left hleft hlanes'
              out hout hmoved
      intro s1 hlanes
      rw [← hlanes] at hitems hsome hlows
      clear hscan hdetect
      generalize hlanes1 : s1.lanes = lanes at hlows hitems hsome
      cases hlows with
      | zero hothers =>
          rcases hsome with ⟨lane, hlane, hne⟩
          exact (hne (hothers lane hlane)).elim
      | @one pre post lane item t hitem hmin hothers =>
          have hlane := hitems lane (by simp)
          rw [hitem, slotEvents_some] at hlane
          exact process_one s1 hlanes1 hitem hlane.1 hlane.2 hmin hothers
      | @two pre post lane item t i1 tl1 hitem hmin hle hothers hsecond _ =>
          have hlane := hitems lane (by simp)
          rw [hitem, slotEvents_some] at hlane
          have hsorted : ∀ other ∈ pre ++ post, TsSorted (slotEvents other.item) := fun other hother =>
            (hitems other (by
              rcases List.mem_append.mp hother with hother | hother <;> simp [hother])).1.sorted
          rcases exists_concat hmin with ⟨init, last, hevs, hmax⟩
          by_cases hfull : last.ts ≤ tl1
          · exact process_full s1 hlanes1 hitem hlane.1 hlane.2 hmin hmax hfull hsorted hothers
          · exact process_partial s1 hlanes1 hitem hlane.1 hmin hle hmax (not_le.mp hfull) hsorted hothers

/-! ## Advancing and emitting -/

omit [EventValueType V] in
/-- The work of a lane, by the events that were not merged yet. -/
theorem laneWeight_eq (lane : Lane (ContainerEvents V)) :
    laneWeight ContainerEvents.len lane = pollWeight lane + 4 * lane.rest.length := by
  rw [laneWeight, ← Lane.eventsOf_held, eventsOf, List.length_flatMap]
  rfl

omit [EventValueType V] in
/-- Dropping duplicates keeps nothing but the lanes' inputs and fewer events. -/
theorem lanesWeight_keepAfter_le (upto : ℕ) (lanes : List (Lane (ContainerEvents V))) :
    lanesWeight ContainerEvents.len (lanes.map (Lane.keepAfter upto)) ≤
      lanesWeight ContainerEvents.len lanes := by
  rw [lanesWeight, lanesWeight, List.map_map]
  refine List.sum_le_sum fun lane _ => ?_
  rcases lane with ⟨inp, _ | item, flag⟩
  · exact le_rfl
  · have hle := List.length_filter_le (fun ev : EventSingle V => decide (upto < ev.ts)) item.evs
    simp [laneWeight_eq, pollWeight, Lane.keepAfter, Lane.mapItem, Lane.rest, Lane.script]
    omega

/-- What was merged so far of the given inputs. -/
abbrev MergedSoFar (inputs : List (List (EventSingle V))) (v : View (ContainerEvents V)) : Prop :=
  Merged EventSingle.ts inputs (eventsOf v.given ++ slotEvents v.out) (v.held.map eventsOf)

omit [EventValueType V] in
/-- What was merged so far, by the lanes. -/
theorem mergedSoFar_view {inputs : List (List (EventSingle V))}
    {xs : List (Sitemty (ContainerEvents V))} {s : Merger (ContainerEvents V)} :
    MergedSoFar inputs (view xs s) ↔ Merged EventSingle.ts inputs
      (eventsOf (datas (xs ++ s.outbuf)) ++ slotEvents s.out) (s.lanes.map Lane.rest) := by
  rw [MergedSoFar, view, List.map_map]
  have hrest : s.lanes.map (eventsOf ∘ Lane.held) = s.lanes.map Lane.rest :=
    List.map_congr_left fun lane _ => Lane.eventsOf_held lane
  rw [hrest]

omit [EventValueType V] in
/-- Advancing keeps what was merged so far, and lowers the work. -/
theorem Advances.merged {s s' : Merger (ContainerEvents V)} {inputs : List (List (EventSingle V))}
    {xs : List (Sitemty (ContainerEvents V))} (hadv : Advances s s') (hsame : SameStream s s')
    (hloaded : ∀ lane ∈ s.lanes, lane.Loaded) (hmerged : MergedSoFar inputs (view xs s)) :
    MergedSoFar inputs (view xs s') ∧
      weight ContainerEvents.len s' < weight ContainerEvents.len s := by
  rw [mergedSoFar_view] at *
  rcases hsame with ⟨hinps, houtbuf, hlog, hdoneInp, hdoneRaco, hcomplete⟩
  cases hadv with
  | drop pre post lane item hlanes hitem hempty hlanes' hout =>
      have hrest : Lane.rest { lane with item := none } = lane.rest := by
        simp [Lane.rest, Lane.script, hitem, hempty]
      refine ⟨?_, ?_⟩
      · rw [hlanes', hout, houtbuf, List.map_append, List.map_cons, hrest]
        simpa [hlanes] using hmerged
      · have hlt : laneWeight ContainerEvents.len { lane with item := none } <
            laneWeight ContainerEvents.len lane := by
          simp [laneWeight_eq, pollWeight, hrest, Lane.script, hitem]
        simp only [weight, hlanes, hlanes', hout, houtbuf, hdoneInp, hdoneRaco, lanesWeight_middle]
        omega
  | take pre post lane item hlanes hitem init rest last hevs hothers left hleft hlanes' out hout
      hmoved =>
      have hstrict : ∀ other ∈ s.lanes, TsStrict other.rest := fun other hother =>
        hmerged.rest_strict _ (List.mem_map_of_mem hother)
      have hmem : ∀ other ∈ pre ++ post, other ∈ s.lanes := fun other hother => by
        rw [hlanes]
        rcases List.mem_append.mp hother with hother | hother <;> simp [hother]
      have hlater : ∀ other ∈ pre ++ post, ∀ ev ∈ other.rest,
          last.ts ≤ ev.ts ∧ (ev ∉ slotEvents other.item → last.ts < ev.ts) := fun other hother =>
        Lane.le_of_mem_rest (hstrict other (hmem other hother)) (hloaded other (hmem other hother))
          (hothers other hother)
      have hlane : lane.rest = init ++ last :: (rest ++ eventsOf (datas lane.script.items)) := by
        simp [Lane.rest, hitem, hevs]
      have hleftRest : Lane.rest { lane with item := left } =
          rest ++ eventsOf (datas lane.script.items) := by
        simp [Lane.rest, hleft, Lane.script]
      have hlaneStrict := hstrict lane (by simp [hlanes])
      rw [hlane] at hlaneStrict
      have hcross : ∀ ev ∈ rest ++ eventsOf (datas lane.script.items), last.ts < ev.ts := by
        have htail := (strictlySortedBy_append.mp hlaneStrict).2.1
        exact (List.pairwise_cons.mp htail).1
      have hkeep : ∀ other ∈ pre ++ { lane with item := left } :: post,
          (other.keepAfter last.ts).rest = other.rest.filter fun ev => last.ts < ev.ts := by
        refine forall_mem_middle (fun other hother => ?_) ?_
        · exact Lane.rest_keepAfter (fun ev hev => (hlater other hother ev hev).2)
            (hstrict other (hmem other hother))
        · refine Lane.rest_keepAfter (fun ev hev _ => hcross ev (hleftRest ▸ hev)) ?_
          rw [hleftRest]
          exact hlaneStrict.sublist (by simp)
      refine ⟨?_, ?_⟩
      · rw [hlanes, List.map_append, List.map_cons, hlane] at hmerged
        have htake := hmerged.take (by
          rw [← List.map_append]
          intro r hr ev hev
          rcases List.mem_map.mp hr with ⟨other, hother, rfl⟩
          exact (hlater other hother ev hev).1)
        have hrests : s'.lanes.map Lane.rest =
            (pre.map Lane.rest ++ (rest ++ eventsOf (datas lane.script.items)) ::
              post.map Lane.rest).map fun r => r.filter fun ev => last.ts < ev.ts := by
          rw [hlanes', List.map_map, ← hleftRest, ← List.map_cons, ← List.map_append, List.map_map]
          exact List.map_congr_left hkeep
        rw [hrests, hout, houtbuf, slotEvents_some, hmoved, ← List.append_assoc]
        exact htake
      · have hlt : laneWeight ContainerEvents.len { lane with item := left } + 4 ≤
            laneWeight ContainerEvents.len lane := by
          have hsome : left.isSome.toNat ≤ 1 := Bool.toNat_le _
          simp only [laneWeight_eq, pollWeight, hleftRest, hlane, Lane.script, hitem]
          simp
          omega
        have hle := lanesWeight_keepAfter_le last.ts (pre ++ { lane with item := left } :: post)
        rw [lanesWeight_middle] at hle
        simp only [weight, hlanes, hlanes', hout, houtbuf, hdoneInp, hdoneRaco, lanesWeight_middle,
          Option.isSome_some, Bool.toNat_true]
        omega

/-- Merging events keeps what was merged so far. -/
theorem rules_mergedSoFar {inputs : List (List (EventSingle V))}
    (hbound : ∀ input ∈ inputs, ∀ ev ∈ input, ev.ts ≤ u64Max) :
    Rules (fun _ : View (ContainerEvents V) => True) (MergedSoFar inputs) ContainerEvents.len where
  mono v hmerged held hheld c hc := by
    have hstrict := hmerged.rest_strict _ (List.mem_map_of_mem hheld)
    rw [eventsOf, List.flatMap_def] at hstrict
    refine ContainerEvents.isMonotonic_of_sorted (hstrict.sublist ?_).sorted
    exact List.sublist_flatten_of_mem (List.mem_map_of_mem hc)
  cache v out hout hmerged := by
    simpa [MergedSoFar, hout] using hmerged
  emit v out hout hmerged := by
    simpa [MergedSoFar, hout] using hmerged
  process xs s hmerged _ hloaded hsome := by
    have hmerged' := mergedSoFar_view.mp hmerged
    have hitems : ∀ lane ∈ s.lanes, TsStrict (slotEvents lane.item) ∧
        ∀ ev ∈ slotEvents lane.item, ev.ts ≤ u64Max := by
      intro lane hlane
      have hmem : lane.rest ∈ s.lanes.map Lane.rest := List.mem_map_of_mem hlane
      refine ⟨(hmerged'.rest_strict _ hmem).sublist (List.sublist_append_left _ _), ?_⟩
      intro ev hev
      rcases hmerged'.rest_sound _ hmem ev (List.mem_append_left _ hev) with
        ⟨input, hinput, hev'⟩
      exact hbound input hinput ev hev'
    rcases process_advances s hitems hsome with ⟨t, hprocess, hsame, hadv⟩
    rcases hadv.merged hsame hloaded hmerged with ⟨hmergedt, hweight⟩
    exact ⟨t, hprocess, hsame, hmergedt, .inl hweight⟩

/-! ## What the merger is for -/

/-- What the merger hands out for what its inputs deliver. -/
structure MergesInputs (inputs : List (List (Sitemty (ContainerEvents V))))
    (output : List (Sitemty (ContainerEvents V))) : Prop where
  strict : TsStrict (eventsOf (datas output))
  timestamps : ∀ ts, ts ∈ (eventsOf (datas output)).map EventSingle.ts ↔
    ∃ input ∈ inputs, ts ∈ (eventsOf (datas input)).map EventSingle.ts
  values : ∀ ev ∈ eventsOf (datas output), ∃ input ∈ inputs, ev ∈ eventsOf (datas input)
  range_complete : 0 < completes output ↔ ∀ input ∈ inputs, 0 < completes input
  complete_last : CompleteIsLast output

/-- The merger does what it is for if and only if some input did not deliver the range-complete
marker. -/
theorem mergesInputs_iff (scripts : List (Script (Sitemty (ContainerEvents V))))
    (outMaxLen : Option ℕ)
    (hstrict : ∀ script ∈ scripts, TsStrict (eventsOf (datas (Script.items script))))
    (hbound : ∀ script ∈ scripts, ∀ ev ∈ eventsOf (datas (Script.items script)), ev.ts ≤ u64Max)
    (herr : ∀ script ∈ scripts, errors (Script.items script) = []) :
    ∃ output, Drains pollNext (new scripts outMaxLen) output ∧
      (MergesInputs (scripts.map Script.items) output ↔
        ∃ script ∈ scripts, completes (Script.items script) = 0) := by
  have hstart : MergedSoFar (scripts.map fun script => eventsOf (datas (Script.items script)))
      (View.start scripts) := by
    have hmerged : Merged EventSingle.ts
        (scripts.map fun script => eventsOf (datas (Script.items script))) []
        (scripts.map fun script => eventsOf (datas (Script.items script))) :=
      Merged.start (by simpa [List.forall_mem_map] using hstrict)
    simpa [MergedSoFar, View.start, Function.comp_def] using hmerged
  have hbound' : ∀ input ∈ scripts.map fun script => eventsOf (datas (Script.items script)),
      ∀ ev ∈ input, ev.ts ≤ u64Max := by
    simpa [List.forall_mem_map] using hbound
  have hrules := rules_mergedSoFar hbound'
  rcases hrules.drains hstart herr fun _ _ _ => trivial with
    ⟨output, held, _, hdrains, hcompletes, hmerged, hheld⟩
  simp only [MergedSoFar, slotEvents_none, List.append_nil] at hmerged
  have hrests : ∀ rest ∈ held.map eventsOf, rest = [] := by
    intro rest hrest
    rcases List.mem_map.mp hrest with ⟨cs, hcs, rfl⟩
    rw [hheld cs hcs, ContainerEvents.eventsOf_nil]
  refine ⟨output, hdrains, fun hmerges => ?_, fun hsome => ?_⟩
  · by_contra hall
    push Not at hall
    have hcompl := hmerges.range_complete.mpr (by
      intro input hinput
      rcases List.mem_map.mp hinput with ⟨script, hscript, rfl⟩
      exact Nat.pos_of_ne_zero (hall script hscript))
    omega
  · rcases hsome with ⟨script, hscript, hzero⟩
    refine ⟨hmerged.strict, fun ts => ?_, fun ev hev => ?_, ?_,
      completeIsLast_of_completes_eq_zero hcompletes⟩
    · rw [hmerged.mem_keys_iff hrests]
      simp
    · rcases hmerged.out_sound ev hev with ⟨input, hinput, hev'⟩
      rcases List.mem_map.mp hinput with ⟨script', hscript', rfl⟩
      exact ⟨_, List.mem_map_of_mem hscript', hev'⟩
    · rw [hcompletes]
      refine ⟨fun habs => absurd habs (lt_irrefl 0), fun hall => ?_⟩
      have hpos := hall _ (List.mem_map_of_mem hscript)
      omega

/-- The equivalence for two inputs with a common timestamp, of which one is range-complete. -/
theorem mergesInputs_iff_common :
    ∃ output, Drains pollNext (new (T := ContainerEvents UInt64)
        [[.ready (sitemData { evs := [⟨5, 1⟩, ⟨7, 2⟩] }), .ready sitemRangeComplete],
          [.pending, .ready (sitemData { evs := [⟨7, 3⟩] })]] none) output ∧
      (MergesInputs (V := UInt64)
          [[sitemData { evs := [⟨5, 1⟩, ⟨7, 2⟩] }, sitemRangeComplete],
            [sitemData { evs := [⟨7, 3⟩] }]] output ↔
        ∃ script ∈ ([[.ready (sitemData { evs := [⟨5, 1⟩, ⟨7, 2⟩] }), .ready sitemRangeComplete],
            [.pending, .ready (sitemData { evs := [⟨7, 3⟩] })]] :
              List (Script (Sitemty (ContainerEvents UInt64)))),
          completes (Script.items script) = 0) :=
  mergesInputs_iff _ none (by simp [StrictlySortedBy]) (by simp [u64Max]) (by simp)

/-- One input with one event and the range-complete marker: the merger ends without the marker. -/
theorem not_mergesInputs_all_complete :
    ∃ output, Drains pollNext (new (T := ContainerEvents UInt64)
        [[.ready (sitemData { evs := [⟨5, 1⟩] }), .ready sitemRangeComplete]] none) output ∧
      ¬ MergesInputs (V := UInt64) [[sitemData { evs := [⟨5, 1⟩] }, sitemRangeComplete]] output := by
  refine ⟨_, drive_drains 12 rfl, fun hmerges => ?_⟩
  have hcompl := hmerges.range_complete
  simp at hcompl

end Merger

end Items
end Daqbuf
