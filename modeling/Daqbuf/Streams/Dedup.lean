import Daqbuf.Scylla.Sitems
import Daqbuf.Poll.Stage
/-!
# Dropping Repeated Timestamps

{lit}`Dedup` passes a stream on and drops, from the batches, the events that are not later than all before them.

Main results:

- Theorem {lit}`keepUnique_append`: what is dropped does not depend on how the events come in batches.
- Theorem {lit}`find?_keepUnique`: of the events with one timestamp the first one stays.
- Theorem {lit}`Dedup.dedups`: in every run its events increase strictly, and it has the first event of every
  timestamp of an ordered input.
-/

namespace Daqbuf

namespace Items.ContainerEvents

open Search

variable {V : Type*} {m : ℕ} {evs evs' : List (EventSingle V)}

/-- The latest timestamp, or the bound -/
def lastTs (m : ℕ) (evs : List (EventSingle V)) : ℕ := (evs.getLast?.map EventSingle.ts).getD m

@[simp]
theorem lastTs_nil : lastTs m ([] : List (EventSingle V)) = m := rfl

theorem lastTs_cons (ev : EventSingle V) : lastTs m (ev :: evs) = lastTs ev.ts evs := by
  cases evs with
  | nil => rfl
  | cons ev' evs => simp [lastTs, List.getLast?_cons]

/-- The events are kept in one way, however they come in batches. -/
theorem keepUnique_append :
    keepUnique m (evs ++ evs') = keepUnique m evs ++ keepUnique (lastTs m (keepUnique m evs)) evs' := by
  induction evs generalizing m with
  | nil => rfl
  | cons ev evs ih =>
      rw [List.cons_append, keepUnique, keepUnique]
      split_ifs
      · rw [ih, List.cons_append, lastTs_cons]
      · rw [ih]

/-- The events that are kept are later than the bound. -/
theorem lt_of_mem_keepUnique {ev : EventSingle V} (hev : ev ∈ keepUnique m evs) : m < ev.ts := by
  induction evs generalizing m with
  | nil => cases hev
  | cons first evs ih =>
      rw [keepUnique] at hev
      split_ifs at hev with hlater
      · rcases List.mem_cons.mp hev with rfl | hev
        · exact hlater
        · exact lt_trans hlater (ih hev)
      · exact ih hev

/-- The events that are kept increase strictly. -/
theorem keepUnique_strict : TsStrict (keepUnique m evs) := by
  induction evs generalizing m with
  | nil => exact List.Pairwise.nil
  | cons ev evs ih =>
      rw [keepUnique]
      split_ifs
      · exact List.pairwise_cons.mpr ⟨fun ev' hev' => lt_of_mem_keepUnique hev', ih⟩
      · exact ih

/-- Of the events with a timestamp, the first one is kept. -/
theorem find?_keepUnique (hsorted : TsSorted evs) {ts : ℕ} (hts : m < ts) :
    (keepUnique m evs).find? (fun ev => ev.ts == ts) = evs.find? fun ev => ev.ts == ts := by
  induction evs generalizing m with
  | nil => rfl
  | cons ev evs ih =>
      obtain ⟨hfirst, hrest⟩ := List.pairwise_cons.mp hsorted
      rw [keepUnique]
      by_cases heq : ev.ts = ts
      · rw [if_pos (heq ▸ hts)]
        simp [heq]
      · have hskip : (ev.ts == ts) = false := beq_eq_false_iff_ne.mpr heq
        split_ifs with hlater
        · rw [List.find?_cons_of_neg (by simp [hskip]), List.find?_cons_of_neg (by simp [hskip])]
          by_cases hbelow : ev.ts < ts
          · exact ih hrest hbelow
          · -- no event from here on has the timestamp
            have hnone : ∀ ev' ∈ evs, ¬ (ev'.ts == ts) = true := by
              intro ev' hev' hbeq
              have hle : ev.ts ≤ ev'.ts := hfirst ev' hev'
              have hts' : ev'.ts = ts := beq_iff_eq.mp hbeq
              omega
            rw [List.find?_eq_none.mpr hnone]
            apply List.find?_eq_none.mpr
            intro ev' hev'
            exact hnone ev' ((keepUnique_sublist _ _).subset hev')
        · rw [List.find?_cons_of_neg (by simp [hskip])]
          exact ih hrest hts

/-- Every timestamp above the bound is kept. -/
theorem exists_keepUnique (hsorted : TsSorted evs) {ev : EventSingle V} (hev : ev ∈ evs) (hlater : m < ev.ts) :
    ∃ ev' ∈ keepUnique m evs, ev'.ts = ev.ts := by
  have hfind := find?_keepUnique hsorted hlater
  cases hsome : evs.find? (fun ev' => ev'.ts == ev.ts) with
  | none => exact absurd (beq_self_eq_true ev.ts) (List.find?_eq_none.mp hsome ev hev)
  | some ev' =>
      rw [hsome] at hfind
      have hts := List.find?_some hsome
      exact ⟨ev', List.mem_of_find?_eq_some hfind, by simpa using hts⟩

/-- Events that increase strictly are all kept. -/
theorem keepUnique_of_strict (hstrict : TsStrict evs) (hbound : ∀ ev ∈ evs, m < ev.ts) : keepUnique m evs = evs := by
  induction evs generalizing m with
  | nil => rfl
  | cons ev evs ih =>
      obtain ⟨hfirst, hrest⟩ := List.pairwise_cons.mp hstrict
      rw [keepUnique, if_pos (hbound ev (List.mem_cons_self ..)), ih hrest hfirst]

theorem tsMax_getD (c : ContainerEvents V) : c.tsMax.getD m = lastTs m c.evs := rfl

end Items.ContainerEvents

namespace Streams

open Items Poll Search Scylla
open Items.ContainerEvents (keepUnique eventsOf lastTs)

/-- {lit}`retain_unique_ts` of {lit}`MergeableTy` -/
class RetainUniqueTs (T : Type*) extends MergeableTy T where
  retainUniqueTs : T → ℕ → T

instance instRetainUniqueTsContainerEvents {V : Type*} [EventValueType V] : RetainUniqueTs (ContainerEvents V) where
  retainUniqueTs := ContainerEvents.retainUniqueTs

namespace Dedup

section Model

variable {T E : Type*} [RetainUniqueTs T]

/-- {lit}`clean_item`: the item, and the {lit}`tsmin` behind it. -/
def cleanItem (tsmin : ℕ) (item : T) : T × ℕ :=
  let item := RetainUniqueTs.retainUniqueTs item tsmin
  (item, (MergeableTy.tsMax item).getD tsmin)

/-- {lit}`poll_next`, where the input is ready with an item. -/
def onItem (tsmin : ℕ) : Sitemty2 T E → Sitemty2 T E × ℕ
  | .ok (.dataItem (.data x)) =>
      let (item, tsmin) := cleanItem tsmin x
      (sitem2Data item, tsmin)
  | .ok (.dataItem .rangeComplete) => (.ok (.dataItem .rangeComplete), tsmin)
  | .ok (.log x) => (.ok (.log x), tsmin)
  | .ok (.stats x) => (.ok (.stats x), tsmin)
  | .error e => (.error e, tsmin)

/-- {lit}`poll_next` -/
def stage : Stage ℕ (Sitemty2 T E) (Sitemty2 T E) := scan onItem

/-- {lit}`new`: the {lit}`tsmin` -/
def new : ℕ := 0

end Model

section Events

variable {V E σ : Type*} [EventValueType V] {m : ℕ} {xs : List (Sitemty2 (ContainerEvents V) E)}

/-- The items keep their shape. -/
theorem shape_onItem (x : Sitemty2 (ContainerEvents V) E) : shape (onItem m x).1 = shape x := by
  cases x with
  | error e => rfl
  | ok x =>
      cases x with
      | dataItem d => cases d <;> rfl
      | log l => rfl
      | stats t => rfl

/-- What an item is made of -/
theorem events_onItem (x : Sitemty2 (ContainerEvents V) E) :
    eventsOf (data2? (onItem m x).1).toList = keepUnique m (eventsOf (data2? x).toList) ∧
      (onItem m x).2 = lastTs m (eventsOf (data2? (onItem m x).1).toList) := by
  cases x with
  | error e => exact ⟨rfl, rfl⟩
  | ok x =>
      cases x with
      | dataItem d =>
          cases d with
          | rangeComplete => exact ⟨rfl, rfl⟩
          | data c =>
              constructor
              · simp [onItem, cleanItem, RetainUniqueTs.retainUniqueTs, ContainerEvents.retainUniqueTs]
              · simp [onItem, cleanItem, RetainUniqueTs.retainUniqueTs, ContainerEvents.tsMax_getD]
      | log l => exact ⟨rfl, rfl⟩
      | stats t => exact ⟨rfl, rfl⟩

theorem shapes_scan : (scanItems onItem m xs).map shape = xs.map shape := by
  induction xs generalizing m with
  | nil => rfl
  | cons x xs ih => rw [scanItems_cons, List.map_cons, List.map_cons, ih, shape_onItem]

/-- The events of a stream are kept as those of one batch. -/
theorem events_scan : eventsOf (datas2 (scanItems onItem m xs)) = keepUnique m (eventsOf (datas2 xs)) := by
  induction xs generalizing m with
  | nil => rfl
  | cons x xs ih =>
      obtain ⟨hevents, hkept⟩ := events_onItem (m := m) x
      rw [scanItems_cons, datas2_cons, datas2_cons, ContainerEvents.eventsOf_append, ContainerEvents.eventsOf_append,
        ContainerEvents.keepUnique_append, ih, hkept, hevents]

/-- {lit}`Dedup` over any stream: in every run it has handed out the items of the stream, the same in other respects;
its events increase strictly and are events of the stream, and where those are in order, it has the first one of
every timestamp. -/
theorem dedups {next : σ → Pass σ (Sitemty2 (ContainerEvents V) E)} {s : σ}
    {ys : List (Sitemty2 (ContainerEvents V) E)} {v : σ × ℕ} (hnext : ¬ Panics next s)
    (hrun : Reaches (stage.pass next) (s, new) ys v) :
    ∃ xs, Reaches next s xs v.1 ∧ ys.map shape = xs.map shape ∧
      TsStrict (eventsOf (datas2 ys)) ∧ (eventsOf (datas2 ys)).Sublist (eventsOf (datas2 xs)) ∧
      (TsSorted (eventsOf (datas2 xs)) → ∀ ts > 0,
        (eventsOf (datas2 ys)).find? (fun ev => ev.ts == ts) =
          (eventsOf (datas2 xs)).find? fun ev => ev.ts == ts) := by
  obtain ⟨xs, hxs, rfl, _⟩ := reaches_scan hnext hrun
  refine ⟨xs, hxs, shapes_scan, ?_, ?_, ?_⟩
  · rw [events_scan]
    exact ContainerEvents.keepUnique_strict
  · rw [events_scan]
    exact ContainerEvents.keepUnique_sublist _ _
  · intro hsorted ts hts
    rw [events_scan]
    exact ContainerEvents.find?_keepUnique hsorted hts

/-- The batches of two stores that both have the event at 2. -/
theorem dedups_repeated :
    ∃ xs, Reaches Script.next [.ready (sitem2Data { evs := [⟨1, 5⟩, ⟨2, 6⟩] }), .pending,
        .ready (sitem2Data { evs := [⟨2, 7⟩, ⟨3, 8⟩] })] xs
          ([] : Script (Sitemty2 (ContainerEvents UInt8) Empty)) ∧
      [sitem2Data (), sitem2Data ()] = xs.map shape ∧
      TsStrict [(⟨1, 5⟩ : EventSingle UInt8), ⟨2, 6⟩, ⟨3, 8⟩] ∧
      [⟨1, 5⟩, ⟨2, 6⟩, ⟨3, 8⟩].Sublist (eventsOf (datas2 xs)) ∧
      (TsSorted (eventsOf (datas2 xs)) → ∀ ts > 0,
        [(⟨1, 5⟩ : EventSingle UInt8), ⟨2, 6⟩, ⟨3, 8⟩].find? (fun ev => ev.ts == ts) =
          (eventsOf (datas2 xs)).find? fun ev => ev.ts == ts) := by
  have hrun : Reaches (stage.pass Script.next)
      (([.ready (sitem2Data { evs := [⟨1, 5⟩, ⟨2, 6⟩] }), .pending,
        .ready (sitem2Data { evs := [⟨2, 7⟩, ⟨3, 8⟩] })] : Script (Sitemty2 (ContainerEvents UInt8) Empty)), new)
      [sitem2Data { evs := [⟨1, 5⟩, ⟨2, 6⟩] }, sitem2Data { evs := [⟨3, 8⟩] }] ([], 3) :=
    .item_head rfl (.pending_head rfl (.item_head rfl .refl))
  exact dedups (Script.drains_next _).not_panics hrun

end Events

end Dedup

end Streams
end Daqbuf
