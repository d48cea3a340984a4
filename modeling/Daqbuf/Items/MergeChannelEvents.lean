import Daqbuf.Items.ChannelEvents
import Daqbuf.Items.MergeEvents
/-!
# Merging Channel Events

The merger on streams of channel events, where data events and status changes come together.

Main results:

- Theorem {lit}`take_one_takes`, {lit}`take_two_takes`: {lit}`take` moves the first entries of one lane to the
  output, or moves nothing because the output refuses the item.
- Theorem {lit}`rules_kept`: no step loses a data event, unless a status item collides with it.
- Theorem {lit}`losesNoEvent_of_not_statusCollides`: a run without such a collision delivers the
  timestamps of all data events.
-/

namespace Daqbuf
namespace Items

open Netpod Poll Search
open ChannelEvents (entriesOf eventTss TimeOrdered mem_eventTss eventTss_append)

namespace ChannelEvents

variable {κ : Type*} {V : κ → Type*}

/-- The entries of an optional item. -/
def slotEntries (slot : Option (ChannelEvents V)) : List (Entry V) := entriesOf slot.toList

@[simp]
theorem slotEntries_none : slotEntries (none : Option (ChannelEvents V)) = [] := rfl

@[simp]
theorem slotEntries_some (c : ChannelEvents V) : slotEntries (some c) = c.entries := by
  simp [slotEntries]

/-- Drops the events that are not later than {lit}`upto`; a status stays. -/
def keepAfter (upto : ℕ) : ChannelEvents V → ChannelEvents V
  | events k c => events k { c with evs := c.evs.filter fun ev => upto < ev.ts }
  | status x => status x

/-- Of the entries that are dropped, none is later, and all are events. -/
theorem mem_entries_keepAfter {upto : ℕ} {c : ChannelEvents V} {e : Entry V} (he : e ∈ c.entries) :
    e ∈ (c.keepAfter upto).entries ∨ (e.isEvent = true ∧ e.ts ≤ upto) := by
  rcases c with ⟨k, c⟩ | x
  · rcases List.mem_map.mp he with ⟨ev, hev, rfl⟩
    by_cases hlt : upto < ev.ts
    · exact .inl (by simp [keepAfter, hev, hlt])
    · exact .inr ⟨rfl, by simpa using hlt⟩
  · exact .inl he

theorem entries_keepAfter_sublist (upto : ℕ) (c : ChannelEvents V) :
    List.Sublist (c.keepAfter upto).entries c.entries := by
  rcases c with ⟨k, c⟩ | x
  · exact List.filter_sublist.map _
  · exact List.Sublist.refl _

/-- The entries of a batch that satisfy a condition on the timestamp. -/
theorem filter_entries_events (p : ℕ → Bool) (k : κ) (c : ContainerEvents (V k)) :
    (events k c).entries.filter (fun e => p e.ts) =
      (c.evs.filter fun ev => p ev.ts).map (Entry.event k) := by
  rw [entries_events, List.filter_map]
  rfl

/-- The events of an item whose entries are in order are in order. -/
theorem tsSorted_of_timeOrdered {k : κ} {c : ContainerEvents (V k)}
    (hordered : TimeOrdered (events k c).entries) : TsSorted c.evs := by
  simpa [SortedBy, List.pairwise_map] using hordered

end ChannelEvents

open ChannelEvents (slotEntries slotEntries_none slotEntries_some)

namespace Merger

variable {κ : Type*} [DecidableEq κ] {V : κ → Type*} [∀ k, EventValueType (V k)]

/-! ## Draining channel events -/

section Drain

variable {k : κ} (c d : ContainerEvents (V k)) (upto : ℕ)

/-- Events drain into events of the same type. -/
theorem drainIntoDstUpto_events (hsorted : TsSorted c.evs) :
    drainIntoDstUpto (ChannelEvents.events k c) (.events k d) upto =
      (.done, .events k { c with evs := c.evs.filter fun ev => upto < ev.ts },
        .events k { d with evs := d.evs ++ c.evs.filter fun ev => ev.ts ≤ upto }) := by
  have hdrain := drainIntoDstUpto_eq c d upto hsorted
  simp only [drainIntoDstUpto, ContainerEvents.mergeable_findLowestIndexGt,
    ContainerEvents.mergeable_drainInto, ContainerEvents.mergeable_len,
    ChannelEvents.channel_findLowestIndexGt, ChannelEvents.channel_drainInto,
    ChannelEvents.channel_len, ChannelEvents.findLowestIndexGt, ChannelEvents.drainInto,
    ChannelEvents.len, dif_pos] at hdrain ⊢
  cases hfind : c.findLowestIndexGt upto with
  | none =>
      simp only [hfind] at hdrain ⊢
      rw [hdrain]
  | some i =>
      simp only [hfind] at hdrain ⊢
      rw [hdrain]

/-- Events drain into a new item. -/
theorem drainIntoNewUpto_events (hsorted : TsSorted c.evs) :
    drainIntoNewUpto (ChannelEvents.events k c) upto =
      (.done (.events k { evs := c.evs.filter fun ev => ev.ts ≤ upto }),
        .events k { c with evs := c.evs.filter fun ev => upto < ev.ts }) := by
  have hdrain := drainIntoNewUpto_eq c upto hsorted
  simp only [drainIntoNewUpto, ContainerEvents.mergeable_findLowestIndexGt,
    ContainerEvents.mergeable_drainIntoNew, ContainerEvents.mergeable_len,
    ChannelEvents.channel_findLowestIndexGt, ChannelEvents.channel_drainIntoNew,
    ChannelEvents.channel_len, ChannelEvents.findLowestIndexGt, ChannelEvents.drainIntoNew,
    ChannelEvents.len] at hdrain ⊢
  cases hfind : c.findLowestIndexGt upto with
  | none =>
      simp only [hfind] at hdrain ⊢
      rw [hdrain]
  | some i =>
      simp only [hfind] at hdrain ⊢
      rw [hdrain]

omit [DecidableEq κ] in
/-- A status drains into a new item as a copy. -/
theorem drainIntoNewUpto_status [DecidableEq κ] (x : Option ConnStatusEvent) :
    drainIntoNewUpto (ChannelEvents.status x : ChannelEvents V) upto = (.done (.status x), .status x) := by
  unfold drainIntoNewUpto
  split <;> rfl

end Drain

/-- What can happen when an item is taken into the output: its entries up to a timestamp move (a
status as a whole), or nothing happens. -/
theorem takeIntoOutputUpto_channel (s : Merger (ChannelEvents V)) (src : ChannelEvents V) (upto : ℕ)
    (hordered : TimeOrdered src.entries)
    (hout : ∀ out, s.out = some out → out.tsMax = some s.dim0ixMax) :
    (∃ src' out, s.takeIntoOutputUpto src upto = (.done, src', { s with out := some out }) ∧
      ((src.isEvents = true ∧
          out.entries = slotEntries s.out ++ src.entries.filter (fun e => e.ts ≤ upto) ∧
          src'.entries = src.entries.filter fun e => upto < e.ts) ∨
        (src.isEvents = false ∧ s.out = none ∧ out = src))) ∨
    (s.out ≠ none ∧ ∃ res, res ≠ .done ∧ s.takeIntoOutputUpto src upto = (res, src, s)) := by
  unfold takeIntoOutputUpto
  cases hsome : s.out with
  | none =>
      left
      rcases src with ⟨k, c⟩ | x
      · simp only [drainIntoNewUpto_events c upto (ChannelEvents.tsSorted_of_timeOrdered hordered)]
        refine ⟨_, _, rfl, .inl ⟨rfl, ?_, ?_⟩⟩
        · rw [slotEntries_none, List.nil_append]
          exact (ChannelEvents.filter_entries_events (fun ts => ts ≤ upto) k c).symm
        · exact (ChannelEvents.filter_entries_events (fun ts => upto < ts) k c).symm
      · simp only [drainIntoNewUpto_status]
        exact ⟨_, _, rfl, .inr ⟨rfl, trivial, rfl⟩⟩
  | some out =>
      -- a drain that does nothing, whatever the range
      have hrefused : ∀ res, res ≠ .done →
          (∀ beg fin, src.drainInto out beg fin = (res, src, out)) →
          some out ≠ none ∧ ∃ res, res ≠ .done ∧
            (match some out with
              | some out =>
                  let (res, src, out) := drainIntoDstUpto src out upto
                  (res, src, { s with out := some out })
              | none => (res, src, s)) = (res, src, s) := by
        intro res hres hdrain
        have hupto : drainIntoDstUpto src out upto = (res, src, out) := by
          unfold drainIntoDstUpto
          split <;> exact hdrain _ _
        refine ⟨by simp, res, hres, ?_⟩
        simp only [hupto, ← hsome]
      rcases src with ⟨k, c⟩ | x
      · rcases out with ⟨j, d⟩ | y
        · by_cases htype : j = k
          · subst j
            left
            simp only [drainIntoDstUpto_events c d upto (ChannelEvents.tsSorted_of_timeOrdered hordered)]
            refine ⟨_, _, rfl, .inl ⟨rfl, ?_, ?_⟩⟩
            · rw [ChannelEvents.filter_entries_events (fun ts => ts ≤ upto) k c, slotEntries_some]
              exact List.map_append
            · exact (ChannelEvents.filter_entries_events (fun ts => upto < ts) k c).symm
          · right
            exact hrefused .notCompatible (by simp) fun beg fin => by
              simp [ChannelEvents.drainInto, htype]
        · right
          exact hrefused .notCompatible (by simp) fun beg fin => by simp [ChannelEvents.drainInto]
      · right
        rcases out with ⟨j, d⟩ | _ | st
        · exact hrefused .notCompatible (by simp) fun beg fin => by simp [ChannelEvents.drainInto]
        · have hmax := hout _ hsome
          simp [ChannelEvents.tsMax] at hmax
        · exact hrefused .partially (by simp) fun beg fin => by simp [ChannelEvents.drainInto]

/-! ## Taking -/

/-- What {lit}`take` does with the item of a lane, up to a timestamp. -/
inductive Takes (upto : ℕ) (s t : Merger (ChannelEvents V)) (pre post : List (Lane (ChannelEvents V)))
    (lane : Lane (ChannelEvents V)) (item : ChannelEvents V) : Prop
  /-- the first entries move to the output -/
  | moved (init rest : List (Entry V)) (last : Entry V) (left : Option (ChannelEvents V))
      (out : ChannelEvents V) (hentries : item.entries = init ++ last :: rest)
      (hle : last.ts ≤ upto) (hleft : slotEntries left = rest)
      (hlanes : t.lanes = pre ++ { lane with item := left } :: post) (hout : t.out = some out)
      (hmoved : out.entries = slotEntries s.out ++ (init ++ [last])) (hmax : t.dim0ixMax = last.ts)
      (hstatus : item.isEvents = false → s.out = none ∧ rest = [])
  /-- the output refuses the item -/
  | refused (hlanes : t.lanes = s.lanes) (hout : t.out = s.out) (hsome : s.out ≠ none)
      (hmax : t.dim0ixMax = s.dim0ixMax) (hclear : t.doClearOut = true)

omit [DecidableEq κ] [∀ k, EventValueType (V k)] in
theorem tsMin_eq_some {c : ChannelEvents V} {ts : ℕ} :
    c.tsMin = some ts ↔ ∃ first rest, c.entries = first :: rest ∧ first.ts = ts := by
  rw [ChannelEvents.tsMin_eq]
  cases c.entries with
  | nil => simp
  | cons first rest => simp

section Take

variable (s : Merger (ChannelEvents V)) {pre post : List (Lane (ChannelEvents V))}
  {lane : Lane (ChannelEvents V)} {item : ChannelEvents V} {upto : ℕ}

/-- Raising the bound to the last timestamp of an output that ends with an entry. -/
theorem raiseDim0ixMax_channel {out : ChannelEvents V} {init : List (Entry V)} {last : Entry V}
    (hout : s.out = some out) (hentries : out.entries = init ++ [last]) :
    s.raiseDim0ixMax = .ok { s with dim0ixMax := last.ts } := by
  have hmax : out.tsMax = some last.ts := by
    rw [ChannelEvents.tsMax_eq, hentries]
    simp
  simp [raiseDim0ixMax, hout, hmax]

/-- A refused item is put back, and the output is to be emitted. -/
theorem afterTake_refused (hlanes : s.lanes = pre ++ lane :: post) (hitem : lane.item = some item)
    (hout : ∀ out, s.out = some out → out.tsMax = some s.dim0ixMax) (hsome : s.out ≠ none)
    {res : DrainIntoDstResult} (hres : res ≠ .done)
    (onDone : Merger (ChannelEvents V) → Processed (ChannelEvents V)) :
    afterTake { s with lanes := pre ++ { lane with item := none } :: post } pre.length res item
      onDone = .ok { s with doClearOut := true } := by
  have hback : setItem { s with lanes := pre ++ { lane with item := none } :: post } pre.length
      (some item) = s := by
    rw [setItem_eq rfl, ← hitem, ← hlanes]
  unfold afterTake
  rw [hback]
  cases res with
  | done => exact (hres rfl).elim
  | notCompatible => rfl
  | partially =>
      rcases Option.ne_none_iff_exists'.mp hsome with ⟨out, hout'⟩
      simp [raiseDim0ixMax, hout', hout out hout']

/-- Taking a whole item. -/
theorem takeAll_takes (hlanes : s.lanes = pre ++ lane :: post) (hitem : lane.item = some item)
    (hordered : TimeOrdered item.entries) (hne : item.entries ≠ [])
    (hbound : ∀ e ∈ item.entries, e.ts ≤ u64Max) (hle : ∀ e ∈ item.entries, e.ts ≤ upto)
    (hout : ∀ out, s.out = some out → out.tsMax = some s.dim0ixMax) :
    ∃ t, s.takeAll pre.length item = .ok t ∧ SameStream s t ∧ Takes upto s t pre post lane item := by
  rcases (List.eq_nil_or_concat item.entries).resolve_left hne with ⟨init, last, hlast⟩
  rw [List.concat_eq_append] at hlast
  have hall : item.entries.filter (fun e => e.ts ≤ u64Max) = item.entries := by
    rw [List.filter_eq_self]
    intro e he
    simpa using hbound e he
  rw [takeAll, setItem_eq hlanes, takeIntoOutputAll]
  rcases takeIntoOutputUpto_channel
    { s with lanes := pre ++ { lane with item := none } :: post } item u64Max hordered hout with
    ⟨src', out, htake, hmoved⟩ | ⟨hsome, res, hres, htake⟩
  · have hout' : out.entries = slotEntries s.out ++ (init ++ [last]) := by
      rcases hmoved with ⟨_, hmoved, _⟩ | ⟨_, hnone, rfl⟩
      · rw [hmoved, hall, hlast]
      · simp only at hnone
        simp [hnone, hlast]
    rw [htake]
    refine ⟨_, raiseDim0ixMax_channel
      { s with lanes := pre ++ { lane with item := none } :: post, out := some out } rfl
      (hout'.trans (List.append_assoc _ _ _).symm), ⟨by simp [hlanes], rfl, rfl, rfl, rfl, rfl⟩, ?_⟩
    refine .moved init [] last none out hlast (hle last (by simp [hlast])) rfl rfl rfl hout' rfl ?_
    intro hstatus
    rcases hmoved with ⟨hevents, _⟩ | ⟨_, hnone, _⟩
    · simp [hstatus] at hevents
    · exact ⟨hnone, rfl⟩
  · refine ⟨{ s with doClearOut := true }, ?_, ⟨rfl, rfl, rfl, rfl, rfl, rfl⟩,
      .refused rfl rfl hsome rfl rfl⟩
    rw [htake]
    exact afterTake_refused s hlanes hitem hout hsome hres _

/-- Taking a part of a batch of events. -/
theorem takeUpto_takes (hlanes : s.lanes = pre ++ lane :: post) (hitem : lane.item = some item)
    (hordered : TimeOrdered item.entries) (hevents : item.isEvents = true)
    (hfirst : ∃ e ∈ item.entries, e.ts ≤ upto) (hlater : ∃ e ∈ item.entries, upto < e.ts)
    (hout : ∀ out, s.out = some out → out.tsMax = some s.dim0ixMax) :
    ∃ t, s.takeUpto pre.length item upto = .ok t ∧ SameStream s t ∧
      Takes upto s t pre post lane item := by
  have hne : item.entries.filter (fun e => e.ts ≤ upto) ≠ [] := by
    rcases hfirst with ⟨e, he, hle⟩
    exact List.ne_nil_of_mem (List.mem_filter.mpr ⟨he, by simpa using hle⟩)
  rcases (List.eq_nil_or_concat _).resolve_left hne with ⟨init, last, hlast⟩
  rw [List.concat_eq_append] at hlast
  have hlastle : last.ts ≤ upto := by
    have hmem : last ∈ item.entries.filter (fun e => e.ts ≤ upto) := by simp [hlast]
    simpa using (List.mem_filter.mp hmem).2
  have hcut : item.entries = (init ++ [last]) ++ item.entries.filter fun e => upto < e.ts := by
    rw [← hlast]
    exact (cut_le_of_sorted hordered upto).symm
  rw [takeUpto, setItem_eq hlanes]
  rcases takeIntoOutputUpto_channel
    { s with lanes := pre ++ { lane with item := none } :: post } item upto hordered hout with
    ⟨src', out, htake, hmoved⟩ | ⟨hsome, res, hres, htake⟩
  · rcases hmoved with ⟨_, hmoved, hsrc⟩ | ⟨hstatus, _⟩
    · rw [hlast] at hmoved
      have hlen : src'.len ≠ 0 := by
        rcases hlater with ⟨e, he, hlt⟩
        rw [ChannelEvents.len_eq, hsrc, ← Nat.pos_iff_ne_zero]
        exact List.length_pos_of_mem (List.mem_filter.mpr ⟨he, by simpa using hlt⟩)
      rw [htake]
      simp only [afterTake, ChannelEvents.channel_len, if_neg hlen]
      rw [setItem_eq rfl]
      refine ⟨_, raiseDim0ixMax_channel
        { s with lanes := pre ++ { lane with item := some src' } :: post, out := some out } rfl
        (hmoved.trans (List.append_assoc _ _ _).symm), ⟨by simp [hlanes], rfl, rfl, rfl, rfl, rfl⟩, ?_⟩
      exact .moved init _ last (some src') out (hcut.trans (List.append_assoc _ _ _)) hlastle
        ((slotEntries_some src').trans hsrc) rfl rfl hmoved rfl (by simp [hevents])
    · simp [hevents] at hstatus
  · refine ⟨{ s with doClearOut := true }, ?_, ⟨rfl, rfl, rfl, rfl, rfl, rfl⟩,
      .refused rfl rfl hsome rfl rfl⟩
    rw [htake]
    exact afterTake_refused s hlanes hitem hout hsome hres _

omit [DecidableEq κ] [∀ k, EventValueType (V k)] in
/-- What counts the kinds of taking does not matter. -/
theorem Takes.of_eq {s1 t : Merger (ChannelEvents V)} (htakes : Takes upto s1 t pre post lane item)
    (hlanes1 : s1.lanes = s.lanes) (hout1 : s1.out = s.out) (hmax1 : s1.dim0ixMax = s.dim0ixMax) :
    Takes upto s t pre post lane item := by
  cases htakes with
  | moved init rest last left out hentries hle hleft hlanes hout hmoved hmax hstatus =>
      rw [hout1] at hmoved hstatus
      exact .moved init rest last left out hentries hle hleft hlanes hout hmoved hmax hstatus
  | refused hlanes hout hsome hmax hclear =>
      exact .refused (hlanes.trans hlanes1) (hout.trans hout1) (hout1 ▸ hsome) (hmax.trans hmax1) hclear

/-- Without another item, the whole item is taken. -/
theorem take_one_takes {t0 : ℕ} (hlanes : s.lanes = pre ++ lane :: post)
    (hitem : lane.item = some item) (hordered : TimeOrdered item.entries) (hne : item.entries ≠ [])
    (hbound : ∀ e ∈ item.entries, e.ts ≤ u64Max)
    (hout : ∀ out, s.out = some out → out.tsMax = some s.dim0ixMax) :
    ∃ t, s.take (some (pre.length, t0), none) = .ok t ∧ SameStream s t ∧
      Takes u64Max s t pre post lane item := by
  rcases takeAll_takes { s with takeItemSingleInpCnt := s.takeItemSingleInpCnt + 1 } hlanes hitem
    hordered hne hbound hbound hout with ⟨t, htake, hsame, htakes⟩
  simp only [take, item_at s hlanes hitem, htake]
  exact ⟨t, rfl, ⟨hsame.1, hsame.2, hsame.3, hsame.4, hsame.5, hsame.6⟩, htakes.of_eq s rfl rfl rfl⟩

/-- With another item, the item is taken up to the timestamp where that begins. -/
theorem take_two_takes {t0 i1 tl1 : ℕ} (hlanes : s.lanes = pre ++ lane :: post)
    (hitem : lane.item = some item) (hordered : TimeOrdered item.entries)
    (hbound : ∀ e ∈ item.entries, e.ts ≤ u64Max) (hmin : item.tsMin = some t0) (hle : t0 ≤ tl1)
    (hout : ∀ out, s.out = some out → out.tsMax = some s.dim0ixMax) :
    ∃ t, s.take (some (pre.length, t0), some (i1, tl1)) = .ok t ∧ SameStream s t ∧
      Takes tl1 s t pre post lane item := by
  rcases tsMin_eq_some.mp hmin with ⟨first, rest, hentries, hfirst⟩
  have hne : item.entries ≠ [] := by simp [hentries]
  rcases (List.eq_nil_or_concat item.entries).resolve_left hne with ⟨init, last, hlast⟩
  rw [List.concat_eq_append] at hlast
  have hmax : item.tsMax = some last.ts := by
    rw [ChannelEvents.tsMax_eq, hlast]
    simp
  have hlastle : ∀ e ∈ item.entries, e.ts ≤ last.ts := fun e he =>
    hordered.le_getLast he last (by simp [hlast])
  simp only [take, item_at s hlanes hitem, ChannelEvents.channel_tsMax, hmax]
  by_cases hfull : last.ts ≤ tl1
  · rcases takeAll_takes { s with takeItemFullCnt := s.takeItemFullCnt + 1 } hlanes hitem hordered hne
      hbound (fun e he => (hlastle e he).trans hfull) hout with ⟨t, htake, hsame, htakes⟩
    rw [if_pos hfull, htake]
    exact ⟨t, rfl, ⟨hsame.1, hsame.2, hsame.3, hsame.4, hsame.5, hsame.6⟩,
      htakes.of_eq s rfl rfl rfl⟩
  · have hevents : item.isEvents = true := by
      by_contra hstatus
      rw [Bool.not_eq_true] at hstatus
      rw [← ChannelEvents.tsMin_eq_tsMax hstatus, hmin, Option.some.injEq] at hmax
      omega
    have hearly : ∃ e ∈ item.entries, e.ts ≤ tl1 := ⟨first, by simp [hentries], by omega⟩
    rcases takeUpto_takes { s with takeItemPartialCnt := s.takeItemPartialCnt + 1 } hlanes hitem hordered
      hevents hearly ⟨last, by simp [hlast], by omega⟩ hout with ⟨t, htake, hsame, htakes⟩
    rw [if_neg hfull, htake]
    exact ⟨t, rfl, ⟨hsame.1, hsame.2, hsame.3, hsame.4, hsame.5, hsame.6⟩,
      htakes.of_eq s rfl rfl rfl⟩

end Take

/-! ## Discarding -/

/-- Discarding up to a timestamp from an item whose entries are in order keeps what is later. -/
theorem discardItem_channel (fuel : ℕ) (item : ChannelEvents V) (upto : ℕ)
    (hordered : TimeOrdered item.entries) :
    discardItem fuel item upto = some (item.keepAfter upto) := by
  unfold discardItem
  rw [ChannelEvents.channel_tsMin]
  rcases item with ⟨k, c⟩ | _ | st
  · have hsorted := ChannelEvents.tsSorted_of_timeOrdered hordered
    have hdiscard := discardItem_eq fuel c upto hsorted
    unfold discardItem at hdiscard
    simp only [ContainerEvents.mergeable_tsMin, drainIntoNewUpto_eq c upto hsorted] at hdiscard
    simp only [ChannelEvents.tsMin, drainIntoNewUpto_events c upto hsorted, ChannelEvents.keepAfter]
    cases hmin : c.tsMin with
    | none =>
        simp only [hmin, Option.some.injEq] at hdiscard ⊢
        rw [← hdiscard]
    | some ts =>
        simp only [hmin] at hdiscard ⊢
        split
        · rfl
        · rename_i hlt
          simp only [if_neg hlt, Option.some.injEq] at hdiscard
          rw [← hdiscard]
  · rfl
  · simp only [ChannelEvents.tsMin, drainIntoNewUpto_status]
    split <;> rfl

/-! ## What is kept -/

/-- The entries that were handed on or are in the output. -/
def View.output (v : View (ChannelEvents V)) : List (Entry V) := entriesOf v.given ++ slotEntries v.out

/-- The items that come next, in the order of the lanes. -/
def View.heads {T : Type*} (v : View T) : List T := v.held.filterMap List.head?

/-- Every data event of the inputs is still held, or its timestamp is that of a data event that was
output; what is held is in order and not earlier than what was merged. -/
structure Kept (inputs : List (List (Entry V))) (v : View (ChannelEvents V)) : Prop where
  ordered : ∀ held ∈ v.held, TimeOrdered (entriesOf held)
  bound : ∀ held ∈ v.held, ∀ e ∈ entriesOf held, e.ts ≤ u64Max
  merged : ∀ held ∈ v.held, ∀ e ∈ entriesOf held, v.dim0ixMax ≤ e.ts
  out_max : ∀ out, v.out = some out → out.tsMax = some v.dim0ixMax
  kept : List.Forall₂ (fun input held => ∀ e ∈ input, e.isEvent = true →
    e ∈ entriesOf held ∨ e.ts ∈ eventTss v.output) inputs v.held

omit [DecidableEq κ] [∀ k, EventValueType (V k)] in
/-- The entries that a lane holds. -/
theorem entriesOf_held (lane : Lane (ChannelEvents V)) :
    entriesOf lane.held = slotEntries lane.item ++ entriesOf (datas lane.script.items) := by
  simp [Lane.held, slotEntries]

omit [DecidableEq κ] [∀ k, EventValueType (V k)] in
/-- What the lanes hold, one of them apart. -/
theorem held_view {s : Merger (ChannelEvents V)} (xs : List (Sitemty (ChannelEvents V)))
    {pre post : List (Lane (ChannelEvents V))} {lane : Lane (ChannelEvents V)}
    (hlanes : s.lanes = pre ++ lane :: post) :
    (view xs s).held = pre.map Lane.held ++ lane.held :: post.map Lane.held := by
  simp [view, hlanes]

/-- Replacing one element keeps a relation between two lists, if the relation survives there and
everywhere else. -/
theorem forall₂_replace {α β : Type*} {R R' : α → β → Prop} {as : List α} {pre post : List β}
    {b b' : β} (hall : List.Forall₂ R as (pre ++ b :: post)) (hothers : ∀ a x, R a x → R' a x)
    (hhere : ∀ a, R a b → R' a b') : List.Forall₂ R' as (pre ++ b' :: post) := by
  induction pre generalizing as with
  | nil =>
      cases hall with
      | cons hb hpost => exact .cons (hhere _ hb) (hpost.imp hothers)
  | cons x pre ih =>
      cases hall with
      | cons hx hrest => exact .cons (hothers _ _ hx) (ih hrest)

/-- In a relation between two lists, every element of the first has a partner in the second. -/
theorem exists_of_forall₂ {α β : Type*} {R : α → β → Prop} {as : List α} {bs : List β}
    (hall : List.Forall₂ R as bs) {a : α} (ha : a ∈ as) : ∃ b ∈ bs, R a b := by
  induction hall with
  | nil => simp at ha
  | @cons a' b' as bs hab _ ih =>
      rcases List.mem_cons.mp ha with rfl | ha
      · exact ⟨b', by simp, hab⟩
      · rcases ih ha with ⟨b, hb, hab⟩
        exact ⟨b, by simp [hb], hab⟩

section Kept

variable {inputs : List (List (Entry V))} {xs : List (Sitemty (ChannelEvents V))}
  {s t : Merger (ChannelEvents V)} {pre post : List (Lane (ChannelEvents V))}
  {lane : Lane (ChannelEvents V)} {item : ChannelEvents V} {upto : ℕ}

omit [DecidableEq κ] [∀ k, EventValueType (V k)] in
/-- Entries of one lane may move to the output. -/
theorem Kept.move {v v' : View (ChannelEvents V)} {others others' : List (List (ChannelEvents V))}
    {held held' : List (ChannelEvents V)} (hkept : Kept inputs v)
    (hheld : v.held = others ++ held :: others') (hheld' : v'.held = others ++ held' :: others')
    (hsub : List.Sublist (entriesOf held') (entriesOf held))
    (hmerged : ∀ cs ∈ v'.held, ∀ e ∈ entriesOf cs, v'.dim0ixMax ≤ e.ts)
    (hmax : ∀ out, v'.out = some out → out.tsMax = some v'.dim0ixMax)
    (houtput : ∀ ts ∈ eventTss v.output, ts ∈ eventTss v'.output)
    (hmoved : ∀ e ∈ entriesOf held, e.isEvent = true →
      e ∈ entriesOf held' ∨ e.ts ∈ eventTss v'.output) : Kept inputs v' := by
  have hmem : ∀ cs ∈ v'.held, ∃ ds ∈ v.held, List.Sublist (entriesOf cs) (entriesOf ds) := by
    rw [hheld, hheld']
    refine forall_mem_middle (fun cs hcs => ⟨cs, ?_, List.Sublist.refl _⟩) ⟨held, by simp, hsub⟩
    rcases List.mem_append.mp hcs with hcs | hcs <;> simp [hcs]
  refine ⟨?_, ?_, hmerged, hmax, ?_⟩
  · intro cs hcs
    rcases hmem cs hcs with ⟨ds, hds, hsub⟩
    exact (hkept.ordered ds hds).sublist hsub
  · intro cs hcs e he
    rcases hmem cs hcs with ⟨ds, hds, hsub⟩
    exact hkept.bound ds hds e (hsub.subset he)
  · have hall := hkept.kept
    rw [hheld] at hall
    rw [hheld']
    refine forall₂_replace hall (fun input cs hcs e he hevent => ?_) fun input hcs e he hevent => ?_
    · exact (hcs e he hevent).imp_right (houtput _)
    · rcases hcs e he hevent with hheld | hout
      · exact hmoved e hheld hevent
      · exact .inr (houtput _ hout)

omit [DecidableEq κ] [∀ k, EventValueType (V k)] in
/-- Dropping an empty item loses nothing. -/
theorem Kept.drop (hkept : Kept inputs (view xs s)) (hlanes : s.lanes = pre ++ lane :: post)
    (hitem : lane.item = some item) (hempty : item.entries = [])
    (hlanes' : t.lanes = pre ++ { lane with item := none } :: post) (hout : t.out = s.out)
    (houtbuf : t.outbuf = s.outbuf) (hmax : t.dim0ixMax = s.dim0ixMax) :
    Kept inputs (view xs t) := by
  have hsame : entriesOf (Lane.held { lane with item := none }) = entriesOf lane.held := by
    rw [entriesOf_held, entriesOf_held, hitem, slotEntries_some, hempty]
    rfl
  have houtput : (view xs t).output = (view xs s).output := by
    simp [View.output, view, hout, houtbuf]
  refine hkept.move (held_view xs hlanes) (held_view xs hlanes') (hsame ▸ List.Sublist.refl _) ?_ ?_
    (by simp [houtput]) ?_
  · simp only [view, hlanes', hmax, List.map_append, List.map_cons]
    refine forall_mem_middle (fun cs hcs => hkept.merged cs ?_) ?_
    · rcases List.mem_append.mp hcs with hcs | hcs <;> simp [view, hlanes, hcs]
    · rw [hsame]
      exact hkept.merged _ (by simp [view, hlanes])
  · simpa [view, hout, hmax] using hkept.out_max
  · intro e he _
    exact .inl (hsame ▸ he)

omit [DecidableEq κ] [∀ k, EventValueType (V k)] in
/-- Taking loses nothing, when the other lanes hold nothing earlier. -/
theorem Kept.takes (hkept : Kept inputs (view xs s)) (hsame : SameStream s t)
    (hlanes : s.lanes = pre ++ lane :: post) (hitem : lane.item = some item)
    (htakes : Takes upto s t pre post lane item)
    (hothers : ∀ other ∈ pre ++ post, ∀ e ∈ entriesOf other.held, upto ≤ e.ts) :
    Kept inputs (view xs t) := by
  cases htakes with
  | refused hlanes' hout hsome hmax hclear =>
      have hview : view xs t = view xs s := by
        simp [view, hlanes', hout, hmax, hsame.outbuf]
      rwa [hview]
  | moved init rest last left out hentries hle hleft hlanes' hout hmoved hmax hstatus =>
      have hheld : entriesOf lane.held =
          init ++ last :: (rest ++ entriesOf (datas lane.script.items)) := by
        rw [entriesOf_held, hitem, slotEntries_some, hentries]
        simp
      have hheld' : entriesOf (Lane.held { lane with item := left }) =
          rest ++ entriesOf (datas lane.script.items) := by
        rw [entriesOf_held, hleft]
        rfl
      have houtput : (view xs t).output = (view xs s).output ++ (init ++ [last]) := by
        simp [View.output, view, hout, hsame.outbuf, hmoved]
      have hordered := hkept.ordered lane.held (by simp [view, hlanes])
      rw [hheld] at hordered
      refine hkept.move (held_view xs hlanes) (held_view xs hlanes') ?_ ?_ ?_ ?_ ?_
      · rw [hheld, hheld']
        simp
      · simp only [view, hlanes', hmax, List.map_append, List.map_cons]
        refine forall_mem_middle (fun cs hcs e he => hle.trans ?_) fun e he => ?_
        · rw [← List.map_append] at hcs
          rcases List.mem_map.mp hcs with ⟨other, hother, rfl⟩
          exact hothers other hother e he
        · rw [hheld'] at he
          exact (sortedBy_append.mp hordered).2.1.head_le (List.mem_cons_of_mem _ he)
      · intro out' hout'
        simp only [view, hout, Option.some.injEq] at hout'
        rw [← hout', ChannelEvents.tsMax_eq, hmoved]
        simp [view, hmax]
      · intro ts hts
        rw [houtput, eventTss_append]
        exact List.mem_append_left _ hts
      · intro e he hevent
        rw [hheld, List.append_cons] at he
        rcases List.mem_append.mp he with he | he
        · refine .inr ?_
          rw [houtput, eventTss_append]
          exact List.mem_append_right _ (mem_eventTss.mpr ⟨e, he, hevent, rfl⟩)
        · exact .inl (hheld' ▸ he)

omit [DecidableEq κ] [∀ k, EventValueType (V k)] in
/-- A relation between a list and images of another may be proved for each of the images. -/
theorem forall₂_map_imp {α β γ : Type*} {R R' : α → γ → Prop} {as : List α} {bs : List β}
    {f g : β → γ} (hall : List.Forall₂ R as (bs.map f))
    (himp : ∀ b ∈ bs, ∀ a, R a (f b) → R' a (g b)) : List.Forall₂ R' as (bs.map g) := by
  induction bs generalizing as with
  | nil =>
      cases hall
      exact .nil
  | cons b bs ih =>
      cases hall with
      | cons hb hbs =>
          exact .cons (himp b (by simp) _ hb) (ih hbs fun c hc => himp c (by simp [hc]))

/-- The state after discarding up to the bound. -/
def discarded (s : Merger (ChannelEvents V)) : Merger (ChannelEvents V) :=
  { s with lanes := s.lanes.map (Lane.mapItem (ChannelEvents.keepAfter s.dim0ixMax)) }

omit [DecidableEq κ] [∀ k, EventValueType (V k)] in
/-- Discarding touches the items only, and loses only events up to the bound. -/
theorem entriesOf_mapItem (upto : ℕ) (lane : Lane (ChannelEvents V)) :
    List.Sublist (entriesOf (lane.mapItem (ChannelEvents.keepAfter upto)).held) (entriesOf lane.held) ∧
      ∀ e ∈ entriesOf lane.held,
        e ∈ entriesOf (lane.mapItem (ChannelEvents.keepAfter upto)).held ∨
          (e ∈ slotEntries lane.item ∧ e.isEvent = true ∧ e.ts ≤ upto) := by
  rw [entriesOf_held, entriesOf_held]
  cases hitem : lane.item with
  | none => simp [Lane.mapItem, Lane.script, hitem]
  | some item =>
      simp only [Lane.mapItem, Lane.script, hitem, Option.map_some, slotEntries_some]
      refine ⟨(ChannelEvents.entries_keepAfter_sublist upto item).append_right _, fun e he => ?_⟩
      rcases List.mem_append.mp he with he | he
      · rcases ChannelEvents.mem_entries_keepAfter he with hkeep | hdrop
        · exact .inl (List.mem_append_left _ hkeep)
        · exact .inr ⟨he, hdrop⟩
      · exact .inl (List.mem_append_right _ he)

omit [DecidableEq κ] [∀ k, EventValueType (V k)] in
/-- Discarding loses nothing, when the timestamps of the discarded events were output. -/
theorem Kept.discard (hkept : Kept inputs (view xs s))
    (houtput : ∀ lane ∈ s.lanes, ∀ e ∈ slotEntries lane.item, e.isEvent = true →
      e.ts = s.dim0ixMax → e.ts ∈ eventTss (view xs s).output) :
    Kept inputs (view xs s.discarded) := by
  have hmem : ∀ cs ∈ (view xs s.discarded).held,
      ∃ ds ∈ (view xs s).held, List.Sublist (entriesOf cs) (entriesOf ds) := by
    intro cs hcs
    simp only [view, discarded, List.map_map] at hcs
    rcases List.mem_map.mp hcs with ⟨lane, hlane, rfl⟩
    exact ⟨lane.held, List.mem_map_of_mem hlane, (entriesOf_mapItem _ lane).1⟩
  refine ⟨?_, ?_, ?_, hkept.out_max, ?_⟩
  · intro cs hcs
    rcases hmem cs hcs with ⟨ds, hds, hsub⟩
    exact (hkept.ordered ds hds).sublist hsub
  · intro cs hcs e he
    rcases hmem cs hcs with ⟨ds, hds, hsub⟩
    exact hkept.bound ds hds e (hsub.subset he)
  · intro cs hcs e he
    rcases hmem cs hcs with ⟨ds, hds, hsub⟩
    exact hkept.merged ds hds e (hsub.subset he)
  · simp only [view, discarded, List.map_map]
    refine forall₂_map_imp hkept.kept fun lane hlane input hinput e he hevent => ?_
    rcases hinput e he hevent with hheld | hout
    · rcases (entriesOf_mapItem s.dim0ixMax lane).2 e hheld with hkeep | ⟨hslot, _, hle⟩
      · exact .inl hkeep
      · have hge := hkept.merged lane.held (List.mem_map_of_mem hlane) e hheld
        exact .inr (houtput lane hlane e hslot hevent (le_antisymm hle hge))
    · exact .inr hout

/-! ## The work -/

omit [DecidableEq κ] [∀ k, EventValueType (V k)] in
/-- The work of a lane, by its entries. -/
theorem laneWeight_channel (lane : Lane (ChannelEvents V)) :
    laneWeight ChannelEvents.len lane = pollWeight lane + 4 * (entriesOf lane.held).length := by
  have hlen : ChannelEvents.len = fun c : ChannelEvents V => c.entries.length :=
    funext ChannelEvents.len_eq
  rw [laneWeight, ChannelEvents.entriesOf, List.length_flatMap, hlen]

omit [DecidableEq κ] [∀ k, EventValueType (V k)] in
/-- Discarding does not add to the work. -/
theorem weight_discarded_le (s : Merger (ChannelEvents V)) :
    weight ChannelEvents.len s.discarded ≤ weight ChannelEvents.len s := by
  have hlanes : lanesWeight ChannelEvents.len s.discarded.lanes ≤
      lanesWeight ChannelEvents.len s.lanes := by
    rw [lanesWeight, lanesWeight, discarded, List.map_map]
    refine List.sum_le_sum fun lane _ => ?_
    have hpoll : pollWeight (lane.mapItem (ChannelEvents.keepAfter s.dim0ixMax)) = pollWeight lane := by
      simp [pollWeight, Lane.mapItem, Lane.script]
    have hsub := (entriesOf_mapItem s.dim0ixMax lane).1.length_le
    simp only [Function.comp_apply, laneWeight_channel, hpoll]
    omega
  simp only [weight, discarded] at hlanes ⊢
  omega

omit [DecidableEq κ] [∀ k, EventValueType (V k)] in
/-- Dropping an item lowers the work. -/
theorem weight_drop_lt (hsame : SameStream s t) (hlanes : s.lanes = pre ++ lane :: post)
    (hitem : lane.item = some item) (hlanes' : t.lanes = pre ++ { lane with item := none } :: post)
    (hout : t.out = s.out) : weight ChannelEvents.len t < weight ChannelEvents.len s := by
  have hlane : laneWeight ChannelEvents.len { lane with item := none } <
      laneWeight ChannelEvents.len lane := by
    simp [laneWeight, pollWeight, Lane.held, Lane.script, hitem]
    omega
  simp only [weight, hlanes, hlanes', hout, hsame.outbuf, hsame.done_inp, hsame.done_range_complete,
    lanesWeight_middle]
  omega

omit [DecidableEq κ] [∀ k, EventValueType (V k)] in
/-- Taking lowers the work, or asks for the output to be emitted. -/
theorem Takes.weight (htakes : Takes upto s t pre post lane item) (hsame : SameStream s t)
    (hlanes : s.lanes = pre ++ lane :: post) (hitem : lane.item = some item) :
    weight ChannelEvents.len t < weight ChannelEvents.len s ∨
      (t.doClearOut = true ∧ t.out ≠ none ∧
        weight ChannelEvents.len t ≤ weight ChannelEvents.len s) := by
  cases htakes with
  | refused hlanes' hout hsome hmax hclear =>
      refine .inr ⟨hclear, hout ▸ hsome, ?_⟩
      simp [Merger.weight, hlanes', hout, hsame.outbuf, hsame.done_inp, hsame.done_range_complete]
  | moved init rest last left out hentries hle hleft hlanes' hout hmoved hmax hstatus =>
      left
      have hlane : laneWeight ChannelEvents.len { lane with item := left } + 4 ≤
          laneWeight ChannelEvents.len lane := by
        have hsome : left.isSome.toNat ≤ 1 := Bool.toNat_le _
        simp only [laneWeight_channel, entriesOf_held, pollWeight, Lane.script, hleft, hitem,
          slotEntries_some, hentries]
        simp
        omega
      simp only [Merger.weight, hlanes, hlanes', hout, hsame.outbuf, hsame.done_inp,
        hsame.done_range_complete, lanesWeight_middle, Option.isSome_some, Bool.toNat_true]
      omega

end Kept

/-! ## Collisions -/

/-- The output keeps an item that begins at {lit}`ts` from moving: it is a status of this timestamp; or
it is empty, and the first item that begins at {lit}`ts` is a status. -/
def View.outputBlocks (v : View (ChannelEvents V)) (ts : ℕ) : Bool :=
  match v.out with
  | none => (v.heads.find? fun c => c.tsMin = some ts).any fun c => !c.isEvents
  | some out => !out.isEvents && out.tsMax = some ts

/-- A status collides with a data event: the items of two lanes begin at the lowest timestamp, one of
them is a batch of events, and the output keeps it from moving. -/
structure StatusCollides (v : View (ChannelEvents V)) (ts : ℕ) : Prop where
  lowest : ∀ c ∈ v.heads, ∃ u ∈ c.tsMin, ts ≤ u
  shared : 1 < v.heads.countP fun c => c.tsMin = some ts
  event : ∃ c ∈ v.heads, c.isEvents = true ∧ c.tsMin = some ts
  fresh : ts ∉ eventTss v.output
  blocked : v.outputBlocks ts = true

section Process

variable {inputs : List (List (Entry V))} {xs : List (Sitemty (ChannelEvents V))}
  {s t : Merger (ChannelEvents V)} {pre post : List (Lane (ChannelEvents V))}
  {lane : Lane (ChannelEvents V)} {item : ChannelEvents V}

/-- The items that come next are those of the lanes, when these are loaded. -/
theorem heads_view {T : Type*} {s : Merger T} (xs : List (Sitemty T))
    (hloaded : ∀ lane ∈ s.lanes, lane.Loaded) : (view xs s).heads = s.lanes.filterMap Lane.item := by
  simp only [View.heads, view, List.filterMap_map]
  exact List.filterMap_congr fun lane hlane => Lane.head?_held (hloaded lane hlane)

omit [DecidableEq κ] [∀ k, EventValueType (V k)] in
/-- A loaded lane whose item does not begin before a bound holds nothing from before it. -/
theorem le_of_mem_held {bound : ℕ} (hloaded : lane.Loaded) (hordered : TimeOrdered (entriesOf lane.held))
    (hitem : ∀ item, lane.item = some item → ∃ u, item.tsMin = some u ∧ bound ≤ u) :
    ∀ e ∈ entriesOf lane.held, bound ≤ e.ts := by
  intro e he
  cases hsome : lane.item with
  | none =>
      rw [Lane.held_eq_nil hloaded hsome] at he
      simp at he
  | some item =>
      rcases hitem item hsome with ⟨u, hu, hle⟩
      rcases tsMin_eq_some.mp hu with ⟨first, rest, hentries, rfl⟩
      rw [entriesOf_held, hsome, slotEntries_some, hentries] at he hordered
      exact hle.trans (hordered.head_le he)

omit [DecidableEq κ] [∀ k, EventValueType (V k)] in
/-- The detection of non-monotonic timestamps finds nothing. -/
theorem detectNonMono_eq_self {tslows : Tslows}
    (hlow : ∀ i t1, tslows.1 = some (i, t1) → s.dim0ixMax ≤ t1) : s.detectNonMono tslows = s := by
  unfold detectNonMono
  split
  · rename_i i t1 heq
    have hle := hlow i t1 heq
    split
    · have heq' : t1 = s.dim0ixMax := by omega
      rw [heq']
    · rfl
  · rfl

/-- Dropping duplicates discards what is not later than the bound, when the second lowest timestamp was
reached. -/
theorem dropDuplicates_channel (tslows : Tslows)
    (hordered : ∀ lane ∈ s.lanes, TimeOrdered (entriesOf lane.held)) :
    dropDuplicates tslows (.ok s) =
      .ok (if ∃ p ∈ tslows.2, p.2 ≤ s.dim0ixMax then s.discarded else s) := by
  rcases tslows with ⟨low, _ | ⟨i, tl1⟩⟩
  · simp [dropDuplicates]
  · have hdiscard : discard s.dim0ixMax s.lanes =
        (s.lanes.map (Lane.mapItem (ChannelEvents.keepAfter s.dim0ixMax)), true) := by
      refine discard_eq_mapItem fun lane hlane item hitem => discardItem_channel _ item _ ?_
      have hlane := hordered lane hlane
      rw [entriesOf_held, hitem, slotEntries_some] at hlane
      exact (sortedBy_append.mp hlane).1
    simp only [dropDuplicates, hdiscard, Option.mem_def, Option.some.injEq, exists_eq_left']
    split <;> rfl

omit [DecidableEq κ] [∀ k, EventValueType (V k)] in
/-- The heads of the lanes, around the one of a lane -/
theorem heads_middle (hloaded : ∀ lane ∈ s.lanes, lane.Loaded) (hlanes : s.lanes = pre ++ lane :: post)
    (hitem : lane.item = some item) :
    (view xs s).heads = pre.filterMap Lane.item ++ item :: post.filterMap Lane.item := by
  rw [heads_view xs hloaded, hlanes]
  simp [hitem]

omit [DecidableEq κ] [∀ k, EventValueType (V k)] in
/-- Two lanes begin at the same timestamp. -/
theorem one_lt_countP_heads {t0 : ℕ} (hloaded : ∀ lane ∈ s.lanes, lane.Loaded)
    (hlanes : s.lanes = pre ++ lane :: post) (hitem : lane.item = some item) (hmin : item.tsMin = some t0)
    (hsecond : ∃ other ∈ pre ++ post, ∃ item, other.item = some item ∧ item.tsMin = some t0) :
    1 < (view xs s).heads.countP fun c => c.tsMin = some t0 := by
  rw [heads_middle hloaded hlanes hitem, List.countP_append, List.countP_cons_of_pos (by simpa using hmin)]
  rcases hsecond with ⟨second, hsecond, c, hc, hcmin⟩
  have hpos : ∀ lanes : List (Lane (ChannelEvents V)), second ∈ lanes →
      0 < (lanes.filterMap Lane.item).countP fun c => c.tsMin = some t0 := fun lanes hmem =>
    List.countP_pos_iff.mpr ⟨c, List.mem_filterMap.mpr ⟨second, hmem, hc⟩, by simpa using hcmin⟩
  rcases List.mem_append.mp hsecond with hmem | hmem
  · have hpre := hpos pre hmem
    omega
  · have hpost := hpos post hmem
    omega

omit [DecidableEq κ] [∀ k, EventValueType (V k)] in
/-- Without a collision, an event at the lowest timestamp was output before if the output is blocked there and more
than one lane begins with it. -/
theorem output_of_blocks {t0 : ℕ} {other : Lane (ChannelEvents V)} {e : Entry V} (hkept : Kept inputs (view xs s))
    (hloaded : ∀ lane ∈ s.lanes, lane.Loaded) (hcoll : ¬ StatusCollides (view xs s) t0)
    (hlow : ∀ other ∈ s.lanes, ∀ c, other.item = some c → ∃ u ∈ c.tsMin, t0 ≤ u)
    (hmany : 1 < (view xs s).heads.countP fun c => c.tsMin = some t0) (hother : other ∈ s.lanes)
    (he : e ∈ slotEntries other.item) (hevent : e.isEvent = true) (hets : e.ts = t0)
    (hblocks : (view xs s).outputBlocks t0 = true) : t0 ∈ eventTss (view xs s).output := by
  by_contra hfresh
  refine hcoll ⟨?_, hmany, ?_, hfresh, hblocks⟩
  · rw [heads_view xs hloaded]
    intro c hc
    rcases List.mem_filterMap.mp hc with ⟨other, hother, hc⟩
    exact hlow other hother c hc
  · rw [heads_view xs hloaded]
    cases hc : other.item with
    | none => simp [hc] at he
    | some c =>
        rw [hc, slotEntries_some] at he
        refine ⟨c, List.mem_filterMap.mpr ⟨other, hother, hc⟩,
          (ChannelEvents.isEvent_of_mem_entries he) ▸ hevent, ?_⟩
        rcases hlow other hother c hc with ⟨u, hu, hle'⟩
        rcases tsMin_eq_some.mp hu with ⟨first, rest, hentries, rfl⟩
        have hordered := hkept.ordered other.held (List.mem_map_of_mem hother)
        rw [entriesOf_held, hc, slotEntries_some] at hordered
        have hfirst := (sortedBy_append.mp hordered).1
        rw [hentries] at hfirst he
        have hge := hfirst.head_le he
        have heq : first.ts = t0 := by omega
        exact heq ▸ hu

omit [DecidableEq κ] [∀ k, EventValueType (V k)] in
/-- The first lane at the lowest timestamp blocks the output, if it has a status and nothing was output yet. -/
theorem outputBlocks_of_status {t0 : ℕ} (hloaded : ∀ lane ∈ s.lanes, lane.Loaded)
    (hlanes : s.lanes = pre ++ lane :: post) (hitem : lane.item = some item) (hmin : item.tsMin = some t0)
    (hbefore : ∀ other ∈ pre, ∀ item, other.item = some item → item.tsMin ≠ some t0) (hnone : s.out = none)
    (hevents : item.isEvents = false) : (view xs s).outputBlocks t0 = true := by
  have hfind : (view xs s).heads.find? (fun c => c.tsMin = some t0) = some item := by
    rw [heads_middle hloaded hlanes hitem, List.find?_append, List.find?_eq_none.mpr ?_]
    · simp [hmin]
    · intro c hc
      rcases List.mem_filterMap.mp hc with ⟨before, hbefore', hc⟩
      simpa using hbefore before hbefore' c hc
  simp only [View.outputBlocks, hfind]
  simp [view, hnone, hevents]

omit [DecidableEq κ] [∀ k, EventValueType (V k)] in
/-- Without a collision, the timestamps of the events that would be discarded were output. -/
theorem output_of_not_collides {t0 tl1 : ℕ} (hkept : Kept inputs (view xs s))
    (hloaded : ∀ lane ∈ s.lanes, lane.Loaded) (hcoll : ∀ ts, ¬ StatusCollides (view xs s) ts)
    (hlanes : s.lanes = pre ++ lane :: post) (hitem : lane.item = some item)
    (hmin : item.tsMin = some t0) (hle : t0 ≤ tl1)
    (hothers : ∀ other ∈ pre ++ post, ∀ item, other.item = some item →
      ∃ u, item.tsMin = some u ∧ tl1 ≤ u)
    (hsecond : ∃ other ∈ pre ++ post, ∃ item, other.item = some item ∧ item.tsMin = some tl1)
    (hbefore : ∀ other ∈ pre, ∀ item, other.item = some item → item.tsMin ≠ some t0)
    (hsame : SameStream s t) (htakes : Takes tl1 s t pre post lane item) (hreached : tl1 ≤ t.dim0ixMax) :
    ∀ other ∈ t.lanes, ∀ e ∈ slotEntries other.item, e.isEvent = true → e.ts = t.dim0ixMax →
      e.ts ∈ eventTss (view xs t).output := by
  -- what is common to the two cases: everything comes together at one timestamp
  have hcollides : t0 = tl1 → ∀ other ∈ s.lanes, ∀ e ∈ slotEntries other.item, e.isEvent = true →
      e.ts = t0 → (view xs s).outputBlocks t0 = true → t0 ∈ eventTss (view xs s).output := by
    intro heq other hother e he hevent hets hblocks
    subst tl1
    refine output_of_blocks hkept hloaded (hcoll t0) ?_ ?_ hother he hevent hets hblocks
    · rw [hlanes]
      refine forall_mem_middle hothers fun c hc => ⟨t0, ?_, le_rfl⟩
      rw [hitem, Option.some.injEq] at hc
      exact hc ▸ hmin
    · exact one_lt_countP_heads hloaded hlanes hitem hmin hsecond
  intro other hother e he hevent hets
  cases htakes with
  | moved init rest last left out hentries hlast hleft hlanes' hout hmoved hmax hstatus =>
      have houtput : (view xs t).output = (view xs s).output ++ (init ++ [last]) := by
        simp [View.output, view, hout, hsame.outbuf, hmoved]
      rw [houtput, eventTss_append]
      cases hevents : item.isEvents with
      | true =>
          have hlastEvent : last.isEvent = true := by
            rw [← hevents]
            exact ChannelEvents.isEvent_of_mem_entries (by simp [hentries])
          refine List.mem_append_right _ (mem_eventTss.mpr ⟨last, by simp, hlastEvent, ?_⟩)
          omega
      | false =>
          rcases hstatus hevents with ⟨hnone, rfl⟩
          have hmaxItem : item.tsMax = some last.ts := by
            rw [ChannelEvents.tsMax_eq, hentries]
            simp
          rw [← ChannelEvents.tsMin_eq_tsMax hevents, hmin, Option.some.injEq] at hmaxItem
          have hother' : other ∈ s.lanes := by
            rw [hlanes'] at hother
            rcases List.mem_append.mp hother with hother | hother
            · simp [hlanes, hother]
            · rcases List.mem_cons.mp hother with rfl | hother
              · simp [hleft] at he
              · simp [hlanes, hother]
          refine List.mem_append_left _ ?_
          have heq : e.ts = t0 := by omega
          rw [heq]
          refine hcollides (by omega) other hother' e he hevent heq ?_
          exact outputBlocks_of_status hloaded hlanes hitem hmin hbefore hnone hevents
  | refused hlanes' hout hsome hmax hclear =>
      rcases Option.ne_none_iff_exists'.mp hsome with ⟨out, hout'⟩
      have houtmax := hkept.out_max out hout'
      have hge : s.dim0ixMax ≤ t0 := by
        rcases tsMin_eq_some.mp hmin with ⟨first, rest, hentries, rfl⟩
        refine hkept.merged lane.held (by simp [view, hlanes]) first ?_
        rw [entriesOf_held, hitem, slotEntries_some, hentries]
        simp
      have heq : e.ts = t0 := by omega
      have hview : (view xs t).output = (view xs s).output := by
        simp [View.output, view, hout, hsame.outbuf]
      rw [hview, heq]
      have hmaxT : out.tsMax = some t0 := by
        rw [houtmax]
        simp only [view, Option.some.injEq]
        omega
      cases hevents : out.isEvents with
      | true =>
          rw [ChannelEvents.tsMax_eq] at hmaxT
          rcases Option.map_eq_some_iff.mp hmaxT with ⟨last, hlast, hts⟩
          have hmem := List.mem_of_getLast? hlast
          refine mem_eventTss.mpr ⟨last, ?_, (ChannelEvents.isEvent_of_mem_entries hmem).trans hevents, hts⟩
          simp [View.output, view, hout', hmem]
      | false =>
          refine hcollides (by omega) other (hlanes' ▸ hother) e he hevent heq ?_
          simp [View.outputBlocks, view, hout', hevents, hmaxT]

omit [DecidableEq κ] [∀ k, EventValueType (V k)] in
/-- Discarding touches nothing but the items. -/
theorem sameStream_discarded (hsame : SameStream s t) : SameStream s t.discarded := by
  refine ⟨?_, hsame.outbuf, hsame.log_queue, hsame.done_inp, hsame.done_range_complete, hsame.complete⟩
  rw [← hsame.inps, discarded, List.map_map]
  rfl

/-- The step from the outcome of taking to the outcome of processing. -/
theorem dropDuplicates_kept {tslows : Tslows} {upto : ℕ} (hkept : Kept inputs (view xs s))
    (hlanes : s.lanes = pre ++ lane :: post) (hitem : lane.item = some item) (hsame : SameStream s t)
    (htakes : Takes upto s t pre post lane item)
    (hothers : ∀ other ∈ pre ++ post, ∀ e ∈ entriesOf other.held, upto ≤ e.ts)
    (houtput : ∀ p ∈ tslows.2, p.2 ≤ t.dim0ixMax → ∀ other ∈ t.lanes, ∀ e ∈ slotEntries other.item,
      e.isEvent = true → e.ts = t.dim0ixMax → e.ts ∈ eventTss (view xs t).output) :
    ∃ u, dropDuplicates tslows (.ok t) = .ok u ∧ SameStream s u ∧ Kept inputs (view xs u) ∧
      (weight ChannelEvents.len u < weight ChannelEvents.len s ∨
        (u.doClearOut = true ∧ u.out ≠ none ∧
          weight ChannelEvents.len u ≤ weight ChannelEvents.len s)) := by
  have hkeptT := hkept.takes hsame hlanes hitem htakes hothers
  have hweight := htakes.weight hsame hlanes hitem
  rw [dropDuplicates_channel tslows fun lane hlane => hkeptT.ordered _ (List.mem_map_of_mem hlane)]
  by_cases hreached : ∃ p ∈ tslows.2, p.2 ≤ t.dim0ixMax
  · rw [if_pos hreached]
    rcases hreached with ⟨p, hp, hle⟩
    have hless := weight_discarded_le t
    refine ⟨_, rfl, sameStream_discarded hsame, hkeptT.discard (houtput p hp hle), ?_⟩
    rcases hweight with hlt | ⟨hclear, hsome, hle⟩
    · exact .inl (by omega)
    · exact .inr ⟨hclear, hsome, by omega⟩
  · rw [if_neg hreached]
    exact ⟨t, rfl, hsame, hkeptT, hweight⟩

/-- Without a collision, processing loses nothing. -/
theorem process_kept (hkept : Kept inputs (view xs s)) (hloaded : ∀ lane ∈ s.lanes, lane.Loaded)
    (hcoll : ∀ ts, ¬ StatusCollides (view xs s) ts) (hsome : ∃ lane ∈ s.lanes, lane.item ≠ none) :
    ∃ t, s.process = .ok t ∧ SameStream s t ∧ Kept inputs (view xs t) ∧
      (weight ChannelEvents.len t < weight ChannelEvents.len s ∨
        (t.doClearOut = true ∧ t.out ≠ none ∧
          weight ChannelEvents.len t ≤ weight ChannelEvents.len s)) := by
  have hitems : ∀ lane ∈ s.lanes, ∀ item, lane.item = some item →
      TimeOrdered item.entries ∧ (∀ e ∈ item.entries, e.ts ≤ u64Max) ∧
        ∀ e ∈ item.entries, s.dim0ixMax ≤ e.ts := by
    intro lane hlane item hitem
    have hmem : lane.held ∈ (view xs s).held := List.mem_map_of_mem hlane
    have hordered := hkept.ordered _ hmem
    have hbound := hkept.bound _ hmem
    have hmerged := hkept.merged _ hmem
    rw [entriesOf_held, hitem, slotEntries_some] at hordered hbound hmerged
    exact ⟨(sortedBy_append.mp hordered).1, fun e he => hbound e (List.mem_append_left _ he),
      fun e he => hmerged e (List.mem_append_left _ he)⟩
  unfold process
  cases hscan : scan s.lanes 0 (none, none) with
  | error i =>
      rcases scan_error [] hscan with ⟨pre, lane, post, item, hlanes, rfl, hitem, hmin⟩
      rw [List.nil_append] at hlanes
      have hempty : item.entries = [] := by
        simpa [ChannelEvents.tsMin_eq] using hmin
      simp only
      rw [setItem_eq hlanes]
      have hsame : SameStream s { s with
          lanes := pre ++ { lane with item := none } :: post
          statsProcessItemEmpty := s.statsProcessItemEmpty + 1 } :=
        ⟨by simp [hlanes], rfl, rfl, rfl, rfl, rfl⟩
      exact ⟨_, rfl, hsame, hkept.drop hlanes hitem hempty rfl rfl rfl rfl,
        .inl (weight_drop_lt hsame hlanes hitem rfl rfl)⟩
  | ok tslows =>
      have hlows := scan_lows [] (.zero (by simp)) hscan
      rw [List.nil_append] at hlows
      clear hscan
      generalize hlanes : s.lanes = lanes at hlows
      have hlow : ∀ i t1, tslows.1 = some (i, t1) → s.dim0ixMax ≤ t1 := by
        have hfirst : ∀ {pre post lane item t0}, s.lanes = pre ++ lane :: post →
            lane.item = some item → item.tsMin = some t0 → s.dim0ixMax ≤ t0 := by
          intro pre post lane item t0 hlanes hitem hmin
          rcases tsMin_eq_some.mp hmin with ⟨first, rest, hentries, rfl⟩
          exact (hitems lane (by simp [hlanes]) item hitem).2.2 first (by simp [hentries])
        intro i t1 heq
        cases hlows with
        | zero => simp at heq
        | one hitem hmin _ =>
            simp only [Option.some.injEq, Prod.mk.injEq] at heq
            exact heq.2 ▸ hfirst hlanes hitem hmin
        | two hitem hmin _ _ _ _ =>
            simp only [Option.some.injEq, Prod.mk.injEq] at heq
            exact heq.2 ▸ hfirst hlanes hitem hmin
      simp only [detectNonMono_eq_self hlow]
      cases hlows with
      | zero hothers =>
          rcases hsome with ⟨lane, hlane, hne⟩
          exact (hne (hothers lane (hlanes ▸ hlane))).elim
      | @one pre post lane item t0 hitem hmin hothers =>
          have hlane := hitems lane (by simp [hlanes]) item hitem
          rcases tsMin_eq_some.mp hmin with ⟨first, rest, hentries, _⟩
          rcases take_one_takes s hlanes hitem hlane.1 (by simp [hentries]) hlane.2.1 hkept.out_max with
            ⟨t, htake, hsame, htakes⟩
          rw [htake]
          refine dropDuplicates_kept hkept hlanes hitem hsame htakes (fun other hother e he => ?_)
            (by simp)
          rw [Lane.held_eq_nil (hloaded other ?_) (hothers other hother)] at he
          · simp at he
          · rw [hlanes]
            rcases List.mem_append.mp hother with hother | hother <;> simp [hother]
      | @two pre post lane item t0 i1 tl1 hitem hmin hle hothers hsecond hbefore =>
          have hlane := hitems lane (by simp [hlanes]) item hitem
          have hmem : ∀ other ∈ pre ++ post, other ∈ s.lanes := fun other hother => by
            rw [hlanes]
            rcases List.mem_append.mp hother with hother | hother <;> simp [hother]
          have hlater : ∀ other ∈ pre ++ post, ∀ e ∈ entriesOf other.held, tl1 ≤ e.ts :=
            fun other hother => le_of_mem_held (hloaded other (hmem other hother))
              (hkept.ordered _ (List.mem_map_of_mem (hmem other hother))) (hothers other hother)
          rcases take_two_takes s hlanes hitem hlane.1 hlane.2.1 hmin hle hkept.out_max with
            ⟨t, htake, hsame, htakes⟩
          rw [htake]
          refine dropDuplicates_kept hkept hlanes hitem hsame htakes hlater fun p hp hreached => ?_
          simp only [Option.mem_def, Option.some.injEq] at hp
          subst hp
          exact output_of_not_collides hkept hloaded hcoll hlanes hitem hmin hle hothers hsecond hbefore
            hsame htakes hreached

end Process

/-! ## Whole runs -/

section Run

variable {inputs : List (List (Entry V))}

omit [DecidableEq κ] [∀ k, EventValueType (V k)] in
/-- Only what is held and what was output matters. -/
theorem Kept.of_eq {v v' : View (ChannelEvents V)} (hkept : Kept inputs v) (hheld : v'.held = v.held)
    (hmax : v'.dim0ixMax = v.dim0ixMax) (hout : ∀ out, v'.out = some out → out.tsMax = some v.dim0ixMax)
    (houtput : v'.output = v.output) : Kept inputs v' := by
  rcases hkept with ⟨hordered, hbound, hmerged, _, hall⟩
  refine ⟨?_, ?_, ?_, ?_, ?_⟩
  · rwa [hheld]
  · rwa [hheld]
  · rwa [hheld, hmax]
  · rwa [hmax]
  · rwa [hheld, houtput]

/-- Merging loses no data event, as long as no status collides with one. -/
theorem rules_kept (inputs : List (List (Entry V))) :
    Rules (fun v => ∀ ts, ¬ StatusCollides v ts) (Kept inputs) ChannelEvents.len where
  mono v hkept held hheld c hc := by
    refine ChannelEvents.isMonotonic_of_timeOrdered ((hkept.ordered held hheld).sublist ?_)
    rw [entriesOf, List.flatMap_def]
    exact List.sublist_flatten_of_mem (List.mem_map_of_mem hc)
  cache v out hout hkept := by
    refine hkept.of_eq rfl rfl (fun out' hout' => ?_) (by simp [View.output, hout])
    have hmax := hkept.out_max out hout
    simp only [Option.some.injEq] at hout'
    rw [ChannelEvents.tsMax_eq] at hmax ⊢
    simpa [← hout'] using hmax
  emit v out hout hkept := by
    exact hkept.of_eq rfl rfl (by simp) (by simp [View.output, hout])
  process xs s hkept hcoll hloaded hsome := process_kept hkept hloaded hcoll hsome

/-- In every state of the run, every data event of an input is still held by its lane, or a data event
with its timestamp was output; in the end, the timestamps of all data events were output. -/
structure LosesNoEvent (scripts : List (Script (Sitemty (ChannelEvents V)))) (outMaxLen : Option ℕ) :
    Prop where
  kept : ∀ xs s, Reaches pollNext (new scripts outMaxLen) xs s →
    List.Forall₂ (fun script lane => ∀ e ∈ entriesOf (datas (Script.items script)),
      e.isEvent = true → e ∈ entriesOf (Lane.held lane) ∨ e.ts ∈ eventTss (view xs s).output)
      scripts s.lanes
  delivered : ∃ output, Drains pollNext (new scripts outMaxLen) output ∧
    ∀ script ∈ scripts, ∀ e ∈ entriesOf (datas (Script.items script)),
      e.isEvent = true → e.ts ∈ eventTss (entriesOf (datas output))

/-- A run in which no status collides with a data event loses none. -/
theorem losesNoEvent_of_not_statusCollides (scripts : List (Script (Sitemty (ChannelEvents V))))
    (outMaxLen : Option ℕ)
    (hordered : ∀ script ∈ scripts, TimeOrdered (entriesOf (datas (Script.items script))))
    (hbound : ∀ script ∈ scripts, ∀ e ∈ entriesOf (datas (Script.items script)), e.ts ≤ u64Max)
    (herr : ∀ script ∈ scripts, errors (Script.items script) = [])
    (hcoll : ∀ xs s, Reaches pollNext (new scripts outMaxLen) xs s →
      ∀ ts, ¬ StatusCollides (view xs s) ts) : LosesNoEvent scripts outMaxLen := by
  have hrules := rules_kept (scripts.map fun script => entriesOf (datas (Script.items script)))
  have hstart : Kept (scripts.map fun script => entriesOf (datas (Script.items script)))
      (View.start scripts) := by
    refine ⟨?_, ?_, by simp [View.start], by simp [View.start], ?_⟩
    · simpa [View.start, List.forall_mem_map] using hordered
    · simpa [View.start, List.forall_mem_map] using hbound
    · rw [View.start, List.forall₂_map_left_iff, List.forall₂_map_right_iff, List.forall₂_same]
      exact fun script _ e he _ => .inl he
  refine ⟨fun xs s hrun => ?_, ?_⟩
  · have hkept := (hrules.inv hstart herr hcoll hrun).inv.kept
    simpa [view, List.forall₂_map_left_iff, List.forall₂_map_right_iff] using hkept
  · rcases hrules.drains hstart herr hcoll with ⟨output, held, _, hdrains, _, hkept, hheld⟩
    refine ⟨output, hdrains, fun script hscript e he hevent => ?_⟩
    have hall := hkept.kept
    rw [List.forall₂_map_left_iff] at hall
    rcases exists_of_forall₂ hall hscript with ⟨cs, hcs, hkept'⟩
    have hout := hkept' e he hevent
    rw [hheld cs hcs] at hout
    simpa [View.output] using hout

/-- A batch of one {lit}`u64` event. -/
def oneEvent (ts : ℕ) (val : UInt64) : ChannelEvents fun _ : Unit => UInt64 :=
  .events () { evs := [⟨ts, val⟩] }

/-- A connection. -/
def oneStatus (ts : ℕ) : ChannelEvents fun _ : Unit => UInt64 :=
  .status (some (ConnStatusEvent.new ts .connect))

/-- Checks that the output keeps no batch of events that comes next from moving. -/
def noCollision (xs : List (Sitemty (ChannelEvents fun _ : Unit => UInt64)))
    (s : Merger (ChannelEvents fun _ : Unit => UInt64)) : Bool :=
  (view xs s).heads.all fun c => !c.isEvents || c.tsMin.all fun ts => !(view xs s).outputBlocks ts

theorem not_statusCollides_of_noCollision {xs : List (Sitemty (ChannelEvents fun _ : Unit => UInt64))}
    {s : Merger (ChannelEvents fun _ : Unit => UInt64)} (hcheck : noCollision xs s = true) (ts : ℕ) :
    ¬ StatusCollides (view xs s) ts := by
  intro hcoll
  rcases hcoll.event with ⟨c, hc, hevents, hmin⟩
  have hhere := List.all_eq_true.mp hcheck c hc
  simp [hevents, hmin, hcoll.blocked] at hhere

/-- An event and a status with the same timestamp, where the event comes first: it is not lost. -/
theorem losesNoEvent_event_first :
    LosesNoEvent [[.ready (sitemData (oneEvent 5 1))], [.pending, .ready (sitemData (oneStatus 5))]]
      none := by
  refine losesNoEvent_of_not_statusCollides _ _ ?_ ?_ ?_ fun xs s hrun => ?_
  rotate_left 3
  · have hcheck : checkRun pollNext noCollision 12 [] (new [[.ready (sitemData (oneEvent 5 1))],
        [.pending, .ready (sitemData (oneStatus 5))]] none) = true := by decide +kernel
    exact not_statusCollides_of_noCollision (by simpa using forall_reaches_of_checkRun 12 hcheck hrun)
  · simp [SortedBy, oneEvent, oneStatus]
  · simp [oneEvent, oneStatus, u64Max, ConnStatusEvent.new]
  · simp

/-- An event and a status with the same timestamp, where the status comes first: the event is lost. -/
theorem not_losesNoEvent_status_first :
    ¬ LosesNoEvent [[.ready (sitemData (oneStatus 5))], [.ready (sitemData (oneEvent 5 1))]] none := by
  intro hloses
  have hdrains : Drains pollNext
      (new [[.ready (sitemData (oneStatus 5))], [.ready (sitemData (oneEvent 5 1))]] none)
      [sitemData (oneStatus 5)] := drive_drains 12 rfl
  rcases hloses.delivered with ⟨output, hout, hall⟩
  have heq := hout.unique hdrains
  subst heq
  have hmem := hall _ (List.mem_cons_of_mem _ List.mem_cons_self) (Entry.event () ⟨5, 1⟩)
    (by simp [oneEvent]) rfl
  simp [eventTss, oneStatus] at hmem

end Run

end Merger

end Items
end Daqbuf
