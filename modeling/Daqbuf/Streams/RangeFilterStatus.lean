import Daqbuf.Items.ChannelEvents
import Daqbuf.Streams.RangeFilter
/-!
# The Range Filter on Channel Events

Pruning drains an item.  {lit}`drain_into_new` of a status copies the status, and leaves it where it was.  So a status
at or behind the range end is not dropped, and is handed out if it does not precede the range begin.

Main results:

- Theorem {lit}`entries_outputs`: the entries that the filter hands out, as a recursion on the items of its input.
- Theorem {lit}`exists_late_sought`: when an entry from behind the range is handed out.
- Theorem {lit}`keepsWithin_iff`: when the filter hands out nothing from behind the range, and at most one entry from
  before it.
-/

namespace Daqbuf
namespace Streams
namespace RangeFilter2

open Netpod Items Search Poll
open Items.ChannelEvents (entriesOf entriesOf_nil entriesOf_cons entriesOf_append entries_events entries_status
  tsMin_eq tsMax_eq len_eq TimeOrdered)

variable {κ : Type*} {V : κ → Type*}

/-! ## What is left of an item -/

/-- What pruning leaves of an item: of a batch the events before the range end, and a status in any case. -/
def beforeEnd (fin : ℕ) : ChannelEvents V → ChannelEvents V
  | .events k c => .events k { c with evs := c.evs.filter fun ev => ev.ts < fin }
  | .status x => .status x

/-- The entries that are left and do not precede the range begin. -/
def inRange (range : NanoRange) (c : ChannelEvents V) : List (Entry V) :=
  (beforeEnd range.fin c).entries.filter fun e => range.beg ≤ e.ts

section BeforeEnd

variable {fin : ℕ} {range : NanoRange} {c : ChannelEvents V} {e : Entry V}

theorem entries_beforeEnd_sublist : ((beforeEnd fin c).entries).Sublist c.entries := by
  rcases c with ⟨k, c⟩ | x
  · exact List.filter_sublist.map _
  · exact List.Sublist.refl _

/-- An entry is left if it precedes the range end or is a status. -/
theorem mem_entries_beforeEnd :
    e ∈ (beforeEnd fin c).entries ↔ e ∈ c.entries ∧ (e.ts < fin ∨ c.isEvents = false) := by
  rcases c with ⟨k, c⟩ | x
  · simp only [beforeEnd, entries_events, List.mem_map, List.mem_filter, decide_eq_true_eq, ChannelEvents.isEvents,
      Bool.true_eq_false, or_false]
    constructor
    · rintro ⟨ev, ⟨hev, hlt⟩, rfl⟩
      exact ⟨⟨ev, hev, rfl⟩, hlt⟩
    · rintro ⟨⟨ev, hev, rfl⟩, hlt⟩
      exact ⟨ev, ⟨hev, hlt⟩, rfl⟩
  · simp [beforeEnd, ChannelEvents.isEvents]

theorem mem_inRange :
    e ∈ inRange range c ↔ e ∈ c.entries ∧ (e.ts < range.fin ∨ c.isEvents = false) ∧ range.beg ≤ e.ts := by
  rw [inRange, List.mem_filter, mem_entries_beforeEnd, decide_eq_true_eq, and_assoc]

variable [DecidableEq κ] [∀ k, EventValueType (V k)]

/-- Pruning leaves what precedes the range end, and each status. -/
theorem pruneHigh_channel (s : RangeFilter2 (ChannelEvents V)) (fin : ℕ) (hordered : TimeOrdered c.entries) :
    ∃ stats, s.pruneHigh c fin = (beforeEnd fin c, { s with stats := stats }) := by
  rcases c with ⟨k, c⟩ | x
  · have hsorted : TsSorted c.evs := by simpa [SortedBy, List.pairwise_map] using hordered
    unfold pruneHigh
    simp only [MergeableTy.findHighestIndexLt, ChannelEvents.findHighestIndexLt, ChannelEvents.channel_len,
      ChannelEvents.len, ChannelEvents.channel_drainIntoNew]
    cases hfind : c.findHighestIndexLt fin with
    | some ihlt =>
        obtain ⟨-, htake, -⟩ := ContainerEvents.findHighestIndexLt_eq_some hsorted hfind
        by_cases hlen : ihlt + 1 = c.len
        · have hall : c.evs.filter (fun ev => ev.ts < fin) = c.evs := by
            rw [← htake, hlen]
            exact List.take_length
          exact ⟨_, (if_pos hlen).trans (by rw [beforeEnd, hall])⟩
        · have hdrain : (ChannelEvents.drainIntoNew (.events k c) (ihlt + 1) c.len).2 = beforeEnd fin (.events k c) := by
            rw [ChannelEvents.drainIntoNew_events (ContainerEvents.drainIntoNew_suffix c (ihlt + 1)), beforeEnd, htake]
          exact ⟨_, (if_neg hlen).trans (by rw [hdrain])⟩
    | none =>
        have hnil : c.evs.filter (fun ev => ev.ts < fin) = [] := by
          rw [List.filter_eq_nil_iff]
          intro ev hev
          simpa using (ContainerEvents.findHighestIndexLt_eq_none hsorted).mp hfind ev hev
        have hdrain : (ChannelEvents.drainIntoNew (.events k c) 0 c.len).2 = beforeEnd fin (.events k c) := by
          rw [ChannelEvents.drainIntoNew_events (ContainerEvents.drainIntoNew_suffix c 0), beforeEnd, hnil, List.take_zero]
        exact ⟨_, by rw [hdrain]⟩
  · unfold pruneHigh
    simp only [MergeableTy.findHighestIndexLt, ChannelEvents.channel_len, ChannelEvents.channel_drainIntoNew]
    -- draining copies the status, and leaves it in the item
    split
    · split
      · exact ⟨_, rfl⟩
      · exact ⟨_, rfl⟩
    · exact ⟨_, rfl⟩

/-- An ordered item can be cut. -/
theorem cuttable_channel (beg : ℕ) (hordered : TimeOrdered c.entries) :
    Cuttable ChannelEvents.entries Entry.ts c beg := by
  rcases c with ⟨k, c⟩ | _ | st
  · have hsorted : TsSorted c.evs := by simpa [SortedBy, List.pairwise_map] using hordered
    refine ⟨?_, ?_, ?_, ?_⟩
    · intro hfind e he
      obtain ⟨ev, hev, rfl⟩ := List.mem_map.mp he
      exact ContainerEvents.findLowestIndexGe_eq_none.mp hfind ev hev
    · intro i hfind
      obtain ⟨hlt, htake, hdrop⟩ := ContainerEvents.findLowestIndexGe_eq_some hsorted hfind
      rw [entries_events, List.length_map, ← List.map_take, ← List.map_drop, htake, hdrop, List.filter_map,
        List.filter_map]
      exact ⟨hlt, rfl, rfl⟩
    · intro i _
      refine ⟨_, _, ChannelEvents.drainIntoNew_events (ContainerEvents.drainIntoNew_prefix c i), ?_⟩
      rw [entries_events, entries_events, List.map_drop]
    · intro hne
      rw [entries_events, List.length_map]
      refine ⟨_, _, ChannelEvents.drainIntoNew_events (ContainerEvents.drainIntoNew_suffix c (c.len - 1)), ?_⟩
      rw [entries_events, ne_eq, List.map_eq_nil_iff] at hne
      obtain ⟨init, ev, hconcat⟩ := (List.eq_nil_or_concat c.evs).resolve_left hne
      simp [hconcat, ContainerEvents.len]
  · refine ⟨?_, ?_, ?_, fun hne => absurd rfl hne⟩
    · intro _ e he
      cases he
    · intro i hfind
      cases hfind
    · intro i hi
      cases hi
  · refine ⟨?_, ?_, ?_, ?_⟩
    · intro hfind e he
      obtain rfl := List.mem_singleton.mp he
      by_contra hlt
      have hsome : MergeableTy.findLowestIndexGe (.status (some st) : ChannelEvents V) beg = some 0 :=
        if_pos (not_lt.mp hlt)
      rw [hsome] at hfind
      cases hfind
    · intro i hfind
      by_cases hge : st.ts ≥ beg
      · have hsome : MergeableTy.findLowestIndexGe (.status (some st) : ChannelEvents V) beg = some 0 := if_pos hge
        rw [hsome] at hfind
        obtain rfl := Option.some.inj hfind
        have hnot : ¬ st.ts < beg := not_lt.mpr hge
        simp [hge, hnot]
      · have hnone : MergeableTy.findLowestIndexGe (.status (some st) : ChannelEvents V) beg = none := if_neg hge
        rw [hnone] at hfind
        cases hfind
    · intro i hi
      obtain rfl : i = 0 := Nat.lt_one_iff.mp hi
      exact ⟨_, _, rfl, rfl⟩
    · exact fun _ => ⟨_, _, rfl, rfl⟩

end BeforeEnd

/-! ## What the filter hands out -/

/-- The entries that a seeking filter hands out for the items of its input, when it holds back those of its slot. -/
def sought (range : NanoRange) : List (Entry V) → List (ChannelEvents V) → List (Entry V)
  | slot, [] => slot
  | slot, c :: cs =>
      let left := (beforeEnd range.fin c).entries
      if c.entries.isEmpty then sought range slot cs
      else if left.isEmpty then []
      else if (inRange range c).isEmpty then sought range left.getLast?.toList cs
      else (slot ++ left.filter fun e => e.ts < range.beg).getLast?.toList ++ (c :: cs).flatMap (inRange range)

/-- The filter is between two polls of its input, which still delivers the given items. -/
structure Sound (s : RangeFilter2 (ChannelEvents V)) (cs : List (ChannelEvents V)) : Prop where
  slot1_le_one : (slotView ChannelEvents.entries s.slot1).length ≤ 1
  slot1_seeking : ¬ s.Seeking → s.slot1 = none
  slot2_none : s.slot2 = none
  ordered : TimeOrdered (entriesOf cs)
  tsmax_le : ∀ e ∈ entriesOf cs, s.tsmax ≤ e.ts

/-- The entries that the filter hands out -/
def handsOut (s : RangeFilter2 (ChannelEvents V)) (cs : List (ChannelEvents V)) : List (Entry V) :=
  if s.Seeking then sought s.range (slotView ChannelEvents.entries s.slot1) cs else cs.flatMap (inRange s.range)

section Outputs

variable {s : RangeFilter2 (ChannelEvents V)} {c : ChannelEvents V} {cs : List (ChannelEvents V)}

/-- What is handed out depends neither on the input nor on the statistics and the range-complete flag. -/
@[simp]
theorem handsOut_frame (inp : Script (Sitemty (ChannelEvents V))) (have_ : Bool) (stats : RangeFilterStats) :
    handsOut { s with inp := inp, haveRangeComplete := have_, stats := stats } cs = handsOut s cs := rfl

theorem Sound.frame (hs : Sound s cs) (inp : Script (Sitemty (ChannelEvents V))) (have_ : Bool)
    (stats : RangeFilterStats) : Sound { s with inp := inp, haveRangeComplete := have_, stats := stats } cs :=
  ⟨hs.slot1_le_one, hs.slot1_seeking, hs.slot2_none, hs.ordered, hs.tsmax_le⟩

theorem entriesOf_map_data (outs : List (ChannelEvents V)) :
    entriesOf (datas (outs.map fun x => sitemData x)) = entriesOf outs := by
  rw [datas_map_data]

theorem datas_ending (s : RangeFilter2 (ChannelEvents V)) : datas (ending s) = [] := by
  cases hflag : s.haveRangeComplete <;> simp [ending, hflag]

theorem entriesOf_toList (slot : Option (ChannelEvents V)) :
    entriesOf slot.toList = slotView ChannelEvents.entries slot := rfl

/-- An item without entries makes no difference. -/
theorem handsOut_empty (hempty : c.entries = []) : handsOut s (c :: cs) = handsOut s cs := by
  have hleft : (beforeEnd s.range.fin c).entries = [] := by
    have hsub := @entries_beforeEnd_sublist _ _ s.range.fin c
    rw [hempty] at hsub
    exact List.sublist_nil.mp hsub
  have hnil : inRange s.range c = [] := by rw [inRange, hleft]; rfl
  unfold handsOut
  rw [sought, hempty, List.flatMap_cons, hnil]
  rfl

variable [DecidableEq κ] [∀ k, EventValueType (V k)]

/-- An item with entries is cut. -/
theorem Sound.handleItem (hs : Sound s (c :: cs)) (hne : c.entries ≠ []) :
    ∃ last, (∃ e ∈ c.entries, e.ts = last) ∧
      Cut ChannelEvents.entries Entry.ts s (beforeEnd s.range.fin c) last (s.handleItem c) := by
  have hordered : TimeOrdered c.entries := (sortedBy_append.mp (by simpa using hs.ordered)).1
  obtain ⟨first, rest, hcons⟩ := List.exists_cons_of_ne_nil hne
  obtain ⟨init, last, hconcat⟩ := (List.eq_nil_or_concat c.entries).resolve_left hne
  have hmin : c.tsMin = some first.ts := by rw [tsMin_eq, hcons]; rfl
  have hmax : c.tsMax = some last.ts := by rw [tsMax_eq, hconcat]; simp
  have hle : s.tsmax ≤ first.ts := hs.tsmax_le first (by simp [hcons])
  obtain ⟨stats, hprune⟩ := pruneHigh_channel { s with tsmax := last.ts } s.range.fin hordered
  refine ⟨last.ts, ⟨last, by simp [hconcat], rfl⟩, ?_⟩
  exact handleItem_cut len_eq (cuttable_channel s.range.beg (hordered.sublist entries_beforeEnd_sublist)) hmin hmax hle
    hprune hs.slot1_le_one hs.slot2_none

/-- An item without entries changes the statistics only. -/
theorem handleItem_empty (s : RangeFilter2 (ChannelEvents V)) (hempty : c.entries = []) :
    ∃ stats, s.handleItem c = (.ok none, { s with stats := stats }) := by
  have hmin : c.tsMin = none := by rw [tsMin_eq, hempty]; rfl
  simp only [RangeFilter2.handleItem, ChannelEvents.channel_tsMin, hmin]
  exact ⟨_, rfl⟩

/-- The filter is sound again behind an item. -/
theorem Sound.next (hs : Sound s (c :: cs)) {last : ℕ} (hlast : ∃ e ∈ c.entries, e.ts = last)
    {out : Option (ChannelEvents V)} {t : RangeFilter2 (ChannelEvents V)}
    (hcut : Cut ChannelEvents.entries Entry.ts s (beforeEnd s.range.fin c) last (.ok out, t)) :
    Sound { t with slot2 := none } cs := by
  obtain ⟨e, he, rfl⟩ := hlast
  obtain ⟨-, hordered, hcross⟩ := sortedBy_append.mp (show TimeOrdered (c.entries ++ entriesOf cs) by simpa using hs.ordered)
  have hlate : ∀ e' ∈ entriesOf cs, e.ts ≤ e'.ts := hcross e he
  cases hcut with
  | hold stats hseek hne hbefore keep rest hdrain hkeep =>
      refine ⟨?_, fun hnot => absurd hseek hnot, rfl, hordered, hlate⟩
      change (slotView ChannelEvents.entries (some keep)).length ≤ 1
      rw [slotView_some, hkeep]
      exact Option.length_toList_le
  | found stats hseek out slot2 hfound hentries => exact ⟨Nat.zero_le 1, fun _ => rfl, rfl, hordered, hlate⟩
  | pass stats hseek out hentries => exact ⟨hs.slot1_le_one, hs.slot1_seeking, rfl, hordered, hlate⟩

/-- What is handed out for an item with entries, and what is still to be handed out. -/
theorem Sound.handsOut_cons (hs : Sound s (c :: cs)) (hne : c.entries ≠ []) {last : ℕ}
    {out : Option (ChannelEvents V)} {t : RangeFilter2 (ChannelEvents V)}
    (hcut : Cut ChannelEvents.entries Entry.ts s (beforeEnd s.range.fin c) last (.ok out, t)) :
    handsOut s (c :: cs) = slotView ChannelEvents.entries out ++ slotView ChannelEvents.entries t.slot2 ++
      handsOut { t with slot2 := none } cs := by
  have hentries : c.entries.isEmpty = false := by simpa using hne
  cases hcut with
  | hold stats hseek hleft hbefore keep rest hdrain hkeep =>
      have hnil : inRange s.range c = [] := by
        rw [inRange, List.filter_eq_nil_iff]
        intro e he
        simpa using hbefore e he
      have hsome : (beforeEnd s.range.fin c).entries.isEmpty = false := by simpa using hleft
      rw [handsOut, if_pos hseek, sought, hentries, hsome, hnil, hs.slot2_none]
      simp only [Bool.false_eq_true, if_false, List.isEmpty_nil, if_true, slotView_none, List.nil_append, handsOut]
      rw [if_pos hseek, slotView_some, hkeep]
  | found stats hseek out slot2 hfound hout =>
      have hsome : (beforeEnd s.range.fin c).entries.isEmpty = false := by
        rw [List.isEmpty_eq_false_iff]
        exact fun hnil => hfound (by rw [hnil]; rfl)
      have hin : (inRange s.range c).isEmpty = false := by simpa [inRange] using hfound
      rw [slotView_some, hout, handsOut, if_pos hseek, sought, hentries, hsome, hin, List.flatMap_cons]
      simp [handsOut, inRange]
  | pass stats hseek out hout =>
      rw [handsOut, if_neg hseek, List.flatMap_cons, hout, hs.slot2_none, slotView_none, List.append_nil, handsOut,
        if_neg hseek]
      rfl

/-- An error is reported only where a seeking filter has nothing left of an item, and hands out nothing more. -/
theorem handsOut_error (cs : List (ChannelEvents V)) (hne : c.entries ≠ []) {last : ℕ} {e : Error} {t : RangeFilter2 (ChannelEvents V)}
    (hcut : Cut ChannelEvents.entries Entry.ts s (beforeEnd s.range.fin c) last (.error e, t)) :
    handsOut s (c :: cs) = [] := by
  have hentries : c.entries.isEmpty = false := by simpa using hne
  cases hcut with
  | high stats hseek hnil =>
      rw [handsOut, if_pos hseek, sought, hentries, hnil]
      rfl

/-- The entries that the filter hands out, as a recursion on the items of its input. -/
theorem entries_outputs (script : Script (Sitemty (ChannelEvents V))) (hs : Sound s (datas script.items)) :
    entriesOf (datas (outputs s script)) = handsOut s (datas script.items) := by
  induction script generalizing s with
  | nil =>
      rw [outputs, datas_append, datas_ending, List.append_nil, entriesOf_map_data, entriesOf_toList]
      by_cases hseek : s.Seeking
      · rw [handsOut, if_pos hseek]
        rfl
      · rw [handsOut, if_neg hseek, hs.slot1_seeking hseek]
        rfl
  | cons answer rest ih =>
      rcases answer with _ | ⟨e | ⟨⟨⟩ | item⟩ | x | x⟩
      · exact ih (hs.frame rest s.haveRangeComplete s.stats)
      · simpa [outputs] using ih (hs.frame rest s.haveRangeComplete s.stats)
      · exact ih (hs.frame rest true s.stats)
      · simp only [Script.items_ready, datas_cons, data?_data, Option.toList_some, List.singleton_append] at hs ⊢
        have hs' := hs.frame rest s.haveRangeComplete s.stats
        by_cases hempty : item.entries = []
        · obtain ⟨stats, hitem⟩ := handleItem_empty { s with inp := rest } hempty
          have hordered : Sound s (datas (Script.items rest)) :=
            ⟨hs.slot1_le_one, hs.slot1_seeking, hs.slot2_none, by simpa [hempty] using hs.ordered, by simpa [hempty] using hs.tsmax_le⟩
          have hnext := ih (hordered.frame rest s.haveRangeComplete stats)
          rw [handsOut_empty hempty]
          rw [handsOut_frame] at hnext
          simp only [outputs, hitem]
          simpa [hs.slot2_none] using hnext
        · obtain ⟨last, hlast, hcut⟩ := hs'.handleItem hempty
          simp only [outputs]
          generalize { s with inp := rest }.handleItem item = result at hcut
          rcases result with ⟨e | out, t⟩
          · have hnil := handsOut_error (datas (Script.items rest)) hempty hcut
            simpa [datas_ending] using hnil.symm
          · have hnext := ih (hs'.next hlast hcut)
            have hcons := hs'.handsOut_cons hempty hcut
            rw [datas_append, entriesOf_append, hnext, datas_map_data, entriesOf_append, entriesOf_toList, entriesOf_toList]
            exact hcons.symm
      · simpa [outputs] using ih (hs.frame rest s.haveRangeComplete s.stats)
      · simpa [outputs] using ih (hs.frame rest s.haveRangeComplete s.stats)

end Outputs

/-! ## From behind the range -/

/-- The filter is not stopped by these items: it finds something inside the range, or no batch of them lies wholly
behind the range end. -/
def Reached (range : NanoRange) (cs : List (ChannelEvents V)) : Prop :=
  (∃ e ∈ entriesOf cs, range.beg ≤ e.ts ∧ e.ts < range.fin) ∨
    ∀ c ∈ cs, c.isEvents = true → c.entries ≠ [] → ∃ e ∈ c.entries, e.ts < range.fin

/-- A status at or behind the range end is not pruned.  With the one-before flag, the filter is not stopped before it.
The status does not precede the range begin, or it is held back as the one before and nothing follows. -/
def Leaks (range : NanoRange) (oneBefore : Bool) (cs : List (ChannelEvents V)) : Prop :=
  ∃ (pre : List (ChannelEvents V)) (st : ConnStatusEvent) (post : List (ChannelEvents V)),
    cs = pre ++ .status (some st) :: post ∧ range.fin ≤ st.ts ∧ (oneBefore = true → Reached range pre) ∧
      (range.beg ≤ st.ts ∨ oneBefore = true ∧ ∀ c ∈ post, c.entries = [])

section Leaks

variable {range : NanoRange} {c : ChannelEvents V} {cs : List (ChannelEvents V)} {slot : List (Entry V)} {st : ConnStatusEvent}

/-- Not seeking, the filter hands out each status behind the range. -/
theorem exists_late_flatMap :
    (∃ e ∈ cs.flatMap (inRange range), range.fin ≤ e.ts) ↔
      ∃ st : ConnStatusEvent, .status (some st) ∈ cs ∧ range.fin ≤ st.ts ∧ range.beg ≤ st.ts := by
  constructor
  · rintro ⟨e, he, hlate⟩
    obtain ⟨c, hc, he⟩ := List.mem_flatMap.mp he
    obtain ⟨hmem, hleft, hbeg⟩ := mem_inRange.mp he
    have hstatus := hleft.resolve_left (not_lt.mpr hlate)
    rcases c with ⟨k, c⟩ | _ | st
    · cases hstatus
    · cases hmem
    · obtain rfl := List.mem_singleton.mp hmem
      exact ⟨st, hc, hlate, hbeg⟩
  · rintro ⟨st, hst, hlate, hbeg⟩
    refine ⟨.status st, List.mem_flatMap.mpr ⟨_, hst, ?_⟩, hlate⟩
    exact mem_inRange.mpr ⟨List.mem_singleton_self _, Or.inr rfl, hbeg⟩

/-- The same as a leak without the one-before flag -/
theorem leaks_false :
    Leaks range false cs ↔ ∃ st : ConnStatusEvent, .status (some st) ∈ cs ∧ range.fin ≤ st.ts ∧ range.beg ≤ st.ts := by
  constructor
  · rintro ⟨pre, st, post, rfl, hlate, -, hbeg | ⟨hflag, -⟩⟩
    · exact ⟨st, by simp, hlate, hbeg⟩
    · cases hflag
  · rintro ⟨st, hst, hlate, hbeg⟩
    obtain ⟨pre, post, rfl⟩ := List.append_of_mem hst
    exact ⟨pre, st, post, rfl, hlate, nofun, Or.inl hbeg⟩

/-- A leak of a seeking filter: what it holds back lies behind the range and nothing follows, or a status leaks. -/
def SeekLeaks (range : NanoRange) (slot : List (Entry V)) (cs : List (ChannelEvents V)) : Prop :=
  ((∃ e ∈ slot, range.fin ≤ e.ts) ∧ ∀ c ∈ cs, c.entries = []) ∨ Leaks range true cs

/-- The first item is the status that leaks, or it leaks behind the first item. -/
theorem leaks_true_cons :
    Leaks range true (c :: cs) ↔
      (∃ st, c = .status (some st) ∧ range.fin ≤ st.ts ∧ (range.beg ≤ st.ts ∨ ∀ c ∈ cs, c.entries = [])) ∨
      ∃ (pre : List (ChannelEvents V)) (st : ConnStatusEvent) (post : List (ChannelEvents V)),
        cs = pre ++ .status (some st) :: post ∧ range.fin ≤ st.ts ∧ Reached range (c :: pre) ∧
          (range.beg ≤ st.ts ∨ ∀ c ∈ post, c.entries = []) := by
  simp only [Leaks, true_and, forall_const]
  constructor
  · rintro ⟨pre, st, post, hsplit, hlate, hreached, hout⟩
    rcases List.cons_eq_append_iff.mp hsplit with ⟨rfl, htail⟩ | ⟨pre, rfl, htail⟩
    · obtain ⟨rfl, rfl⟩ := List.cons.inj htail
      exact Or.inl ⟨st, rfl, hlate, hout⟩
    · exact Or.inr ⟨pre, st, post, htail, hlate, hreached, hout⟩
  · rintro (⟨st, rfl, hlate, hout⟩ | ⟨pre, st, post, rfl, hlate, hreached, hout⟩)
    · exact ⟨[], st, cs, rfl, hlate, Or.inr nofun, hout⟩
    · exact ⟨c :: pre, st, post, rfl, hlate, hreached, hout⟩

/-- An item that neither stops the filter nor lies inside the range does not matter for what is reached. -/
theorem reached_cons (hnone : ∀ e ∈ c.entries, ¬ (range.beg ≤ e.ts ∧ e.ts < range.fin))
    (hlow : c.isEvents = true → c.entries ≠ [] → ∃ e ∈ c.entries, e.ts < range.fin) :
    Reached range (c :: cs) ↔ Reached range cs := by
  unfold Reached
  rw [entriesOf_cons]
  constructor
  · rintro (⟨e, he, hin⟩ | hall)
    · rcases List.mem_append.mp he with he | he
      · exact absurd hin (hnone e he)
      · exact Or.inl ⟨e, he, hin⟩
    · exact Or.inr fun d hd => hall d (List.mem_cons_of_mem _ hd)
  · rintro (⟨e, he, hin⟩ | hall)
    · exact Or.inl ⟨e, List.mem_append_right _ he, hin⟩
    · refine Or.inr fun d hd => ?_
      rcases List.mem_cons.mp hd with rfl | hd
      · exact hlow
      · exact hall d hd

/-- An item without entries does not matter. -/
theorem seekLeaks_empty (hempty : c.entries = []) : SeekLeaks range slot (c :: cs) ↔ SeekLeaks range slot cs := by
  have hreached : ∀ pre : List (ChannelEvents V), Reached range (c :: pre) ↔ Reached range pre := fun pre =>
    reached_cons (by rw [hempty]; exact nofun) fun _ hne => absurd hempty hne
  have hleaks : Leaks range true (c :: cs) ↔ Leaks range true cs := by
    rw [leaks_true_cons]
    simp only [hreached]
    constructor
    · rintro (⟨st, rfl, -⟩ | hleak)
      · cases hempty
      · simpa [Leaks] using hleak
    · intro hleak
      exact Or.inr (by simpa [Leaks] using hleak)
  rw [SeekLeaks, SeekLeaks, hleaks, List.forall_mem_cons, and_iff_right hempty]

/-- Behind the range end only a status is left. -/
theorem eq_status_of_late {e : Entry V} (he : e ∈ (beforeEnd range.fin c).entries) (hlate : range.fin ≤ e.ts) :
    ∃ st, c = .status (some st) ∧ e = .status st := by
  obtain ⟨hmem, hleft⟩ := mem_entries_beforeEnd.mp he
  have hstatus := hleft.resolve_left (not_lt.mpr hlate)
  rcases c with ⟨k, c⟩ | _ | st
  · cases hstatus
  · cases hmem
  · exact ⟨st, rfl, List.mem_singleton.mp hmem⟩

/-- An item whose last entry is held back instead -/
theorem seekLeaks_hold (hleft : (beforeEnd range.fin c).entries ≠ []) (hnil : inRange range c = []) :
    SeekLeaks range slot (c :: cs) ↔ SeekLeaks range (beforeEnd range.fin c).entries.getLast?.toList cs := by
  have hnone : ∀ e ∈ (beforeEnd range.fin c).entries, e.ts < range.beg := by
    intro e he
    rw [inRange, List.filter_eq_nil_iff] at hnil
    simpa using hnil e he
  have hne : c.entries ≠ [] := fun hempty =>
    hleft (List.sublist_nil.mp (hempty ▸ entries_beforeEnd_sublist))
  have hreached : ∀ pre : List (ChannelEvents V), Reached range (c :: pre) ↔ Reached range pre := by
    refine fun pre => reached_cons ?_ ?_
    · rintro e he ⟨hbeg, hfin⟩
      exact absurd hbeg (not_le.mpr (hnone e (mem_entries_beforeEnd.mpr ⟨he, Or.inl hfin⟩)))
    · intro hevents _
      obtain ⟨e, he⟩ := List.exists_mem_of_ne_nil _ hleft
      obtain ⟨hmem, hlow⟩ := mem_entries_beforeEnd.mp he
      refine ⟨e, hmem, hlow.resolve_right ?_⟩
      rw [hevents]
      exact nofun
  unfold SeekLeaks
  rw [leaks_true_cons, List.forall_mem_cons]
  simp only [hreached]
  constructor
  · rintro (⟨-, hempty, -⟩ | ⟨st, rfl, hlate, hout⟩ | hleak)
    · exact absurd hempty hne
    · -- the status precedes the range begin, and is held back
      have hbeg := hnone (.status st) (List.mem_singleton_self _)
      exact Or.inl ⟨⟨.status st, List.mem_singleton_self _, hlate⟩, hout.resolve_left (not_le.mpr hbeg)⟩
    · exact Or.inr (by simpa [Leaks] using hleak)
  · rintro (⟨⟨e, he, hlate⟩, hempty⟩ | hleak)
    · obtain ⟨st, rfl, rfl⟩ := eq_status_of_late (List.mem_of_getLast? (Option.mem_toList.mp he)) hlate
      exact Or.inr (Or.inl ⟨st, rfl, hlate, Or.inr hempty⟩)
    · exact Or.inr (Or.inr (by simpa [Leaks] using hleak))

/-- A batch that lies wholly behind the range end stops the filter. -/
theorem not_seekLeaks_high (hne : c.entries ≠ []) (hleft : (beforeEnd range.fin c).entries = [])
    (hordered : TimeOrdered (entriesOf (c :: cs))) : ¬ SeekLeaks range slot (c :: cs) := by
  rw [entriesOf_cons] at hordered
  have hhigh : ∀ e ∈ c.entries, range.fin ≤ e.ts := by
    intro e he
    by_contra hlt
    have hmem : e ∈ (beforeEnd range.fin c).entries := mem_entries_beforeEnd.mpr ⟨he, Or.inl (not_le.mp hlt)⟩
    rw [hleft] at hmem
    cases hmem
  rintro (⟨-, hempty⟩ | hleak)
  · exact hne (hempty c List.mem_cons_self)
  · rcases leaks_true_cons.mp hleak with ⟨st, rfl, -⟩ | ⟨pre, st, post, rfl, -, hreached, -⟩
    · cases hleft
    · rcases hreached with ⟨e, he, -, hfin⟩ | hall
      · rw [entriesOf_cons] at he
        rcases List.mem_append.mp he with he | he
        · exact absurd hfin (not_lt.mpr (hhigh e he))
        · obtain ⟨f, hf⟩ := List.exists_mem_of_ne_nil _ hne
          have hle := (sortedBy_append.mp hordered).2.2 f hf e (by rw [entriesOf_append]; exact List.mem_append_left _ he)
          have hhigh := hhigh f hf
          omega
      · rcases hstatus : c.isEvents with _ | _
        · obtain ⟨f, hf⟩ := List.exists_mem_of_ne_nil _ hne
          have hmem : f ∈ (beforeEnd range.fin c).entries := mem_entries_beforeEnd.mpr ⟨hf, Or.inr hstatus⟩
          rw [hleft] at hmem
          cases hmem
        · obtain ⟨e, he, hfin⟩ := hall c List.mem_cons_self hstatus hne
          exact absurd hfin (not_lt.mpr (hhigh e he))

/-- Where the filter finds its first entry, a leak is a status behind the range. -/
theorem seekLeaks_found (hfound : inRange range c ≠ []) (hordered : TimeOrdered (slot ++ entriesOf (c :: cs))) :
    SeekLeaks range slot (c :: cs) ↔
      ∃ st : ConnStatusEvent, .status (some st) ∈ c :: cs ∧ range.fin ≤ st.ts ∧ range.beg ≤ st.ts := by
  obtain ⟨f, hf⟩ := List.exists_mem_of_ne_nil _ hfound
  obtain ⟨hmem, hleft, hbeg⟩ := mem_inRange.mp hf
  rw [entriesOf_cons] at hordered
  have hlater : ∀ e ∈ entriesOf cs, f.ts ≤ e.ts :=
    (sortedBy_append.mp (sortedBy_append.mp hordered).2.1).2.2 f hmem
  constructor
  · rintro (⟨-, hempty⟩ | hleak)
    · rw [hempty c List.mem_cons_self] at hmem
      cases hmem
    · rcases leaks_true_cons.mp hleak with ⟨st, rfl, hlate, -⟩ | ⟨pre, st, post, rfl, hlate, -, -⟩
      · obtain rfl := List.mem_singleton.mp hmem
        exact ⟨st, List.mem_cons_self, hlate, hbeg⟩
      · exact ⟨st, by simp, hlate, hbeg.trans (hlater (.status st) (by simp))⟩
  · rintro ⟨st, hst, hlate, hst'⟩
    refine Or.inr (leaks_true_cons.mpr ?_)
    rcases lt_or_ge f.ts range.fin with hfin | hfin
    · rcases List.mem_cons.mp hst with rfl | hst
      · exact Or.inl ⟨st, rfl, hlate, Or.inl hst'⟩
      · obtain ⟨pre, post, rfl⟩ := List.append_of_mem hst
        refine Or.inr ⟨pre, st, post, rfl, hlate, Or.inl ⟨f, ?_, hbeg, hfin⟩, Or.inl hst'⟩
        rw [entriesOf_cons]
        exact List.mem_append_left _ hmem
    · -- what is found lies behind the range itself
      obtain ⟨st', rfl, rfl⟩ := eq_status_of_late (mem_entries_beforeEnd.mpr ⟨hmem, hleft⟩) hfin
      exact Or.inl ⟨st', rfl, hfin, Or.inl hbeg⟩

/-- What is held back when the first entry is found lies behind the range only if that entry does. -/
theorem exists_late_found (hfound : inRange range c ≠ []) (hordered : TimeOrdered (slot ++ entriesOf (c :: cs))) :
    (∃ e ∈ (slot ++ (beforeEnd range.fin c).entries.filter fun e => e.ts < range.beg).getLast?.toList ++
        (c :: cs).flatMap (inRange range), range.fin ≤ e.ts) ↔
      ∃ e ∈ (c :: cs).flatMap (inRange range), range.fin ≤ e.ts := by
  constructor
  · rintro ⟨e, he, hlate⟩
    rcases List.mem_append.mp he with he | he
    · rcases List.mem_append.mp (List.mem_of_getLast? (Option.mem_toList.mp he)) with he | he
      · obtain ⟨f, hf⟩ := List.exists_mem_of_ne_nil _ hfound
        have hmem : f ∈ entriesOf (c :: cs) := by
          rw [entriesOf_cons]
          exact List.mem_append_left _ (mem_inRange.mp hf).1
        have hle := (sortedBy_append.mp hordered).2.2 e he f hmem
        exact ⟨f, List.mem_flatMap.mpr ⟨c, List.mem_cons_self, hf⟩, hlate.trans hle⟩
      · obtain ⟨hmem, hbefore⟩ := List.mem_filter.mp he
        obtain ⟨st, rfl, rfl⟩ := eq_status_of_late hmem hlate
        refine absurd ?_ hfound
        rw [inRange, List.filter_eq_nil_iff]
        intro f hf
        obtain rfl := List.mem_singleton.mp hf
        have hlt : st.ts < range.beg := of_decide_eq_true hbefore
        exact fun hle => absurd (of_decide_eq_true hle) (not_le.mpr hlt)
    · exact ⟨e, he, hlate⟩
  · rintro ⟨e, he, hlate⟩
    exact ⟨e, List.mem_append_right _ he, hlate⟩

/-- A seeking filter hands out an entry from behind the range exactly if it leaks. -/
theorem exists_late_sought (hordered : TimeOrdered (slot ++ entriesOf cs)) :
    (∃ e ∈ sought range slot cs, range.fin ≤ e.ts) ↔ SeekLeaks range slot cs := by
  induction cs generalizing slot with
  | nil =>
      have hno : ¬ Leaks range true ([] : List (ChannelEvents V)) := by
        rintro ⟨pre, st, post, hsplit, -⟩
        simp at hsplit
      rw [sought, SeekLeaks, or_iff_left hno, and_iff_left nofun]
  | cons c cs ih =>
      have hsplit := sortedBy_append.mp hordered
      rw [sought]
      simp only [List.isEmpty_iff]
      split_ifs with hempty hleft hnil
      · rw [seekLeaks_empty hempty, ih]
        simpa [hempty] using hordered
      · have hno : ¬ SeekLeaks range slot (c :: cs) := not_seekLeaks_high hempty hleft hsplit.2.1
        simpa using hno
      · rw [seekLeaks_hold hleft hnil, ih]
        -- what is held back is in order with what follows
        have htail := sortedBy_append.mp (entriesOf_cons c cs ▸ hsplit.2.1)
        refine sortedBy_append.mpr ⟨?_, htail.2.1, ?_⟩
        · cases (beforeEnd range.fin c).entries.getLast? with
          | none => exact sortedBy_nil
          | some e => exact List.pairwise_singleton _ _
        · intro e he
          have hmem := List.mem_of_getLast? (Option.mem_toList.mp he)
          exact htail.2.2 e (mem_entries_beforeEnd.mp hmem).1
      · rw [exists_late_found hnil hordered, exists_late_flatMap, seekLeaks_found hnil hordered]

/-! ## From before the range -/

/-- Not seeking, the filter hands out nothing from before the range. -/
theorem filter_before_flatMap : ((cs.flatMap (inRange range)).filter fun e => e.ts < range.beg) = [] := by
  rw [List.filter_eq_nil_iff]
  intro e he
  obtain ⟨c, hc, he⟩ := List.mem_flatMap.mp he
  simpa using (mem_inRange.mp he).2.2

/-- Seeking, it hands out at most one entry from before the range. -/
theorem length_filter_before_sought (hslot : slot.length ≤ 1) :
    ((sought range slot cs).filter fun e => e.ts < range.beg).length ≤ 1 := by
  induction cs generalizing slot with
  | nil => exact (List.length_filter_le _ _).trans hslot
  | cons c cs ih =>
      rw [sought]
      split_ifs
      · exact ih hslot
      · exact Nat.zero_le 1
      · exact ih Option.length_toList_le
      · rw [List.filter_append, filter_before_flatMap, List.append_nil]
        exact (List.length_filter_le _ _).trans Option.length_toList_le

end Leaks

/-! ## The requested range -/

/-- Nothing from behind the range, and at most one entry from before it. -/
structure KeepsWithin (range : NanoRange) (output : List (Sitemty (ChannelEvents V))) : Prop where
  before_end : ∀ e ∈ entriesOf (datas output), e.ts < range.fin
  one_before : ((entriesOf (datas output)).filter fun e => e.ts < range.beg).length ≤ 1

section Correct

/-- The fresh filter is sound with any ordered input. -/
theorem sound_new (inp : Script (Sitemty (ChannelEvents V))) (range : NanoRange) (oneBefore : Bool)
    {cs : List (ChannelEvents V)} (hordered : TimeOrdered (entriesOf cs)) : Sound (new inp range oneBefore) cs :=
  ⟨Nat.zero_le 1, fun _ => rfl, rfl, hordered, fun _ _ => Nat.zero_le _⟩

variable [DecidableEq κ] [∀ k, EventValueType (V k)]

/-- For every ordered input and every range, the filter ends, and hands out nothing from behind the range and at most
one entry from before it, exactly if no status leaks. -/
theorem keepsWithin_iff (inp : Script (Sitemty (ChannelEvents V))) (range : NanoRange) (oneBefore : Bool)
    (hordered : TimeOrdered (entriesOf (datas inp.items))) :
    ∃ output, Drains pollNext (new inp range oneBefore) output ∧
      (KeepsWithin range output ↔ ¬ Leaks range oneBefore (datas inp.items)) := by
  have hdrains : Drains pollNext (new inp range oneBefore) (outputs (new inp range oneBefore) inp) :=
    drains_outputs inp _ ⟨rfl, rfl, rfl, rfl⟩ rfl rfl
  have hentries := entries_outputs inp (sound_new inp range oneBefore hordered)
  have hlate : (∃ e ∈ entriesOf (datas (outputs (new inp range oneBefore) inp)), range.fin ≤ e.ts) ↔
      Leaks range oneBefore (datas inp.items) := by
    rw [hentries, handsOut]
    cases oneBefore with
    | false => exact exists_late_flatMap.trans leaks_false.symm
    | true =>
        have hsought : (∃ e ∈ sought range [] (datas inp.items), range.fin ≤ e.ts) ↔ _ := exists_late_sought hordered
        have hseek : SeekLeaks range [] (datas inp.items) ↔ Leaks range true (datas inp.items) := by
          simp [SeekLeaks]
        exact hsought.trans hseek
  have hbefore : ((entriesOf (datas (outputs (new inp range oneBefore) inp))).filter
      fun e => e.ts < range.beg).length ≤ 1 := by
    rw [hentries, handsOut]
    split_ifs
    · exact length_filter_before_sought (Nat.zero_le 1)
    · exact (congrArg List.length filter_before_flatMap).le.trans (Nat.zero_le 1)
  refine ⟨_, hdrains, ?_, ?_⟩
  · intro hkeeps hleaks
    obtain ⟨e, he, hfin⟩ := hlate.mpr hleaks
    exact absurd (hkeeps.before_end e he) (not_lt.mpr hfin)
  · intro hno
    refine ⟨fun e he => ?_, hbefore⟩
    by_contra hfin
    exact hno (hlate.mp ⟨e, he, not_lt.mp hfin⟩)

/-- The equivalence on an input with a status inside the range and an event before it. -/
theorem keepsWithin_iff_inside :
    ∃ output, Drains pollNext (new (T := ChannelEvents fun _ : Unit => UInt64)
        [.ready (sitemData (.events () { evs := [⟨5, 1⟩] })), .pending,
          .ready (sitemData (.status (some (.new 12 .connect))))] ⟨10, 20⟩ true) output ∧
      (KeepsWithin ⟨10, 20⟩ output ↔ ¬ Leaks (V := fun _ : Unit => UInt64) ⟨10, 20⟩ true
        [.events () { evs := [⟨5, 1⟩] }, .status (some (.new 12 .connect))]) :=
  keepsWithin_iff _ _ _ (by simp [SortedBy, ConnStatusEvent.new])

/-- A status at the range end is handed out. -/
theorem not_keepsWithin_status :
    TimeOrdered (entriesOf [(.status (some (.new 20 .connect)) : ChannelEvents fun _ : Unit => UInt64)]) ∧
      ∃ output, Drains pollNext (new (T := ChannelEvents fun _ : Unit => UInt64)
          [.ready (sitemData (.status (some (.new 20 .connect))))] ⟨10, 20⟩ false) output ∧
        ¬ KeepsWithin ⟨10, 20⟩ output := by
  refine ⟨by simp [SortedBy], [sitemData (.status (some (.new 20 .connect))),
    .ok (.stats (.rangeFilterStats { itemsAllPruneHigh := 1 }))], drive_drains 6 rfl, fun hkeeps => ?_⟩
  have hlt := hkeeps.before_end (.status (.new 20 .connect)) (by simp)
  exact absurd hlt (by decide)

end Correct

end RangeFilter2
end Streams
end Daqbuf
