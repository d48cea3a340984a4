import Daqbuf.Arith.Checked
import Daqbuf.Netpod.Range
import Daqbuf.Parse.Channelconfig
import Daqbuf.Search.Successors
/-!
# The Configuration for a Range

The choice of one entry of a channel configuration for a time range: the entries are sorted by their time, each is
paired with the time of the next one, the time that each is valid within the range is its weight, and the entry with
the largest weight is chosen.

Both sorts leave open how entries with the same key are ordered.  The weights are differences of unsigned numbers.

Main results:

- Theorem {lit}`weight_eq_some`: the weight, where there is one, is the overlap with the range.
- Theorem {lit}`extractMatchingConfigEntry_best_iff`: the chosen entry is the best one, except for certain ranges that
  end before they begin.
-/

namespace Daqbuf
namespace Parse

open Arith Netpod Search

/-! ## The choice -/

/-- {lit}`MatchingConfigEntry` -/
inductive MatchingConfigEntry where
  | none
  | single (e : ConfigEntry)
  | multiple (e : ConfigEntry)
  deriving DecidableEq

/-- {lit}`MatchingConfigEntry::best` -/
def MatchingConfigEntry.best : MatchingConfigEntry → Option ConfigEntry
  | .none => Option.none
  | .single e => some e
  | .multiple e => some e

/-- The time within the range of an entry with time {lit}`ts`, given the time of the next one.  There is none where a
difference would be negative. -/
def weight (range : NanoRange) (ts : ℕ) : Option ℕ → Option ℕ
  | some ts2 =>
      if ts < range.fin then
        let p := if ts < range.beg then range.beg else ts
        let q := if ts2 < range.beg then range.beg else if ts2 < range.fin then ts2 else range.fin
        checkedSub q p
      else some 0
  | none =>
      if ts < range.fin then
        if ts < range.beg then checkedSub range.fin range.beg
        else checkedSub range.fin ts
      else some 0

/-- The entries with their positions -/
def enumerate (entries : List ConfigEntry) : List (ℕ × ConfigEntry) := entries.zipIdx.map Prod.swap

/-- One entry with its position and the time of the next one becomes one with its weight. -/
def weigh (range : NanoRange) : (ℕ × ConfigEntry) × Option ℕ → Option (ℕ × ℕ × ConfigEntry)
  | ((i, e), tsn) => (weight range e.ts tsn).map fun dt => (i, dt, e)

/-- The entries with their weights, in the order of their times -/
def weighAll (sort : UnstableSort) (range : NanoRange) (entries : List ConfigEntry) :
    Option (List (ℕ × ℕ × ConfigEntry)) :=
  let a := sort.sortBy (fun x => x.2.ts) (enumerate entries)
  let b := withLast (fun x => x.2.ts) none a.reverse
  b.reverse.mapM (weigh range)

/-- The key of the second sort -/
def invertedWeight (x : ℕ × ℕ × ConfigEntry) : ℕ := 2 ^ 64 - 1 - x.2.1

/-- {lit}`extract_matching_config_entry`, without a result where a difference would be negative or a position is out
of bounds -/
def extractMatchingConfigEntry (sort : UnstableSort) (range : NanoRange) (channelConfig : ChannelConfigs) :
    Option MatchingConfigEntry := do
  let c ← weighAll sort range channelConfig.entries
  match (sort.sortBy invertedWeight c).head? with
  | some (i, _, _) => channelConfig.entries[i]?.map .single
  | none => some .none

/-! ## What it is for -/

/-- The time of the next later entry -/
def validUntil (entries : List ConfigEntry) (ts : ℕ) : Option ℕ :=
  ((entries.map ConfigEntry.ts).filter (ts < ·)).min?

/-- How much of the time from {lit}`ts` on, and up to another time if there is one, lies in the range -/
def overlap (range : NanoRange) (ts : ℕ) (tsn : Option ℕ) : ℕ :=
  tsn.elim range.fin (min range.fin) - max range.beg ts

/-- How long an entry is valid in the range -/
def validWithin (range : NanoRange) (entries : List ConfigEntry) (e : ConfigEntry) : ℕ :=
  overlap range e.ts (validUntil entries e.ts)

/-- There is a result.  It is none for a configuration without entries, and otherwise an entry that is valid in the
range at least as long as every other one. -/
def ExtractsBest (sort : UnstableSort) (range : NanoRange) (channelConfig : ChannelConfigs) : Prop :=
  ∃ res, extractMatchingConfigEntry sort range channelConfig = some res ∧
    (res = .none ↔ channelConfig.entries = []) ∧
    ∀ e ∈ res.best, e ∈ channelConfig.entries ∧
      ∀ e' ∈ channelConfig.entries,
        validWithin range channelConfig.entries e' ≤ validWithin range channelConfig.entries e

/-- The range ends before it begins, some entry is from before its end, and none is from its end on but before its
beginning. -/
def Underflows (range : NanoRange) (entries : List ConfigEntry) : Prop :=
  range.fin < range.beg ∧ (∃ e ∈ entries, e.ts < range.fin) ∧ ∀ e ∈ entries, e.ts < range.fin ∨ range.beg ≤ e.ts

instance (range : NanoRange) (entries : List ConfigEntry) : Decidable (Underflows range entries) :=
  inferInstanceAs (Decidable (_ ∧ _ ∧ _))

/-! ## Weights -/

section Weights

variable {range : NanoRange} {entries : List ConfigEntry} {e : ConfigEntry} {ts k dt : ℕ} {tsn n : Option ℕ}

/-- The next later time is the least of the later ones. -/
theorem isNext_validUntil (entries : List ConfigEntry) (ts : ℕ) :
    IsNext ConfigEntry.ts entries ts (validUntil entries ts) := by
  cases h : validUntil entries ts with
  | none =>
      intro e he
      have hnil := List.min?_eq_none_iff.mp h
      have hts := List.filter_eq_nil_iff.mp hnil e.ts (List.mem_map_of_mem he)
      simpa using hts
  | some n =>
      obtain ⟨hmem, hmin⟩ := List.min?_eq_some_iff.mp h
      obtain ⟨hmem, hlt⟩ := List.mem_filter.mp hmem
      refine ⟨of_decide_eq_true hlt, List.mem_map.mp hmem, ?_⟩
      intro e he
      by_cases hle : e.ts ≤ ts
      · exact .inl hle
      · have hlater : decide (ts < e.ts) = true := decide_eq_true (not_le.mp hle)
        exact .inr (hmin e.ts (List.mem_filter.mpr ⟨List.mem_map_of_mem he, hlater⟩))

/-- Nothing between a time and itself lies in the range. -/
@[simp]
theorem overlap_self (range : NanoRange) (ts : ℕ) : overlap range ts (some ts) = 0 := by
  simp only [overlap, Option.elim_some]
  omega

theorem overlap_le (range : NanoRange) (ts : ℕ) (tsn : Option ℕ) : overlap range ts tsn ≤ range.fin := by
  cases tsn with
  | none => exact Nat.sub_le _ _
  | some ts2 => exact (Nat.sub_le _ _).trans (min_le_left _ _)

/-- The weight of an entry is its overlap with the range, unless the range ends before it begins and the entry is valid
in all of the time between. -/
theorem weight_eq_some (hle : ∀ ts2 ∈ tsn, ts ≤ ts2) :
    weight range ts tsn = some dt ↔
      ¬ (range.fin < range.beg ∧ ts < range.fin ∧ ∀ ts2 ∈ tsn, range.beg ≤ ts2) ∧ overlap range ts tsn = dt := by
  cases tsn with
  | none =>
      simp only [weight, overlap, Option.elim_none, Option.mem_def, reduceCtorEq, false_implies, implies_true, and_true]
      split_ifs
      all_goals simp only [checkedSub_eq_some, Option.some.injEq]
      all_goals omega
  | some ts2 =>
      have hts := hle ts2 rfl
      simp only [weight, overlap, Option.elim_some, Option.mem_def, Option.some.injEq, forall_eq']
      split_ifs
      all_goals simp only [checkedSub_eq_some, Option.some.injEq]
      all_goals omega

end Weights

/-! ## The entries in order -/

section Choice

variable {sort : UnstableSort} {range : NanoRange} {entries : List ConfigEntry} {e : ConfigEntry} {i : ℕ}
  {n : Option ℕ} {x : (ℕ × ConfigEntry) × Option ℕ} {z : ℕ × ℕ × ConfigEntry}

theorem mem_enumerate : (i, e) ∈ enumerate entries ↔ entries[i]? = some e := by
  simp [enumerate, List.mem_zipIdx_iff_getElem?]

/-- The entries with their positions, ordered by their times -/
def ordered (sort : UnstableSort) (entries : List ConfigEntry) : List (ℕ × ConfigEntry) :=
  sort.sortBy (fun x => x.2.ts) (enumerate entries)

/-- The entries with the times of the next ones -/
def neighbours (sort : UnstableSort) (entries : List ConfigEntry) : List ((ℕ × ConfigEntry) × Option ℕ) :=
  withNext (fun x => x.2.ts) (ordered sort entries)

theorem sortedBy_ordered (sort : UnstableSort) (entries : List ConfigEntry) :
    SortedBy (fun x => x.2.ts) (ordered sort entries) :=
  sort.sorted _ _

theorem mem_ordered : (i, e) ∈ ordered sort entries ↔ entries[i]? = some e :=
  (sort.perm _ _).mem_iff.trans mem_enumerate

/-- The times in order are those of the configuration. -/
theorem isNext_ordered {ts : ℕ} (h : IsNext (fun x : ℕ × ConfigEntry => x.2.ts) (ordered sort entries) ts n) :
    validUntil entries ts = n := by
  refine (isNext_validUntil entries ts).unique (h.of_keys ?_ ?_)
  · intro k hk
    obtain ⟨⟨i, e⟩, hmem, rfl⟩ := List.mem_map.mp hk
    exact List.mem_map_of_mem (List.mem_of_getElem? (mem_ordered.mp hmem))
  · intro k hk
    obtain ⟨e, hmem, rfl⟩ := List.mem_map.mp hk
    obtain ⟨i, hi⟩ := List.mem_iff_getElem?.mp hmem
    exact List.mem_map.mpr ⟨(i, e), mem_ordered.mpr hi, rfl⟩

theorem weighAll_eq : weighAll sort range entries = (neighbours sort entries).mapM (weigh range) := by
  rw [weighAll, reverse_withLast_reverse]
  rfl

/-- What an entry meets in the order is the same time, or the next later one. -/
theorem neighbours_cases (h : ((i, e), n) ∈ neighbours sort entries) : n = some e.ts ∨ validUntil entries e.ts = n :=
  (withNext_cases (sortedBy_ordered sort entries) h).imp id isNext_ordered

theorem getElem?_of_mem_neighbours (h : ((i, e), n) ∈ neighbours sort entries) : entries[i]? = some e :=
  mem_ordered.mp (mem_of_mem_withNext h)

/-- The next later time is met by one of the entries with the same time. -/
theorem exists_mem_neighbours (sort : UnstableSort) (he : e ∈ entries) :
    ∃ i e', ((i, e'), validUntil entries e.ts) ∈ neighbours sort entries ∧ e'.ts = e.ts := by
  obtain ⟨i, hi⟩ := List.mem_iff_getElem?.mp he
  obtain ⟨⟨j, e'⟩, n, hmem, hts, hnext⟩ :=
    exists_isNext (sortedBy_ordered sort entries) (mem_ordered.mpr hi)
  rw [isNext_ordered hnext]
  exact ⟨j, e', hmem, hts⟩

/-- A next later time is later. -/
theorem lt_of_validUntil {ts ts2 : ℕ} (h : ts2 ∈ validUntil entries ts) : ts < ts2 := by
  have hnext := isNext_validUntil entries ts
  rw [Option.mem_def.mp h] at hnext
  exact hnext.1

theorem le_of_mem_neighbours (h : ((i, e), n) ∈ neighbours sort entries) : ∀ ts2 ∈ n, e.ts ≤ ts2 := by
  intro ts2 hts2
  obtain rfl | rfl := neighbours_cases h
  · exact (Option.some.inj hts2).le
  · exact (lt_of_validUntil hts2).le

/-! ## When there are weights -/

/-- An entry that has no weight makes the whole range one without weights. -/
theorem underflows_of_weight (h : ((i, e), n) ∈ neighbours sort entries) (hinv : range.fin < range.beg)
    (hlt : e.ts < range.fin) (hn : ∀ ts2 ∈ n, range.beg ≤ ts2) : Underflows range entries := by
  refine ⟨hinv, ⟨e, List.mem_of_getElem? (getElem?_of_mem_neighbours h), hlt⟩, ?_⟩
  intro e' he'
  obtain rfl | rfl := neighbours_cases h
  · have hle := hn e.ts rfl
    omega
  · have hnext := isNext_validUntil entries e.ts
    cases hvalid : validUntil entries e.ts with
    | none =>
        rw [hvalid] at hnext
        exact .inl ((hnext e' he').trans_lt hlt)
    | some ts2 =>
        rw [hvalid] at hnext
        have hle := hn ts2 hvalid
        exact (hnext.2.2 e' he').imp (fun h => h.trans_lt hlt) hle.trans

/-- The latest entry from before the end of such a range has no weight. -/
theorem exists_weight_eq_none (sort : UnstableSort) (h : Underflows range entries) :
    ∃ x ∈ neighbours sort entries, weigh range x = none := by
  obtain ⟨hinv, ⟨e, he, hlt⟩, hall⟩ := h
  obtain ⟨m, hm, hmax⟩ := (entries.toFinset.filter fun e => e.ts < range.fin).exists_max_image ConfigEntry.ts
    ⟨e, by simp [he, hlt]⟩
  obtain ⟨hmem, hmlt⟩ := Finset.mem_filter.mp hm
  obtain ⟨i, e', hneigh, hts⟩ := exists_mem_neighbours sort (List.mem_toFinset.mp hmem)
  refine ⟨_, hneigh, ?_⟩
  have hbeg : ∀ ts2 ∈ validUntil entries m.ts, range.beg ≤ ts2 := by
    intro ts2 hts2
    have hnext := isNext_validUntil entries m.ts
    rw [Option.mem_def.mp hts2] at hnext
    obtain ⟨hlater, ⟨w, hw, rfl⟩, -⟩ := hnext
    refine (hall w hw).resolve_left fun hwlt => ?_
    have hle := hmax w (Finset.mem_filter.mpr ⟨List.mem_toFinset.mpr hw, hwlt⟩)
    omega
  have hnone : weight range e'.ts (validUntil entries m.ts) = none := by
    rw [Option.eq_none_iff_forall_not_mem]
    intro dt hdt
    have hweight := (weight_eq_some (le_of_mem_neighbours hneigh)).mp hdt
    exact hweight.1 ⟨hinv, hts ▸ hmlt, hbeg⟩
  rw [weigh, hnone, Option.map_none]

/-- An entry with its overlap with the range -/
def overlapped (range : NanoRange) : (ℕ × ConfigEntry) × Option ℕ → ℕ × ℕ × ConfigEntry
  | ((i, e), tsn) => (i, overlap range e.ts tsn, e)

/-- Otherwise the weights are the overlaps. -/
theorem weigh_eq (hno : ¬ Underflows range entries) (hx : x ∈ neighbours sort entries) :
    weigh range x = some (overlapped range x) := by
  obtain ⟨⟨i, e⟩, n⟩ := x
  have hweight : weight range e.ts n = some (overlap range e.ts n) := by
    rw [weight_eq_some (le_of_mem_neighbours hx)]
    exact ⟨fun ⟨hinv, hlt, hn⟩ => hno (underflows_of_weight hx hinv hlt hn), rfl⟩
  rw [weigh, hweight]
  rfl

/-- There are weights unless the range is one without them. -/
theorem weighAll_of_not_underflows (hno : ¬ Underflows range entries) :
    weighAll sort range entries = some ((neighbours sort entries).map (overlapped range)) := by
  rw [weighAll_eq, mapM_of_forall fun x hx => weigh_eq hno hx]

theorem weighAll_of_underflows (h : Underflows range entries) : weighAll sort range entries = none := by
  obtain ⟨x, hx, hnone⟩ := exists_weight_eq_none sort h
  rw [weighAll_eq]
  exact mapM_eq_none hx hnone

/-! ## The largest weight -/

/-- The entries with their overlaps -/
def weighed (sort : UnstableSort) (range : NanoRange) (entries : List ConfigEntry) : List (ℕ × ℕ × ConfigEntry) :=
  (neighbours sort entries).map (overlapped range)

/-- A weight is not more than the entry is valid in the range, and with no entry of the same time behind it just as
much. -/
theorem of_mem_weighed (hz : z ∈ weighed sort range entries) :
    entries[z.1]? = some z.2.2 ∧ z.2.1 ≤ validWithin range entries z.2.2 := by
  obtain ⟨⟨⟨i, e⟩, n⟩, hmem, rfl⟩ := List.mem_map.mp hz
  refine ⟨getElem?_of_mem_neighbours hmem, ?_⟩
  obtain rfl | rfl := neighbours_cases hmem
  · exact (overlap_self range e.ts).trans_le (Nat.zero_le _)
  · exact le_rfl

theorem exists_mem_weighed (sort : UnstableSort) (range : NanoRange) (he : e ∈ entries) :
    ∃ z ∈ weighed sort range entries, z.2.1 = validWithin range entries e := by
  obtain ⟨i, e', hmem, hts⟩ := exists_mem_neighbours sort he
  refine ⟨_, List.mem_map_of_mem hmem, ?_⟩
  rw [validWithin, ← hts]
  rfl

theorem le_fin_of_mem_weighed (hz : z ∈ weighed sort range entries) : z.2.1 ≤ range.fin := by
  obtain ⟨⟨⟨i, e⟩, n⟩, hmem, rfl⟩ := List.mem_map.mp hz
  exact overlap_le range e.ts n

/-- The first one in the order of the inverted weights has the largest weight. -/
theorem head_largest (hfin : range.fin < 2 ^ 64)
    (hhead : (sort.sortBy invertedWeight (weighed sort range entries)).head? = some z) :
    z ∈ weighed sort range entries ∧ ∀ w ∈ weighed sort range entries, w.2.1 ≤ z.2.1 := by
  have hperm := sort.perm invertedWeight (weighed sort range entries)
  have hz : z ∈ weighed sort range entries := hperm.mem_iff.mp (List.mem_of_mem_head? hhead)
  refine ⟨hz, ?_⟩
  intro w hw
  have hle := (sort.sorted _ _).le_of_head? hhead (hperm.mem_iff.mpr hw)
  have hwfin := le_fin_of_mem_weighed hw
  rw [invertedWeight, invertedWeight] at hle
  omega

/-- There is a first one if there are entries. -/
theorem eq_nil_of_head (hhead : (sort.sortBy invertedWeight (weighed sort range entries)).head? = none) :
    entries = [] := by
  rw [List.head?_eq_none_iff] at hhead
  have hnil : weighed sort range entries = [] := by
    rw [← List.length_eq_zero_iff, ← (sort.perm invertedWeight _).length_eq, hhead, List.length_nil]
  rw [List.eq_nil_iff_forall_not_mem]
  intro e he
  obtain ⟨w, hw, -⟩ := exists_mem_weighed sort range he
  rw [hnil] at hw
  cases hw

/-- Where there are weights, the best entry is chosen. -/
theorem extractsBest_of_not_underflows {channelConfig : ChannelConfigs} (hfin : range.fin < 2 ^ 64)
    (hno : ¬ Underflows range channelConfig.entries) : ExtractsBest sort range channelConfig := by
  have hc : weighAll sort range channelConfig.entries = some (weighed sort range channelConfig.entries) :=
    weighAll_of_not_underflows hno
  unfold ExtractsBest extractMatchingConfigEntry
  simp only [hc, Option.bind_eq_bind, Option.bind_some]
  cases hhead : (sort.sortBy invertedWeight (weighed sort range channelConfig.entries)).head? with
  | none =>
      have hnil := eq_nil_of_head hhead
      exact ⟨.none, rfl, ⟨fun _ => hnil, fun _ => rfl⟩, fun e he => absurd he (Option.not_mem_none e)⟩
  | some z =>
      obtain ⟨hz, hmax⟩ := head_largest hfin hhead
      obtain ⟨hget, hle⟩ := of_mem_weighed hz
      have hmem : z.2.2 ∈ channelConfig.entries := List.mem_of_getElem? hget
      refine ⟨.single z.2.2, ?_, ?_, ?_⟩
      · simp only [hget, Option.map_some]
      · simpa using List.ne_nil_of_mem hmem
      · intro e he
        obtain rfl := Option.some.inj he
        refine ⟨hmem, ?_⟩
        intro e' he'
        obtain ⟨w, hw, heq⟩ := exists_mem_weighed sort range he'
        calc validWithin range channelConfig.entries e'
          _ = w.2.1 := heq.symm
          _ ≤ z.2.1 := hmax w hw
          _ ≤ validWithin range channelConfig.entries z.2.2 := hle

/-- Where there are none, there is no result. -/
theorem not_extractsBest_of_underflows {channelConfig : ChannelConfigs}
    (h : Underflows range channelConfig.entries) : ¬ ExtractsBest sort range channelConfig := by
  rintro ⟨res, hres, -⟩
  rw [extractMatchingConfigEntry, weighAll_of_underflows h] at hres
  cases hres

end Choice

/-- For every configuration and every range: the best entry is chosen, exactly if the range is not one that ends before
it begins with an entry from before its end and none from the time between. -/
theorem extractMatchingConfigEntry_best_iff (sort : UnstableSort) (range : NanoRange) (channelConfig : ChannelConfigs)
    (hfin : range.fin < 2 ^ 64) :
    ExtractsBest sort range channelConfig ↔ ¬ Underflows range channelConfig.entries :=
  ⟨fun h hunder => not_extractsBest_of_underflows hunder h, extractsBest_of_not_underflows hfin⟩

/-- An entry of which only the time matters -/
def entryAt (ts : ℕ) : ConfigEntry where
  ts := ts
  pulse := 0
  ks := 2
  bs := 86400000000000
  splitCount := 1
  status := 0
  bb := 0
  modulo := 1
  offset := 0
  precision := 0
  scalarType := .f64
  isCompressed := false
  isShaped := false
  isArray := false
  byteOrder := .big
  compressionMethod := none
  shape := none
  sourceName := none
  unit := none
  description := none
  optionalFields := none
  valueConverter := none

/-- Of three entries, in no order and two of them with the same time, one that is valid in the middle of the range -/
theorem extractMatchingConfigEntry_best_three :
    (20 < 2 ^ 64) ∧ (ExtractsBest .stable ⟨10, 20⟩ ⟨0, "", [entryAt 12, entryAt 5, entryAt 12]⟩ ↔
      ¬ Underflows ⟨10, 20⟩ [entryAt 12, entryAt 5, entryAt 12]) :=
  ⟨by norm_num, extractMatchingConfigEntry_best_iff .stable ⟨10, 20⟩ ⟨0, "", [entryAt 12, entryAt 5, entryAt 12]⟩
    (by norm_num)⟩

/-- A range from ten to five, with an entry from time one -/
theorem not_extractsBest : ¬ ∀ sort range channelConfig, ExtractsBest sort range channelConfig := by
  intro h
  have hunder : Underflows ⟨10, 5⟩ [entryAt 1] := by decide
  exact not_extractsBest_of_underflows hunder (h .stable ⟨10, 5⟩ ⟨0, "", [entryAt 1]⟩)

end Parse
end Daqbuf
