import Daqbuf.Items.ChannelEvents
import Daqbuf.Scylla.LspMergeItems
import Daqbuf.Scylla.OneBeforeAndBulk
import Daqbuf.Streams.Diagnostics
/-!
# Reading the Events of a Series

The events of a series are spread over the keyspaces of several clusters, and some are in more than one of them.
{lit}`cl_ks_merged` merges the streams of the keyspaces, drops repeated timestamps and hands out channel events.  The
command {lit}`LspMergeAll` of the server checks the order besides, splits the stream at the begin of the requested
range, and filters the log items.

Main results:

- Theorem {lit}`clKsMerged_delivers`: the events handed out increase strictly, and are one for each timestamp of the
  keyspaces.
- Theorem {lit}`lspMergeAll_delivers`: of the events before the range only the last one is handed out, and from its
  begin on one for each timestamp.
-/

namespace Daqbuf
namespace Scylla

open Items Poll Search Streams
open Items.ContainerEvents (eventsOf keepUnique)

/-! ## The events of the keyspaces -/

section Inputs

variable {V E : Type*}

/-- The events of all inputs -/
def allEvents (inps : List (Script (Sitemty2 (ContainerEvents V) E))) : List (EventSingle V) :=
  inps.flatMap fun inp => eventsOf (datas2 (Script.items inp))

/-- The errors of all inputs -/
def allErrors (inps : List (Script (Sitemty2 (ContainerEvents V) E))) : List E :=
  inps.flatMap fun inp => errors2 (Script.items inp)

/-- The polls that one call of the merge can need -/
def pollsBound (inps : List (Script (Sitemty2 (ContainerEvents V) E))) : ℕ :=
  (inps.map fun inp => emptyRun (datas2 (Script.items inp)) + 1).sum

/-- The events of every input are in order, and a merge with the limit can not fail. -/
structure Mergeable (inps : List (Script (Sitemty2 (ContainerEvents V) E))) (limit : ℕ) : Prop where
  sorted : ∀ inp ∈ inps, TsSorted (eventsOf (datas2 (Script.items inp)))
  noError : allErrors inps = []
  pos : 0 < limit
  rounds : limit ≤ 140000
  polls : pollsBound inps < 200

/-- What a merge that does not fail hands out -/
structure MergedAll [EventValueType V] (inps : List (Script (Sitemty2 (ContainerEvents V) E))) (limit : ℕ)
    (xs : List (Sitemty2 (ContainerEvents V) (LspMerge.Error E))) : Prop where
  drains : Drains LspMerge.pollNext (LspMerge.new inps limit) xs
  noError : errors2 xs = []
  sorted : TsSorted (eventsOf (datas2 xs))
  perm : (eventsOf (datas2 xs)).Perm (allEvents inps)
  len : ∀ c ∈ datas2 xs, c.len ≤ limit

/-- A merge that can not fail hands out all events in order. -/
theorem Mergeable.merged [EventValueType V] {inps : List (Script (Sitemty2 (ContainerEvents V) E))} {limit : ℕ}
    (hmergeable : Mergeable inps limit) : ∃ xs, MergedAll inps limit xs := by
  obtain ⟨xs, hdrains, hmerges⟩ :=
    LspMerge.drains_of_runItems (LspMerge.runItems_new hmergeable.pos hmergeable.sorted)
  obtain ⟨hnoError, hsorted, hchunks, hperm, _⟩ | ⟨zs, e, _, _, hfails⟩ := hmerges
  · exact ⟨xs, hdrains, hnoError, hsorted, hperm, fun c hc => (hchunks c hc).2⟩
  · have hrounds := hmergeable.rounds
    have hpolls := hmergeable.polls
    cases hfails with
    | tooMany hmany =>
        rcases hmany with hmany | hmany
        · omega
        · exact absurd hmany (Nat.not_le.mpr hpolls)
    | input hmem =>
        have hnone := hmergeable.noError
        rw [allErrors] at hnone
        rw [hnone] at hmem
        cases hmem

end Inputs

/-! ## Merging the keyspaces -/

section ClKsMerged

variable {κ : Type*} {V : κ → Type*} {E : Type*} (showError : LspMerge.Error E → String) (k : κ)

/-- The last stage of {lit}`cl_ks_merged`.  How an error of the merge is displayed is a parameter. -/
def toChannelEvents : Sitemty2 (ContainerEvents (V k)) (LspMerge.Error E) → Sitemty (ChannelEvents V)
  | .ok (.dataItem (.data x)) => sitemData (.events k x)
  | .ok (.dataItem .rangeComplete) => sitemRangeComplete
  | .ok (.log x) => .ok (.log x)
  | .ok (.stats x) => .ok (.stats x)
  | .error e => sitemErrFromString (showError e)

/-- {lit}`LSP_LIMIT_DEF` -/
def lspLimitDef : ℕ := 800

variable [EventValueType (V k)]

/-- The state of the stream that {lit}`cl_ks_merged` returns -/
abbrev ClKsState (T E : Type*) := (LspMerge T E × ℕ) × Unit

/-- The stream that {lit}`cl_ks_merged` returns, over the streams of the keyspaces -/
def clKsMerged (inps : List (Script (Sitemty2 (ContainerEvents (V k)) E))) : ClKsState (ContainerEvents (V k)) E :=
  ((LspMerge.new inps lspLimitDef, Dedup.new), ())

/-- {lit}`poll_next` of this stream -/
def clKsNext : ClKsState (ContainerEvents (V k)) E →
    Pass (ClKsState (ContainerEvents (V k)) E) (Sitemty (ChannelEvents V)) :=
  (mapped (toChannelEvents showError k)).pass (Dedup.stage.pass LspMerge.pollNext)

omit [EventValueType (V k)] in
/-- The batches become batches of channel events. -/
theorem datas_toChannelEvents (xs : List (Sitemty2 (ContainerEvents (V k)) (LspMerge.Error E))) :
    datas (xs.map (toChannelEvents showError k)) = (datas2 xs).map (.events k) := by
  induction xs with
  | nil => rfl
  | cons x xs ih =>
      rw [List.map_cons, datas_cons, datas2_cons, ih]
      cases x with
      | error e => rfl
      | ok x =>
          cases x with
          | dataItem d => cases d <;> rfl
          | log l => rfl
          | stats t => rfl

omit [EventValueType (V k)] in
/-- The errors become texts. -/
theorem errors_toChannelEvents (xs : List (Sitemty2 (ContainerEvents (V k)) (LspMerge.Error E))) :
    errors (xs.map (toChannelEvents showError k)) = (errors2 xs).map fun e => .fromString (showError e) := by
  induction xs with
  | nil => rfl
  | cons x xs ih =>
      rw [List.map_cons, errors_cons, errors2_cons, ih]
      cases x with
      | error e => rfl
      | ok x =>
          cases x with
          | dataItem d => cases d <;> rfl
          | log l => rfl
          | stats t => rfl

/-- The stream of {lit}`cl_ks_merged` ends without an error.  Its events increase strictly; they are events of the
keyspaces, and every timestamp of the keyspaces from 1 on has one. -/
theorem clKsMerged_delivers {inps : List (Script (Sitemty2 (ContainerEvents (V k)) E))}
    (hmergeable : Mergeable inps lspLimitDef) :
    ∃ (ys : List (Sitemty (ChannelEvents V))) (cs : List (ContainerEvents (V k))),
      Drains (clKsNext showError k) (clKsMerged k inps) ys ∧ errors ys = [] ∧ datas ys = cs.map (.events k) ∧
      TsStrict (eventsOf cs) ∧ (∀ ev ∈ eventsOf cs, ev ∈ allEvents inps) ∧
      ∀ ev ∈ allEvents inps, 0 < ev.ts → ∃ ev' ∈ eventsOf cs, ev'.ts = ev.ts := by
  obtain ⟨xs, hmerged⟩ := hmergeable.merged
  have hdedup := drains_scan (f := Dedup.onItem) (a := Dedup.new) hmerged.drains
  refine ⟨_, datas2 (scanItems Dedup.onItem Dedup.new xs), drains_mapped hdedup, ?_, ?_, ?_, ?_, ?_⟩
  · rw [errors_toChannelEvents, (shapes_eq Dedup.shapes_scan).1, hmerged.noError]
    rfl
  · exact datas_toChannelEvents showError k _
  · rw [Dedup.events_scan]
    exact ContainerEvents.keepUnique_strict
  · intro ev hev
    rw [Dedup.events_scan] at hev
    exact hmerged.perm.subset ((ContainerEvents.keepUnique_sublist _ _).subset hev)
  · intro ev hev hpos
    rw [Dedup.events_scan]
    exact ContainerEvents.exists_keepUnique hmerged.sorted (hmerged.perm.symm.subset hev) hpos

end ClKsMerged

/-- One event of two keyspaces -/
theorem clKsMerged_shared :
    ∃ (ys : List (Sitemty (ChannelEvents fun _ : Unit => UInt8))) (cs : List (ContainerEvents UInt8)),
      Drains (clKsNext (fun _ : LspMerge.Error String => "") ()) (clKsMerged ()
        [[.ready (sitem2Data { evs := [⟨1, 5⟩, ⟨3, 6⟩] }), .ready (.ok (.stats .warnings))],
          [.pending, .ready (sitem2Data { evs := [⟨3, 6⟩, ⟨4, 7⟩] })]]) ys ∧
      errors ys = [] ∧ datas ys = cs.map (ChannelEvents.events (V := fun _ => UInt8) ()) ∧ TsStrict (eventsOf cs) ∧
      (∀ ev ∈ eventsOf cs, ev ∈ [(⟨1, 5⟩ : EventSingle UInt8), ⟨3, 6⟩, ⟨3, 6⟩, ⟨4, 7⟩]) ∧
      ∀ ev ∈ [(⟨1, 5⟩ : EventSingle UInt8), ⟨3, 6⟩, ⟨3, 6⟩, ⟨4, 7⟩], 0 < ev.ts → ∃ ev' ∈ eventsOf cs, ev'.ts = ev.ts :=
  clKsMerged_delivers (V := fun _ => UInt8) (fun _ => "") ()
    ⟨by simp [SortedBy], rfl, by decide, by decide, by decide⟩

/-! ## The command -/

/-- {lit}`LspMergeAllCmd`, as far as the stream behind the keyspaces needs it -/
structure LspMergeAllCmd where
  oneBefore : Option Bool
  lspLimit : Option ℕ
  dedup : Option String
  level : Option String

namespace LspMergeAllCmd

/-- {lit}`one_before` -/
def wantsBefore (cmd : LspMergeAllCmd) : Bool := cmd.oneBefore.getD true

/-- The limit of the merge; the default is {lit}`LSP_LIMIT_DEF` of the commands. -/
def limit (cmd : LspMergeAllCmd) : ℕ := cmd.lspLimit.getD 73

/-- Whether repeated timestamps are dropped -/
def dedups (cmd : LspMergeAllCmd) : Bool := cmd.dedup.elim true fun x => x == "1"

/-- The level of the log items; how a level is parsed is a parameter. -/
def logLevel (cmd : LspMergeAllCmd) (parseLevel : String → Option Level) : Level :=
  (cmd.level.bind parseLevel).getD .error

end LspMergeAllCmd

/-- The batch of an output -/
def Output.value {T : Type*} : Output T → T
  | .before x => x
  | .bulk x => x

/-- The two outputs are one stream of batches. -/
def joinOutput {T E : Type*} : Sitemty2 (Output T) E → Sitemty2 T E := onSitemtyData fun x => sitem2Data x.value

/-- How the stream displays what it writes into log items, and parses the level -/
structure Texts where
  showTs : ℕ → String
  showRes : List ℕ → String → String
  parseLevel : String → Option Level

section LspMergeAll

variable {V E : Type*}

/-- The error of the whole stream -/
abbrev CmdError (E : Type*) := OneBeforeAndBulk.Error (LspMerge.Error E)

/-- The stream behind the check of the order -/
abbrev CheckedState (V E : Type*) :=
  (LspMerge (ContainerEvents V) E × WithLenHisto) × CheckMonotonic (ContainerEvents V) (LspMerge.Error E)

/-- The stream behind the split at the begin of the range -/
abbrev SplitState (V E : Type*) :=
  (CheckedState V E × OneBeforeAndBulk (ContainerEvents V) (LspMerge.Error E)) × Unit

/-- The whole stream -/
abbrev LspMergeAllState (V E : Type*) := (SplitState V E × ℕ) × Unit

variable [EventValueType V] (texts : Texts) (cmd : LspMergeAllCmd)

/-- {lit}`poll_next` behind the check of the order -/
def checkedNext : CheckedState V E → Pass (CheckedState V E) (Sitemty2 (ContainerEvents V) (LspMerge.Error E)) :=
  (CheckMonotonic.stage texts.showTs).pass ((WithLenHisto.stage texts.showRes).pass LspMerge.pollNext)

/-- {lit}`poll_next` behind the split -/
def splitNext : SplitState V E → Pass (SplitState V E) (Sitemty2 (ContainerEvents V) (CmdError E)) :=
  (mapped joinOutput).pass (OneBeforeAndBulk.stage.pass (checkedNext texts))

/-- {lit}`Dedup`, where it is asked for -/
def dedupItem (on : Bool) (tsmin : ℕ) (x : Sitemty2 (ContainerEvents V) E) : Sitemty2 (ContainerEvents V) E × ℕ :=
  if on then Dedup.onItem tsmin x else (x, tsmin)

/-- {lit}`poll_next` of the stream of the command -/
def lspMergeAllNext : LspMergeAllState V E →
    Pass (LspMergeAllState V E) (Sitemty2 (ContainerEvents V) (CmdError E)) :=
  (LogFilter.stage (cmd.logLevel texts.parseLevel)).pass ((scan (dedupItem cmd.dedups)).pass (splitNext texts))

/-- The stream of the command, for a range that begins at {lit}`beg` -/
def lspMergeAll (beg : ℕ) (inps : List (Script (Sitemty2 (ContainerEvents V) E))) : LspMergeAllState V E :=
  ((((((LspMerge.new inps cmd.limit, WithLenHisto.new "after-LspMerge"), CheckMonotonic.new "after-LspMerge"),
    OneBeforeAndBulk.new beg cmd.wantsBefore), ()), Dedup.new), ())

/-- What a reader gets of the events of the keyspaces -/
structure Delivered (beg : ℕ) (wantsBefore dedups : Bool) (all evs : List (EventSingle V)) : Prop where
  sorted : TsSorted evs
  strict : dedups = true → TsStrict evs
  sound : ∀ ev ∈ evs, ev ∈ all
  /-- nothing from the begin on is lost -/
  complete : ∀ ev ∈ all, beg ≤ ev.ts → 0 < ev.ts → ∃ ev' ∈ evs, ev'.ts = ev.ts
  exactly : dedups = false → (evs.filter fun ev => beg ≤ ev.ts).Perm (all.filter fun ev => beg ≤ ev.ts)
  /-- before the begin there is the latest event at most -/
  atMostOne : (evs.filter fun ev => ev.ts < beg).length ≤ 1
  latest : ∀ ev ∈ evs, ev.ts < beg → wantsBefore = true ∧ ∀ ev' ∈ all, ev'.ts < beg → ev'.ts ≤ ev.ts
  before : wantsBefore = true → ∀ ev ∈ all, ev.ts < beg → 0 < ev.ts → ∃ ev' ∈ evs, ev'.ts < beg

/-! ## What the stages do to the events -/

omit [EventValueType V] in
/-- The events that the split keeps are some of an ordered sequence. -/
theorem split_sublist {evs : List (EventSingle V)} (hsorted : TsSorted evs) (beg : ℕ) (wantsBefore : Bool) :
    (OneBeforeAndBulk.latestBefore wantsBefore beg evs ++ evs.filter fun ev => beg ≤ ev.ts).Sublist evs := by
  have hcut := cut_of_sorted hsorted beg
  have hlatest : (OneBeforeAndBulk.latestBefore wantsBefore beg evs).Sublist
      (evs.filter fun ev => decide (ev.ts < beg)) := by
    rw [OneBeforeAndBulk.latestBefore]
    split_ifs
    · cases hlast : (evs.filter fun ev => decide (ev.ts < beg)).getLast? with
      | none => exact List.nil_sublist _
      | some ev => exact List.singleton_sublist.mpr (List.mem_of_getLast? hlast)
    · exact List.nil_sublist _
  exact (hlatest.append (List.Sublist.refl _)).trans (by rw [hcut])

omit [EventValueType V] in
/-- The latest event before the begin is before it, was asked for, and is the latest. -/
theorem mem_latestBefore {evs : List (EventSingle V)} (hsorted : TsSorted evs) {beg : ℕ} {wantsBefore : Bool}
    {ev : EventSingle V} (hev : ev ∈ OneBeforeAndBulk.latestBefore wantsBefore beg evs) :
    wantsBefore = true ∧ ev.ts < beg ∧ ∀ ev' ∈ evs, ev'.ts < beg → ev'.ts ≤ ev.ts := by
  rw [OneBeforeAndBulk.latestBefore] at hev
  split_ifs at hev with hwants
  · have hlast : (evs.filter fun ev => decide (ev.ts < beg)).getLast? = some ev := by simpa using hev
    have hmem := List.mem_filter.mp (List.mem_of_getLast? hlast)
    refine ⟨hwants, by simpa using hmem.2, ?_⟩
    intro ev' hev' hts
    have hbefore : TsSorted (evs.filter fun ev => decide (ev.ts < beg)) := hsorted.sublist List.filter_sublist
    exact hbefore.le_getLast (List.mem_filter.mpr ⟨hev', by simpa using hts⟩) ev hlast
  · cases hev

omit [EventValueType V] in
/-- The latest event before the begin is there, where it is asked for. -/
theorem exists_latestBefore {evs : List (EventSingle V)} {beg : ℕ} {ev : EventSingle V} (hev : ev ∈ evs)
    (hts : ev.ts < beg) : ∃ ev', OneBeforeAndBulk.latestBefore true beg evs = [ev'] := by
  have hmem : ev ∈ evs.filter fun ev => decide (ev.ts < beg) := List.mem_filter.mpr ⟨hev, by simpa using hts⟩
  obtain ⟨ev', hlast⟩ := Option.isSome_iff_exists.mp (List.getLast?_isSome.mpr (List.ne_nil_of_mem hmem))
  exact ⟨ev', by simp [OneBeforeAndBulk.latestBefore, hlast]⟩

omit [EventValueType V] in
/-- The events of the keyspaces, in order, are delivered by the split and the stage behind it. -/
theorem delivered {evs all : List (EventSingle V)} (hsorted : TsSorted evs) (hperm : evs.Perm all) (beg : ℕ)
    (wantsBefore dedups : Bool) :
    Delivered beg wantsBefore dedups all
      (if dedups then
        keepUnique 0 (OneBeforeAndBulk.latestBefore wantsBefore beg evs ++ evs.filter fun ev => beg ≤ ev.ts)
      else OneBeforeAndBulk.latestBefore wantsBefore beg evs ++ evs.filter fun ev => beg ≤ ev.ts) := by
  have hsub := split_sublist hsorted beg wantsBefore
  set split := OneBeforeAndBulk.latestBefore wantsBefore beg evs ++ evs.filter fun ev => beg ≤ ev.ts with hsplit
  have hsortedSplit : TsSorted split := hsorted.sublist hsub
  have hout : (if dedups then keepUnique 0 split else split).Sublist split := by
    split_ifs
    · exact ContainerEvents.keepUnique_sublist _ _
    · exact List.Sublist.refl _
  -- no timestamp is lost behind the split
  have hkept : ∀ ev ∈ split, 0 < ev.ts → ∃ ev' ∈ (if dedups then keepUnique 0 split else split), ev'.ts = ev.ts := by
    intro ev hev hpos
    split_ifs
    · exact ContainerEvents.exists_keepUnique hsortedSplit hev hpos
    · exact ⟨ev, hev, rfl⟩
  have hbefore : ∀ ev ∈ split, ev.ts < beg → ev ∈ OneBeforeAndBulk.latestBefore wantsBefore beg evs := by
    intro ev hev hts
    rcases List.mem_append.mp hev with hev | hev
    · exact hev
    · have hle := (List.mem_filter.mp hev).2
      rw [decide_eq_true_eq] at hle
      omega
  have hlength : (OneBeforeAndBulk.latestBefore wantsBefore beg evs).length ≤ 1 := by
    rw [OneBeforeAndBulk.latestBefore]
    split_ifs
    · cases (evs.filter fun ev => decide (ev.ts < beg)).getLast? <;> simp
    · simp
  have hnoneFrom : (OneBeforeAndBulk.latestBefore wantsBefore beg evs).filter (fun ev => decide (beg ≤ ev.ts)) =
      [] := by
    apply List.filter_eq_nil_iff.mpr
    intro ev hev
    simpa using (mem_latestBefore hsorted hev).2.1
  have hnoneBefore : (evs.filter fun ev => decide (beg ≤ ev.ts)).filter (fun ev => decide (ev.ts < beg)) = [] := by
    apply List.filter_eq_nil_iff.mpr
    intro ev hev
    simpa using (List.mem_filter.mp hev).2
  refine ⟨hsortedSplit.sublist hout, ?_, ?_, ?_, ?_, ?_, ?_, ?_⟩
  · intro hdedups
    rw [if_pos hdedups]
    exact ContainerEvents.keepUnique_strict
  · intro ev hev
    exact hperm.subset (hsub.subset (hout.subset hev))
  · intro ev hev hle hpos
    have hmem : ev ∈ split :=
      List.mem_append_right _ (List.mem_filter.mpr ⟨hperm.symm.subset hev, by simpa using hle⟩)
    exact hkept ev hmem hpos
  · intro hdedups
    rw [if_neg (by simp [hdedups]), hsplit, List.filter_append, hnoneFrom, List.nil_append, List.filter_filter]
    simpa using hperm.filter _
  · calc
      _ ≤ (split.filter fun ev => decide (ev.ts < beg)).length := (hout.filter _).length_le
      _ = ((OneBeforeAndBulk.latestBefore wantsBefore beg evs).filter fun ev => decide (ev.ts < beg)).length := by
        rw [hsplit, List.filter_append, hnoneBefore, List.append_nil]
      _ ≤ (OneBeforeAndBulk.latestBefore wantsBefore beg evs).length := List.length_filter_le _ _
      _ ≤ 1 := hlength
  · intro ev hev hts
    obtain ⟨hwants, _, hlatest⟩ := mem_latestBefore hsorted (hbefore ev (hout.subset hev) hts)
    exact ⟨hwants, fun ev' hev' => hlatest ev' (hperm.symm.subset hev')⟩
  · intro hwants ev hev hts hpos
    obtain ⟨latest, hlatest⟩ := exists_latestBefore (hperm.symm.subset hev) hts
    have hmem : latest ∈ OneBeforeAndBulk.latestBefore wantsBefore beg evs := by simp [hwants, hlatest]
    obtain ⟨_, hlt, hmax⟩ := mem_latestBefore hsorted hmem
    have hle := hmax ev (hperm.symm.subset hev) hts
    obtain ⟨ev', hev', hsame⟩ := hkept latest (List.mem_append_left _ hmem) (lt_of_lt_of_le hpos hle)
    exact ⟨ev', hev', hsame ▸ hlt⟩

/-! ## The stages in a row -/

omit [EventValueType V] in
/-- A batch of a stream has some of its events. -/
theorem sublist_of_mem_datas {E' : Type*} {xs : List (Sitemty2 (ContainerEvents V) E')} {c : ContainerEvents V}
    (hc : c ∈ datas2 xs) : c.evs.Sublist (eventsOf (datas2 xs)) := by
  obtain ⟨pre, post, hsplit⟩ := List.append_of_mem hc
  rw [hsplit, ContainerEvents.eventsOf_append, ContainerEvents.eventsOf_cons]
  exact (List.sublist_append_left _ _).trans (List.sublist_append_right _ _)

omit [EventValueType V] in
/-- The data of an item of a stream is one of its batches. -/
theorem mem_datas_of_mem {E' : Type*} {xs : List (Sitemty2 (ContainerEvents V) E')} {c : ContainerEvents V}
    (hc : (sitem2Data c : Sitemty2 (ContainerEvents V) E') ∈ xs) : c ∈ datas2 xs :=
  List.mem_filterMap.mpr ⟨_, hc, rfl⟩

omit [EventValueType V] in
/-- What an ordered stream without errors is made of by the split -/
theorem separated_of_sorted {E' : Type*} {xs : List (Sitemty2 (ContainerEvents V) E')}
    {ys : List (Sitemty2 (Output (ContainerEvents V)) (OneBeforeAndBulk.Error E'))} {beg : ℕ} {wantsBefore : Bool}
    (hnoError : errors2 xs = []) (hsorted : TsSorted (eventsOf (datas2 xs)))
    (hseparates : OneBeforeAndBulk.Separates beg wantsBefore xs ys) :
    OneBeforeAndBulk.Separated beg wantsBefore xs ys := by
  obtain ⟨_, _, hseparated⟩ | ⟨zs, x, rest, _, _, rfl, _, _, _, _, hrejected⟩ := hseparates
  · exact hseparated
  · cases hrejected with
    | input e => simp at hnoError
    | @unordered c hunordered =>
        have hprefix : TsSorted (eventsOf (datas2 zs) ++ c.evs) := by
          have hsplit : eventsOf (datas2 (zs ++ sitem2Data c :: rest)) =
              (eventsOf (datas2 zs) ++ c.evs) ++ eventsOf (datas2 rest) := by
            simp
          rw [hsplit] at hsorted
          exact (sortedBy_append.mp hsorted).1
        exact absurd hprefix hunordered

omit [EventValueType V] in
/-- The two outputs, joined -/
theorem datas_joinOutput {E' : Type*} {xs : List (Sitemty2 (Output (ContainerEvents V)) E')}
    {bs cs : List (ContainerEvents V)} (hdatas : datas2 xs = bs.map .before ++ cs.map .bulk) :
    datas2 (xs.map joinOutput) = bs ++ cs := by
  have hjoin : datas2 (xs.map joinOutput) = (datas2 xs).map Output.value := by
    clear hdatas
    induction xs with
    | nil => rfl
    | cons x xs ih =>
        rw [List.map_cons, datas2_cons, datas2_cons, ih]
        cases x with
        | error e => rfl
        | ok x =>
            cases x with
            | dataItem d =>
                cases d with
                | rangeComplete => rfl
                | data o => rfl
            | log l => rfl
            | stats t => rfl
  have hbefore : (Output.value ∘ Output.before : ContainerEvents V → ContainerEvents V) = id := rfl
  have hbulk : (Output.value ∘ Output.bulk : ContainerEvents V → ContainerEvents V) = id := rfl
  rw [hjoin, hdatas, List.map_append, List.map_map, List.map_map, hbefore, hbulk, List.map_id, List.map_id]

omit [EventValueType V] in
/-- Joining changes no error. -/
theorem errors_joinOutput {E' : Type*} (xs : List (Sitemty2 (Output (ContainerEvents V)) E')) :
    errors2 (xs.map joinOutput) = errors2 xs := by
  induction xs with
  | nil => rfl
  | cons x xs ih =>
      rw [List.map_cons, errors2_cons, errors2_cons, ih]
      cases x with
      | error e => rfl
      | ok x =>
          cases x with
          | dataItem d =>
              cases d with
              | rangeComplete => rfl
              | data o => rfl
          | log l => rfl
          | stats t => rfl

omit [EventValueType V] in
/-- Filtering log items changes no data and no error. -/
theorem filter_passes {E' : Type*} (level : Level) (xs : List (Sitemty2 (ContainerEvents V) E')) :
    datas2 (xs.filter (LogFilter.passes level)) = datas2 xs ∧
      errors2 (xs.filter (LogFilter.passes level)) = errors2 xs := by
  induction xs with
  | nil => exact ⟨rfl, rfl⟩
  | cons x xs ih =>
      rw [List.filter_cons]
      split_ifs with hpass
      · rw [datas2_cons, errors2_cons, datas2_cons, errors2_cons, ih.1, ih.2]
        exact ⟨rfl, rfl⟩
      · cases x with
        | error e => exact absurd rfl hpass
        | ok x =>
            cases x with
            | dataItem d => exact absurd rfl hpass
            | log l => simpa using ih
            | stats t => exact absurd rfl hpass

/-- The events behind the stage that drops repeated timestamps, and the errors -/
theorem scan_dedupItem (on : Bool) (xs : List (Sitemty2 (ContainerEvents V) E)) :
    errors2 (scanItems (dedupItem on) Dedup.new xs) = errors2 xs ∧
      eventsOf (datas2 (scanItems (dedupItem on) Dedup.new xs)) =
        if on then keepUnique 0 (eventsOf (datas2 xs)) else eventsOf (datas2 xs) := by
  cases on with
  | true =>
      have hitem : dedupItem (V := V) (E := E) true = Dedup.onItem := rfl
      rw [hitem, if_pos rfl]
      exact ⟨(shapes_eq Dedup.shapes_scan).1, Dedup.events_scan⟩
  | false =>
      have hitems : ∀ (m : ℕ) (xs : List (Sitemty2 (ContainerEvents V) E)),
          scanItems (dedupItem false) m xs = xs := by
        intro m xs
        induction xs generalizing m with
        | nil => rfl
        | cons x xs ih =>
            rw [scanItems_cons, ih]
            rfl
      rw [hitems, if_neg Bool.false_ne_true]
      exact ⟨rfl, rfl⟩

/-- The stream of the command ends without an error, over keyspaces that can be merged, and delivers their events. -/
theorem lspMergeAll_delivers (beg : ℕ) {inps : List (Script (Sitemty2 (ContainerEvents V) E))}
    (hmergeable : Mergeable inps cmd.limit) :
    ∃ ys, Drains (lspMergeAllNext texts cmd) (lspMergeAll cmd beg inps) ys ∧ errors2 ys = [] ∧
      Delivered beg cmd.wantsBefore cmd.dedups (allEvents inps) (eventsOf (datas2 ys)) := by
  obtain ⟨xs, hmerged⟩ := hmergeable.merged
  -- the histogram adds a log item
  have hcounted : ∀ x ∈ xs, WithLenHisto.Counted x := by
    intro x hx
    cases x with
    | error e => trivial
    | ok x =>
        cases x with
        | log l => trivial
        | stats t => trivial
        | dataItem d =>
            cases d with
            | rangeComplete => trivial
            | data c =>
                have hlen := hmerged.len c (mem_datas_of_mem hx)
                have hrounds := hmergeable.rounds
                have hsmall : c.len < 2 ^ 31 := by omega
                exact hsmall
  obtain ⟨msg, hhisto⟩ := WithLenHisto.drains texts.showRes hmerged.drains hcounted "after-LspMerge"
  set logged := xs ++ [(.ok (.log { origin := "", level := .info, msg := msg }) :
    Sitemty2 (ContainerEvents V) (LspMerge.Error E))] with hlogged
  have hdatas : datas2 logged = datas2 xs := by simp [hlogged]
  have hnoError : errors2 logged = [] := by simp [hlogged, hmerged.noError]
  have hsorted : TsSorted (eventsOf (datas2 logged)) := by
    rw [hdatas]
    exact hmerged.sorted
  -- the batches are in order
  have hconsistent : ∀ x ∈ logged, CheckMonotonic.consistentItem x = true := by
    intro x hx
    cases x with
    | error e => rfl
    | ok x =>
        cases x with
        | log l => rfl
        | stats t => rfl
        | dataItem d =>
            cases d with
            | rangeComplete => rfl
            | data c =>
                have hbatch := hsorted.sublist (sublist_of_mem_datas (mem_datas_of_mem hx))
                exact ContainerEvents.isMonotonic_of_sorted hbatch
  obtain ⟨checked, hcheckedDrains, hcloses⟩ := (CheckMonotonic.keeps texts.showTs "after-LspMerge").drains _
    CheckMonotonic.own_lowers hhisto (fun _ _ => trivial) (CheckMonotonic.inv_new _ _)
  have hchecks := (CheckMonotonic.checks_of_closes hcloses).ordered
  rw [List.takeWhile_eq_self_iff.mpr hconsistent] at hchecks
  obtain rfl := hchecks hsorted
  -- the split
  obtain ⟨outs, houts, hcloses⟩ := OneBeforeAndBulk.keeps.drains _ OneBeforeAndBulk.own_lowers hcheckedDrains
    (fun _ _ => trivial) (.inl (OneBeforeAndBulk.going_new beg cmd.wantsBefore))
  have hseparated := separated_of_sorted hnoError hsorted (OneBeforeAndBulk.separates_of_closes hcloses)
  obtain ⟨bs, cs, houtDatas, _, hbs, hcs⟩ := hseparated.datas
  obtain ⟨huniqueErrors, huniqueEvents⟩ := scan_dedupItem cmd.dedups (outs.map joinOutput)
  refine ⟨_, LogFilter.drains (drains_scan (drains_mapped houts)) _, ?_, ?_⟩
  · rw [(filter_passes _ _).2, huniqueErrors, errors_joinOutput, hseparated.errors]
  · rw [(filter_passes _ _).1, huniqueEvents, datas_joinOutput houtDatas, ContainerEvents.eventsOf_append, hbs, hcs,
      hdatas]
    exact delivered hmerged.sorted hmerged.perm beg cmd.wantsBefore cmd.dedups

/-- Two keyspaces, and a range that begins between their events -/
theorem lspMergeAll_between :
    ∃ ys, Drains (lspMergeAllNext (V := UInt8) (E := String) ⟨toString, fun _ _ => "", fun _ => none⟩
          ⟨none, none, none, none⟩)
        (lspMergeAll ⟨none, none, none, none⟩ 3
          [[.ready (sitem2Data { evs := [⟨1, 5⟩, ⟨4, 6⟩] }), .ready (.ok (.stats .warnings))],
            [.pending, .ready (sitem2Data { evs := [⟨2, 7⟩, ⟨4, 6⟩] })]]) ys ∧
      errors2 ys = [] ∧
      Delivered (V := UInt8) 3 true true [⟨1, 5⟩, ⟨4, 6⟩, ⟨2, 7⟩, ⟨4, 6⟩] (eventsOf (datas2 ys)) :=
  lspMergeAll_delivers (V := UInt8) (E := String) ⟨toString, fun _ _ => "", fun _ => none⟩ ⟨none, none, none, none⟩ 3
    ⟨by simp [SortedBy], rfl, by decide, by decide, by decide⟩

end LspMergeAll

end Scylla
end Daqbuf
