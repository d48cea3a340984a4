import Daqbuf.Items.Merge
import Daqbuf.Poll.Loop
/-!
# The Merger

{lit}`Merger` merges any number of ordered streams of containers into one.  It keeps one container of
every input, moves what comes first into an output container, and drops from the other inputs what has
the same timestamp.

The parallel vectors of the source (inputs, items, range-complete flags) are one list of lanes here.

Main results:

- Theorem {lit}`scan_lows`: the scan over the lanes finds the two lowest first timestamps.
- Theorem {lit}`scan_error`: it stops only at a lane that holds an empty item.
-/

namespace Daqbuf
namespace Items

open Netpod Poll

/-- {lit}`OUT_MAX_BYTES` -/
def outMaxBytes : UInt32 := 1024 * 1024 * 20

/-- The greatest {lit}`u64`. -/
def u64Max : ℕ := 2 ^ 64 - 1

/-- One input of the merger with the container that was taken from it last. -/
structure Lane (T : Type*) where
  inp : Option (Script (Sitemty T))
  item : Option T := none
  rangeComplete : Bool := false
  deriving DecidableEq

/-- Applies a function to the item of a lane. -/
def Lane.mapItem {T : Type*} (f : T → T) (lane : Lane T) : Lane T :=
  { lane with item := lane.item.map f }

/-- {lit}`Merger` -/
structure Merger (T : Type*) where
  lanes : List (Lane T)
  out : Option T := none
  doClearOut : Bool := false
  outMaxLen : ℕ
  outbuf : List (Sitemty T) := []
  logQueue : List LogItem := []
  dim0ixMax : ℕ := 0
  doneInp : Bool := false
  doneRangeComplete : Bool := false
  complete : Bool := false
  statsProcessItemEmpty : ℕ := 0
  takeItemSingleInpCnt : ℕ := 0
  takeItemFullCnt : ℕ := 0
  takeItemPartialCnt : ℕ := 0
  deriving DecidableEq

namespace Merger

/-- {lit}`MergerError` -/
inductive Error where
  | noPendingButMissing
  | input (e : SitemErr)
  | shouldFindTsMin
  | itemShouldHaveTsMax
  | partialPathDrainedAllItems
  | inputNotMonotonic
  | logic
  deriving DecidableEq, Repr

/-- The error as a stream item. -/
def Error.toSitemErr : Error → SitemErr
  | .noPendingButMissing => .fromVariant "MergerError" "NoPendingButMissing"
  | .input e => .fromNested "MergerError" "Input" e
  | .shouldFindTsMin => .fromVariant "MergerError" "ShouldFindTsMin"
  | .itemShouldHaveTsMax => .fromVariant "MergerError" "ItemShouldHaveTsMax"
  | .partialPathDrainedAllItems => .fromVariant "MergerError" "PartialPathDrainedAllItems"
  | .inputNotMonotonic => .fromVariant "MergerError" "InputNotMonotonic"
  | .logic => .fromVariant "MergerError" "Logic"

variable {T : Type*} [MergeableTy T]

/-- {lit}`new` -/
def new (inps : List (Script (Sitemty T))) (outMaxLen : Option ℕ) : Merger T :=
  { lanes := inps.map fun inp => { inp := some inp }, outMaxLen := outMaxLen.getD 1000 }

/-! ## Taking into the output -/

/-- {lit}`drain_into_dst_upto` -/
def drainIntoDstUpto (src dst : T) (upto : ℕ) : DrainIntoDstResult × T × T :=
  match MergeableTy.findLowestIndexGt src upto with
  | some ilgt => MergeableTy.drainInto src dst 0 ilgt
  | none => MergeableTy.drainInto src dst 0 (MergeableTy.len src)

/-- {lit}`drain_into_new_upto` -/
def drainIntoNewUpto (src : T) (upto : ℕ) : DrainIntoNewResult T × T :=
  match MergeableTy.findLowestIndexGt src upto with
  | some ilgt => MergeableTy.drainIntoNew src 0 ilgt
  | none => MergeableTy.drainIntoNew src 0 (MergeableTy.len src)

/-- {lit}`take_into_output_upto`: the result, what is left of the source, and the output. -/
def takeIntoOutputUpto (s : Merger T) (src : T) (upto : ℕ) : DrainIntoDstResult × T × Merger T :=
  match s.out with
  | some out =>
      let (res, src, out) := drainIntoDstUpto src out upto
      (res, src, { s with out := some out })
  | none =>
      match drainIntoNewUpto src upto with
      | (.done x, src) => (.done, src, { s with out := some x })
      | (.partially x, src) => (.partially, src, { s with out := some x })
      | (.notCompatible, src) => (.notCompatible, src, s)

/-- {lit}`take_into_output_all` -/
def takeIntoOutputAll (s : Merger T) (src : T) : DrainIntoDstResult × T × Merger T :=
  s.takeIntoOutputUpto src u64Max

/-! ## The lowest timestamps -/

/-- The two lowest first timestamps of the items, each with the index of its lane. -/
abbrev Tslows := Option (ℕ × ℕ) × Option (ℕ × ℕ)

/-- Enters the first timestamp of one more item. -/
def Tslows.insert (tslows : Tslows) (i1 t1 : ℕ) : Tslows :=
  match tslows.1 with
  | some (_, a) =>
      if t1 < a then
        (some (i1, t1), tslows.1)
      else
        match tslows.2 with
        | some (_, b) => if t1 < b then (tslows.1, some (i1, t1)) else tslows
        | none => (tslows.1, some (i1, t1))
  | none => (some (i1, t1), tslows.2)

/-- The scan over the items at the begin of {lit}`process`; it stops at the first empty item and then
returns the index of its lane as an error. -/
def scan : List (Lane T) → ℕ → Tslows → Except ℕ Tslows
  | [], _, tslows => .ok tslows
  | lane :: lanes, i1, tslows =>
      match lane.item with
      | none => scan lanes (i1 + 1) tslows
      | some item =>
          match MergeableTy.tsMin item with
          | some t1 => scan lanes (i1 + 1) (tslows.insert i1 t1)
          | none => .error i1

/-- Replaces the item of one lane. -/
def setItem (s : Merger T) (i : ℕ) (item : Option T) : Merger T :=
  { s with lanes := s.lanes.modify i fun lane => { lane with item := item } }

/-! ## Processing -/

/-- The outcome of {lit}`process`. -/
inductive Processed (T : Type*) where
  | ok (s : Merger T)
  | failed (e : Error) (s : Merger T)
  /-- an unwrap of an empty option -/
  | panic

/-- {lit}`dim0ix_max` becomes the last timestamp of the output, which is unwrapped. -/
def raiseDim0ixMax (s : Merger T) : Processed T :=
  match s.out.bind MergeableTy.tsMax with
  | some ts => .ok { s with dim0ixMax := ts }
  | none => .panic

/-- What follows when all or a part of an item was taken, with the item's rest. -/
def afterTake (s : Merger T) (il0 : ℕ) (res : DrainIntoDstResult) (item : T)
    (onDone : Merger T → Processed T) : Processed T :=
  match res with
  | .done => onDone s
  | .partially => raiseDim0ixMax { s.setItem il0 (some item) with doClearOut := true }
  | .notCompatible => .ok { s.setItem il0 (some item) with doClearOut := true }

/-- Takes the whole item of a lane. -/
def takeAll (s : Merger T) (il0 : ℕ) (item : T) : Processed T :=
  let (res, item, s) := (s.setItem il0 none).takeIntoOutputAll item
  s.afterTake il0 res item raiseDim0ixMax

/-- Takes the item of a lane up to and including a timestamp. -/
def takeUpto (s : Merger T) (il0 : ℕ) (item : T) (tl1 : ℕ) : Processed T :=
  let (res, item, s) := (s.setItem il0 none).takeIntoOutputUpto item tl1
  s.afterTake il0 res item fun s =>
    if MergeableTy.len item = 0 then
      .failed .partialPathDrainedAllItems s
    else
      raiseDim0ixMax (s.setItem il0 (some item))

/-- The non-monotonicity detection lowers {lit}`dim0ix_max`; its log item is dropped. -/
def detectNonMono (s : Merger T) (tslows : Tslows) : Merger T :=
  match tslows.1 with
  | some (_, t1) => if t1 ≤ s.dim0ixMax then { s with dim0ixMax := t1 } else s
  | none => s

/-- Moves the lowest events into the output. -/
def take (s : Merger T) (tslows : Tslows) : Processed T :=
  match tslows.1 with
  | some (il0, _) =>
      match s.lanes[il0]?.bind Lane.item with
      | some item =>
          match tslows.2 with
          | some (_, tl1) =>
              match MergeableTy.tsMax item with
              | some th0 =>
                  if th0 ≤ tl1 then
                    { s with takeItemFullCnt := s.takeItemFullCnt + 1 }.takeAll il0 item
                  else
                    { s with takeItemPartialCnt := s.takeItemPartialCnt + 1 }.takeUpto il0 item tl1
              | none => .failed .itemShouldHaveTsMax s
          | none => { s with takeItemSingleInpCnt := s.takeItemSingleInpCnt + 1 }.takeAll il0 item
      | none => .panic
  | none => .failed .shouldFindTsMin s

/-- Drops from one item what is not later than {lit}`upto`, again while the drain is partial (the fuel
bounds the repetitions); {lit}`none` when the drain is not compatible. -/
def discardItem : ℕ → T → ℕ → Option T
  | fuel, item, upto =>
      match MergeableTy.tsMin item with
      | some tsMin =>
          if tsMin ≤ upto then
            match drainIntoNewUpto item upto, fuel with
            | (.done _, item), _ => some item
            | (.partially _, item), fuel + 1 => discardItem fuel item upto
            | (.partially _, item), 0 => some item
            | (.notCompatible, _), _ => none
          else
            some item
      | none => some item

/-- Drops from all items what is not later than {lit}`upto`; the flag tells whether no drain was
incompatible. -/
def discard (upto : ℕ) : List (Lane T) → List (Lane T) × Bool
  | [] => ([], true)
  | lane :: lanes =>
      match lane.item with
      | none =>
          let (lanes, ok) := discard upto lanes
          (lane :: lanes, ok)
      | some item =>
          match discardItem (MergeableTy.len item) item upto with
          | some item =>
              let (lanes, ok) := discard upto lanes
              ({ lane with item := some item } :: lanes, ok)
          | none => (lane :: lanes, false)

/-- Drops the duplicates, when the second lowest timestamp was reached, behind the outcome
{lit}`ret`. -/
def dropDuplicates (tslows : Tslows) (ret : Processed T) : Processed T :=
  let dropIn (s : Merger T) (ret : Merger T → Processed T) : Processed T :=
    match tslows.2 with
    | some (_, tl1) =>
        if tl1 ≤ s.dim0ixMax then
          let (lanes, ok) := discard s.dim0ixMax s.lanes
          let s := { s with lanes := lanes }
          if ok then ret s else .failed .logic s
        else
          ret s
    | none => ret s
  match ret with
  | .ok s => dropIn s .ok
  | .failed e s => dropIn s (.failed e)
  | .panic => .panic

/-- {lit}`process` -/
def process (s : Merger T) : Processed T :=
  match scan s.lanes 0 (none, none) with
  | .error i1 =>
      .ok { s.setItem i1 none with statsProcessItemEmpty := s.statsProcessItemEmpty + 1 }
  | .ok tslows => dropDuplicates tslows ((s.detectNonMono tslows).take tslows)

/-! ## Refilling -/

/-- The outcome of {lit}`refill`. -/
inductive Refilled where
  | ready
  | pending
  | failed (e : Error)
  deriving DecidableEq

/-- The loop that polls the input of one lane; log and statistics items go to {lit}`outbuf`. -/
def pollInp (lane : Lane T) (outbuf : List (Sitemty T)) :
    Script (Sitemty T) → Lane T × List (Sitemty T) × Refilled
  | .ready (sitemData k) :: rest =>
      if MergeableTy.isMonotonic k = false then
        ({ lane with inp := some rest }, outbuf, .failed .inputNotMonotonic)
      else
        ({ lane with inp := some rest, item := some k }, outbuf, .ready)
  | .ready sitemRangeComplete :: rest =>
      pollInp { lane with inp := some rest, rangeComplete := true } outbuf rest
  | .ready (.ok (.log x)) :: rest =>
      pollInp { lane with inp := some rest } (outbuf ++ [.ok (.log x)]) rest
  | .ready (.ok (.stats x)) :: rest =>
      pollInp { lane with inp := some rest } (outbuf ++ [.ok (.stats x)]) rest
  | .ready (.error e) :: _ => ({ lane with inp := none }, outbuf, .failed (.input e))
  | [] => ({ lane with inp := none }, outbuf, .ready)
  | .pending :: rest => ({ lane with inp := some rest }, outbuf, .pending)

/-- The body of the loop over the lanes. -/
def refillLane (lane : Lane T) (outbuf : List (Sitemty T)) :
    Lane T × List (Sitemty T) × Refilled :=
  match lane.item, lane.inp with
  | none, some inp => pollInp lane outbuf inp
  | _, _ => (lane, outbuf, .ready)

/-- The loop over the lanes; an error ends it at once. -/
def refillLanes : List (Lane T) → List (Sitemty T) → List (Lane T) × List (Sitemty T) × Refilled
  | [], outbuf => ([], outbuf, .ready)
  | lane :: lanes, outbuf =>
      match refillLane lane outbuf with
      | (lane, outbuf, .failed e) => (lane :: lanes, outbuf, .failed e)
      | (lane, outbuf, .ready) =>
          let (lanes, outbuf, res) := refillLanes lanes outbuf
          (lane :: lanes, outbuf, res)
      | (lane, outbuf, .pending) =>
          let (lanes, outbuf, res) := refillLanes lanes outbuf
          (lane :: lanes, outbuf, if res = .ready then .pending else res)

/-- {lit}`refill` -/
def refill (s : Merger T) : Merger T × Refilled :=
  let (lanes, outbuf, res) := refillLanes s.lanes s.outbuf
  ({ s with lanes := lanes, outbuf := outbuf }, res)

/-! ## Polling -/

/-- The outcome of {lit}`poll3` and {lit}`poll2`. -/
inductive Polled (T : Type*) where
  /-- {lit}`Continue` -/
  | next (s : Merger T)
  /-- {lit}`Break(Pending)` -/
  | pending (s : Merger T)
  /-- {lit}`Break(Ready(Some(e)))` -/
  | failed (e : Error) (s : Merger T)
  /-- {lit}`Break(Ready(None))` -/
  | finished (s : Merger T)
  | panic

/-- The output is handed on when it is large, when it has to be cleared, or at the end. -/
def emit (s : Merger T) (lastEmit : Bool) : Polled T :=
  match s.out with
  | some out =>
      let long := decide (MergeableTy.len out ≥ s.outMaxLen)
      -- the byte estimate is computed, and cached, only where the output is not already long
      let (heavy, out) :=
        if long then (false, out)
        else
          let (bytes, out) := MergeableTy.byteEstimate out
          (decide (bytes ≥ outMaxBytes), out)
      if long || heavy || s.doClearOut || lastEmit then
        let out := (MergeableTy.byteEstimate out).2
        .next { s with doClearOut := false, out := none, outbuf := s.outbuf ++ [sitemData out] }
      else
        .next { s with out := some out }
  | none => if lastEmit then .finished s else .next s

/-- {lit}`poll3` -/
def poll3 (s : Merger T) : Polled T :=
  if s.lanes.any (fun lane => lane.inp.isSome && lane.item.isNone) then
    .failed .noPendingButMissing s
  else if s.lanes.any (fun lane => lane.item.isSome) then
    match s.process with
    | .ok s => s.emit false
    | .failed e s => .failed e s
    | .panic => .panic
  else
    s.emit true

/-- {lit}`poll2` -/
def poll2 (s : Merger T) : Polled T :=
  match s.refill with
  | (s, .ready) => s.poll3
  | (s, .pending) => .pending s
  | (s, .failed e) => .failed e s

/-- One pass of {lit}`poll_next`. -/
def pollNext (s : Merger T) : Pass (Merger T) (Sitemty T) :=
  if s.complete then
    .panic
  else if s.doneRangeComplete then
    .done { s with complete := true }
  else
    match s.logQueue, s.outbuf with
    | item :: logQueue, _ => .item (.ok (.log item)) { s with logQueue := logQueue }
    | [], item :: outbuf => .item item { s with outbuf := outbuf }
    | [], [] =>
        if s.doneInp = false then
          match s.poll2 with
          | .next s => .again s
          | .failed e s => .item (.error e.toSitemErr) { s with doneInp := true }
          | .finished s =>
              let outbuf := s.outbuf ++ s.out.toList.map fun out => sitemData out
              .again { s with doneInp := true, out := none, outbuf := outbuf }
          | .pending s => .pending s
          | .panic => .panic
        else
          let s := { s with doneRangeComplete := true }
          if s.lanes.all (fun lane => lane.rangeComplete) then
            .again { s with outbuf := s.outbuf ++ [sitemRangeComplete] }
          else
            .again s

/-! ## What the scan finds -/

/-- The two lowest first timestamps of the lanes that hold an item, none of them empty. -/
inductive Lows : List (Lane T) → Tslows → Prop
  /-- no lane holds an item -/
  | zero {lanes : List (Lane T)} (hothers : ∀ lane ∈ lanes, lane.item = none) :
      Lows lanes (none, none)
  /-- one lane holds an item -/
  | one {pre post : List (Lane T)} {lane : Lane T} {item : T} {t : ℕ}
      (hitem : lane.item = some item) (hmin : MergeableTy.tsMin item = some t)
      (hothers : ∀ other ∈ pre ++ post, other.item = none) :
      Lows (pre ++ lane :: post) (some (pre.length, t), none)
  /-- several lanes hold an item -/
  | two {pre post : List (Lane T)} {lane : Lane T} {item : T} {t i1 t1 : ℕ}
      (hitem : lane.item = some item) (hmin : MergeableTy.tsMin item = some t) (hle : t ≤ t1)
      (hothers : ∀ other ∈ pre ++ post, ∀ item, other.item = some item →
        ∃ u, MergeableTy.tsMin item = some u ∧ t1 ≤ u)
      (hsecond : ∃ other ∈ pre ++ post, ∃ item, other.item = some item ∧
        MergeableTy.tsMin item = some t1)
      (hbefore : ∀ other ∈ pre, ∀ item, other.item = some item → MergeableTy.tsMin item ≠ some t) :
      Lows (pre ++ lane :: post) (some (pre.length, t), some (i1, t1))

/-- A lane without an item changes nothing. -/
theorem Lows.skip {pre : List (Lane T)} {tslows : Tslows} {lane : Lane T}
    (hlows : Lows pre tslows) (hnone : lane.item = none) : Lows (pre ++ [lane]) tslows := by
  cases hlows with
  | zero hothers =>
      refine .zero fun other hother => ?_
      rcases List.mem_append.mp hother with hother | hother
      · exact hothers other hother
      · rw [List.mem_singleton.mp hother, hnone]
  | @one pre post first item t hitem hmin hothers =>
      rw [List.append_assoc, List.cons_append]
      refine .one hitem hmin fun other hother => ?_
      rw [← List.append_assoc, List.mem_append, List.mem_singleton] at hother
      rcases hother with hother | rfl
      · exact hothers other hother
      · exact hnone
  | @two pre post first item t i1 t1 hitem hmin hle hothers hsecond hbefore =>
      rw [List.append_assoc, List.cons_append]
      refine .two hitem hmin hle (fun other hother item hsome => ?_) ?_ hbefore
      · rw [← List.append_assoc, List.mem_append, List.mem_singleton] at hother
        rcases hother with hother | rfl
        · exact hothers other hother item hsome
        · simp [hnone] at hsome
      · rcases hsecond with ⟨other, hother, hitem⟩
        exact ⟨other, by rw [← List.append_assoc]; exact List.mem_append_left _ hother, hitem⟩

/-- An item before all others is the first one, and the old first one is the second. -/
theorem Lows.lower {pre : List (Lane T)} {lane first : Lane T} {item firstItem : T} {t i1 t1 : ℕ}
    (hsome : lane.item = some item) (hts : MergeableTy.tsMin item = some t1) (hlt : t1 < t)
    (hfirst : first ∈ pre) (hitem : first.item = some firstItem)
    (hmin : MergeableTy.tsMin firstItem = some t)
    (hothers : ∀ other ∈ pre, ∀ item, other.item = some item →
      ∃ u, MergeableTy.tsMin item = some u ∧ t ≤ u) :
    Lows (pre ++ [lane]) (some (pre.length, t1), some (i1, t)) := by
  refine .two hsome hts hlt.le (by simpa using hothers)
    ⟨first, by simpa using hfirst, firstItem, hitem, hmin⟩ fun other hother item' hitem' heq => ?_
  rcases hothers other hother item' hitem' with ⟨u, hu, hle⟩
  rw [heq, Option.some.injEq] at hu
  omega

/-- A lane with an item is entered. -/
theorem Lows.insert {pre : List (Lane T)} {tslows : Tslows} {lane : Lane T} {item : T} {t1 : ℕ}
    (hlows : Lows pre tslows) (hsome : lane.item = some item)
    (hts : MergeableTy.tsMin item = some t1) :
    Lows (pre ++ [lane]) (tslows.insert pre.length t1) := by
  cases hlows with
  | zero hothers =>
      simp only [Tslows.insert]
      exact .one hsome hts (by simpa using hothers)
  | @one pre post first firstItem t hitem hmin hothers =>
      simp only [Tslows.insert]
      split <;> rename_i hlt
      · refine .lower hsome hts hlt (List.mem_append_right _ List.mem_cons_self) hitem hmin
          fun other hother item hitem' => ?_
        rw [List.mem_append, List.mem_cons] at hother
        rcases hother with hother | rfl | hother
        · simp [hothers other (List.mem_append_left _ hother)] at hitem'
        · rw [hitem, Option.some.injEq] at hitem'
          exact ⟨t, hitem' ▸ hmin, le_rfl⟩
        · simp [hothers other (List.mem_append_right _ hother)] at hitem'
      · rw [List.append_assoc, List.cons_append]
        refine .two hitem hmin (not_lt.mp hlt) (fun other hother item' hitem' => ?_) ?_
          fun other hother item' hitem' => ?_
        · rw [← List.append_assoc, List.mem_append, List.mem_singleton] at hother
          rcases hother with hother | rfl
          · simp [hothers other hother] at hitem'
          · rw [hsome, Option.some.injEq] at hitem'
            exact ⟨t1, hitem' ▸ hts, le_rfl⟩
        · exact ⟨lane, by simp, item, hsome, hts⟩
        · simp [hothers other (List.mem_append_left _ hother)] at hitem'
  | @two pre post first firstItem t i u hitem hmin hle hothers hsecond hbefore =>
      simp only [Tslows.insert]
      split <;> rename_i hlt
      · refine .lower hsome hts hlt (List.mem_append_right _ List.mem_cons_self) hitem hmin
          fun other hother item hitem' => ?_
        rw [List.mem_append, List.mem_cons] at hother
        rcases hother with hother | rfl | hother
        · rcases hothers other (List.mem_append_left _ hother) item hitem' with ⟨v, hv, huv⟩
          exact ⟨v, hv, hle.trans huv⟩
        · rw [hitem, Option.some.injEq] at hitem'
          exact ⟨t, hitem' ▸ hmin, le_rfl⟩
        · rcases hothers other (List.mem_append_right _ hother) item hitem' with ⟨v, hv, huv⟩
          exact ⟨v, hv, hle.trans huv⟩
      · split <;> rename_i hlt'
        · -- the new item is the second one
          rw [List.append_assoc, List.cons_append]
          refine .two hitem hmin (not_lt.mp hlt) (fun other hother item' hitem' => ?_) ?_ hbefore
          · rw [← List.append_assoc, List.mem_append, List.mem_singleton] at hother
            rcases hother with hother | rfl
            · rcases hothers other hother item' hitem' with ⟨v, hv, huv⟩
              exact ⟨v, hv, hlt'.le.trans huv⟩
            · rw [hsome, Option.some.injEq] at hitem'
              exact ⟨t1, hitem' ▸ hts, le_rfl⟩
          · exact ⟨lane, by simp, item, hsome, hts⟩
        · rw [List.append_assoc, List.cons_append]
          refine .two hitem hmin hle (fun other hother item' hitem' => ?_) ?_ hbefore
          · rw [← List.append_assoc, List.mem_append, List.mem_singleton] at hother
            rcases hother with hother | rfl
            · exact hothers other hother item' hitem'
            · rw [hsome, Option.some.injEq] at hitem'
              exact ⟨t1, hitem' ▸ hts, not_lt.mp hlt'⟩
          · rcases hsecond with ⟨other, hother, hother'⟩
            exact ⟨other, by rw [← List.append_assoc]; exact List.mem_append_left _ hother, hother'⟩

/-- The scan over all lanes finds the two lowest first timestamps. -/
theorem scan_lows (pre : List (Lane T)) {lanes : List (Lane T)} {acc tslows : Tslows} (hlows : Lows pre acc)
    (hscan : scan lanes pre.length acc = .ok tslows) : Lows (pre ++ lanes) tslows := by
  induction lanes generalizing pre acc with
  | nil =>
      simp only [scan, Except.ok.injEq] at hscan
      simpa [← hscan] using hlows
  | cons lane lanes ih =>
      rw [← List.singleton_append, ← List.append_assoc]
      unfold scan at hscan
      split at hscan
      · rename_i hnone
        exact ih _ (hlows.skip hnone) (by simpa using hscan)
      · rename_i item hsome
        split at hscan
        · rename_i t1 hts
          exact ih _ (hlows.insert hsome hts) (by simpa using hscan)
        · simp at hscan

/-- The scan fails only at a lane that holds an empty item. -/
theorem scan_error (pre : List (Lane T)) {lanes : List (Lane T)} {acc : Tslows} {i : ℕ}
    (hscan : scan lanes pre.length acc = .error i) :
    ∃ before lane after item, pre ++ lanes = before ++ lane :: after ∧ i = before.length ∧
      lane.item = some item ∧ MergeableTy.tsMin item = none := by
  induction lanes generalizing pre acc with
  | nil => simp [scan] at hscan
  | cons lane lanes ih =>
      unfold scan at hscan
      split at hscan
      · have hrest := ih (pre ++ [lane]) (by simpa using hscan)
        simpa using hrest
      · rename_i item hsome
        split at hscan
        · rename_i t1 hts
          have hrest := ih (pre ++ [lane]) (by simpa using hscan)
          simpa using hrest
        · rename_i hnone
          simp only [Except.error.injEq] at hscan
          exact ⟨pre, lane, lanes, item, rfl, hscan.symm, hsome, hnone⟩

omit [MergeableTy T] in
/-- Replacing the item of the lane at a position. -/
theorem setItem_eq {s : Merger T} {pre post : List (Lane T)} {lane : Lane T}
    (hlanes : s.lanes = pre ++ lane :: post) (item : Option T) :
    s.setItem pre.length item = { s with lanes := pre ++ { lane with item := item } :: post } := by
  rw [setItem, hlanes]
  congr 1
  clear hlanes
  induction pre with
  | nil => rfl
  | cons first pre ih => simpa using ih

/-- Where dropping from one item is a function of the item, dropping from all applies it to all. -/
theorem discard_eq_mapItem {upto : ℕ} {f : T → T} {lanes : List (Lane T)}
    (hitem : ∀ lane ∈ lanes, ∀ item, lane.item = some item →
      discardItem (MergeableTy.len item) item upto = some (f item)) :
    discard upto lanes = (lanes.map (Lane.mapItem f), true) := by
  induction lanes with
  | nil => rfl
  | cons lane lanes ih =>
      have hrest := ih fun other hother => hitem other (by simp [hother])
      rcases lane with ⟨inp, _ | item, flag⟩
      · simp [discard, hrest, Lane.mapItem]
      · have hlane := hitem _ List.mem_cons_self item rfl
        simp [discard, hlane, hrest, Lane.mapItem]

end Merger

end Items
end Daqbuf
