import Daqbuf.Streams.Monotonic
/-!
# One Before and Bulk

{lit}`OneBeforeAndBulk` splits a stream of batches at the begin of the requested range: of the events before it only
the last one is handed out, when that is asked for, and of the others all.

Main results:

- Theorem {lit}`OneBeforeAndBulk.step_data`: what a batch does to the state.
- Theorem {lit}`OneBeforeAndBulk.separates`: what is handed out over a whole stream, up to its end or to the first
  item that is an error or out of order.
-/

namespace Daqbuf
namespace Scylla

open Items Poll Search Streams
open Items.ContainerEvents (eventsOf lastTs slotEvents)

/-- {lit}`Output` -/
inductive Output (T : Type*) where
  | before (x : T)
  | bulk (x : T)
  deriving DecidableEq, Repr

namespace OneBeforeAndBulk

/-- {lit}`Error`, without the two limits of the disabled tracer -/
inductive Error (E : Type*) where
  | unordered
  | logic
  | input (e : E)
  deriving DecidableEq, Repr

/-- {lit}`State` -/
inductive State where
  | begin
  | bulk
  | done
  deriving DecidableEq, Repr

end OneBeforeAndBulk

/-- {lit}`OneBeforeAndBulk`; the input itself is kept beside. -/
structure OneBeforeAndBulk (T E : Type*) where
  ts0 : ℕ
  oneBefore : Bool
  state : OneBeforeAndBulk.State
  buf : Option T
  out : List T
  outbuf2 : List (Sitemty2 (Output T) (OneBeforeAndBulk.Error E))
  tslast : ℕ
  haveRangeFinal : Bool

namespace OneBeforeAndBulk

section Model

variable {T E : Type*} [IsConsistent T]

/-- A pass of the stage -/
abbrev OutPass (T E : Type*) := Pass (OneBeforeAndBulk T E) (Sitemty2 (Output T) (Error E))

/-- {lit}`new` -/
def new (ts0 : ℕ) (oneBefore : Bool) : OneBeforeAndBulk T E where
  ts0 := ts0
  oneBefore := oneBefore
  state := .begin
  buf := none
  out := []
  outbuf2 := []
  tslast := 0
  haveRangeFinal := false

/-- {lit}`consume_buf_get_latest`, where {lit}`none` is a panic -/
def consumeBufGetLatest (s : OneBeforeAndBulk T E) : Option (Option T × OneBeforeAndBulk T E) :=
  match s.buf with
  | none => some (none, s)
  | some buf =>
      let s := { s with buf := none }
      if MergeableTy.len buf = 0 then some (none, s)
      else
        match MergeableTy.drainIntoNew buf (MergeableTy.len buf - 1) (MergeableTy.len buf) with
        | (.done ret, _) => some (some ret, s)
        | (.partially _, _) => none
        | (.notCompatible, _) => none

/-- What is handed out of the latest event: it is dropped when it was not asked for. -/
def emitBefore (s : OneBeforeAndBulk T E) (before : T) : OutPass T E :=
  let before := if s.oneBefore then before else (MergeableTy.drainIntoNew before 0 (MergeableTy.len before)).2
  .item (sitem2Data (.before before)) s

/-- The way to {lit}`State::Bulk`, with the first batch of it -/
def toBulk (s : OneBeforeAndBulk T E) (item : T) : OutPass T E :=
  match s.consumeBufGetLatest with
  | none => .panic
  | some (some before, s) => emitBefore { s with out := s.out ++ [item] } before
  | some (none, s) => .item (sitem2Data (.bulk item)) s

/-- The checks of the order of a batch: the new {lit}`tslast`, and whether the batch passes.  A container with a first
but no last timestamp is a panic. -/
def checkOrder (tslast : ℕ) (item : T) : Option (ℕ × Bool) :=
  match MergeableTy.tsMin item with
  | some tsmin =>
      if tsmin < tslast then some (tslast, false)
      else (MergeableTy.tsMax item).map fun tsmax => (tsmax, IsConsistent.isConsistent item)
  | none => some (tslast, IsConsistent.isConsistent item)

/-- Appends the begin of a batch to the buffer, which leaves the rest of the batch; {lit}`none` is a panic. -/
def buffer (s : OneBeforeAndBulk T E) (item : T) (pp : ℕ) : Option (T × OneBeforeAndBulk T E) :=
  match s.buf with
  | some buf =>
      match MergeableTy.drainInto item buf 0 pp with
      | (.done, item, buf) => some (item, { s with buf := some buf })
      | (.partially, _, _) => none
      | (.notCompatible, _, _) => none
  | none =>
      match MergeableTy.drainIntoNew item 0 pp with
      | (.done buf, item) => some (item, { s with buf := some buf })
      | (.partially _, _) => none
      | (.notCompatible, _) => none

/-- A batch in {lit}`State::Begin`, in order -/
def beginData (s : OneBeforeAndBulk T E) (item : T) : OutPass T E :=
  match MergeableTy.findLowestIndexGe item s.ts0 with
  | some 0 => toBulk { s with state := .bulk } item
  | some pp =>
      match buffer { s with state := .bulk } item pp with
      | some (item, s) => s.toBulk item
      | none => .panic
  | none =>
      match s.buffer item (MergeableTy.len item) with
      | some (_, s) => .again s
      | none => .panic

/-- A batch -/
def onData (s : OneBeforeAndBulk T E) (item : T) : OutPass T E :=
  match checkOrder s.tslast item with
  | none => .panic
  | some (tslast, false) => .item (.error .unordered) { s with state := .done, tslast := tslast }
  | some (tslast, true) =>
      let s := { s with tslast := tslast }
      match s.state with
      | .begin => s.beginData item
      | .bulk => .item (sitem2Data (.bulk item)) s
      | .done => .done s

/-- The end of the input -/
def onEnd (s : OneBeforeAndBulk T E) : OutPass T E :=
  match s.state with
  | .begin =>
      match consumeBufGetLatest { s with state := .done } with
      | none => .panic
      | some (some before, s) => s.emitBefore before
      | some (none, s) => .done s
  | .bulk => .done { s with state := .done }
  | .done => .done s

/-- {lit}`poll_next` -/
def stage : Stage (OneBeforeAndBulk T E) (Sitemty2 T E) (Sitemty2 (Output T) (Error E)) where
  own s :=
    match s.outbuf2, s.out, s.state with
    | item :: rest, _, _ => some (.item item { s with outbuf2 := rest })
    | [], item :: rest, _ => some (.item (sitem2Data (.bulk item)) { s with out := rest })
    | [], [], .begin => none
    | [], [], .bulk =>
        if s.buf.isSome then some (.item (.error .logic) { s with state := .done }) else none
    | [], [], .done => some (.done s)
  item s x :=
    match x with
    | .ok (.dataItem (.data item)) => s.onData item
    | .ok (.dataItem .rangeComplete) => .again { s with haveRangeFinal := true }
    | .ok (.log x) => .item (.ok (.log x)) s
    | .ok (.stats x) => .item (.ok (.stats x)) s
    | .error e => .item (.error (.input e)) { s with state := .done }
  last := onEnd

end Model

/-! ## What is handed out -/

section Events

variable {V E σ : Type*}

/-- The last event before the begin, where it is asked for -/
def latestBefore (oneBefore : Bool) (ts0 : ℕ) (evs : List (EventSingle V)) : List (EventSingle V) :=
  if oneBefore then (evs.filter fun ev => ev.ts < ts0).getLast?.toList else []

/-- The items {lit}`ys` are what is made of the items {lit}`xs`: the last event before the begin first, then all from
the begin on, and the log entries and statistics in order. -/
structure Separated (ts0 : ℕ) (oneBefore : Bool) (xs : List (Sitemty2 (ContainerEvents V) E))
    (ys : List (Sitemty2 (Output (ContainerEvents V)) (Error E))) : Prop where
  notes : notes2 ys = notes2 xs
  errors : errors2 ys = []
  incomplete : .ok (.dataItem .rangeComplete) ∉ ys
  datas : ∃ bs cs : List (ContainerEvents V), datas2 ys = bs.map .before ++ cs.map .bulk ∧ bs.length ≤ 1 ∧
    eventsOf bs = latestBefore oneBefore ts0 (eventsOf (datas2 xs)) ∧
    eventsOf cs = (eventsOf (datas2 xs)).filter fun ev => ts0 ≤ ev.ts

/-- No event from the begin on has come, and no data was handed out. -/
structure Waiting (ts0 : ℕ) (xs : List (Sitemty2 (ContainerEvents V) E))
    (ys : List (Sitemty2 (Output (ContainerEvents V)) (Error E))) : Prop where
  notes : notes2 ys = notes2 xs
  errors : errors2 ys = []
  incomplete : .ok (.dataItem .rangeComplete) ∉ ys
  datas : datas2 ys = []
  before : ∀ ev ∈ eventsOf (datas2 xs), ev.ts < ts0

/-- An item that ends the stream, and the error that it is answered with -/
inductive Rejected (xs : List (Sitemty2 (ContainerEvents V) E)) : Sitemty2 (ContainerEvents V) E → Error E → Prop
  | input (e : E) : Rejected xs (.error e) (.input e)
  | unordered {c : ContainerEvents V} (hunordered : ¬ TsSorted (eventsOf (datas2 xs) ++ c.evs)) :
      Rejected xs (sitem2Data c) .unordered

end Events

/-! ## Items without events -/

section Quiet

variable {V E : Type*} {ts0 : ℕ} {oneBefore : Bool} {xs : List (Sitemty2 (ContainerEvents V) E)}
  {ys zs : List (Sitemty2 (Output (ContainerEvents V)) (Error E))} {x : Sitemty2 (ContainerEvents V) E}

/-- Items that carry the notes of an item without data, and nothing else -/
structure Quiet (x : Sitemty2 (ContainerEvents V) E)
    (zs : List (Sitemty2 (Output (ContainerEvents V)) (Error E))) : Prop where
  data : data2? x = none
  noError : error2? x = none
  notes : notes2 zs = notes2 [x]
  errors : errors2 zs = []
  datas : datas2 zs = []
  incomplete : .ok (.dataItem .rangeComplete) ∉ zs

theorem quiet_complete : Quiet (V := V) (E := E) (.ok (.dataItem .rangeComplete)) [] :=
  ⟨rfl, rfl, rfl, rfl, rfl, List.not_mem_nil⟩

theorem quiet_log (l : LogItem) : Quiet (V := V) (E := E) (.ok (.log l)) [.ok (.log l)] :=
  ⟨rfl, rfl, rfl, rfl, rfl, by simp⟩

theorem quiet_stats (t : StatsItem) : Quiet (V := V) (E := E) (.ok (.stats t)) [.ok (.stats t)] :=
  ⟨rfl, rfl, rfl, rfl, rfl, by simp⟩

/-- The events do not change with an item without data. -/
theorem Quiet.datas_append (hquiet : Quiet x zs) : datas2 (xs ++ [x]) = datas2 xs := by
  simp [hquiet.data]

theorem Separated.quiet (hsep : Separated ts0 oneBefore xs ys) (hquiet : Quiet x zs) :
    Separated ts0 oneBefore (xs ++ [x]) (ys ++ zs) where
  notes := by rw [notes2_append, notes2_append, hsep.notes, hquiet.notes]
  errors := by rw [errors2_append, hsep.errors, hquiet.errors, List.append_nil]
  incomplete := by
    rw [List.mem_append, not_or]
    exact ⟨hsep.incomplete, hquiet.incomplete⟩
  datas := by
    rw [hquiet.datas_append, datas2_append, hquiet.datas, List.append_nil]
    exact hsep.datas

theorem Waiting.quiet (hwait : Waiting ts0 xs ys) (hquiet : Quiet x zs) : Waiting ts0 (xs ++ [x]) (ys ++ zs) where
  notes := by rw [notes2_append, notes2_append, hwait.notes, hquiet.notes]
  errors := by rw [errors2_append, hwait.errors, hquiet.errors, List.append_nil]
  incomplete := by
    rw [List.mem_append, not_or]
    exact ⟨hwait.incomplete, hquiet.incomplete⟩
  datas := by rw [datas2_append, hwait.datas, hquiet.datas, List.append_nil]
  before := by
    rw [hquiet.datas_append]
    exact hwait.before

end Quiet

/-! ## Batches -/

section Batches

variable {V E : Type*} [EventValueType V] {ts0 : ℕ} {evs : List (EventSingle V)} {c : ContainerEvents V}
  {s : OneBeforeAndBulk (ContainerEvents V) E}

/-- A batch passes the checks when it goes on in order. -/
theorem checkOrder_sorted (hsorted : TsSorted evs) (hall : TsSorted (evs ++ c.evs)) :
    checkOrder (lastTs 0 evs) c = some (lastTs 0 (evs ++ c.evs), true) := by
  obtain ⟨hbegin, hmono⟩ := (ContainerEvents.sorted_append_iff hsorted).mp hall
  have hcons : IsConsistent.isConsistent c = true := hmono
  rw [checkOrder]
  cases hmin : MergeableTy.tsMin c with
  | none =>
      have hevs : c.evs = [] := ContainerEvents.tsMin_eq_none.mp hmin
      simp [hcons, hevs]
  | some ts =>
      have hle := hbegin ts hmin
      obtain ⟨first, rest, hevs, _⟩ := ContainerEvents.tsMin_eq_some.mp hmin
      obtain ⟨last, hlast⟩ : ∃ last, c.evs.getLast? = some last := by
        rw [hevs]
        exact ⟨_, List.getLast?_eq_some_getLast (by simp)⟩
      have hmax : MergeableTy.tsMax c = some last.ts := by simp [ContainerEvents.tsMax, hlast]
      have hts : lastTs 0 (evs ++ c.evs) = last.ts := by
        rw [ContainerEvents.lastTs_append]
        simp [lastTs, hlast]
      simp [Nat.not_lt.mpr hle, hmax, hcons, hts]

/-- A batch out of order does not pass. -/
theorem checkOrder_unsorted (hsorted : TsSorted evs) (hall : ¬ TsSorted (evs ++ c.evs)) :
    ∃ ts, checkOrder (lastTs 0 evs) c = some (ts, false) := by
  rw [ContainerEvents.sorted_append_iff hsorted] at hall
  rw [checkOrder]
  cases hmin : MergeableTy.tsMin c with
  | none =>
      have hcons : IsConsistent.isConsistent c = false := by
        have hnone : c.tsMin = none := hmin
        simpa [IsConsistent.isConsistent, hnone] using hall
      exact ⟨lastTs 0 evs, by simp [hcons]⟩
  | some ts =>
      have hsome : c.tsMin = some ts := hmin
      dsimp only
      split_ifs with hearly
      · exact ⟨_, rfl⟩
      · have hcons : IsConsistent.isConsistent c = false := by
          simp only [hsome, Option.some.injEq, forall_eq', Nat.le_of_not_lt hearly, true_and] at hall
          simpa [IsConsistent.isConsistent] using hall
        obtain ⟨first, rest, hevs, _⟩ := ContainerEvents.tsMin_eq_some.mp hmin
        have hlast := List.getLast?_eq_some_getLast (l := c.evs) (by simp [hevs])
        exact ⟨(c.evs.getLast (by simp [hevs])).ts, by simp [ContainerEvents.tsMax, hlast, hcons]⟩

/-- The last event of the buffer is taken out of it. -/
theorem consumeBufGetLatest_eq (s : OneBeforeAndBulk (ContainerEvents V) E) :
    s.consumeBufGetLatest =
      some ((slotEvents s.buf).getLast?.map fun ev => { evs := [ev] }, { s with buf := none }) := by
  rcases s with ⟨ts0, oneBefore, state, buf, out, outbuf2, tslast, final⟩
  cases buf with
  | none => rfl
  | some buf =>
      rcases List.eq_nil_or_concat buf.evs with hevs | ⟨init, ev, hevs⟩
      · simp [consumeBufGetLatest, ContainerEvents.len, hevs]
      · rw [List.concat_eq_append] at hevs
        have hlen : buf.len - 1 = init.length := by simp [ContainerEvents.len, hevs]
        have hpos : buf.len ≠ 0 := by simp [ContainerEvents.len, hevs]
        simp [consumeBufGetLatest, hpos, ContainerEvents.drainIntoNew_suffix, hlen, hevs]

/-- The begin of a batch moves to the buffer. -/
theorem buffer_eq (s : OneBeforeAndBulk (ContainerEvents V) E) (c : ContainerEvents V) (pp : ℕ) :
    ∃ b : ContainerEvents V, b.evs = slotEvents s.buf ++ c.evs.take pp ∧
      s.buffer c pp = some ({ c with evs := c.evs.drop pp }, { s with buf := some b }) := by
  cases hbuf : s.buf with
  | none => exact ⟨{ evs := c.evs.take pp }, by simp, by simp [buffer, hbuf]⟩
  | some buf => exact ⟨{ buf with evs := buf.evs ++ c.evs.take pp }, by simp, by simp [buffer, hbuf]⟩

/-- What is left of the latest event -/
theorem emitBefore_eq (s : OneBeforeAndBulk (ContainerEvents V) E) (ev : EventSingle V) :
    ∃ b : ContainerEvents V, b.evs = (if s.oneBefore then [ev] else []) ∧
      s.emitBefore { evs := [ev] } = .item (sitem2Data (.before b)) s := by
  cases hone : s.oneBefore with
  | true => exact ⟨{ evs := [ev] }, by simp, by simp [emitBefore, hone]⟩
  | false => exact ⟨{ evs := [] }, by simp, by simp [emitBefore, hone, ContainerEvents.len]⟩

end Batches

/-! ## The invariant -/

section Run

variable {V E σ : Type*} [EventValueType V] {ts0 : ℕ} {oneBefore : Bool}
  {xs zs : List (Sitemty2 (ContainerEvents V) E)}
  {ys : List (Sitemty2 (Output (ContainerEvents V)) (Error E))} {a : OneBeforeAndBulk (ContainerEvents V) E}

/-- The batches that wait to be handed out -/
def pend (out : List (ContainerEvents V)) : List (Sitemty2 (Output (ContainerEvents V)) (Error E)) :=
  out.map fun c => sitem2Data (.bulk c)

/-- What was read is in order.  At first it is in the buffer, and then it is handed out, or waits to be. -/
structure Going (ts0 : ℕ) (oneBefore : Bool) (xs : List (Sitemty2 (ContainerEvents V) E))
    (ys : List (Sitemty2 (Output (ContainerEvents V)) (Error E))) (a : OneBeforeAndBulk (ContainerEvents V) E) :
    Prop where
  begins : a.ts0 = ts0
  asks : a.oneBefore = oneBefore
  outbuf2 : a.outbuf2 = []
  noError : errors2 xs = []
  sorted : TsSorted (eventsOf (datas2 xs))
  tslast : a.tslast = lastTs 0 (eventsOf (datas2 xs))
  phase : (a.state = .begin ∧ a.out = [] ∧ slotEvents a.buf = eventsOf (datas2 xs) ∧ Waiting ts0 xs ys) ∨
    (a.state = .bulk ∧ a.buf = none ∧ (∃ ev ∈ eventsOf (datas2 xs), ts0 ≤ ev.ts) ∧
      Separated ts0 oneBefore xs (ys ++ pend a.out))

/-- The stream has ended with an error. -/
structure Failed (ts0 : ℕ) (oneBefore : Bool) (xs : List (Sitemty2 (ContainerEvents V) E))
    (ys : List (Sitemty2 (Output (ContainerEvents V)) (Error E))) (a : OneBeforeAndBulk (ContainerEvents V) E) :
    Prop where
  state : a.state = .done
  out : a.out = []
  outbuf2 : a.outbuf2 = []
  rejects : ∃ zs x ws e, xs = zs ++ [x] ∧ ys = ws ++ [.error e] ∧ errors2 zs = [] ∧
    TsSorted (eventsOf (datas2 zs)) ∧ (Waiting ts0 zs ws ∨ Separated ts0 oneBefore zs ws) ∧ Rejected zs x e

/-- The stream has ended with its input. -/
structure Ended (ts0 : ℕ) (oneBefore : Bool) (xs : List (Sitemty2 (ContainerEvents V) E))
    (ys : List (Sitemty2 (Output (ContainerEvents V)) (Error E))) (a : OneBeforeAndBulk (ContainerEvents V) E) :
    Prop where
  state : a.state = .done
  out : a.out = []
  outbuf2 : a.outbuf2 = []
  noError : errors2 xs = []
  sorted : TsSorted (eventsOf (datas2 xs))
  separated : Separated ts0 oneBefore xs ys

/-- Where the stage polls its input, nothing waits. -/
theorem Going.of_own (hgoing : Going ts0 oneBefore xs ys a) (hown : stage.own a = none) : a.out = [] := by
  cases hout : a.out with
  | nil => rfl
  | cons item rest => simp [stage, hgoing.outbuf2, hout] at hown

omit [EventValueType V] in
/-- Before the next item either nothing came from the begin on, or all is handed out. -/
theorem Going.settled (hgoing : Going ts0 oneBefore xs ys a) (hout : a.out = []) :
    Waiting ts0 xs ys ∨ Separated ts0 oneBefore xs ys := by
  obtain ⟨_, _, _, hwait⟩ | ⟨_, _, _, hsep⟩ := hgoing.phase
  · exact .inl hwait
  · rw [hout, pend, List.map_nil, List.append_nil] at hsep
    exact .inr hsep

omit [EventValueType V] in
/-- An item without data goes on. -/
theorem Going.quiet (hgoing : Going ts0 oneBefore xs ys a) (hout : a.out = [])
    {x : Sitemty2 (ContainerEvents V) E} {zs : List (Sitemty2 (Output (ContainerEvents V)) (Error E))}
    (hquiet : Quiet x zs) (final : Bool) :
    Going ts0 oneBefore (xs ++ [x]) (ys ++ zs) { a with haveRangeFinal := final } where
  begins := hgoing.begins
  asks := hgoing.asks
  outbuf2 := hgoing.outbuf2
  noError := by simp [hgoing.noError, hquiet.noError]
  sorted := by
    rw [hquiet.datas_append]
    exact hgoing.sorted
  tslast := by
    rw [hquiet.datas_append]
    exact hgoing.tslast
  phase := by
    obtain ⟨hstate, _, hbuf, hwait⟩ | ⟨hstate, hbuf, hbulk, hsep⟩ := hgoing.phase
    · left
      rw [hquiet.datas_append]
      exact ⟨hstate, hout, hbuf, hwait.quiet hquiet⟩
    · right
      rw [hout, pend, List.map_nil, List.append_nil] at hsep
      rw [hquiet.datas_append]
      refine ⟨hstate, hbuf, hbulk, ?_⟩
      simpa [hout, pend] using hsep.quiet hquiet

omit [EventValueType V] in
/-- An error of the input, or a batch out of order, ends the stream. -/
theorem Going.fail (hgoing : Going ts0 oneBefore xs ys a) (hout : a.out = [])
    {x : Sitemty2 (ContainerEvents V) E} {e : Error E} (hrejected : Rejected xs x e) {ts : ℕ} :
    Failed ts0 oneBefore (xs ++ [x]) (ys ++ [.error e]) { a with state := .done, tslast := ts } where
  state := rfl
  out := hout
  outbuf2 := hgoing.outbuf2
  rejects := ⟨xs, x, ys, e, rfl, rfl, hgoing.noError, hgoing.sorted, hgoing.settled hout, hrejected⟩

omit [EventValueType V] in
/-- The events of one more batch -/
theorem events_snoc (xs : List (Sitemty2 (ContainerEvents V) E)) (c : ContainerEvents V) :
    eventsOf (datas2 (xs ++ [sitem2Data c])) = eventsOf (datas2 xs) ++ c.evs := by
  simp

/-- What is handed out of the buffer, with the first batch from the begin on behind it. -/
theorem toBulk_spec {s : OneBeforeAndBulk (ContainerEvents V) E} (hout : s.out = []) (item : ContainerEvents V) :
    ∃ (y : Sitemty2 (Output (ContainerEvents V)) (Error E)) (out bs : List (ContainerEvents V)),
      s.toBulk item = .item y { s with buf := none, out := out } ∧
      y :: pend out = (bs.map fun b => sitem2Data (.before b)) ++ [sitem2Data (.bulk item)] ∧ bs.length ≤ 1 ∧
      eventsOf bs = if s.oneBefore then (slotEvents s.buf).getLast?.toList else [] := by
  rw [toBulk, consumeBufGetLatest_eq]
  cases hlast : (slotEvents s.buf).getLast? with
  | none =>
      refine ⟨sitem2Data (.bulk item), [], [], ?_, rfl, Nat.zero_le _, ?_⟩
      · simp [hout]
      · split_ifs <;> rfl
  | some ev =>
      obtain ⟨b, hb, hemit⟩ := emitBefore_eq { s with buf := none, out := s.out ++ [item] } ev
      refine ⟨sitem2Data (.before b), [item], [b], ?_, rfl, le_rfl, ?_⟩
      · simpa [hout] using hemit
      · simpa using hb

omit [EventValueType V] in
/-- All that comes before the begin, and a batch from the begin on, are separated. -/
theorem Waiting.separated (hwait : Waiting ts0 xs ys) {c item : ContainerEvents V}
    {out bs : List (ContainerEvents V)} {y : Sitemty2 (Output (ContainerEvents V)) (Error E)}
    (hitems : y :: pend out = (bs.map fun b => sitem2Data (.before b)) ++ [sitem2Data (.bulk item)])
    (hlength : bs.length ≤ 1)
    (hbs : eventsOf bs = latestBefore oneBefore ts0 (eventsOf (datas2 xs) ++ c.evs))
    (hitem : item.evs = c.evs.filter fun ev => ts0 ≤ ev.ts) :
    Separated ts0 oneBefore (xs ++ [sitem2Data c]) (ys ++ y :: pend out) where
  notes := by
    rw [notes2_append, hitems, notes2_append, notes2_map_data, hwait.notes]
    simp
  errors := by
    rw [errors2_append, hitems, errors2_append, errors2_map_data, hwait.errors]
    simp
  incomplete := by
    rw [hitems]
    simp [hwait.incomplete]
  datas := by
    refine ⟨bs, [item], ?_, hlength, ?_, ?_⟩
    · rw [datas2_append, hitems, datas2_append, datas2_map_data, hwait.datas]
      simp
    · rw [events_snoc]
      exact hbs
    · have hnone : (eventsOf (datas2 xs)).filter (fun ev => decide (ts0 ≤ ev.ts)) = [] := by
        apply List.filter_eq_nil_iff.mpr
        intro ev hev
        simpa using hwait.before ev hev
      rw [events_snoc, List.filter_append, hnone]
      simp [hitem]

omit [EventValueType V] in
/-- The batches that are all before the begin -/
theorem Going.stay (hgoing : Going ts0 oneBefore xs ys a) (hwait : Waiting ts0 xs ys)
    (hstate : a.state = .begin) (hout : a.out = []) {b c : ContainerEvents V}
    (hsorted : TsSorted (eventsOf (datas2 xs) ++ c.evs)) (hbefore : ∀ ev ∈ c.evs, ev.ts < ts0)
    (hb : b.evs = eventsOf (datas2 xs) ++ c.evs) :
    Going ts0 oneBefore (xs ++ [sitem2Data c]) ys
      { a with tslast := lastTs 0 (eventsOf (datas2 xs) ++ c.evs), buf := some b } where
  begins := hgoing.begins
  asks := hgoing.asks
  outbuf2 := hgoing.outbuf2
  noError := by simp [hgoing.noError]
  sorted := by
    rw [events_snoc]
    exact hsorted
  tslast := by rw [events_snoc]
  phase := by
    refine .inl ⟨hstate, hout, ?_, ?_, hwait.errors, hwait.incomplete, hwait.datas, ?_⟩
    · rw [events_snoc, ContainerEvents.slotEvents_some, hb]
    · simpa using hwait.notes
    · intro ev hev
      rw [events_snoc] at hev
      rcases List.mem_append.mp hev with hev | hev
      · exact hwait.before ev hev
      · exact hbefore ev hev

/-- The way to the bulk, where the buffer has all that comes before the begin -/
theorem Going.turn (hgoing : Going ts0 oneBefore xs ys a) (hwait : Waiting ts0 xs ys) (hout : a.out = [])
    {c item : ContainerEvents V} {buf : Option (ContainerEvents V)}
    (hsorted : TsSorted (eventsOf (datas2 xs) ++ c.evs))
    (hbuf : slotEvents buf = eventsOf (datas2 xs) ++ c.evs.filter fun ev => ev.ts < ts0)
    (hitem : item.evs = c.evs.filter fun ev => ts0 ≤ ev.ts) (hsome : item.evs ≠ []) :
    (toBulk { a with tslast := lastTs 0 (eventsOf (datas2 xs) ++ c.evs), state := .bulk, buf := buf }
      item).Ensures ys (Going ts0 oneBefore (xs ++ [sitem2Data c])) := by
  obtain ⟨y, out, bs, hpass, hitems, hlength, hbs⟩ := toBulk_spec (s :=
    { a with tslast := lastTs 0 (eventsOf (datas2 xs) ++ c.evs), state := .bulk, buf := buf }) hout item
  rw [hpass]
  refine ⟨hgoing.begins, hgoing.asks, hgoing.outbuf2, ?_, ?_, ?_, .inr ⟨rfl, rfl, ?_, ?_⟩⟩
  · simp [hgoing.noError]
  · rw [events_snoc]
    exact hsorted
  · rw [events_snoc]
  · obtain ⟨ev, hev⟩ := List.exists_mem_of_ne_nil _ hsome
    rw [hitem, List.mem_filter, decide_eq_true_eq] at hev
    exact ⟨ev, by rw [events_snoc]; exact List.mem_append_right _ hev.1, hev.2⟩
  · rw [List.append_assoc, List.singleton_append]
    apply hwait.separated hitems hlength _ hitem
    have hall : (eventsOf (datas2 xs)).filter (fun ev => decide (ev.ts < ts0)) = eventsOf (datas2 xs) := by
      apply List.filter_eq_self.mpr
      intro ev hev
      simpa using hwait.before ev hev
    rw [hbs, latestBefore, List.filter_append, hall, ← hbuf]
    simp [hgoing.asks]

/-- A batch before the bulk, in order -/
theorem Going.beginData (hgoing : Going ts0 oneBefore xs ys a) (hwait : Waiting ts0 xs ys)
    (hstate : a.state = .begin) (hout : a.out = []) (hbuf : slotEvents a.buf = eventsOf (datas2 xs))
    {c : ContainerEvents V} (hsorted : TsSorted (eventsOf (datas2 xs) ++ c.evs)) :
    (OneBeforeAndBulk.beginData { a with tslast := lastTs 0 (eventsOf (datas2 xs) ++ c.evs) } c).Ensures ys
      (Going ts0 oneBefore (xs ++ [sitem2Data c])) := by
  have hbatch : TsSorted c.evs := (sortedBy_append.mp hsorted).2.1
  obtain rfl := hgoing.begins
  cases hfind : c.findLowestIndexGe a.ts0 with
  | none =>
      have hbefore := ContainerEvents.findLowestIndexGe_eq_none.mp hfind
      obtain ⟨b, hb, hpass⟩ := buffer_eq { a with tslast := lastTs 0 (eventsOf (datas2 xs) ++ c.evs) } c c.len
      have htake : c.evs.take c.len = c.evs := List.take_length
      simp only [OneBeforeAndBulk.beginData, ContainerEvents.mergeable_findLowestIndexGe, hfind,
        ContainerEvents.mergeable_len, hpass]
      apply hgoing.stay hwait hstate hout hsorted hbefore
      rw [hb, htake, hbuf]
  | some pp =>
      obtain ⟨hlt, htake, hdrop⟩ := ContainerEvents.findLowestIndexGe_eq_some hbatch hfind
      have hrest : c.evs.drop pp ≠ [] := by
        rw [ne_eq, List.drop_eq_nil_iff, not_le]
        exact hlt
      cases pp with
      | zero =>
          rw [List.take_zero] at htake
          simp only [OneBeforeAndBulk.beginData, ContainerEvents.mergeable_findLowestIndexGe, hfind]
          apply hgoing.turn hwait hout hsorted
          · rw [← htake, List.append_nil]
            exact hbuf
          · rw [← hdrop, List.drop_zero]
          · exact hrest
      | succ pp =>
          obtain ⟨b, hb, hpass⟩ := buffer_eq
            { a with tslast := lastTs 0 (eventsOf (datas2 xs) ++ c.evs), state := .bulk } c (pp + 1)
          simp only [OneBeforeAndBulk.beginData, ContainerEvents.mergeable_findLowestIndexGe, hfind, hpass]
          apply hgoing.turn hwait hout hsorted
          · rw [ContainerEvents.slotEvents_some, hb, htake, ← hbuf]
          · exact hdrop
          · exact hrest

omit [EventValueType V] in
/-- A batch in the bulk, in order -/
theorem Going.bulkData (hgoing : Going ts0 oneBefore xs ys a) (hsep : Separated ts0 oneBefore xs ys)
    (hstate : a.state = .bulk) (hbuf : a.buf = none) (hout : a.out = []) {c : ContainerEvents V}
    (hsorted : TsSorted (eventsOf (datas2 xs) ++ c.evs)) (hsome : ∃ ev ∈ eventsOf (datas2 xs), ts0 ≤ ev.ts) :
    Going ts0 oneBefore (xs ++ [sitem2Data c]) (ys ++ [sitem2Data (.bulk c)])
      { a with tslast := lastTs 0 (eventsOf (datas2 xs) ++ c.evs) } where
  begins := hgoing.begins
  asks := hgoing.asks
  outbuf2 := hgoing.outbuf2
  noError := by simp [hgoing.noError]
  sorted := by
    rw [events_snoc]
    exact hsorted
  tslast := by rw [events_snoc]
  phase := by
    obtain ⟨first, hfirst, hts⟩ := hsome
    have hbulk : ∀ ev ∈ c.evs, ts0 ≤ ev.ts := by
      intro ev hev
      exact hts.trans ((sortedBy_append.mp hsorted).2.2 first hfirst ev hev)
    refine .inr ⟨hstate, hbuf, ⟨first, by rw [events_snoc]; exact List.mem_append_left _ hfirst, hts⟩, ?_⟩
    rw [hout, pend, List.map_nil, List.append_nil]
    refine ⟨by simpa using hsep.notes, by simpa using hsep.errors, by simpa using hsep.incomplete, ?_⟩
    obtain ⟨bs, cs, hdatas, hlength, hbs, hcs⟩ := hsep.datas
    have hnone : c.evs.filter (fun ev => decide (ev.ts < ts0)) = [] := by
      apply List.filter_eq_nil_iff.mpr
      intro ev hev
      simpa using hbulk ev hev
    have hall : c.evs.filter (fun ev => decide (ts0 ≤ ev.ts)) = c.evs := by
      apply List.filter_eq_self.mpr
      intro ev hev
      simpa using hbulk ev hev
    refine ⟨bs, cs ++ [c], ?_, hlength, ?_, ?_⟩
    · simp [hdatas]
    · rw [events_snoc, latestBefore, List.filter_append, hnone, List.append_nil]
      exact hbs
    · rw [events_snoc, List.filter_append, hall, ContainerEvents.eventsOf_append, hcs]
      simp

/-- A batch that passes the checks before the bulk -/
theorem onData_begin {c : ContainerEvents V} {ts : ℕ} (hcheck : checkOrder a.tslast c = some (ts, true))
    (hstate : a.state = .begin) : a.onData c = OneBeforeAndBulk.beginData { a with tslast := ts } c := by
  simp [onData, hcheck, hstate]

/-- A batch that passes the checks in the bulk -/
theorem onData_bulk {c : ContainerEvents V} {ts : ℕ} (hcheck : checkOrder a.tslast c = some (ts, true))
    (hstate : a.state = .bulk) : a.onData c = .item (sitem2Data (.bulk c)) { a with tslast := ts } := by
  simp [onData, hcheck, hstate]

/-- A batch goes on in order, or ends the stream. -/
theorem step_data (hgoing : Going ts0 oneBefore xs ys a) (hout : a.out = []) (c : ContainerEvents V) :
    (a.onData c).Ensures ys fun zs b =>
      Going ts0 oneBefore (xs ++ [sitem2Data c]) zs b ∨ Failed ts0 oneBefore (xs ++ [sitem2Data c]) zs b := by
  by_cases hall : TsSorted (eventsOf (datas2 xs) ++ c.evs)
  · have hcheck := checkOrder_sorted hgoing.sorted hall
    rw [← hgoing.tslast] at hcheck
    obtain ⟨hstate, _, hbuf, hwait⟩ | ⟨hstate, hbuf, hsome, hsep⟩ := hgoing.phase
    · rw [onData_begin hcheck hstate]
      apply (hgoing.beginData hwait hstate hout hbuf hall).mono
      intro zs b hb
      exact .inl hb
    · rw [hout, pend, List.map_nil, List.append_nil] at hsep
      rw [onData_bulk hcheck hstate]
      exact .inl (hgoing.bulkData hsep hstate hbuf hout hall hsome)
  · obtain ⟨ts, hcheck⟩ := checkOrder_unsorted hgoing.sorted hall
    rw [onData, hgoing.tslast, hcheck]
    exact .inr (hgoing.fail hout (.unordered hall))

omit [EventValueType V] in
/-- The state before the end -/
theorem Going.state_ne_done (hgoing : Going ts0 oneBefore xs ys a) : a.state ≠ .done := by
  obtain ⟨hstate, _⟩ | ⟨hstate, _⟩ := hgoing.phase
  · simp [hstate]
  · simp [hstate]

/-- A batch does not end the stream without an item. -/
theorem onData_ne_done (hstate : a.state ≠ .done) (c : ContainerEvents V)
    (b : OneBeforeAndBulk (ContainerEvents V) E) : a.onData c ≠ .done b := by
  have hbulk : ∀ (s : OneBeforeAndBulk (ContainerEvents V) E) item, s.toBulk item ≠ .done b := by
    intro s item hdone
    rw [toBulk, consumeBufGetLatest_eq] at hdone
    cases hlast : (slotEvents s.buf).getLast? with
    | none => simp [hlast] at hdone
    | some ev => simp [hlast, emitBefore] at hdone
  intro hdone
  rw [onData] at hdone
  split at hdone
  · cases hdone
  · cases hdone
  · dsimp only at hdone
    split at hdone
    · rw [OneBeforeAndBulk.beginData] at hdone
      split at hdone
      · exact hbulk _ _ hdone
      · split at hdone
        · exact hbulk _ _ hdone
        · cases hdone
      · split at hdone <;> cases hdone
    · cases hdone
    · contradiction

/-- At the end of the input nothing but the latest event before the begin is left. -/
theorem step_end (hgoing : Going ts0 oneBefore xs ys a) (hout : a.out = []) :
    a.onEnd.Ensures ys (Ended ts0 oneBefore xs) ∧
      ∀ b, a.onEnd = .done b → Separated ts0 oneBefore xs ys := by
  obtain ⟨hstate, _, hbuf, hwait⟩ | ⟨hstate, _, _, hsep⟩ := hgoing.phase
  · have hall : (eventsOf (datas2 xs)).filter (fun ev => decide (ev.ts < ts0)) = eventsOf (datas2 xs) := by
      apply List.filter_eq_self.mpr
      intro ev hev
      simpa using hwait.before ev hev
    have hnone : (eventsOf (datas2 xs)).filter (fun ev => decide (ts0 ≤ ev.ts)) = [] := by
      apply List.filter_eq_nil_iff.mpr
      intro ev hev
      simpa using hwait.before ev hev
    have hconsume := consumeBufGetLatest_eq { a with state := .done }
    rw [onEnd, hstate]
    dsimp only at hconsume ⊢
    rw [hconsume, hbuf]
    cases hlast : (eventsOf (datas2 xs)).getLast? with
    | none =>
        refine ⟨trivial, fun b _ => ⟨hwait.notes, hwait.errors, hwait.incomplete, [], [], hwait.datas,
          Nat.zero_le _, ?_, ?_⟩⟩
        · rw [latestBefore, hall, hlast]
          split_ifs <;> rfl
        · rw [hnone]
          rfl
    | some ev =>
        obtain ⟨b, hb, hemit⟩ := emitBefore_eq { a with state := .done, buf := none } ev
        dsimp only [Option.map_some] at hemit ⊢
        rw [hemit]
        refine ⟨⟨rfl, hout, hgoing.outbuf2, hgoing.noError, hgoing.sorted, ?_⟩, ?_⟩
        on_goal 2 =>
          intro c hc
          cases hc
        refine ⟨by simpa using hwait.notes, by simpa using hwait.errors, by simpa using hwait.incomplete, [b], [], ?_,
          le_rfl, ?_, ?_⟩
        · simp [hwait.datas]
        · rw [latestBefore, hall, hlast]
          simpa [hgoing.asks] using hb
        · rw [hnone]
          rfl
  · rw [hout, pend, List.map_nil, List.append_nil] at hsep
    rw [onEnd, hstate]
    exact ⟨trivial, fun _ _ => hsep⟩

/-- A pass keeps the invariant. -/
theorem keeps : stage.Keeps (fun _ => True)
    (fun xs ys (a : OneBeforeAndBulk (ContainerEvents V) E) =>
      Going ts0 oneBefore xs ys a ∨ Failed ts0 oneBefore xs ys a)
    (Ended ts0 oneBefore) where
  own := by
    rintro xs ys a p (hgoing | hfailed) hown
    · cases hout : a.out with
      | nil =>
          obtain ⟨hstate, _⟩ | ⟨hstate, hbuf, _⟩ := hgoing.phase
          · simp [stage, hgoing.outbuf2, hout, hstate] at hown
          · simp [stage, hgoing.outbuf2, hout, hstate, hbuf] at hown
      | cons item rest =>
          simp only [stage, hgoing.outbuf2, hout, Option.some.injEq] at hown
          subst hown
          obtain ⟨_, hnil, _⟩ | ⟨hstate, hbuf, hsome, hsep⟩ := hgoing.phase
          · rw [hout] at hnil
            cases hnil
          · refine .inl ⟨hgoing.begins, hgoing.asks, rfl, hgoing.noError, hgoing.sorted, hgoing.tslast,
              .inr ⟨hstate, hbuf, hsome, ?_⟩⟩
            rw [hout] at hsep
            simpa [pend] using hsep
    · simp only [stage, hfailed.outbuf2, hfailed.out, hfailed.state, Option.some.injEq] at hown
      subst hown
      trivial
  item := by
    rintro xs ys a x _ (hgoing | hfailed) hown
    · have hout := hgoing.of_own hown
      cases x with
      | error e => exact .inr (hgoing.fail hout (.input e))
      | ok x =>
          cases x with
          | dataItem d =>
              cases d with
              | rangeComplete =>
                  have hnext := hgoing.quiet hout quiet_complete true
                  rw [List.append_nil] at hnext
                  exact .inl hnext
              | data c => exact step_data hgoing hout c
          | log l => exact .inl (hgoing.quiet hout (quiet_log l) a.haveRangeFinal)
          | stats t => exact .inl (hgoing.quiet hout (quiet_stats t) a.haveRangeFinal)
    · simp [stage, hfailed.outbuf2, hfailed.out, hfailed.state] at hown
  last := by
    rintro xs ys a (hgoing | hfailed) hown
    · exact (step_end hgoing (hgoing.of_own hown)).1
    · simp [stage, hfailed.outbuf2, hfailed.out, hfailed.state] at hown
  after := by
    intro xs ys a hended
    refine ⟨.done a, ?_, trivial⟩
    simp [stage, hended.outbuf2, hended.out, hended.state]

/-- What the stage does by itself empties its queues. -/
theorem own_lowers (a b : OneBeforeAndBulk (ContainerEvents V) E) (p) (hown : stage.own a = some p)
    (hnext : p.next? = some b) :
    b.outbuf2.length + b.out.length + (if b.state = .done then 0 else 1) <
      a.outbuf2.length + a.out.length + (if a.state = .done then 0 else 1) := by
  simp only [stage] at hown
  split at hown
  · obtain rfl := Option.some.inj hown
    obtain rfl := Option.some.inj hnext
    simp [*]
  · obtain rfl := Option.some.inj hown
    obtain rfl := Option.some.inj hnext
    simp [*]
  · cases hown
  · split_ifs at hown
    obtain rfl := Option.some.inj hown
    obtain rfl := Option.some.inj hnext
    simp [*]
  · obtain rfl := Option.some.inj hown
    cases hnext

/-- What has been handed out at the end of a stream, up to its end or to an item that was rejected. -/
def Separates (ts0 : ℕ) (oneBefore : Bool) (xs : List (Sitemty2 (ContainerEvents V) E))
    (ys : List (Sitemty2 (Output (ContainerEvents V)) (Error E))) : Prop :=
  (errors2 xs = [] ∧ TsSorted (eventsOf (datas2 xs)) ∧ Separated ts0 oneBefore xs ys) ∨
    ∃ zs x rest ws e, xs = zs ++ x :: rest ∧ ys = ws ++ [.error e] ∧ errors2 zs = [] ∧
      TsSorted (eventsOf (datas2 zs)) ∧ (Waiting ts0 zs ws ∨ Separated ts0 oneBefore zs ws) ∧ Rejected zs x e

/-- However the stage ends, it has handed out what it should. -/
theorem separates_of_closes
    (hcloses : stage.Closes
      (fun xs ys (a : OneBeforeAndBulk (ContainerEvents V) E) =>
        Going ts0 oneBefore xs ys a ∨ Failed ts0 oneBefore xs ys a)
      (Ended ts0 oneBefore) xs ys) : Separates ts0 oneBefore xs ys := by
  cases hcloses with
  | @early zs a b hprefix hinv hdone =>
      rcases hinv with hgoing | hfailed
      · cases hout : a.out with
        | nil =>
            obtain ⟨hstate, _⟩ | ⟨hstate, hbuf, _⟩ := hgoing.phase
            · simp [stage, hgoing.outbuf2, hout, hstate] at hdone
            · simp [stage, hgoing.outbuf2, hout, hstate, hbuf] at hdone
        | cons item rest => simp [stage, hgoing.outbuf2, hout] at hdone
      · obtain ⟨zs', x, ws, e, rfl, rfl, hrejects⟩ := hfailed.rejects
        obtain ⟨rest, rfl⟩ := hprefix
        exact .inr ⟨zs', x, rest, ws, e, by simp, rfl, hrejects⟩
  | @onItem zs x a b hprefix hinv hown hdone =>
      rcases hinv with hgoing | hfailed
      · cases x with
        | error e => cases hdone
        | ok x =>
            cases x with
            | dataItem d =>
                cases d with
                | rangeComplete => cases hdone
                | data c => exact absurd hdone (onData_ne_done hgoing.state_ne_done c b)
            | log l => cases hdone
            | stats t => cases hdone
      · simp [stage, hfailed.outbuf2, hfailed.out, hfailed.state] at hown
  | @onLast a b hinv hown hdone =>
      rcases hinv with hgoing | hfailed
      · exact .inl ⟨hgoing.noError, hgoing.sorted, (step_end hgoing (hgoing.of_own hown)).2 b hdone⟩
      · simp [stage, hfailed.outbuf2, hfailed.out, hfailed.state] at hown
  | late hended _ => exact .inl ⟨hended.noError, hended.sorted, hended.separated⟩

omit [EventValueType V] in
/-- Before the first item -/
theorem going_new (ts0 : ℕ) (oneBefore : Bool) :
    Going ts0 oneBefore ([] : List (Sitemty2 (ContainerEvents V) E)) [] (new ts0 oneBefore) :=
  ⟨rfl, rfl, rfl, rfl, List.Pairwise.nil, rfl, .inl ⟨rfl, rfl, rfl, rfl, rfl, List.not_mem_nil, rfl, by simp⟩⟩

/-- {lit}`OneBeforeAndBulk` over a stream that ends: it ends, and has handed out the latest event before the begin,
where that is asked for, and all events from the begin on.  An error of the stream, or a batch out of order, ends
it before, with an error. -/
theorem separates {next : σ → Pass σ (Sitemty2 (ContainerEvents V) E)} {s : σ} (hnext : Drains next s xs)
    (ts0 : ℕ) (oneBefore : Bool) :
    ∃ ys, Drains (stage.pass next) (s, new ts0 oneBefore) ys ∧ Separates ts0 oneBefore xs ys := by
  obtain ⟨ys, hys, hcloses⟩ := keeps.drains _ own_lowers hnext (fun _ _ => trivial) (.inl (going_new ts0 oneBefore))
  exact ⟨ys, hys, separates_of_closes hcloses⟩

/-- Two batches before the begin, and one around it -/
theorem separates_around :
    ∃ ys, Drains ((stage (T := ContainerEvents UInt8) (E := Empty)).pass Script.next)
        ([.ready (sitem2Data { evs := [⟨1, 5⟩, ⟨2, 6⟩] }), .pending, .ready (sitem2Data { evs := [⟨3, 7⟩, ⟨4, 8⟩] })],
          new 4 true) ys ∧
      Separates (V := UInt8) 4 true [sitem2Data { evs := [⟨1, 5⟩, ⟨2, 6⟩] }, sitem2Data { evs := [⟨3, 7⟩, ⟨4, 8⟩] }] ys :=
  separates (Script.drains_next _) 4 true

end Run

end OneBeforeAndBulk

end Scylla
end Daqbuf
