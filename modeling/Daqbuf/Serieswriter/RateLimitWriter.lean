import Daqbuf.Serieswriter.Writer
/-!
# Rate Limited Writer

A rate limited writer drops events that follow too soon after the one it wrote last, unless it is told to
write.  Durations are natural numbers of nanoseconds; the build for deployment does not check for
overflow.

Main results:

- Theorem {lit}`RateLimitWriter.write_cases`: a write is dropped or goes to the series writer.
- Theorem {lit}`RateLimitWriter.Ordered.put`: writing newer events keeps what was pushed in order.
-/

namespace Daqbuf
namespace Serieswriter

open Netpod

/-- {lit}`ratelimitwriter::WriteRes` -/
structure RateLimitWriteRes where
  accept : Bool
  bytes : ℕ
  mspRewrite : ℕ
  ignoreMonitorNotMinQuiet : ℕ
  ignorePollNotMinQuiet : ℕ
  ignoreRateCap : ℕ
  deriving DecidableEq, Repr

/-- {lit}`RateLimitWriter` -/
structure RateLimitWriter (ET S : Type) where
  minQuiet : ℕ
  isPolled : Bool
  emitState : S
  lastInsertTs : ℕ
  lastInsertVal : Option ET
  writer : SeriesWriter

namespace RateLimitWriter

variable {ET S D : Type} [EmittableType ET S D]

/-- {lit}`new` -/
def new (series minQuiet : ℕ) (isPolled : Bool) (emitState : S) (spl : MspSplitDyn) (tsnow : ℕ) :
    RateLimitWriter ET S where
  minQuiet := minQuiet
  isPolled := isPolled
  emitState := emitState
  lastInsertTs := 0
  lastInsertVal := none
  writer := SeriesWriter.new series spl tsnow

/-- The minimal quiet time in milliseconds, as {lit}`write` computes it. -/
def minQuietMs (s : RateLimitWriter ET S) : ℕ :=
  (1000 * (s.minQuiet / Timeunits.sec) + s.minQuiet % Timeunits.sec / 1000000) % 2 ^ 64

/-- The event is handed to the series writer. -/
def put (s : RateLimitWriter ET S) (item : ET) (tsNet tsev tsnow : ℕ) (deque : List (QueryItem D)) :
    RateLimitWriteRes × RateLimitWriter ET S × List (QueryItem D) :=
  let res := s.writer.write item s.emitState tsNet tsev tsnow deque
  (⟨true, res.1.bytes, res.1.mspRewrite, 0, 0, 0⟩,
    { s with
      lastInsertTs := tsev
      lastInsertVal := some item
      writer := res.2.1
      emitState := res.2.2.1 },
    res.2.2.2)

/-- {lit}`write_force` -/
def writeForce (s : RateLimitWriter ET S) (item : ET) (tsNet tsev tsnow : ℕ)
    (deque : List (QueryItem D)) : RateLimitWriteRes × RateLimitWriter ET S × List (QueryItem D) :=
  s.put item tsNet tsev tsnow deque

/-- {lit}`write` -/
def write (s : RateLimitWriter ET S) (item : ET) (tsNet tsev tsnow : ℕ) (deque : List (QueryItem D)) :
    RateLimitWriteRes × RateLimitWriter ET S × List (QueryItem D) :=
  let tsl := s.lastInsertTs
  let quietUntil := (toTsMs tsl + s.minQuietMs) % 2 ^ 64
  if ¬ s.isPolled ∧ toTsMs tsev < quietUntil then
    (⟨false, 0, 0, 1, 0, 0⟩, s, deque)
  else if s.isPolled ∧ toTsMs tsev + 800 < quietUntil then
    (⟨false, 0, 0, 0, 1, 0⟩, s, deque)
  else if tsev < (tsl + 1000000) % 2 ^ 64 then
    (⟨false, 0, 0, 0, 0, 1⟩, s, deque)
  else
    s.put item tsNet tsev tsnow deque

/-- {lit}`tick` -/
def tick (s : RateLimitWriter ET S) (deque : List (QueryItem D)) :
    RateLimitWriter ET S × List (QueryItem D) :=
  ({ s with writer := (s.writer.tick deque).1 }, (s.writer.tick deque).2)

/-- {lit}`on_close` -/
def onClose (s : RateLimitWriter ET S) (tsnow : ℕ) (deque : List (QueryItem D)) :
    RateLimitWriter ET S × List (QueryItem D) :=
  let res := s.writer.onClose tsnow deque
  ({ s with writer := res.2.1 }, res.2.2)

/-- {lit}`housekeeping`; the first component is {lit}`ts_msp_reput`. -/
def housekeeping (s : RateLimitWriter ET S) (tsnow : ℕ) (deque : List (QueryItem D)) :
    ℕ × RateLimitWriter ET S × List (QueryItem D) :=
  let res := s.writer.housekeeping tsnow deque
  (res.1, { s with writer := res.2.1 }, res.2.2)

/-- A write is dropped, or the event is handed to the series writer. -/
theorem write_cases (s : RateLimitWriter ET S) (item : ET) (tsNet tsev tsnow : ℕ)
    (deque : List (QueryItem D)) :
    ((s.write item tsNet tsev tsnow deque).1.accept = false ∧
      (s.write item tsNet tsev tsnow deque).2 = (s, deque)) ∨
    s.write item tsNet tsev tsnow deque = s.put item tsNet tsev tsnow deque := by
  rw [write]
  split
  · exact .inl ⟨rfl, rfl⟩
  · split
    · exact .inl ⟨rfl, rfl⟩
    · split
      · exact .inl ⟨rfl, rfl⟩
      · exact .inr rfl

/-- The value that is pushed for an event. -/
def IsValueOf (v : ET) (ts : ℕ) (item : InsertItem D) : Prop :=
  item.ts = ts ∧ ∃ tsNet state, item.val = (EmittableType.intoQueryItem v tsNet ts state).1.dataItem

/-- What was pushed is in order, and the last of it is the event that the writer remembers. -/
structure Ordered (s : RateLimitWriter ET S) (deque : List (QueryItem D)) : Prop where
  sound : s.writer.mspSplit.Sound s.lastInsertTs
  increasing : ((inserts deque).map InsertItem.ts).Pairwise (· < ·)
  bounded : ∀ item ∈ inserts deque, item.ts ≤ s.lastInsertTs
  newest : ∀ v, s.lastInsertVal = some v →
    ∃ item, (inserts deque).getLast? = some item ∧ IsValueOf v s.lastInsertTs item
  empty : s.lastInsertVal = none → inserts deque = [] ∧ s.lastInsertTs = 0

omit [EmittableType ET S D] in
theorem new_sound (series countMax bytesMax tsnow : ℕ) (rt : RetentionTime) :
    (SeriesWriter.new series (MspSplitDyn.new countMax bytesMax rt) tsnow).mspSplit.Sound 0 := by
  intro m hm
  simp [SeriesWriter.new, MspSplitDyn.new] at hm

theorem new_ordered (series minQuiet : ℕ) (isPolled : Bool) (emitState : S)
    (countMax bytesMax tsnow : ℕ) (rt : RetentionTime) :
    Ordered (new series minQuiet isPolled emitState (MspSplitDyn.new countMax bytesMax rt) tsnow :
      RateLimitWriter ET S) ([] : List (QueryItem D)) where
  sound := new_sound series countMax bytesMax tsnow rt
  increasing := List.Pairwise.nil
  bounded := by simp
  newest := by simp [new]
  empty := fun _ => ⟨rfl, rfl⟩

/-- A newer event. -/
theorem Ordered.put {s : RateLimitWriter ET S} {deque : List (QueryItem D)} (hord : Ordered s deque)
    (item : ET) (tsNet tsev tsnow : ℕ) (hts : s.lastInsertTs < tsev) :
    Ordered (s.put item tsNet tsev tsnow deque).2.1 (s.put item tsNet tsev tsnow deque).2.2 := by
  rcases SeriesWriter.inserts_write hord.sound item s.emitState tsNet tsev tsnow hts.le deque with
    ⟨hsound, pushed, hpushed, hval, hinserts⟩
  refine ⟨hsound, ?_, ?_, ?_, ?_⟩
  · rw [RateLimitWriter.put, hinserts, List.map_append, List.pairwise_append]
    refine ⟨hord.increasing, List.pairwise_singleton _ _, ?_⟩
    intro old hold new hnew
    rcases List.mem_map.mp hold with ⟨other, hother, rfl⟩
    rw [List.map_singleton, List.mem_singleton] at hnew
    rw [hnew, hpushed]
    exact (hord.bounded other hother).trans_lt hts
  · intro other hmem
    rw [RateLimitWriter.put, hinserts] at hmem
    rcases List.mem_append.mp hmem with hold | hnew
    · exact (hord.bounded other hold).trans hts.le
    · rw [List.mem_singleton.mp hnew, hpushed]
      rfl
  · intro v hv
    obtain rfl : item = v := Option.some.inj hv
    refine ⟨pushed, ?_, hpushed, tsNet, s.emitState, hval⟩
    rw [RateLimitWriter.put, hinserts, List.getLast?_append]
    rfl
  · intro hnone
    simp [RateLimitWriter.put] at hnone

/-- Entries can be pushed, and the rest of the series writer can change. -/
theorem Ordered.congr {s t : RateLimitWriter ET S} {deque deque' : List (QueryItem D)}
    (hord : Ordered s deque) (hsplit : t.writer.mspSplit = s.writer.mspSplit)
    (hts : t.lastInsertTs = s.lastInsertTs) (hval : t.lastInsertVal = s.lastInsertVal)
    (hinserts : inserts deque' = inserts deque) : Ordered t deque' := by
  refine ⟨?_, ?_, ?_, ?_, ?_⟩
  · rw [hsplit, hts]
    exact hord.sound
  · rw [hinserts]
    exact hord.increasing
  · rw [hinserts, hts]
    exact hord.bounded
  · rw [hinserts, hts, hval]
    exact hord.newest
  · rw [hinserts, hts, hval]
    exact hord.empty

/-- The remembered event is the newest one in the store exactly when the times agree. -/
theorem Ordered.newest_iff {s : RateLimitWriter ET S} {deque : List (QueryItem D)}
    (hord : Ordered s deque) {v : ET} {ts : ℕ}
    (hval : s.lastInsertTs = ts → s.lastInsertVal = some v) :
    (∃ item, (inserts deque).getLast? = some item ∧ IsValueOf v ts item) ↔ s.lastInsertTs = ts := by
  constructor
  · rintro ⟨item, hlast, hitem, -⟩
    cases hsome : s.lastInsertVal with
    | none =>
        rw [(hord.empty hsome).1] at hlast
        simp at hlast
    | some w =>
        rcases hord.newest w hsome with ⟨item', hlast', hitem', -⟩
        rw [hlast] at hlast'
        rw [← hitem', ← hitem, Option.some.inj hlast']
  · intro heq
    rw [← heq]
    exact hord.newest v (hval heq)

omit [EmittableType ET S D] in
/-- Closing pushes entries only. -/
theorem onClose_spec (s : RateLimitWriter ET S) (tsnow : ℕ) (deque : List (QueryItem D)) :
    (s.onClose tsnow deque).1 = s ∧ inserts (s.onClose tsnow deque).2 = inserts deque := by
  rcases SeriesWriter.onClose_cases s.writer tsnow deque with ⟨reput, msps, heq, hmsps⟩
  rw [onClose, heq]
  exact ⟨rfl, by rw [inserts_append, SeriesWriter.inserts_eq_nil hmsps, List.append_nil]⟩

omit [EmittableType ET S D] in
/-- Housekeeping pushes entries only. -/
theorem housekeeping_spec (s : RateLimitWriter ET S) (tsnow : ℕ) (deque : List (QueryItem D)) :
    (s.housekeeping tsnow deque).2.1.lastInsertTs = s.lastInsertTs ∧
      (s.housekeeping tsnow deque).2.1.lastInsertVal = s.lastInsertVal ∧
      (s.housekeeping tsnow deque).2.1.writer.mspSplit = s.writer.mspSplit ∧
      inserts (s.housekeeping tsnow deque).2.2 = inserts deque := by
  rcases SeriesWriter.housekeeping_cases s.writer tsnow deque with
    ⟨reput, check, put, latest, msps, heq, hmsps⟩
  rw [housekeeping, heq]
  exact ⟨rfl, rfl, rfl, by rw [inserts_append, SeriesWriter.inserts_eq_nil hmsps, List.append_nil]⟩

end RateLimitWriter

end Serieswriter
end Daqbuf
