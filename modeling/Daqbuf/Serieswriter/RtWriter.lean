import Daqbuf.Serieswriter.RateLimitWriter
/-!
# Retention Time Writer

An event goes to three rate limited writers, one for each retention time.  A tick gives a store that has
been quiet the newest event that another store holds.

No operation of the writers can fail; one call reads the monotonic clock once.

Main results:

- Theorem {lit}`RtWriter.write_cases`: a write is ignored, or the three writers decide on it.
- Theorem {lit}`RtWriter.Consistent.checkQuietReput_eq`: what a tick writes, in terms of which stores lag.
- Theorem {lit}`RtRun.run_ordered`: every store gets its events in order, and none that was not accepted.
-/

namespace Daqbuf
namespace Serieswriter

open Netpod

/-- {lit}`MinQuiets` -/
structure MinQuiets where
  st : ℕ
  mt : ℕ
  lt : ℕ
  deriving DecidableEq, Repr

/-- {lit}`WriteRtRes` -/
structure WriteRtRes where
  accept : Bool
  bytes : ℕ
  mspRewrite : ℕ
  ignoreRewindTime : ℕ
  ignoreSameTime : ℕ
  ignoreSameValue : ℕ
  ignoreMonitorNotMinQuiet : ℕ
  ignorePollNotMinQuiet : ℕ
  ignoreRateCap : ℕ
  deriving DecidableEq, Repr

namespace WriteRtRes

/-- {lit}`ignore_rewind_time` -/
def ofRewindTime : WriteRtRes := ⟨false, 0, 0, 1, 0, 0, 0, 0, 0⟩

/-- {lit}`ignore_same_time` -/
def ofSameTime : WriteRtRes := ⟨false, 0, 0, 0, 1, 0, 0, 0, 0⟩

/-- {lit}`ignore_same_value` -/
def ofSameValue : WriteRtRes := ⟨false, 0, 0, 0, 0, 1, 0, 0, 0⟩

/-- The result of a rate limited writer. -/
def ofRateLimit (x : RateLimitWriteRes) : WriteRtRes :=
  ⟨x.accept, x.bytes, x.mspRewrite, 0, 0, 0, x.ignoreMonitorNotMinQuiet, x.ignorePollNotMinQuiet,
    x.ignoreRateCap⟩

end WriteRtRes

/-- {lit}`rtwriter::WriteRes` -/
structure WriteRes where
  st : WriteRtRes
  mt : WriteRtRes
  lt : WriteRtRes
  deriving DecidableEq, Repr

/-- {lit}`accept_any` -/
def WriteRes.acceptAny (res : WriteRes) : Bool := res.lt.accept || res.mt.accept || res.st.accept

/-- {lit}`RtWriter` -/
structure RtWriter (ET S : Type) where
  stateSt : RateLimitWriter ET S
  stateMt : RateLimitWriter ET S
  stateLt : RateLimitWriter ET S
  minQuiets : MinQuiets
  doStRf1 : Bool
  lastInsertTs : ℕ
  lastInsertVal : Option ET

namespace RtWriter

variable {ET S D : Type} [EmittableType ET S D]

/-- {lit}`new` -/
def new (series : ℕ) (minQuiets : MinQuiets) (isPolled doStRf1 : Bool) (emitStateNew : S) (tsnow : ℕ) :
    RtWriter ET S where
  stateSt := RateLimitWriter.new series minQuiets.st isPolled emitStateNew
    (MspSplitDyn.new (1024 * 64) (1024 * 1024 * 10) .short) tsnow
  stateMt := RateLimitWriter.new series minQuiets.mt isPolled emitStateNew
    (MspSplitDyn.new (1024 * 64) (1024 * 1024 * 10) .medium) tsnow
  stateLt := RateLimitWriter.new series minQuiets.lt isPolled emitStateNew
    (MspSplitDyn.new (1024 * 64) (1024 * 1024 * 10) .long) tsnow
  minQuiets := minQuiets
  doStRf1 := doStRf1
  lastInsertTs := 0
  lastInsertVal := none

/-- The writer of a store. -/
def store (w : RtWriter ET S) : RetentionTime → RateLimitWriter ET S
  | .short => w.stateSt
  | .medium => w.stateMt
  | .long => w.stateLt

/-- {lit}`write_inner` -/
def writeInner (state : RateLimitWriter ET S) (item : ET) (tsNet tsev tsnow : ℕ)
    (deque : List (QueryItem D)) : WriteRtRes × RateLimitWriter ET S × List (QueryItem D) :=
  let x := state.write item tsNet tsev tsnow deque
  (.ofRateLimit x.1, x.2.1, x.2.2)

/-- {lit}`write_inner_force` -/
def writeInnerForce (state : RateLimitWriter ET S) (item : ET) (tsNet tsev tsnow : ℕ)
    (deque : List (QueryItem D)) : WriteRtRes × RateLimitWriter ET S × List (QueryItem D) :=
  let x := state.writeForce item tsNet tsev tsnow deque
  (.ofRateLimit x.1, x.2.1, x.2.2)

/-- {lit}`write`.  Whether or not the short term store has a replication of its own, its events go to the
same queue. -/
def write (w : RtWriter ET S) (item : ET) (tsNet tsev tsnow : ℕ) (iqdqs : InsertDeques (QueryItem D)) :
    WriteRes × RtWriter ET S × InsertDeques (QueryItem D) :=
  let tsl := w.lastInsertTs
  if tsev < tsl then
    (⟨.ofRewindTime, .ofRewindTime, .ofRewindTime⟩, w, iqdqs)
  else if tsev = tsl then
    (⟨.ofSameTime, .ofSameTime, .ofSameTime⟩, w, iqdqs)
  else if (w.lastInsertVal.map fun k => EmittableType.hasChange item k).getD true = false then
    (⟨.ofSameValue, .ofSameValue, .ofSameValue⟩, w, iqdqs)
  else
    let lt := writeInner w.stateLt item tsNet tsev tsnow iqdqs.ltRf3Qu
    let mt := writeInner w.stateMt item tsNet tsev tsnow iqdqs.mtRf3Qu
    let st := writeInner w.stateSt item tsNet tsev tsnow iqdqs.stRf3Qu
    let ret : WriteRes := ⟨st.1, mt.1, lt.1⟩
    (ret,
      { w with
        stateSt := st.2.1
        stateMt := mt.2.1
        stateLt := lt.2.1
        lastInsertTs := if ret.acceptAny then tsev else w.lastInsertTs
        lastInsertVal := if ret.acceptAny then some item else w.lastInsertVal },
      { iqdqs with stRf3Qu := st.2.2, mtRf3Qu := mt.2.2, ltRf3Qu := lt.2.2 })

/-- What a store wrote last, if it wrote anything. -/
def tslOf (state : RateLimitWriter ET S) : Option (ℕ × ET) :=
  state.lastInsertVal.map fun x => (state.lastInsertTs, x)

/-- One of the updates of {lit}`max_tsl` -/
def takeNewer (maxTsl : Option ((ℕ × ET) × RetentionTime)) (tsl : Option (ℕ × ET)) (rt : RetentionTime) :
    Option ((ℕ × ET) × RetentionTime) :=
  match tsl with
  | some k => if (maxTsl.map fun x => decide (x.1.1 < k.1)).getD true then some (k, rt) else maxTsl
  | none => maxTsl

/-- The minimal quiet time is over. -/
def Due (q tsl tsnow : ℕ) : Prop := min (tsl + q % 2 ^ 64) (2 ^ 64 - 1) ≤ tsnow

instance (q tsl tsnow : ℕ) : Decidable (Due q tsl tsnow) := inferInstanceAs (Decidable (_ ≤ _))

/-- The long term store is made to write. -/
def forceLt (w : RtWriter ET S) (item : ET) (tsl tsnow : ℕ) (iqdqs : InsertDeques (QueryItem D)) :
    RtWriter ET S × InsertDeques (QueryItem D) :=
  let lt := writeInnerForce w.stateLt item tsnow tsl tsnow iqdqs.ltRf3Qu
  ({ w with stateLt := lt.2.1 }, { iqdqs with ltRf3Qu := lt.2.2 })

/-- The medium term store is made to write. -/
def forceMt (w : RtWriter ET S) (item : ET) (tsl tsnow : ℕ) (iqdqs : InsertDeques (QueryItem D)) :
    RtWriter ET S × InsertDeques (QueryItem D) :=
  let mt := writeInnerForce w.stateMt item tsnow tsl tsnow iqdqs.mtRf3Qu
  ({ w with stateMt := mt.2.1 }, { iqdqs with mtRf3Qu := mt.2.2 })

/-- {lit}`check_quiet_reput`; {lit}`now` is the monotonic clock. -/
def checkQuietReput (w : RtWriter ET S) (iqdqs : InsertDeques (QueryItem D)) (tsnow now : ℕ) :
    RtWriter ET S × InsertDeques (QueryItem D) :=
  let maxTsl := takeNewer (takeNewer (takeNewer none (tslOf w.stateLt) .long) (tslOf w.stateMt) .medium)
    (tslOf w.stateSt) .short
  match maxTsl with
  | some ((tsl, vall), .short) =>
      if Due w.minQuiets.lt tsl tsnow then
        -- returns here, without a look at the medium term store
        w.forceLt vall tsl now iqdqs
      else if Due w.minQuiets.mt tsl tsnow then
        w.forceMt vall tsl now iqdqs
      else (w, iqdqs)
  | some ((tsl, vall), .medium) =>
      if Due w.minQuiets.lt tsl tsnow then
        w.forceLt vall tsl now iqdqs
      else (w, iqdqs)
  | _ => (w, iqdqs)

/-- {lit}`tick` -/
def tick (w : RtWriter ET S) (iqdqs : InsertDeques (QueryItem D)) (tsnow now : ℕ) :
    RtWriter ET S × InsertDeques (QueryItem D) :=
  let (w, iqdqs) := w.checkQuietReput iqdqs tsnow now
  let st := w.stateSt.tick (if w.doStRf1 then iqdqs.stRf1Qu else iqdqs.stRf3Qu)
  let mt := w.stateMt.tick iqdqs.mtRf3Qu
  let lt := w.stateLt.tick iqdqs.ltRf3Qu
  ({ w with stateSt := st.1, stateMt := mt.1, stateLt := lt.1 },
    { stRf1Qu := if w.doStRf1 then st.2 else iqdqs.stRf1Qu
      stRf3Qu := if w.doStRf1 then iqdqs.stRf3Qu else st.2
      mtRf3Qu := mt.2
      ltRf3Qu := lt.2 })

/-- {lit}`on_close` -/
def onClose (w : RtWriter ET S) (iqdqs : InsertDeques (QueryItem D)) (now : ℕ) :
    RtWriter ET S × InsertDeques (QueryItem D) :=
  let st := w.stateSt.onClose now (if w.doStRf1 then iqdqs.stRf1Qu else iqdqs.stRf3Qu)
  let mt := w.stateMt.onClose now iqdqs.mtRf3Qu
  let lt := w.stateLt.onClose now iqdqs.ltRf3Qu
  ({ w with stateSt := st.1, stateMt := mt.1, stateLt := lt.1 },
    { stRf1Qu := if w.doStRf1 then st.2 else iqdqs.stRf1Qu
      stRf3Qu := if w.doStRf1 then iqdqs.stRf3Qu else st.2
      mtRf3Qu := mt.2
      ltRf3Qu := lt.2 })

/-- {lit}`housekeeping`; the first component is {lit}`ts_msp_reput`. -/
def housekeeping (w : RtWriter ET S) (iqdqs : InsertDeques (QueryItem D)) (now : ℕ) :
    ℕ × RtWriter ET S × InsertDeques (QueryItem D) :=
  let st := w.stateSt.housekeeping now (if w.doStRf1 then iqdqs.stRf1Qu else iqdqs.stRf3Qu)
  let mt := w.stateMt.housekeeping now iqdqs.mtRf3Qu
  let lt := w.stateLt.housekeeping now iqdqs.ltRf3Qu
  (st.1 + mt.1 + lt.1, { w with stateSt := st.2.1, stateMt := mt.2.1, stateLt := lt.2.1 },
    { stRf1Qu := if w.doStRf1 then st.2.2 else iqdqs.stRf1Qu
      stRf3Qu := if w.doStRf1 then iqdqs.stRf3Qu else st.2.2
      mtRf3Qu := mt.2.2
      ltRf3Qu := lt.2.2 })

/-! ## What a write does -/

theorem writeInner_cases (state : RateLimitWriter ET S) (item : ET) (tsNet tsev now : ℕ)
    (deque : List (QueryItem D)) :
    ((writeInner state item tsNet tsev now deque).1.accept = false ∧
      (writeInner state item tsNet tsev now deque).2 = (state, deque)) ∨
    ((writeInner state item tsNet tsev now deque).1.accept = true ∧
      (writeInner state item tsNet tsev now deque).2 = (state.put item tsNet tsev now deque).2) := by
  rcases state.write_cases item tsNet tsev now deque with ⟨hno, hsame⟩ | hput
  · exact .inl ⟨hno, hsame⟩
  · rw [writeInner, hput]
    exact .inr ⟨rfl, rfl⟩

/-- The store and its queue, after a write. -/
def Took (w k : RtWriter ET S) (iqdqs kqdqs : InsertDeques (QueryItem D)) (item : ET) (tsNet tsev now : ℕ)
    (rt : RetentionTime) : Prop :=
  (k.store rt, kqdqs.deque rt) = ((w.store rt).put item tsNet tsev now (iqdqs.deque rt)).2

/-- A write changes nothing, or its event is newer and at least one store takes it. -/
theorem write_cases (w : RtWriter ET S) (item : ET) (tsNet tsev now : ℕ)
    (iqdqs : InsertDeques (QueryItem D)) :
    ((w.write item tsNet tsev now iqdqs).1.acceptAny = false ∧
      (w.write item tsNet tsev now iqdqs).2 = (w, iqdqs)) ∨
    ∃ res k kqdqs, w.write item tsNet tsev now iqdqs = (res, k, kqdqs) ∧ res.acceptAny = true ∧
      w.lastInsertTs < tsev ∧ k.lastInsertTs = tsev ∧ k.lastInsertVal = some item ∧
      kqdqs.stRf1Qu = iqdqs.stRf1Qu ∧
      (∀ rt, (k.store rt, kqdqs.deque rt) = (w.store rt, iqdqs.deque rt) ∨
        Took w k iqdqs kqdqs item tsNet tsev now rt) ∧
      ∃ rt, Took w k iqdqs kqdqs item tsNet tsev now rt := by
  rw [write]
  split
  · exact .inl ⟨rfl, rfl⟩
  split
  · exact .inl ⟨rfl, rfl⟩
  split
  · exact .inl ⟨rfl, rfl⟩
  have hnewer : w.lastInsertTs < tsev := by omega
  have hlt := writeInner_cases w.stateLt item tsNet tsev now iqdqs.ltRf3Qu
  have hmt := writeInner_cases w.stateMt item tsNet tsev now iqdqs.mtRf3Qu
  have hst := writeInner_cases w.stateSt item tsNet tsev now iqdqs.stRf3Qu
  generalize writeInner w.stateLt item tsNet tsev now iqdqs.ltRf3Qu = lt at hlt ⊢
  generalize writeInner w.stateMt item tsNet tsev now iqdqs.mtRf3Qu = mt at hmt ⊢
  generalize writeInner w.stateSt item tsNet tsev now iqdqs.stRf3Qu = st at hst ⊢
  by_cases hany : (WriteRes.mk st.1 mt.1 lt.1).acceptAny = true
  · refine .inr ⟨_, _, _, rfl, hany, hnewer, if_pos hany, if_pos hany, rfl, ?_, ?_⟩
    · intro rt
      cases rt with
      | short => exact hst.imp And.right And.right
      | medium => exact hmt.imp And.right And.right
      | long => exact hlt.imp And.right And.right
    · rw [WriteRes.acceptAny, Bool.or_eq_true, Bool.or_eq_true] at hany
      rcases hany with (hacc | hacc) | hacc
      · exact ⟨.long, (hlt.resolve_left fun h => by simp [h.1] at hacc).2⟩
      · exact ⟨.medium, (hmt.resolve_left fun h => by simp [h.1] at hacc).2⟩
      · exact ⟨.short, (hst.resolve_left fun h => by simp [h.1] at hacc).2⟩
  · refine .inl ⟨Bool.eq_false_iff.mpr hany, ?_⟩
    have hno : lt.1.accept = false ∧ mt.1.accept = false ∧ st.1.accept = false := by
      simp only [WriteRes.acceptAny, Bool.or_eq_true, not_or, Bool.not_eq_true] at hany
      exact ⟨hany.1.1, hany.1.2, hany.2⟩
    have hlt' := (hlt.resolve_right fun h => by simp [hno.1] at h).2
    have hmt' := (hmt.resolve_right fun h => by simp [hno.2.1] at h).2
    have hst' := (hst.resolve_right fun h => by simp [hno.2.2] at h).2
    simp only [hany, hlt', hmt', hst']
    rfl

/-! ## What a tick writes -/

/-- The writer remembers the newest event of its stores. -/
structure Consistent (w : RtWriter ET S) : Prop where
  le : ∀ rt, (w.store rt).lastInsertTs ≤ w.lastInsertTs
  val : ∀ rt, (w.store rt).lastInsertTs = w.lastInsertTs → (w.store rt).lastInsertVal = w.lastInsertVal
  fresh : w.lastInsertVal = none → w.lastInsertTs = 0
  held : ∀ v, w.lastInsertVal = some v → 0 < w.lastInsertTs ∧ ∃ rt, (w.store rt).lastInsertTs = w.lastInsertTs

/-- The store lags behind the newest event. -/
def Lags (w : RtWriter ET S) (rt : RetentionTime) : Prop := (w.store rt).lastInsertTs < w.lastInsertTs

instance (w : RtWriter ET S) (rt : RetentionTime) : Decidable (w.Lags rt) :=
  inferInstanceAs (Decidable (_ < _))

/-- What a tick does for an event: the long term store is served first, and then no other. -/
def reput (w : RtWriter ET S) (iqdqs : InsertDeques (QueryItem D)) (v : ET) (tsnow now : ℕ) :
    RtWriter ET S × InsertDeques (QueryItem D) :=
  if ¬ w.Lags .long then (w, iqdqs)
  else if Due w.minQuiets.lt w.lastInsertTs tsnow then w.forceLt v w.lastInsertTs now iqdqs
  else if w.Lags .medium ∧ Due w.minQuiets.mt w.lastInsertTs tsnow then
    w.forceMt v w.lastInsertTs now iqdqs
  else (w, iqdqs)

section Reput

variable {w : RtWriter ET S}

theorem Consistent.eq_of_not_lags (hcon : w.Consistent) {rt : RetentionTime} (hcur : ¬ w.Lags rt) :
    (w.store rt).lastInsertTs = w.lastInsertTs :=
  le_antisymm (hcon.le rt) (not_lt.mp hcur)

/-- A store that does not lag holds the newest event. -/
theorem Consistent.tslOf_eq (hcon : w.Consistent) {v : ET} (hv : w.lastInsertVal = some v)
    {rt : RetentionTime} (hcur : ¬ w.Lags rt) : tslOf (w.store rt) = some (w.lastInsertTs, v) := by
  have hts := hcon.eq_of_not_lags hcur
  rw [tslOf, hcon.val rt hts, hts, hv]
  rfl

/-- What a lagging store holds is older. -/
theorem lt_of_lags {rt : RetentionTime} (hlag : w.Lags rt) :
    ∀ k ∈ tslOf (w.store rt), k.1 < w.lastInsertTs := by
  intro k hk
  rcases Option.mem_map.mp hk with ⟨x, -, rfl⟩
  exact hlag

/-- No store holds anything newer. -/
theorem Consistent.tsl_le (hcon : w.Consistent) (rt : RetentionTime) :
    ∀ k ∈ tslOf (w.store rt), k.1 ≤ w.lastInsertTs := by
  intro k hk
  rcases Option.mem_map.mp hk with ⟨x, -, rfl⟩
  exact hcon.le rt

omit [EmittableType ET S D] in
/-- A newer entry is taken. -/
theorem takeNewer_lt {maxTsl : Option ((ℕ × ET) × RetentionTime)} {k : ℕ × ET} (rt : RetentionTime)
    (hlt : ∀ x ∈ maxTsl, x.1.1 < k.1) : takeNewer maxTsl (some k) rt = some (k, rt) := by
  cases maxTsl with
  | none => rfl
  | some x => simp [takeNewer, hlt x rfl]

omit [EmittableType ET S D] in
/-- An entry that is not newer is not taken. -/
theorem takeNewer_le {x : ℕ × ET} {rtx : RetentionTime} (tsl : Option (ℕ × ET)) (rt : RetentionTime)
    (hle : ∀ k ∈ tsl, k.1 ≤ x.1) : takeNewer (some (x, rtx)) tsl rt = some (x, rtx) := by
  cases tsl with
  | none => rfl
  | some k => simp [takeNewer, hle k rfl]

omit [EmittableType ET S D] in
/-- Older entries stay older. -/
theorem takeNewer_forall_lt {maxTsl : Option ((ℕ × ET) × RetentionTime)} {tsl : Option (ℕ × ET)}
    {ts : ℕ} (rt : RetentionTime) (hmax : ∀ x ∈ maxTsl, x.1.1 < ts) (htsl : ∀ k ∈ tsl, k.1 < ts) :
    ∀ x ∈ takeNewer maxTsl tsl rt, x.1.1 < ts := by
  cases tsl with
  | none => exact hmax
  | some k =>
      rw [takeNewer]
      split
      · intro x hx
        obtain rfl : (k, rt) = x := Option.some.inj hx
        exact htsl k rfl
      · exact hmax

/-- A tick makes the writers catch up with the newest event. -/
theorem Consistent.checkQuietReput_eq (hcon : w.Consistent) {v : ET} (hv : w.lastInsertVal = some v)
    (iqdqs : InsertDeques (QueryItem D)) (tsnow now : ℕ) :
    w.checkQuietReput iqdqs tsnow now = w.reput iqdqs v tsnow now := by
  have hst := hcon.tsl_le .short
  have hmt := hcon.tsl_le .medium
  rw [checkQuietReput, reput]
  by_cases hlong : w.Lags .long
  · rw [if_neg (not_not_intro hlong)]
    have holdest : ∀ x ∈ takeNewer none (tslOf w.stateLt) .long, x.1.1 < w.lastInsertTs :=
      takeNewer_forall_lt .long (by simp) (lt_of_lags hlong)
    by_cases hmedium : w.Lags .medium
    · -- only the short term store has it
      have hshort : ¬ w.Lags .short := by
        intro hlag
        rcases (hcon.held v hv).2 with ⟨rt, heq⟩
        cases rt with
        | short => exact absurd heq hlag.ne
        | medium => exact absurd heq hmedium.ne
        | long => exact absurd heq hlong.ne
      rw [show tslOf w.stateSt = some (w.lastInsertTs, v) from hcon.tslOf_eq hv hshort,
        takeNewer_lt .short (takeNewer_forall_lt .medium holdest (lt_of_lags hmedium))]
      simp only [hmedium, true_and]
    · rw [show tslOf w.stateMt = some (w.lastInsertTs, v) from hcon.tslOf_eq hv hmedium,
        takeNewer_lt .medium holdest, takeNewer_le _ .short hst]
      simp only [hmedium, false_and, if_false]
  · rw [if_pos hlong, show tslOf w.stateLt = some (w.lastInsertTs, v) from hcon.tslOf_eq hv hlong,
      takeNewer_lt .long (by simp), takeNewer_le _ .medium hmt, takeNewer_le _ .short hst]

/-- Before the first event, no tick writes anything. -/
theorem Consistent.checkQuietReput_fresh (hcon : w.Consistent) (hv : w.lastInsertVal = none)
    (iqdqs : InsertDeques (QueryItem D)) (tsnow now : ℕ) :
    w.checkQuietReput iqdqs tsnow now = (w, iqdqs) := by
  have hempty : ∀ rt, tslOf (w.store rt) = none := by
    intro rt
    have hts : (w.store rt).lastInsertTs = w.lastInsertTs := by
      have hle := hcon.le rt
      rw [hcon.fresh hv] at hle ⊢
      exact Nat.le_zero.mp hle
    rw [tslOf, hcon.val rt hts, hv]
    rfl
  rw [checkQuietReput, show tslOf w.stateLt = none from hempty .long,
    show tslOf w.stateMt = none from hempty .medium, show tslOf w.stateSt = none from hempty .short]
  rfl

end Reput

end RtWriter

/-! ## Runs -/

/-- A call of a retention time writer; {lit}`now` is the monotonic clock. -/
inductive RtCall (ET : Type) where
  | write (item : ET) (tsNet tsev now : ℕ)
  | tick (tsnow now : ℕ)
  | onClose (now : ℕ)
  | housekeeping (now : ℕ)

/-- A writer, everything it pushed, and the events that it accepted, with their times. -/
structure RtRun (ET S D : Type) where
  writer : RtWriter ET S
  iqdqs : InsertDeques (QueryItem D)
  accepted : List (ℕ × ET)

/-- Every store gets its events in order, and none that is newer than all accepted ones. -/
structure InOrder {ET S D : Type} (r : RtRun ET S D) : Prop where
  increasing : ∀ rt, ((inserts (r.iqdqs.deque rt)).map InsertItem.ts).Pairwise (· < ·)
  accepted : ∀ rt, ∀ item ∈ inserts (r.iqdqs.deque rt), ∃ a ∈ r.accepted, item.ts ≤ a.1
  noOther : inserts r.iqdqs.stRf1Qu = []

namespace RtRun

variable {ET S D : Type} [EmittableType ET S D]

/-- A new writer. -/
def new (series : ℕ) (minQuiets : MinQuiets) (isPolled doStRf1 : Bool) (emitStateNew : S) (now : ℕ) :
    RtRun ET S D where
  writer := RtWriter.new series minQuiets isPolled doStRf1 emitStateNew now
  iqdqs := InsertDeques.new
  accepted := []

/-- The effect of one call. -/
def step (r : RtRun ET S D) : RtCall ET → RtRun ET S D
  | .write item tsNet tsev now =>
      let res := r.writer.write item tsNet tsev now r.iqdqs
      { writer := res.2.1
        iqdqs := res.2.2
        accepted := if res.1.acceptAny then r.accepted ++ [(tsev, item)] else r.accepted }
  | .tick tsnow now =>
      let res := r.writer.tick r.iqdqs tsnow now
      { r with writer := res.1, iqdqs := res.2 }
  | .onClose now =>
      let res := r.writer.onClose r.iqdqs now
      { r with writer := res.1, iqdqs := res.2 }
  | .housekeeping now =>
      let res := r.writer.housekeeping r.iqdqs now
      { r with writer := res.2.1, iqdqs := res.2.2 }

/-- The effect of calls. -/
def run (r : RtRun ET S D) (calls : List (RtCall ET)) : RtRun ET S D := calls.foldl step r

/-- The writer remembers the last accepted event, and every store is in order. -/
structure Inv (r : RtRun ET S D) : Prop where
  consistent : r.writer.Consistent
  ordered : ∀ rt, (r.writer.store rt).Ordered (r.iqdqs.deque rt)
  noOther : inserts r.iqdqs.stRf1Qu = []
  last : r.accepted.getLast? = r.writer.lastInsertVal.map fun v => (r.writer.lastInsertTs, v)

theorem new_inv (series : ℕ) (minQuiets : MinQuiets) (isPolled doStRf1 : Bool) (emitStateNew : S)
    (now : ℕ) : (new series minQuiets isPolled doStRf1 emitStateNew now : RtRun ET S D).Inv where
  consistent :=
    { le := fun rt => by cases rt <;> exact le_rfl
      val := fun rt _ => by cases rt <;> rfl
      fresh := fun _ => rfl
      held := fun v hv => by simp [new, RtWriter.new] at hv }
  ordered := fun rt => by cases rt <;> exact RateLimitWriter.new_ordered _ _ _ _ _ _ _ _
  noOther := rfl
  last := rfl

/-- With the invariant, a store that holds an event was given an accepted one. -/
theorem Inv.inOrder {r : RtRun ET S D} (hinv : r.Inv) : InOrder r where
  increasing := fun rt => (hinv.ordered rt).increasing
  noOther := hinv.noOther
  accepted := by
    intro rt item hmem
    have hle := ((hinv.ordered rt).bounded item hmem).trans (hinv.consistent.le rt)
    cases hv : r.writer.lastInsertVal with
    | none =>
        -- then the store is empty
        have hts : (r.writer.store rt).lastInsertTs = r.writer.lastInsertTs := by
          have hle := hinv.consistent.le rt
          rw [hinv.consistent.fresh hv] at hle ⊢
          exact Nat.le_zero.mp hle
        rw [((hinv.ordered rt).empty ((hinv.consistent.val rt hts).trans hv)).1] at hmem
        simp at hmem
    | some v =>
        have hlast := hinv.last
        rw [hv] at hlast
        exact ⟨_, List.mem_of_getLast? hlast, hle⟩

/-! ## What a call preserves -/

section Steps

variable {r k : RtRun ET S D}

/-- An accepted event: at least one store took it, and the others are as before. -/
theorem Inv.accept (hinv : r.Inv) {item : ET} {tsev : ℕ} (hts : r.writer.lastInsertTs < tsev)
    (hstores : ∀ rt, (k.writer.store rt).lastInsertTs = (r.writer.store rt).lastInsertTs ∨
      (k.writer.store rt).lastInsertTs = tsev ∧ (k.writer.store rt).lastInsertVal = some item)
    (htook : ∃ rt, (k.writer.store rt).lastInsertTs = tsev)
    (hord : ∀ rt, (k.writer.store rt).Ordered (k.iqdqs.deque rt))
    (hlast : k.writer.lastInsertTs = tsev) (hval : k.writer.lastInsertVal = some item)
    (haccepted : k.accepted = r.accepted ++ [(tsev, item)]) (hother : inserts k.iqdqs.stRf1Qu = []) :
    k.Inv := by
  refine ⟨⟨?_, ?_, ?_, ?_⟩, hord, hother, ?_⟩
  · intro rt
    rw [hlast]
    rcases hstores rt with hsame | ⟨hnew, -⟩
    · rw [hsame]
      exact (hinv.consistent.le rt).trans hts.le
    · exact hnew.le
  · intro rt heq
    rw [hval]
    rcases hstores rt with hsame | ⟨-, hnew⟩
    · rw [hsame, hlast] at heq
      have hle := hinv.consistent.le rt
      omega
    · exact hnew
  · intro hnone
    rw [hval] at hnone
    simp at hnone
  · intro v _
    rw [hlast]
    exact ⟨by omega, htook⟩
  · rw [haccepted, hval, hlast, List.getLast?_append]
    rfl

/-- A store that catches up with the newest event. -/
theorem Inv.catchUp (hinv : r.Inv) {v : ET} (hv : r.writer.lastInsertVal = some v)
    (hstores : ∀ rt, ((k.writer.store rt).lastInsertTs = (r.writer.store rt).lastInsertTs ∧
        (k.writer.store rt).lastInsertVal = (r.writer.store rt).lastInsertVal) ∨
      (k.writer.store rt).lastInsertTs = r.writer.lastInsertTs ∧
        (k.writer.store rt).lastInsertVal = some v)
    (hord : ∀ rt, (k.writer.store rt).Ordered (k.iqdqs.deque rt))
    (hlast : k.writer.lastInsertTs = r.writer.lastInsertTs)
    (hval : k.writer.lastInsertVal = r.writer.lastInsertVal) (haccepted : k.accepted = r.accepted)
    (hother : inserts k.iqdqs.stRf1Qu = []) : k.Inv := by
  refine ⟨⟨?_, ?_, ?_, ?_⟩, hord, hother, ?_⟩
  · intro rt
    rw [hlast]
    rcases hstores rt with ⟨hsame, -⟩ | ⟨hnew, -⟩
    · rw [hsame]
      exact hinv.consistent.le rt
    · exact hnew.le
  · intro rt heq
    rw [hval]
    rcases hstores rt with ⟨hsame, hsame'⟩ | ⟨-, hnew⟩
    · rw [hsame, hlast] at heq
      rw [hsame']
      exact hinv.consistent.val rt heq
    · rw [hnew, hv]
  · intro hnone
    rw [hval, hv] at hnone
    simp at hnone
  · intro w hw
    rw [hval] at hw
    rw [hlast]
    rcases hinv.consistent.held w hw with ⟨hpos, rt, heq⟩
    refine ⟨hpos, rt, ?_⟩
    rcases hstores rt with ⟨hsame, -⟩ | ⟨hnew, -⟩
    · rw [hsame, heq]
    · exact hnew
  · rw [haccepted, hlast, hval]
    exact hinv.last

/-- Entries that are pushed. -/
theorem Inv.pushEntries (hinv : r.Inv)
    (hstores : ∀ rt, (k.writer.store rt).lastInsertTs = (r.writer.store rt).lastInsertTs ∧
      (k.writer.store rt).lastInsertVal = (r.writer.store rt).lastInsertVal ∧
      (k.writer.store rt).writer.mspSplit = (r.writer.store rt).writer.mspSplit)
    (hinserts : ∀ rt, inserts (k.iqdqs.deque rt) = inserts (r.iqdqs.deque rt))
    (hlast : k.writer.lastInsertTs = r.writer.lastInsertTs)
    (hval : k.writer.lastInsertVal = r.writer.lastInsertVal) (haccepted : k.accepted = r.accepted)
    (hother : inserts k.iqdqs.stRf1Qu = []) : k.Inv := by
  refine ⟨⟨?_, ?_, ?_, ?_⟩, ?_, hother, ?_⟩
  · intro rt
    rw [hlast, (hstores rt).1]
    exact hinv.consistent.le rt
  · intro rt
    rw [hlast, hval, (hstores rt).1, (hstores rt).2.1]
    exact hinv.consistent.val rt
  · rw [hlast, hval]
    exact hinv.consistent.fresh
  · intro v hv
    rw [hval] at hv
    rcases hinv.consistent.held v hv with ⟨hpos, rt, heq⟩
    rw [hlast]
    exact ⟨hpos, rt, (hstores rt).1.trans heq⟩
  · intro rt
    rcases hstores rt with ⟨hts, hv, hsplit⟩
    exact (hinv.ordered rt).congr hsplit hts hv (hinserts rt)
  · rw [haccepted, hlast, hval]
    exact hinv.last

end Steps

theorem step_write_inv {r : RtRun ET S D} (hinv : r.Inv) (item : ET) (tsNet tsev now : ℕ) :
    (r.step (.write item tsNet tsev now)).Inv := by
  rcases r.writer.write_cases item tsNet tsev now r.iqdqs with
    ⟨hno, hsame⟩ | ⟨res, k, kqdqs, heq, hany, hnewer, hlast, hval, hother, hstores, htook⟩
  · have hstep : r.step (.write item tsNet tsev now) = r := by
      simp only [step, hno, hsame]
      rfl
    rw [hstep]
    exact hinv
  · have hstep : r.step (.write item tsNet tsev now) =
        ⟨k, kqdqs, r.accepted ++ [(tsev, item)]⟩ := by
      simp only [step, heq, hany, if_true]
    rw [hstep]
    refine hinv.accept hnewer ?_ ?_ ?_ hlast hval rfl (by rw [hother]; exact hinv.noOther)
    · intro rt
      rcases hstores rt with hsame | hput
      · exact .inl (congrArg (fun x => x.1.lastInsertTs) hsame)
      · exact .inr ⟨congrArg (fun x => x.1.lastInsertTs) hput,
          congrArg (fun x => x.1.lastInsertVal) hput⟩
    · rcases htook with ⟨rt, hput⟩
      exact ⟨rt, congrArg (fun x => x.1.lastInsertTs) hput⟩
    · intro rt
      have hord := hinv.ordered rt
      rcases hstores rt with hsame | hput
      · rw [Prod.mk.injEq] at hsame
        rw [hsame.1, hsame.2]
        exact hord
      · have hle := hinv.consistent.le rt
        have hput' := hord.put item tsNet tsev now (hle.trans_lt hnewer)
        show (k.store rt, kqdqs.deque rt).1.Ordered (k.store rt, kqdqs.deque rt).2
        rw [hput]
        exact hput'

/-- The ticks of the three writers do nothing. -/
theorem tick_eq (w : RtWriter ET S) (iqdqs : InsertDeques (QueryItem D)) (tsnow now : ℕ) :
    w.tick iqdqs tsnow now = w.checkQuietReput iqdqs tsnow now := by
  rw [RtWriter.tick]
  rcases w.checkQuietReput iqdqs tsnow now with ⟨⟨st, mt, lt, minQuiets, rf1, ts, val⟩, iqdqs⟩
  cases rf1 <;> rfl

/-- No call changes how the writer is set up. -/
theorem step_settings (r : RtRun ET S D) (call : RtCall ET) :
    (r.step call).writer.minQuiets = r.writer.minQuiets ∧ (r.step call).writer.doStRf1 = r.writer.doStRf1 := by
  cases call with
  | write item tsNet tsev now =>
      show (r.writer.write item tsNet tsev now r.iqdqs).2.1.minQuiets = r.writer.minQuiets ∧
        (r.writer.write item tsNet tsev now r.iqdqs).2.1.doStRf1 = r.writer.doStRf1
      rw [RtWriter.write]
      split
      · exact ⟨rfl, rfl⟩
      split
      · exact ⟨rfl, rfl⟩
      split <;> exact ⟨rfl, rfl⟩
  | tick tsnow now =>
      show (r.writer.tick r.iqdqs tsnow now).1.minQuiets = r.writer.minQuiets ∧
        (r.writer.tick r.iqdqs tsnow now).1.doStRf1 = r.writer.doStRf1
      rw [tick_eq, RtWriter.checkQuietReput]
      split
      · split
        · exact ⟨rfl, rfl⟩
        split <;> exact ⟨rfl, rfl⟩
      · split <;> exact ⟨rfl, rfl⟩
      · exact ⟨rfl, rfl⟩
  | onClose now => exact ⟨rfl, rfl⟩
  | housekeeping now => exact ⟨rfl, rfl⟩

/-- The long term store is made to write the newest event. -/
theorem Inv.forceLt {r : RtRun ET S D} (hinv : r.Inv) {v : ET} (hv : r.writer.lastInsertVal = some v)
    (hlag : r.writer.Lags .long) (now : ℕ) :
    Inv { r with
      writer := (r.writer.forceLt v r.writer.lastInsertTs now r.iqdqs).1
      iqdqs := (r.writer.forceLt v r.writer.lastInsertTs now r.iqdqs).2 } := by
  refine hinv.catchUp hv ?_ ?_ rfl rfl rfl hinv.noOther
  · intro rt
    cases rt with
    | short => exact .inl ⟨rfl, rfl⟩
    | medium => exact .inl ⟨rfl, rfl⟩
    | long => exact .inr ⟨rfl, rfl⟩
  · intro rt
    cases rt with
    | short => exact hinv.ordered .short
    | medium => exact hinv.ordered .medium
    | long => exact (hinv.ordered .long).put v now r.writer.lastInsertTs now hlag

/-- The medium term store is made to write the newest event. -/
theorem Inv.forceMt {r : RtRun ET S D} (hinv : r.Inv) {v : ET} (hv : r.writer.lastInsertVal = some v)
    (hlag : r.writer.Lags .medium) (now : ℕ) :
    Inv { r with
      writer := (r.writer.forceMt v r.writer.lastInsertTs now r.iqdqs).1
      iqdqs := (r.writer.forceMt v r.writer.lastInsertTs now r.iqdqs).2 } := by
  refine hinv.catchUp hv ?_ ?_ rfl rfl rfl hinv.noOther
  · intro rt
    cases rt with
    | short => exact .inl ⟨rfl, rfl⟩
    | medium => exact .inr ⟨rfl, rfl⟩
    | long => exact .inl ⟨rfl, rfl⟩
  · intro rt
    cases rt with
    | short => exact hinv.ordered .short
    | medium => exact (hinv.ordered .medium).put v now r.writer.lastInsertTs now hlag
    | long => exact hinv.ordered .long

/-- A tick, in terms of the newest event. -/
theorem Inv.step_tick {r : RtRun ET S D} (hinv : r.Inv) {v : ET} (hv : r.writer.lastInsertVal = some v)
    (tsnow now : ℕ) :
    r.step (.tick tsnow now) =
      { r with
        writer := (r.writer.reput r.iqdqs v tsnow now).1
        iqdqs := (r.writer.reput r.iqdqs v tsnow now).2 } := by
  rw [step, tick_eq, hinv.consistent.checkQuietReput_eq hv]

theorem step_tick_inv {r : RtRun ET S D} (hinv : r.Inv) (tsnow now : ℕ) :
    (r.step (.tick tsnow now)).Inv := by
  cases hv : r.writer.lastInsertVal with
  | none =>
      rw [step, tick_eq, hinv.consistent.checkQuietReput_fresh hv]
      exact hinv
  | some v =>
      rw [hinv.step_tick hv, RtWriter.reput]
      by_cases hlong : r.writer.Lags .long
      · rw [if_neg (not_not_intro hlong)]
        split
        · exact hinv.forceLt hv hlong now
        · split
          · exact hinv.forceMt hv ‹_ ∧ _›.1 now
          · exact hinv
      · rw [if_pos hlong]
        exact hinv

omit [EmittableType ET S D] in
/-- What is pushed for the short term store goes to one of its two queues. -/
theorem inserts_route (rf1 : Bool) (a b : List (QueryItem D)) {f : List (QueryItem D) → List (QueryItem D)}
    (hf : ∀ deque, inserts (f deque) = inserts deque) :
    inserts (if rf1 then b else f (if rf1 then a else b)) = inserts b ∧
      inserts (if rf1 then f (if rf1 then a else b) else a) = inserts a := by
  cases rf1 with
  | false => exact ⟨hf b, rfl⟩
  | true => exact ⟨rfl, hf a⟩

theorem step_onClose_inv {r : RtRun ET S D} (hinv : r.Inv) (now : ℕ) : (r.step (.onClose now)).Inv := by
  have hroute := inserts_route r.writer.doStRf1 r.iqdqs.stRf1Qu r.iqdqs.stRf3Qu
    fun deque => (r.writer.stateSt.onClose_spec now deque).2
  refine hinv.pushEntries ?_ ?_ rfl rfl rfl (hroute.2.trans hinv.noOther)
  · intro rt
    cases rt with
    | short => exact ⟨rfl, rfl, congrArg (·.writer.mspSplit) (r.writer.stateSt.onClose_spec now _).1⟩
    | medium => exact ⟨rfl, rfl, congrArg (·.writer.mspSplit) (r.writer.stateMt.onClose_spec now _).1⟩
    | long => exact ⟨rfl, rfl, congrArg (·.writer.mspSplit) (r.writer.stateLt.onClose_spec now _).1⟩
  · intro rt
    cases rt with
    | short => exact hroute.1
    | medium => exact (r.writer.stateMt.onClose_spec now _).2
    | long => exact (r.writer.stateLt.onClose_spec now _).2

omit [EmittableType ET S D] in
theorem housekeeping_kept (s : RateLimitWriter ET S) (now : ℕ) (deque : List (QueryItem D)) :
    (s.housekeeping now deque).2.1.lastInsertTs = s.lastInsertTs ∧
      (s.housekeeping now deque).2.1.lastInsertVal = s.lastInsertVal ∧
      (s.housekeeping now deque).2.1.writer.mspSplit = s.writer.mspSplit := by
  rcases s.housekeeping_spec now deque with ⟨hts, hval, hsplit, -⟩
  exact ⟨hts, hval, hsplit⟩

theorem step_housekeeping_inv {r : RtRun ET S D} (hinv : r.Inv) (now : ℕ) :
    (r.step (.housekeeping now)).Inv := by
  have hroute := inserts_route r.writer.doStRf1 r.iqdqs.stRf1Qu r.iqdqs.stRf3Qu
    fun deque => (r.writer.stateSt.housekeeping_spec now deque).2.2.2
  refine hinv.pushEntries ?_ ?_ rfl rfl rfl (hroute.2.trans hinv.noOther)
  · intro rt
    cases rt with
    | short => exact housekeeping_kept r.writer.stateSt now _
    | medium => exact housekeeping_kept r.writer.stateMt now _
    | long => exact housekeeping_kept r.writer.stateLt now _
  · intro rt
    cases rt with
    | short => exact hroute.1
    | medium => exact (r.writer.stateMt.housekeeping_spec now _).2.2.2
    | long => exact (r.writer.stateLt.housekeeping_spec now _).2.2.2

theorem step_inv {r : RtRun ET S D} (hinv : r.Inv) (call : RtCall ET) : (r.step call).Inv := by
  cases call with
  | write item tsNet tsev now => exact step_write_inv hinv item tsNet tsev now
  | tick tsnow now => exact step_tick_inv hinv tsnow now
  | onClose now => exact step_onClose_inv hinv now
  | housekeeping now => exact step_housekeeping_inv hinv now

theorem run_inv (calls : List (RtCall ET)) {r : RtRun ET S D} (hinv : r.Inv) : (r.run calls).Inv := by
  induction calls generalizing r with
  | nil => exact hinv
  | cons call rest ih => exact ih (step_inv hinv call)

/-- In every run of a new writer, with any rate limits and any times of the events, every store gets its
events in order, and none that is newer than all accepted ones. -/
theorem run_ordered (series : ℕ) (minQuiets : MinQuiets) (isPolled doStRf1 : Bool) (emitStateNew : S)
    (now : ℕ) (calls : List (RtCall ET)) :
    InOrder ((new series minQuiets isPolled doStRf1 emitStateNew now : RtRun ET S D).run calls) :=
  (run_inv calls (new_inv series minQuiets isPolled doStRf1 emitStateNew now)).inOrder

end RtRun

end Serieswriter
end Daqbuf
