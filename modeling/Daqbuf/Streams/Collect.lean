import Daqbuf.Items.EstimateCache
import Daqbuf.Scylla.Sitems
/-!
# Collecting a Stream

{lit}`Collect` polls a stream until it has enough, until a deadline, or until the end, and returns what its collector
makes of the containers.  The number of events and an estimate of their bytes are limited.

The collector of events asks its container for the estimate, and the container keeps the first one that it makes.  More
events are then put into the container, but the estimate stays as it is.

Main results:

- Theorems {lit}`Collect.handleItem_data`, {lit}`Collect.handleItem_other`: what the future holds behind an item.
- Theorem {lit}`Collect.poll_stateOf`: a run, from any items that were read without reaching a limit.
- Theorem {lit}`Collect.collects_iff`: what is returned, for every order of answers.
-/

namespace Daqbuf
namespace Streams

open Items Scylla

/-! ## Collectors -/

/-- {lit}`CollectorTy`, with {lit}`new_collector` -/
class CollectorTy (C : Type*) (T Res : outParam (Type*)) where
  newCollector : C
  ingest : C → T → C
  len : C → ℕ
  byteEstimate : C → UInt32 × C
  setRangeComplete : C → C
  setTimedOut : C → C
  result : C → Except String Res

/-- {lit}`ContainerEventsCollector` -/
structure ContainerEventsCollector (V : Type*) where
  evs : ContainerEvents V
  rangeFinal : Bool
  timedOut : Bool
  deriving DecidableEq, Repr

/-- {lit}`ContainerEventsCollected` -/
structure ContainerEventsCollected (V : Type*) where
  evs : ContainerEvents V
  rangeFinal : Bool
  timedOut : Bool
  deriving DecidableEq, Repr

instance instCollectorTy {V : Type*} [EventValueType V] :
    CollectorTy (ContainerEventsCollector V) (ContainerEvents V) (ContainerEventsCollected V) where
  newCollector := { evs := .new, rangeFinal := false, timedOut := false }
  ingest c src := { c with evs := (src.drainInto c.evs 0 src.len).2.2 }
  len c := c.evs.len
  byteEstimate c := (c.evs.byteEstimate.1, { c with evs := c.evs.byteEstimate.2 })
  setRangeComplete c := { c with rangeFinal := true }
  setTimedOut c := { c with timedOut := true }
  result c := .ok { evs := c.evs, rangeFinal := c.rangeFinal, timedOut := c.timedOut }

/-! ## The future -/

/-- What the future can report: an error of its input, or of its collector. -/
inductive CollectError (E : Type*) where
  | inp (e : E)
  | result (msg : String)
  deriving DecidableEq, Repr

/-- {lit}`CollectResult`; {lit}`Timeout` is never made. -/
inductive CollectResult (Res : Type*) where
  | empty
  | timeout
  | some (x : Res)
  deriving DecidableEq, Repr

/-- {lit}`Collect`; the input and the timer are kept beside. -/
structure Collect (C : Type*) where
  eventsMax : ℕ
  bytesMax : ℕ
  collector : Option C
  rangeFinal : Bool
  timeout : Bool
  doneInput : Bool
  deriving DecidableEq, Repr

/-- What the timer and the input answer in one turn of the loop: the timer is polled first. -/
inductive Turn (ι : Type*) where
  | deadline
  | pending
  | ready (x : ι)
  | closed
  deriving DecidableEq, Repr

namespace Collect

variable {C T Res E : Type*} [CollectorTy C T Res]

open CollectorTy

/-- {lit}`new` -/
def new (eventsMax bytesMax : ℕ) : Collect C where
  eventsMax := eventsMax
  bytesMax := bytesMax
  collector := none
  rangeFinal := false
  timeout := false
  doneInput := false

/-- {lit}`handle_item` -/
def handleItem (s : Collect C) : Sitemty2 T E → Except (CollectError E) (Collect C)
  | .ok (.dataItem .rangeComplete) =>
      .ok { s with rangeFinal := true, collector := s.collector.map setRangeComplete }
  | .ok (.dataItem (.data item)) =>
      let coll := ingest (s.collector.getD newCollector) item
      let est := byteEstimate coll
      let enough := decide (s.eventsMax ≤ len coll) || decide (s.bytesMax ≤ est.1.toNat)
      .ok { s with collector := some est.2, doneInput := s.doneInput || enough }
  | .ok (.log _) => .ok s
  | .ok (.stats _) => .ok s
  | .error e => .error (.inp e)

/-- The branch of {lit}`poll` that returns the result. -/
def finish (s : Collect C) : Except (CollectError E) (CollectResult Res) :=
  match if s.timeout then s.collector.map setTimedOut else s.collector with
  | some coll =>
      match result coll with
      | .ok res => .ok (.some res)
      | .error e => .error (.result e)
  | none => .ok .empty

/-- The loop of {lit}`poll`, over all its polls: what the future returns, if it does. -/
def poll : List (Turn (Sitemty2 T E)) → Collect C → Option (Except (CollectError E) (CollectResult Res))
  | [], s => if s.doneInput then some s.finish else none
  | turn :: turns, s =>
      if s.doneInput then some s.finish
      else
        match turn with
        | .deadline => poll turns { s with timeout := true, doneInput := true }
        | .pending => poll turns s
        | .ready x =>
            match s.handleItem x with
            | .ok s => poll turns s
            | .error e => some (.error e)
        | .closed => poll turns { s with doneInput := true }

theorem poll_of_done {s : Collect C} (hdone : s.doneInput = true) (turns : List (Turn (Sitemty2 T E))) :
    poll turns s = some s.finish := by
  cases turns <;> simp only [poll, hdone, if_true]

end Collect

/-! ## What was collected -/

section Events

variable {V E : Type*} [EventValueType V] {xs : List (Sitemty2 (ContainerEvents V) E)}

/-- A limit is reached: by all the events, or by the estimate of the first container. -/
def Reached (eventsMax bytesMax : ℕ) (cs : List (ContainerEvents V)) : Prop :=
  eventsMax ≤ (cs.flatMap ContainerEvents.evs).length ∨ ∃ c ∈ cs.head?, bytesMax ≤ (sizeOfEvents c.evs).toNat

instance (eventsMax bytesMax : ℕ) (cs : List (ContainerEvents V)) : Decidable (Reached eventsMax bytesMax cs) :=
  inferInstanceAs (Decidable (_ ∨ _))

/-- Whether an item says that the range is complete. -/
def isComplete : Sitemty2 (ContainerEvents V) E → Bool
  | .ok (.dataItem .rangeComplete) => true
  | _ => false

/-- Whether an item that says that the range is complete came behind a container. -/
def completed (xs : List (Sitemty2 (ContainerEvents V) E)) : Bool :=
  (xs.dropWhile fun x => (data2? x).isNone).any isComplete

omit [EventValueType V] in
theorem dropWhile_eq_nil_iff : (xs.dropWhile fun x => (data2? x).isNone) = [] ↔ datas2 xs = [] := by
  rw [List.dropWhile_eq_nil_iff, datas2, List.filterMap_eq_nil_iff]
  simp only [Option.isNone_iff_eq_none]

omit [EventValueType V] in
theorem completed_append (hne : datas2 xs ≠ []) (x : Sitemty2 (ContainerEvents V) E) :
    completed (xs ++ [x]) = (completed xs || isComplete x) := by
  have hrest : (xs.dropWhile fun x => (data2? x).isNone) ≠ [] := mt dropWhile_eq_nil_iff.mp hne
  rw [completed, completed, List.dropWhile_append, if_neg (by simpa using hrest), List.any_append]
  simp

/-- The collector, from the items that were read. -/
def collectorOf (xs : List (Sitemty2 (ContainerEvents V) E)) : Option (ContainerEventsCollector V) :=
  (datas2 xs).head?.map fun c =>
    { evs := { evs := (datas2 xs).flatMap ContainerEvents.evs, byteEstimateCache := some (sizeOfEvents c.evs) }
      rangeFinal := completed xs
      timedOut := false }

/-- What is returned of the items that were read. -/
def resultOf (xs : List (Sitemty2 (ContainerEvents V) E)) (timedOut : Bool) :
    CollectResult (ContainerEventsCollected V) :=
  match collectorOf xs with
  | some c => .some { evs := c.evs, rangeFinal := c.rangeFinal, timedOut := timedOut }
  | none => .empty

namespace Collect

variable {eventsMax bytesMax : ℕ}

/-- The future, from the items that were read. -/
def stateOf (eventsMax bytesMax : ℕ) (xs : List (Sitemty2 (ContainerEvents V) E)) (done : Bool) :
    Collect (ContainerEventsCollector V) where
  eventsMax := eventsMax
  bytesMax := bytesMax
  collector := collectorOf xs
  rangeFinal := xs.any isComplete
  timeout := false
  doneInput := done

/-- What the future holds behind a container -/
theorem handleItem_data (c : ContainerEvents V) :
    (stateOf eventsMax bytesMax xs false).handleItem (.ok (.dataItem (.data c)) : Sitemty2 (ContainerEvents V) E) =
      .ok (stateOf eventsMax bytesMax (xs ++ [.ok (.dataItem (.data c))])
        (decide (Reached eventsMax bytesMax (datas2 xs ++ [c])))) := by
  cases hxs : datas2 xs with
  | nil =>
      have hcompleted : completed (xs ++ [.ok (.dataItem (.data c))]) = false := by
        have hnil : (xs.dropWhile fun x => (data2? x).isNone) = [] := dropWhile_eq_nil_iff.mpr hxs
        rw [completed, List.dropWhile_append, if_pos (by simpa using hnil)]
        rfl
      simp [handleItem, stateOf, collectorOf, hxs, Reached, CollectorTy.ingest, CollectorTy.byteEstimate,
        CollectorTy.len, CollectorTy.newCollector, ContainerEvents.drainInto, ContainerEvents.byteEstimate,
        ContainerEvents.new, ContainerEvents.len, sizeOfEvents, hcompleted, isComplete, data2?]
  | cons d ds =>
      have hne : datas2 xs ≠ [] := by simp [hxs]
      simp [handleItem, stateOf, collectorOf, hxs, Reached, CollectorTy.ingest, CollectorTy.byteEstimate,
        CollectorTy.len, CollectorTy.newCollector, ContainerEvents.drainInto, ContainerEvents.byteEstimate,
        ContainerEvents.new, ContainerEvents.len, completed_append hne, isComplete, data2?]

/-- What the future holds behind an item without data -/
theorem handleItem_other {x : StreamItem (RangeCompletableItem (ContainerEvents V))}
    (hx : data2? (.ok x : Sitemty2 (ContainerEvents V) E) = none) :
    (stateOf eventsMax bytesMax xs false).handleItem (.ok x : Sitemty2 (ContainerEvents V) E) =
      .ok (stateOf eventsMax bytesMax (xs ++ [.ok x]) false) := by
  have hdatas : datas2 (xs ++ [.ok x]) = datas2 xs := by
    simp [hx]
  cases hxs : datas2 xs with
  | nil =>
      rcases x with (_ | c) | l | st
      · simp [handleItem, stateOf, collectorOf, hdatas, hxs, isComplete]
      · simp at hx
      · simp [handleItem, stateOf, collectorOf, hdatas, hxs, isComplete]
      · simp [handleItem, stateOf, collectorOf, hdatas, hxs, isComplete]
  | cons d ds =>
      have hne : datas2 xs ≠ [] := by simp [hxs]
      rcases x with (_ | c) | l | st
      · simp [handleItem, stateOf, collectorOf, hdatas, hxs, completed_append hne, isComplete,
          CollectorTy.setRangeComplete]
      · simp at hx
      · simp [handleItem, stateOf, collectorOf, hdatas, hxs, completed_append hne, isComplete]
      · simp [handleItem, stateOf, collectorOf, hdatas, hxs, completed_append hne, isComplete]

/-- The items of some turns -/
def itemsOf {ι : Type*} (turns : List (Turn ι)) : List ι :=
  turns.filterMap fun
    | .ready x => some x
    | _ => none

/-- No container that was read reached a limit. -/
def Below (eventsMax bytesMax : ℕ) (cs : List (ContainerEvents V)) : Prop :=
  ∀ ds, ds <+: cs → ds ≠ [] → ¬ Reached eventsMax bytesMax ds

theorem below_concat {cs : List (ContainerEvents V)} {c : ContainerEvents V} :
    Below eventsMax bytesMax (cs ++ [c]) ↔
      Below eventsMax bytesMax cs ∧ ¬ Reached eventsMax bytesMax (cs ++ [c]) := by
  constructor
  · intro h
    refine ⟨fun ds hds hne => h ds (hds.trans (List.prefix_append _ _)) hne, ?_⟩
    exact h _ List.prefix_rfl (by simp)
  · rintro ⟨h, hreached⟩ ds hds hne
    rcases List.prefix_concat_iff.mp hds with heq | hds
    · rwa [heq]
    · exact h ds hds hne

theorem Below.mono {cs ds : List (ContainerEvents V)} (h : Below eventsMax bytesMax ds) (hpre : cs <+: ds) :
    Below eventsMax bytesMax cs := fun es hes hne => h es (hes.trans hpre) hne

/-- A turn after which the future goes on, if no limit is reached. -/
def Quiet : Turn (Sitemty2 (ContainerEvents V) E) → Prop
  | .pending => True
  | .ready (.ok _) => True
  | _ => False

/-- What a turn makes the future return, with the items that were read before it. -/
def Returns (eventsMax bytesMax : ℕ) (xs : List (Sitemty2 (ContainerEvents V) E)) :
    Turn (Sitemty2 (ContainerEvents V) E) →
      Except (CollectError E) (CollectResult (ContainerEventsCollected V)) → Prop
  | .deadline, r => r = .ok (resultOf xs true)
  | .closed, r => r = .ok (resultOf xs false)
  | .pending, _ => False
  | .ready (.error e), r => r = .error (.inp e)
  | .ready (.ok x), r =>
      (data2? (.ok x : Sitemty2 (ContainerEvents V) E)).isSome ∧
        Reached eventsMax bytesMax (datas2 (xs ++ [.ok x])) ∧ r = .ok (resultOf (xs ++ [.ok x]) false)

/-- The future goes on through the first turns, and returns in the next. -/
structure Stops (eventsMax bytesMax : ℕ) (xs : List (Sitemty2 (ContainerEvents V) E))
    (r : Except (CollectError E) (CollectResult (ContainerEventsCollected V)))
    (pre : List (Turn (Sitemty2 (ContainerEvents V) E))) (t : Turn (Sitemty2 (ContainerEvents V) E)) : Prop where
  quiet : ∀ u ∈ pre, Quiet u
  below : Below eventsMax bytesMax (datas2 (xs ++ itemsOf pre))
  returns : Returns eventsMax bytesMax (xs ++ itemsOf pre) t r

variable {r : Except (CollectError E) (CollectResult (ContainerEventsCollected V))}
  {turns pre : List (Turn (Sitemty2 (ContainerEvents V) E))} {t u : Turn (Sitemty2 (ContainerEvents V) E)}

/-- The turn that returns is the first one or a later one. -/
theorem exists_split_cons {α : Type*} {P : List α → α → Prop} {y : α} {ys : List α} :
    (∃ pre t rest, y :: ys = pre ++ t :: rest ∧ P pre t) ↔
      P [] y ∨ ∃ pre t rest, ys = pre ++ t :: rest ∧ P (y :: pre) t := by
  constructor
  · rintro ⟨pre, t, rest, heq, h⟩
    cases pre with
    | nil =>
        obtain ⟨rfl, rfl⟩ := List.cons_eq_cons.mp heq
        exact .inl h
    | cons z pre =>
        obtain ⟨rfl, rfl⟩ := List.cons_eq_cons.mp heq
        exact .inr ⟨pre, t, rest, rfl, h⟩
  · rintro (h | ⟨pre, t, rest, rfl, h⟩)
    · exact ⟨[], y, ys, rfl, h⟩
    · exact ⟨y :: pre, t, rest, rfl, h⟩

theorem stops_nil (hbelow : Below eventsMax bytesMax (datas2 xs)) :
    Stops eventsMax bytesMax xs r [] t ↔ Returns eventsMax bytesMax xs t r := by
  have hxs : xs ++ itemsOf ([] : List (Turn (Sitemty2 (ContainerEvents V) E))) = xs := List.append_nil xs
  constructor
  · intro h
    exact hxs ▸ h.returns
  · intro h
    exact ⟨by simp, hxs.symm ▸ hbelow, hxs.symm ▸ h⟩

/-- Behind a turn that returns there is no other one. -/
theorem not_stops_cons (hquiet : ¬ Quiet u) :
    ¬ ∃ pre t rest, turns = pre ++ t :: rest ∧ Stops eventsMax bytesMax xs r (u :: pre) t := by
  rintro ⟨pre, t, rest, -, h⟩
  exact hquiet (h.quiet u List.mem_cons_self)

theorem stops_pending : Stops eventsMax bytesMax xs r (.pending :: pre) t ↔ Stops eventsMax bytesMax xs r pre t := by
  constructor
  · intro h
    exact ⟨fun u hu => h.quiet u (List.mem_cons_of_mem _ hu), h.below, h.returns⟩
  · intro h
    exact ⟨List.forall_mem_cons.mpr ⟨trivial, h.quiet⟩, h.below, h.returns⟩

theorem stops_ready {x : StreamItem (RangeCompletableItem (ContainerEvents V))} :
    Stops eventsMax bytesMax xs r (.ready (.ok x) :: pre) t ↔ Stops eventsMax bytesMax (xs ++ [.ok x]) r pre t := by
  have hxs : xs ++ itemsOf (.ready (.ok x) :: pre) = xs ++ [.ok x] ++ itemsOf pre := by
    rw [List.append_assoc]
    rfl
  constructor
  · intro h
    exact ⟨fun u hu => h.quiet u (List.mem_cons_of_mem _ hu), hxs ▸ h.below, hxs ▸ h.returns⟩
  · intro h
    exact ⟨List.forall_mem_cons.mpr ⟨trivial, h.quiet⟩, hxs.symm ▸ h.below, hxs.symm ▸ h.returns⟩

/-- What is returned when there is enough, or no more. -/
theorem finish_stateOf (done : Bool) :
    ((stateOf eventsMax bytesMax xs done).finish : Except (CollectError E) _) = .ok (resultOf xs false) := by
  rw [finish, resultOf]
  cases hcoll : collectorOf xs with
  | none => simp [stateOf, hcoll]
  | some c =>
      have htimedOut : c.timedOut = false := by
        obtain ⟨d, -, rfl⟩ := Option.map_eq_some_iff.mp hcoll
        rfl
      simp [stateOf, hcoll, CollectorTy.result, htimedOut]

/-- What is returned at the deadline. -/
theorem finish_deadline :
    (({ stateOf eventsMax bytesMax xs false with timeout := true, doneInput := true } :
      Collect (ContainerEventsCollector V)).finish : Except (CollectError E) _) = .ok (resultOf xs true) := by
  rw [finish, resultOf]
  cases hcoll : collectorOf xs with
  | none => simp [stateOf, hcoll]
  | some c => simp [stateOf, hcoll, CollectorTy.result, CollectorTy.setTimedOut]

omit [EventValueType V] in
theorem eq_data_of_data2 {x : StreamItem (RangeCompletableItem (ContainerEvents V))} {c : ContainerEvents V}
    (hx : data2? (.ok x : Sitemty2 (ContainerEvents V) E) = some c) : x = .dataItem (.data c) := by
  rcases x with (_ | d) | l | st
  · exact absurd hx (Option.some_ne_none c).symm
  · rw [Option.some_inj.mp hx]
  · exact absurd hx (Option.some_ne_none c).symm
  · exact absurd hx (Option.some_ne_none c).symm

/-- A run, from some items that were read without reaching a limit. -/
theorem poll_stateOf (hbelow : Below eventsMax bytesMax (datas2 xs)) :
    poll turns (stateOf eventsMax bytesMax xs false) = some r ↔
      ∃ pre t rest, turns = pre ++ t :: rest ∧ Stops eventsMax bytesMax xs r pre t := by
  induction turns generalizing xs with
  | nil => simp [poll, stateOf]
  | cons u turns ih =>
      have hgo : (stateOf eventsMax bytesMax xs false).doneInput = false := rfl
      rw [exists_split_cons, stops_nil hbelow]
      cases u with
      | deadline =>
          simp only [poll, hgo, Bool.false_eq_true, if_false]
          rw [poll_of_done rfl, finish_deadline, or_iff_left (not_stops_cons id), Option.some_inj]
          exact eq_comm
      | pending =>
          simp only [poll, hgo, Bool.false_eq_true, if_false, stops_pending]
          rw [ih hbelow, or_iff_right (show ¬ Returns eventsMax bytesMax xs .pending r from id)]
      | closed =>
          simp only [poll, hgo, Bool.false_eq_true, if_false]
          have hstate : { stateOf eventsMax bytesMax xs false with doneInput := true } =
              stateOf eventsMax bytesMax xs true := rfl
          rw [hstate, poll_of_done rfl, finish_stateOf, or_iff_left (not_stops_cons id), Option.some_inj]
          exact eq_comm
      | ready x =>
          cases x with
          | error e =>
              simp only [poll, hgo, Bool.false_eq_true, if_false, handleItem]
              rw [or_iff_left (not_stops_cons id), Option.some_inj]
              exact eq_comm
          | ok x =>
              simp only [stops_ready, poll, hgo, Bool.false_eq_true, if_false]
              cases hx : data2? (.ok x : Sitemty2 (ContainerEvents V) E) with
              | none =>
                  have hdatas : datas2 (xs ++ [.ok x]) = datas2 xs := by
                    simp [hx]
                  have hreturns : ¬ Returns eventsMax bytesMax xs (.ready (.ok x)) r := by
                    rintro ⟨hsome, -⟩
                    rw [hx] at hsome
                    exact absurd hsome Bool.false_ne_true
                  rw [handleItem_other hx, or_iff_right hreturns]
                  exact ih (hdatas ▸ hbelow)
              | some c =>
                  obtain rfl := eq_data_of_data2 hx
                  have hdatas : datas2 (xs ++ [.ok (.dataItem (.data c))]) = datas2 xs ++ [c] := by
                    simp [hx]
                  rw [handleItem_data]
                  by_cases hreached : Reached eventsMax bytesMax (datas2 xs ++ [c])
                  · have hrest : ¬ ∃ pre t rest, turns = pre ++ t :: rest ∧
                        Stops eventsMax bytesMax (xs ++ [.ok (.dataItem (.data c))]) r pre t := by
                      rintro ⟨pre, t, rest, -, h⟩
                      have hbelow' := h.below
                      rw [datas2_append, hdatas] at hbelow'
                      exact (below_concat.mp (hbelow'.mono (List.prefix_append _ _))).2 hreached
                    simp only [decide_eq_true hreached]
                    rw [poll_of_done rfl, finish_stateOf, or_iff_left hrest, Option.some_inj, Returns, hdatas, hx]
                    simp only [Option.isSome_some, hreached, true_and]
                    exact eq_comm
                  · have hreturns : ¬ Returns eventsMax bytesMax xs (.ready (.ok (.dataItem (.data c)))) r := by
                      rintro ⟨-, h, -⟩
                      rw [hdatas] at h
                      exact hreached h
                    simp only [decide_eq_false hreached]
                    rw [or_iff_right hreturns]
                    apply ih
                    rw [hdatas]
                    exact below_concat.mpr ⟨hbelow, hreached⟩

/-- What the future returns over the events of a stream, for every order in which the input and the timer answer: the
events up to the first stop, where the limit on the bytes is compared with the first container alone. -/
theorem collects_iff : poll turns (new eventsMax bytesMax : Collect (ContainerEventsCollector V)) = some r ↔
    ∃ pre t rest, turns = pre ++ t :: rest ∧ Stops eventsMax bytesMax [] r pre t := by
  have hbelow : Below eventsMax bytesMax (datas2 ([] : List (Sitemty2 (ContainerEvents V) E))) := by
    intro ds hds hne
    exact absurd (List.prefix_nil.mp hds) hne
  exact poll_stateOf hbelow

/-- Of three containers the last two are above the limit on the bytes, and all of them are collected. -/
example :
    poll [.ready (sitem2Data ⟨[⟨1, 7⟩], none⟩), .pending, .ready (sitem2Data ⟨[⟨2, 7⟩, ⟨3, 7⟩, ⟨4, 7⟩], none⟩),
        .ready (sitem2Data ⟨[⟨5, 7⟩, ⟨6, 7⟩, ⟨7, 7⟩], none⟩), .ready (.ok (.dataItem .rangeComplete)), .closed]
      (new 100 10 : Collect (ContainerEventsCollector UInt8)) =
    some (.ok (.some ⟨⟨[⟨1, 7⟩, ⟨2, 7⟩, ⟨3, 7⟩, ⟨4, 7⟩, ⟨5, 7⟩, ⟨6, 7⟩, ⟨7, 7⟩], some 9⟩, true, false⟩) :
      Except (CollectError Unit) (CollectResult (ContainerEventsCollected UInt8))) := rfl

end Collect

end Events

end Streams
end Daqbuf
