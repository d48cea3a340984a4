import Daqbuf.Slots.Deque
import Daqbuf.Slots.Pool
/-!
# Batchers

{lit}`run_batcher` and {lit}`Batcher2` collect single items into batches of some size, and hand over a smaller batch
when a timer runs out or the input ends.  The first is a task between two channels, the second is a stream.

The timers and the channels appear as what they answer: that an item came, that the input ended, that a time ran
out, or that a batch was taken.  The consumer stays, so that sending does not fail but can take too long.

Main results:

- Theorem {lit}`Batching.batched_handOver_iff`: when a batch can be handed over.
- Theorem {lit}`RunBatcher.batched_step_iff`: a batch of {lit}`run_batcher` is lost when the consumer is slow.
- Theorem {lit}`Batcher2.batched_step_iff`: the limit of {lit}`Batcher2` gets lost with the first batch.
- Theorem {lit}`batched_iff`: when the two keep all items, in batches up to the limit.
-/

namespace Daqbuf
namespace Batchtools

/-! ## Batching -/

/-- What made a batcher hand over a batch. -/
inductive Cause where
  | item
  | elapsed
  | ended
  deriving DecidableEq, Repr

/-- The items that a batcher took, the batches that were delivered, the items that it holds, and whether it is
finished. -/
structure Batching (T : Type) where
  received : List T
  delivered : List (List T × Cause)
  held : List T
  finished : Bool

/-- No item is lost, and none is held at the end; a batch is not above the limit, and below it only by a timer or
at the end of the input. -/
structure Batched {T : Type} (limit : ℕ) (b : Batching T) : Prop where
  kept : (b.delivered.map Prod.fst).flatten ++ b.held = b.received
  finished : b.finished = true → b.held = []
  within : ∀ d ∈ b.delivered, d.1.length ≤ limit
  short : ∀ d ∈ b.delivered, d.1.length < limit → d.2 ≠ .item

namespace Batching

variable {T : Type} {limit : ℕ} {b : Batching T} {batch rest : List T} {cause : Cause} {finished : Bool}

/-- A batcher before its start -/
def new : Batching T := ⟨[], [], [], false⟩

theorem batched_new (limit : ℕ) : Batched limit (new : Batching T) where
  kept := rfl
  finished := fun _ => rfl
  within := fun _ h => absurd h List.not_mem_nil
  short := fun _ h => absurd h List.not_mem_nil

/-- An item is taken. -/
def take (b : Batching T) (x : T) : Batching T := { b with received := b.received ++ [x], held := b.held ++ [x] }

/-- A batch is delivered, and the rest is still held. -/
def handOver (b : Batching T) (batch : List T) (cause : Cause) (rest : List T) (finished : Bool) : Batching T where
  received := b.received
  delivered := b.delivered ++ [(batch, cause)]
  held := rest
  finished := finished

theorem batched_take (hb : Batched limit b) (hopen : b.finished = false) (x : T) : Batched limit (b.take x) where
  kept := by
    change (b.delivered.map Prod.fst).flatten ++ (b.held ++ [x]) = b.received ++ [x]
    rw [← List.append_assoc, hb.kept]
  finished := fun h => by cases hopen.symm.trans h
  within := hb.within
  short := hb.short

/-- The items of the batch come first among those that were held. -/
theorem batched_handOver_iff (hb : Batched limit b) (hheld : b.held = batch ++ rest)
    (hfinished : finished = true → rest = []) :
    Batched limit (b.handOver batch cause rest finished) ↔
      batch.length ≤ limit ∧ (batch.length < limit → cause ≠ .item) := by
  have hmem : (batch, cause) ∈ b.delivered ++ [(batch, cause)] := List.mem_append_right _ List.mem_cons_self
  constructor
  · intro h
    exact ⟨h.within _ hmem, h.short _ hmem⟩
  · rintro ⟨hwithin, hshort⟩
    refine ⟨?_, hfinished, ?_, ?_⟩
    · change ((b.delivered ++ [(batch, cause)]).map Prod.fst).flatten ++ rest = b.received
      rw [← hb.kept, hheld]
      simp
    · intro d hd
      rcases List.mem_append.mp hd with hold | hnew
      · exact hb.within d hold
      · rwa [List.mem_singleton.mp hnew]
    · intro d hd
      rcases List.mem_append.mp hd with hold | hnew
      · exact hb.short d hold
      · rwa [List.mem_singleton.mp hnew]

/-- A batch that is dropped has to be empty. -/
theorem batched_drop_iff (hb : Batched limit b) (hheld : b.held = batch ++ rest)
    (hfinished : finished = true → rest = []) :
    Batched limit { b with held := rest, finished := finished } ↔ batch = [] := by
  constructor
  · intro h
    have hkept := h.kept
    rw [← hb.kept, hheld] at hkept
    simpa using hkept
  · rintro rfl
    refine ⟨?_, hfinished, hb.within, hb.short⟩
    rw [← hb.kept, hheld]
    rfl

end Batching

/-! ## Between two channels -/

/-- Where {lit}`run_batcher` waits: for an item, or for a batch to be taken, which is the last one if the input
ended. -/
inductive Await (T : Type) where
  | recv
  | send (batch : List T)
  | lastSend (batch : List T)
  | done

/-- {lit}`run_batcher` at a point where it waits, with what it was given and what it delivered. -/
structure RunBatcher (T : Type) where
  all : List T
  await : Await T
  cause : Cause
  received : List T
  delivered : List (List T × Cause)

/-- How the waiting ends. -/
inductive RunBatcherInput (T : Type) where
  /-- of {lit}`rx.recv()` with its timeout -/
  | item (x : T)
  | closed
  | elapsed
  /-- of {lit}`batch_tx.send(batch)` with its timeout -/
  | sent
  | sendElapsed

namespace RunBatcher

variable {T : Type}

def new : RunBatcher T where
  all := []
  await := .recv
  cause := .ended
  received := []
  delivered := []

/-- The beginning of the loop, with {lit}`do_emit`. -/
def enter (s : RunBatcher T) (doEmit : Bool) : RunBatcher T :=
  if doEmit then { s with all := [], await := .send s.all } else { s with await := .recv }

/-- From one point where it waits to the next one. -/
def step (batchLimit : ℕ) (i : RunBatcherInput T) (s : RunBatcher T) : Option (RunBatcher T) :=
  match s.await, i with
  | .recv, .item x =>
      let all := s.all ++ [x]
      some ({ s with all := all, cause := .item, received := s.received ++ [x] }.enter (batchLimit ≤ all.length))
  | .recv, .elapsed => some ({ s with cause := .elapsed }.enter (0 < s.all.length))
  | .recv, .closed => some { s with all := [], await := .lastSend s.all, cause := .ended }
  | .send batch, .sent => some ({ s with delivered := s.delivered ++ [(batch, s.cause)] }.enter false)
  | .send _, .sendElapsed => some (s.enter false)
  | .lastSend batch, .sent => some { s with await := .done, delivered := s.delivered ++ [(batch, s.cause)] }
  | .lastSend _, .sendElapsed => some { s with await := .done }
  | _, _ => none

/-- The batch that is being sent. -/
def sending (s : RunBatcher T) : List T :=
  match s.await with
  | .send batch | .lastSend batch => batch
  | .recv | .done => []

def batching (s : RunBatcher T) : Batching T where
  received := s.received
  delivered := s.delivered
  held := s.sending ++ s.all
  finished := s.await matches .done

/-- No batch is dropped because the consumer takes too long. -/
def InTime (i : RunBatcherInput T) (s : RunBatcher T) : Prop := i = .sendElapsed → s.sending = []

variable {limit : ℕ} {s t : RunBatcher T} {i : RunBatcherInput T}

/-- A batch that can be delivered. -/
def Ready (limit : ℕ) (batch : List T) (cause : Cause) : Prop :=
  batch.length ≤ limit ∧ (batch.length < limit → cause ≠ .item)

/-- While it waits for an item there is room for it, and while it waits with a batch that one can be delivered. -/
def Waits (limit : ℕ) (s : RunBatcher T) : Prop :=
  match s.await with
  | .recv => s.all.length < limit
  | .send batch | .lastSend batch => s.all = [] ∧ Ready limit batch s.cause
  | .done => s.all = []

/-- The items that it had collected are sent, or are still collected. -/
theorem batching_enter (s : RunBatcher T) (doEmit : Bool) :
    (s.enter doEmit).batching = ⟨s.received, s.delivered, s.all, false⟩ := by
  cases doEmit with
  | false => rfl
  | true =>
      change Batching.mk s.received s.delivered (s.all ++ []) false = _
      rw [List.append_nil]

theorem waits_enter {doEmit : Bool} (hfull : doEmit = true → Ready limit s.all s.cause)
    (hroom : doEmit = false → s.all.length < limit) : Waits limit (s.enter doEmit) := by
  cases doEmit with
  | false => exact hroom rfl
  | true => exact ⟨rfl, hfull rfl⟩

theorem batching_recv (hawait : s.await = .recv) : s.batching = ⟨s.received, s.delivered, s.all, false⟩ := by
  simp [batching, sending, hawait]

theorem batching_send {batch : List T} (hawait : s.await = .send batch) :
    s.batching = ⟨s.received, s.delivered, batch ++ s.all, false⟩ := by
  simp [batching, sending, hawait]

theorem batching_lastSend {batch : List T} (hawait : s.await = .lastSend batch) :
    s.batching = ⟨s.received, s.delivered, batch ++ s.all, false⟩ := by
  simp [batching, sending, hawait]

/-- While it waits for an item, nothing gets lost. -/
theorem batched_recv (hawait : s.await = .recv) (hwaits : Waits limit s)
    (hb : Batched limit s.batching) (hstep : step limit i s = some t) :
    Waits limit t ∧ Batched limit t.batching ∧ i ≠ .sendElapsed := by
  have hroom : s.all.length < limit := by simpa [Waits, hawait] using hwaits
  rw [batching_recv hawait] at hb
  unfold step at hstep
  rw [hawait] at hstep
  cases i <;> cases hstep
  · rename_i x
    refine ⟨waits_enter ?_ ?_, ?_, fun h => by cases h⟩
    · intro hfull
      have hlen : (s.all ++ [x]).length = s.all.length + 1 := List.length_append
      have hge := of_decide_eq_true hfull
      exact ⟨by dsimp only; omega, fun hlt => by dsimp only at hlt; omega⟩
    · intro hnot
      exact not_le.mp (of_decide_eq_false hnot)
    · rw [batching_enter]
      exact Batching.batched_take hb rfl x
  · refine ⟨?_, ?_, fun h => by cases h⟩
    · exact ⟨rfl, hroom.le, fun _ h => by cases h⟩
    · change Batched limit ⟨s.received, s.delivered, s.all ++ [], false⟩
      rwa [List.append_nil]
  · refine ⟨waits_enter (fun _ => ⟨hroom.le, fun _ h => by cases h⟩) fun _ => hroom, ?_, fun h => by cases h⟩
    rw [batching_enter]
    exact hb

/-- While it waits with a batch, that is delivered, or lost if it has items. -/
theorem batched_send_iff (hlimit : 1 ≤ limit) {batch : List T} (hawait : s.await = .send batch)
    (hwaits : Waits limit s) (hb : Batched limit s.batching) (hstep : step limit i s = some t) :
    Waits limit t ∧ (Batched limit t.batching ↔ InTime i s) := by
  obtain ⟨hall, hready⟩ : s.all = [] ∧ Ready limit batch s.cause := by simpa [Waits, hawait] using hwaits
  have hsending : s.sending = batch := by simp [sending, hawait]
  have hroom : s.all.length < limit := by
    rw [hall]
    exact hlimit
  rw [batching_send hawait] at hb
  unfold step at hstep
  rw [hawait] at hstep
  cases i <;> cases hstep
  · refine ⟨waits_enter (fun h => by cases h) fun _ => hroom, ?_⟩
    rw [batching_enter]
    exact iff_of_true ((Batching.batched_handOver_iff hb rfl fun h => by cases h).mpr hready) fun h => by cases h
  · refine ⟨waits_enter (fun h => by cases h) fun _ => hroom, ?_⟩
    rw [batching_enter, InTime, hsending]
    exact (Batching.batched_drop_iff hb rfl fun h => by cases h).trans ⟨fun h _ => h, fun h => h rfl⟩

/-- The last batch is delivered, or lost if it has items. -/
theorem batched_lastSend_iff {batch : List T} (hawait : s.await = .lastSend batch)
    (hwaits : Waits limit s) (hb : Batched limit s.batching) (hstep : step limit i s = some t) :
    Waits limit t ∧ (Batched limit t.batching ↔ InTime i s) := by
  obtain ⟨hall, hready⟩ : s.all = [] ∧ Ready limit batch s.cause := by simpa [Waits, hawait] using hwaits
  have hsending : s.sending = batch := by simp [sending, hawait]
  rw [batching_lastSend hawait] at hb
  unfold step at hstep
  rw [hawait] at hstep
  cases i <;> cases hstep
  · refine ⟨hall, ?_⟩
    exact iff_of_true ((Batching.batched_handOver_iff hb rfl fun _ => hall).mpr hready) fun h => by cases h
  · refine ⟨hall, ?_⟩
    rw [InTime, hsending]
    exact (Batching.batched_drop_iff hb rfl fun _ => hall).trans ⟨fun h _ => h, fun h => h rfl⟩

/-- A batch is lost exactly if the consumer does not take it in time. -/
theorem batched_step_iff (hlimit : 1 ≤ limit) (hwaits : Waits limit s) (hb : Batched limit s.batching)
    (hstep : step limit i s = some t) : Waits limit t ∧ (Batched limit t.batching ↔ InTime i s) := by
  cases hawait : s.await with
  | recv =>
      obtain ⟨hwaits', hb', hi⟩ := batched_recv hawait hwaits hb hstep
      exact ⟨hwaits', iff_of_true hb' fun h => absurd h hi⟩
  | send batch => exact batched_send_iff hlimit hawait hwaits hb hstep
  | lastSend batch => exact batched_lastSend_iff hawait hwaits hb hstep
  | done =>
      unfold step at hstep
      rw [hawait] at hstep
      cases hstep

end RunBatcher

/-! ## A stream -/

/-- What one round of {lit}`Batcher2::poll_next` meets: the answers of the input and of the timer, or no input any
more.  The timer is only asked if the batch is not complete. -/
inductive Batcher2Input (T : Type) where
  | item (x : T) (elapsed : Bool)
  | ended (elapsed : Bool)
  | pending (elapsed : Bool)
  | past

/-- {lit}`Batcher2`, with what it was given and what it delivered. -/
structure Batcher2 (T : Type) where
  inp : Bool
  buf : Slots.Deque T
  received : List T
  delivered : List (List T × Cause)
  finished : Bool

namespace Batcher2

variable {T : Type}

/-- {lit}`new` -/
def new (limitLen : ℕ) : Batcher2 T where
  inp := true
  buf := .withCapacity limitLen
  received := []
  delivered := []
  finished := false

/-- The buffer is replaced by a new one, and delivered. -/
def emit (s : Batcher2 T) (cause : Cause) : Batcher2 T :=
  { s with buf := .empty, delivered := s.delivered ++ [(s.buf.items, cause)] }

/-- The part of the round for the timer. -/
def pollTimer (s : Batcher2 T) (elapsed : Bool) : Batcher2 T :=
  if elapsed ∧ 0 < s.buf.length then s.emit .elapsed else s

/-- One round of {lit}`poll_next`. -/
def step (g : Slots.Growth) (i : Batcher2Input T) (s : Batcher2 T) : Option (Batcher2 T) :=
  match s.inp, i with
  | true, .item x elapsed =>
      let s := { s with buf := s.buf.pushBack g x, received := s.received ++ [x] }
      some (if s.buf.capacity ≤ s.buf.length then s.emit .item else s.pollTimer elapsed)
  | true, .ended elapsed =>
      let s := { s with inp := false }
      some (if 0 < s.buf.length then s.emit .ended else s.pollTimer elapsed)
  | true, .pending elapsed => some (s.pollTimer elapsed)
  | false, .past => some { s with finished := true }
  | _, _ => none

def batching (s : Batcher2 T) : Batching T where
  received := s.received
  delivered := s.delivered
  held := s.buf.items
  finished := s.finished

/-- The first batch; or a later one that its buffer, as it grew from nothing, completes at the limit, and that is
not above the limit when time runs out or the input ends. -/
def Sized (g : Slots.Growth) (limit : ℕ) : Batcher2Input T → Batcher2 T → Prop
  | .item _ elapsed, s => s.delivered = [] ∨
      (s.buf.length + 1 = g.grow 0 → g.grow 0 = limit) ∧ (elapsed = true → s.buf.length + 1 ≤ limit)
  | .ended _, s => s.delivered = [] ∨ s.buf.length ≤ limit
  | .pending elapsed, s => s.delivered = [] ∨ (elapsed = true → s.buf.length ≤ limit)
  | .past, _ => True

end Batcher2

namespace Batcher2

variable {T : Type} {g : Slots.Growth} {limit : ℕ} {s t : Batcher2 T} {i : Batcher2Input T}

/-- The first buffer has room up to the limit; a later one has no allocation, or room up to the smallest one.  Without
an input, all is delivered. -/
structure Room (g : Slots.Growth) (limit : ℕ) (s : Batcher2 T) : Prop where
  room : (s.delivered = [] ∧ s.buf.capacity = limit ∧ s.buf.length < limit) ∨
    (s.delivered ≠ [] ∧ (s.buf.capacity = 0 ∨ s.buf.capacity = g.grow 0 ∧ s.buf.length < g.grow 0))
  past : s.inp = false → s.buf.items = []
  unfinished : s.inp = true → s.finished = false

theorem Room.new (hlimit : 1 ≤ limit) : Room g limit (new limit : Batcher2 T) where
  room := Or.inl ⟨rfl, rfl, hlimit⟩
  past := fun _ => rfl
  unfinished := fun _ => rfl

/-- A new buffer has no allocation. -/
theorem Room.emit (hopen : s.inp = true → s.finished = false) (cause : Cause) : Room g limit (s.emit cause) where
  room := Or.inr ⟨List.append_ne_nil_of_right_ne_nil _ (List.cons_ne_nil _ _), Or.inl rfl⟩
  past := fun _ => rfl
  unfinished := hopen

/-- A batch is delivered as the buffer is. -/
theorem batched_emit_iff {cause : Cause} (hb : Batched limit s.batching) :
    Batched limit (s.emit cause).batching ↔ s.buf.length ≤ limit ∧ (s.buf.length < limit → cause ≠ .item) :=
  Batching.batched_handOver_iff hb (List.append_nil _).symm fun _ => rfl

/-- The timer lets a batch be delivered that is not above the limit. -/
theorem batched_pollTimer_iff {elapsed : Bool} (hb : Batched limit s.batching) :
    Batched limit (s.pollTimer elapsed).batching ↔ (elapsed = true → s.buf.length ≤ limit) := by
  rw [pollTimer]
  split
  · rename_i h
    rw [batched_emit_iff hb]
    constructor
    · exact fun hsize _ => hsize.1
    · exact fun hsize => ⟨hsize h.1, fun _ hcause => by cases hcause⟩
  · rename_i h
    refine iff_of_true hb fun helapsed => ?_
    have hzero : ¬ 0 < s.buf.length := fun hpos => h ⟨helapsed, hpos⟩
    omega

/-- What the timer does leaves room. -/
theorem Room.pollTimer (hroom : Room g limit s) (elapsed : Bool) : Room g limit (s.pollTimer elapsed) := by
  rw [Batcher2.pollTimer]
  split
  · exact Room.emit hroom.unfinished .elapsed
  · exact hroom

/-- A buffer with an item more, before it is looked at. -/
def push (g : Slots.Growth) (s : Batcher2 T) (x : T) : Batcher2 T :=
  { s with buf := s.buf.pushBack g x, received := s.received ++ [x] }

theorem length_push (s : Batcher2 T) (x : T) : (s.push g x).buf.length = s.buf.length + 1 :=
  Slots.Deque.length_pushBack

/-- An item finds room in the buffer: in the first one up to the limit, in a later one up to the smallest
allocation. -/
theorem Room.capacity_push (hroom : Room g limit s) (x : T) :
    (s.delivered = [] ∧ (s.push g x).buf.capacity = limit ∧ s.buf.length < limit) ∨
    (s.delivered ≠ [] ∧ (s.push g x).buf.capacity = g.grow 0 ∧ s.buf.length < g.grow 0) := by
  rcases hroom.room with ⟨hfirst, hcap, hlt⟩ | ⟨hlater, hcap | ⟨hcap, hlt⟩⟩
  · refine Or.inl ⟨hfirst, ?_, hlt⟩
    exact ((Slots.Deque.capacity_push_of_lt (hcap ▸ hlt)).1).trans hcap
  · have hlen : s.buf.length ≤ 0 := hcap ▸ s.buf.fits
    refine Or.inr ⟨hlater, ?_, hlen.trans_lt (g.lt_grow 0)⟩
    change s.buf.reserved g = _
    rw [Slots.Deque.reserved, if_neg (by omega), hcap]
  · refine Or.inr ⟨hlater, ?_, hlt⟩
    exact ((Slots.Deque.capacity_push_of_lt (hcap ▸ hlt)).1).trans hcap

/-- An item that does not fill its buffer leaves room. -/
theorem Room.push (hroom : Room g limit s) {x : T} (hinp : s.inp = true)
    (hlt : (s.push g x).buf.length < (s.push g x).buf.capacity) : Room g limit (s.push g x) where
  room := by
    rcases hroom.capacity_push x with ⟨hfirst, hcap, -⟩ | ⟨hlater, hcap, -⟩
    · exact Or.inl ⟨hfirst, hcap, hcap ▸ hlt⟩
    · exact Or.inr ⟨hlater, Or.inr ⟨hcap, hcap ▸ hlt⟩⟩
  past := fun h => by cases hinp.symm.trans h
  unfinished := hroom.unfinished

/-- A batch is of the right size with an item more exactly if its buffer has the right one. -/
theorem batched_item_iff (hroom : Room g limit s) (hb : Batched limit s.batching) (hinp : s.inp = true) (x : T)
    (elapsed : Bool) {t : Batcher2 T} (ht : t = if (s.push g x).buf.capacity ≤ (s.push g x).buf.length then
      (s.push g x).emit .item else (s.push g x).pollTimer elapsed) :
    Room g limit t ∧ (Batched limit t.batching ↔ Sized g limit (.item x elapsed) s) := by
  have hpush : Batched limit (s.push g x).batching := Batching.batched_take hb (hroom.unfinished hinp) x
  have hlen := length_push (g := g) s x
  split at ht
  · rename_i hfull
    subst ht
    refine ⟨Room.emit (s := s.push g x) hroom.unfinished .item, ?_⟩
    rw [batched_emit_iff hpush, hlen, Sized]
    rcases hroom.capacity_push x with ⟨hfirst, hcap, hlt⟩ | ⟨hlater, hcap, hlt⟩
    · exact iff_of_true ⟨hlt, fun h => by omega⟩ (Or.inl hfirst)
    · have heq : s.buf.length + 1 = g.grow 0 := by omega
      rw [or_iff_right hlater, heq]
      constructor
      · rintro ⟨hle, hshort⟩
        have hnot : ¬ g.grow 0 < limit := fun h => hshort h rfl
        exact ⟨fun _ => by omega, fun _ => hle⟩
      · rintro ⟨hsize, -⟩
        exact ⟨(hsize rfl).le, fun h => absurd (hsize rfl) h.ne⟩
  · rename_i hnot
    subst ht
    have hlt := not_le.mp hnot
    refine ⟨(hroom.push hinp hlt).pollTimer elapsed, ?_⟩
    rw [batched_pollTimer_iff hpush, hlen, Sized]
    rcases hroom.capacity_push x with ⟨hfirst, hcap, hbelow⟩ | ⟨hlater, hcap, -⟩
    · exact iff_of_true (fun _ => hbelow) (Or.inl hfirst)
    · have hne : s.buf.length + 1 ≠ g.grow 0 := by omega
      rw [or_iff_right hlater, and_iff_right fun h => absurd h hne]

/-- The first buffer stays below the limit. -/
theorem Room.sized_iff (hroom : Room g limit s) {P : Prop} (hP : s.buf.length ≤ limit → P) :
    P ↔ s.delivered = [] ∨ P := by
  constructor
  · exact Or.inr
  · rintro (hfirst | h)
    · rcases hroom.room with ⟨-, -, hlt⟩ | ⟨hlater, -⟩
      · exact hP hlt.le
      · exact absurd hfirst hlater
    · exact h

/-- A batch is of the right size at the end of the input exactly if its buffer is. -/
theorem batched_ended_iff (hroom : Room g limit s) (hb : Batched limit s.batching) (elapsed : Bool) {t : Batcher2 T}
    (ht : t = if 0 < s.buf.length then { s with inp := false }.emit .ended
      else { s with inp := false }.pollTimer elapsed) :
    Room g limit t ∧ (Batched limit t.batching ↔ Sized g limit (.ended elapsed) s) := by
  have hb' : Batched limit { s with inp := false }.batching := hb
  split at ht
  · subst ht
    refine ⟨Room.emit (fun h => by cases h) .ended, ?_⟩
    rw [batched_emit_iff hb', Sized, ← hroom.sized_iff id]
    exact and_iff_left fun _ h => by cases h
  · rename_i hnot
    subst ht
    have hempty : s.buf.items = [] := List.length_eq_zero_iff.mp (Nat.eq_zero_of_not_pos hnot)
    have hroom' : Room g limit { s with inp := false } := ⟨hroom.room, fun _ => hempty, fun h => by cases h⟩
    have hle : s.buf.length ≤ limit := by omega
    refine ⟨hroom'.pollTimer elapsed, ?_⟩
    rw [batched_pollTimer_iff hb', Sized]
    exact iff_of_true (fun _ => hle) (Or.inr hle)

/-- A batch is of the right size exactly if its buffer has the right one. -/
theorem batched_step_iff (hroom : Room g limit s) (hb : Batched limit s.batching) (hstep : step g i s = some t) :
    Room g limit t ∧ (Batched limit t.batching ↔ Sized g limit i s) := by
  unfold step at hstep
  split at hstep
  · rename_i x elapsed hinp
    exact batched_item_iff hroom hb hinp x elapsed (Option.some.inj hstep).symm
  · rename_i elapsed hinp
    exact batched_ended_iff hroom hb elapsed (Option.some.inj hstep).symm
  · rename_i elapsed hinp
    obtain rfl := Option.some.inj hstep
    refine ⟨hroom.pollTimer elapsed, ?_⟩
    rw [batched_pollTimer_iff hb, Sized]
    exact hroom.sized_iff fun h _ => h
  · rename_i hinp
    obtain rfl := Option.some.inj hstep
    have hempty := hroom.past hinp
    refine ⟨⟨hroom.room, fun _ => hempty, fun h => by cases hinp.symm.trans h⟩, ?_⟩
    exact iff_of_true ⟨hb.kept, fun _ => hempty, hb.within, hb.short⟩ trivial
  · cases hstep

end Batcher2

/-! ## Runs -/

/-- Over every run, {lit}`run_batcher` keeps all items in batches up to the limit exactly if the consumer takes each
batch in time, and {lit}`Batcher2` exactly if each batch behind the first one has a buffer of the right size. -/
theorem batched_iff {T : Type} (g : Slots.Growth) (limit : ℕ) (hlimit : 1 ≤ limit) :
    (∀ inputs : List (RunBatcherInput T),
      (∀ t, Slots.Reached (RunBatcher.step limit) inputs .new t → Batched limit t.batching) ↔
        Slots.Along (RunBatcher.step limit) RunBatcher.InTime inputs .new) ∧
    ∀ inputs : List (Batcher2Input T),
      (∀ t, Slots.Reached (Batcher2.step g) inputs (.new limit) t → Batched limit t.batching) ↔
        Slots.Along (Batcher2.step g) (Batcher2.Sized g limit) inputs (.new limit) := by
  constructor
  · intro inputs
    apply Slots.forall_reached_iff_along_of_inv (RunBatcher.Waits limit)
    · intro i s t hwaits hb hstep
      have hboth := RunBatcher.batched_step_iff hlimit hwaits hb hstep
      exact ⟨fun _ => hboth.1, hboth.2⟩
    · exact hlimit
    · exact Batching.batched_new limit
  · intro inputs
    apply Slots.forall_reached_iff_along_of_inv (Batcher2.Room g limit)
    · intro i s t hroom hb hstep
      have hboth := Batcher2.batched_step_iff hroom hb hstep
      exact ⟨fun _ => hboth.1, hboth.2⟩
    · exact Batcher2.Room.new hlimit
    · exact Batching.batched_new limit

/-- The way that an allocation for small elements grows -/
def exampleGrowth : Slots.Growth where
  grow n := max 4 (2 * n)
  lt_grow n := by omega

/-- Items up to a limit of four. -/
theorem batched_iff_four :
    (∀ inputs : List (RunBatcherInput ℕ),
      (∀ t, Slots.Reached (RunBatcher.step 4) inputs .new t → Batched 4 t.batching) ↔
        Slots.Along (RunBatcher.step 4) RunBatcher.InTime inputs .new) ∧
    ∀ inputs : List (Batcher2Input ℕ),
      (∀ t, Slots.Reached (Batcher2.step exampleGrowth) inputs (.new 4) t → Batched 4 t.batching) ↔
        Slots.Along (Batcher2.step exampleGrowth) (Batcher2.Sized exampleGrowth 4) inputs (.new 4) :=
  batched_iff exampleGrowth 4 (by decide)

/-- With a limit of one: the consumer of {lit}`run_batcher` takes too long for the first batch, and {lit}`Batcher2`
hands over four items behind it. -/
theorem not_batched :
    (¬ ∀ (inputs : List (RunBatcherInput ℕ)) (t : RunBatcher ℕ),
      Slots.Reached (RunBatcher.step 1) inputs .new t → Batched 1 t.batching) ∧
    ¬ ∀ (inputs : List (Batcher2Input ℕ)) (t : Batcher2 ℕ),
      Slots.Reached (Batcher2.step exampleGrowth) inputs (.new 1) t → Batched 1 t.batching := by
  constructor
  · intro hall
    have hlost := (hall [.item 1, .sendElapsed] _ ⟨_, List.prefix_rfl, rfl⟩).kept
    cases hlost
  · intro hall
    have hlarge := hall [.item 1 false, .item 2 false, .item 3 false, .item 4 false, .item 5 false] _
      ⟨_, List.prefix_rfl, rfl⟩
    exact absurd (hlarge.within ([2, 3, 4, 5], .item) (List.mem_cons_of_mem _ List.mem_cons_self)) (by decide)

end Batchtools
end Daqbuf
