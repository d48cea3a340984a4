import Daqbuf.Disk.Decode
import Daqbuf.Items.EventFull
import Daqbuf.Items.Merge
import Daqbuf.Iter.Holdback
import Daqbuf.Poll.Loop
/-!
# Streams of Decoded Events

The stream that decodes the events of a data file: each event of a batch is decompressed, converted and appended to the
events that are to go out.  These go out when there are enough of them and at the end of the input.  All other items go
out at once, and so do errors: an event that can not be decoded ends its batch but not the stream.

Main results:

- Theorem {lit}`Running.follows`: what goes out is what came in, with the decoded events held back.
- Theorem {lit}`deliversAll_iff`: all decoded events go out, with the end of the range behind them, exactly if no
  event is held when the range is complete.
-/

namespace Daqbuf
namespace Disk

open Bytes Netpod Items Decode Poll
open Iter (Item holdBack rowsOf Clean)

/-- The text of an error of the decompression, as a stream item has it -/
def decompErr : DecompError → SitemErr
  | .tooLittleInput => .fromVariant "Decompress" "TooLittleInput"
  | .badCompresionBlockSize => .fromVariant "Decompress" "BadCompresionBlockSize"
  | .unusedBytes => .fromVariant "Decompress" "UnusedBytes"
  | .bitshuffleError => .fromVariant "Decompress" "BitshuffleError"
  | .shapeMakesNoSense => .fromVariant "Decompress" "ShapeMakesNoSense"
  | .unexpectedCompressedScalarValue => .fromVariant "Decompress" "UnexpectedCompressedScalarValue"
  | .panicked => .fromString ""

/-- {lit}`EventsDynStream` -/
structure EventsDynStream where
  scalarType : ScalarType
  shape : DataShape
  eventsFull : Script (Sitemty EventFull)
  eventsOut : EventsDyn
  scalarConv : ValueFromBytes
  emitThreshold : ℕ
  done : Bool := false
  complete : Bool := false

namespace EventsDynStream

section Stream

variable (bitshuffle : Bitshuffle) (fromUtf8Lossy : List UInt8 → String)

/-- The number of events from which on they go out -/
def emitThresholdOf : DataShape → ℕ
  | .scalar => 2048
  | .wave _ => 64
  | .image _ _ => 1

/-- {lit}`new`.  There is no empty container for images. -/
def new (scalarType : ScalarType) (shape : DataShape) (aggKind : AggKind) (eventsFull : Script (Sitemty EventFull)) :
    Option (Except String EventsDynStream) :=
  (emptyEventsPulsedDynEv scalarType shape).map fun eventsOut => do
    let scalarConv ← makeScalarConv fromUtf8Lossy scalarType shape aggKind
    return {
      scalarType := scalarType
      shape := shape
      eventsFull := eventsFull
      eventsOut := eventsOut
      scalarConv := scalarConv
      emitThreshold := emitThresholdOf shape }

/-- An event is decompressed, converted and appended. -/
def convertEvent (conv : ValueFromBytes) (e : RawEvent) (events : EventsDyn) : Option (Except SitemErr EventsDyn) :=
  match e.dataDecompressed bitshuffle with
  | .error .panicked => none
  | .error err => some (.error (decompErr err))
  | .ok buf =>
      let endian := if e.be then .big else .little
      (conv.convert e.ts e.pulse buf endian events).map (Except.mapError .fromString)

/-- {lit}`handle_event_full`: the error, if there is one, and the events up to there -/
def handleEventFull (conv : ValueFromBytes) : EventFull → EventsDyn → Option (Option SitemErr × EventsDyn)
  | [], events => some (none, events)
  | e :: es, events =>
      match convertEvent bitshuffle conv e events with
      | some (.ok events) => handleEventFull conv es events
      | some (.error err) => some (some err, events)
      | none => none

/-- {lit}`replace_events_out`: the events that go out, and the stream with none -/
def replaceEventsOut (s : EventsDynStream) : Option (EventsDyn × EventsDynStream) :=
  (emptyEventsPulsedDynEv s.scalarType s.shape).map fun empty => (s.eventsOut, { s with eventsOut := empty })

/-- The branch of {lit}`handle_stream_item` for a batch -/
def handleData (s : EventsDynStream) (item : EventFull) : Pass EventsDynStream (Sitemty EventsDyn) :=
  match handleEventFull bitshuffle s.scalarConv item s.eventsOut with
  | some (none, events) =>
      if s.emitThreshold ≤ events.len then
        match { s with eventsOut := events }.replaceEventsOut with
        | some (evs, s) => .item (sitemData evs) s
        | none => .panic
      else .again { s with eventsOut := events }
  | some (some err, events) => .item (.error err) { s with eventsOut := events }
  | none => .panic

/-- One pass of {lit}`poll_next` -/
def pollNext (s : EventsDynStream) : Pass EventsDynStream (Sitemty EventsDyn) :=
  if s.complete then .panic
  else if s.done then .done { s with complete := true }
  else
    match s.eventsFull with
    | .ready (sitemData item) :: rest => handleData bitshuffle { s with eventsFull := rest } item
    | .ready sitemRangeComplete :: rest => .item sitemRangeComplete { s with eventsFull := rest }
    | .ready (.ok (.log item)) :: rest => .item (.ok (.log item)) { s with eventsFull := rest }
    | .ready (.ok (.stats item)) :: rest => .item (.ok (.stats item)) { s with eventsFull := rest }
    | .ready (.error err) :: rest => .item (.error err) { s with eventsFull := rest, done := true }
    | [] =>
        -- a last one even if it is empty
        match s.replaceEventsOut with
        | some (evs, s) => .item (sitemData evs) { s with done := true }
        | none => .panic
    | .pending :: rest => .pending { s with eventsFull := rest }

end Stream

/-! ## What goes in and out -/

/-- A value of either kind of container -/
inductive Value where
  | scalar (t : ScalarType) (v : Elem t)
  | wave (t : ScalarType) (vs : List (Elem t))

/-- An event with its value -/
abbrev Row := PulsedEvent Value

/-- The events of a container -/
def rows : EventsDyn → List Row
  | .dim0 t evs => evs.map fun e => ⟨e.ts, e.pulse, .scalar t e.val⟩
  | .dim1 t evs => evs.map fun e => ⟨e.ts, e.pulse, .wave t e.val⟩

/-- The container without its events -/
def emptied : EventsDyn → EventsDyn
  | .dim0 t _ => .dim0 t []
  | .dim1 t _ => .dim1 t []

/-- What an item of the output carries -/
def view : Sitemty EventsDyn → Item Row
  | sitemData events => .rows (rows events)
  | sitemRangeComplete => .mark
  | _ => .other

section Spec

variable (bitshuffle : Bitshuffle)

/-- The events of a batch up to the one that can not be decoded, if there is one, and whether there is -/
def decodeBatch (conv : ValueFromBytes) (empty : EventsDyn) : EventFull → Option (List Row × Bool)
  | [] => some ([], false)
  | e :: es =>
      match convertEvent bitshuffle conv e empty with
      | some (.ok events) => (decodeBatch conv empty es).map fun r => (rows events ++ r.1, r.2)
      | some (.error _) => some ([], true)
      | none => none

/-- The decoded input up to its end or to the error that ends it, and whether there is one.  There is none if a
conversion panics. -/
def decoded (conv : ValueFromBytes) (empty : EventsDyn) : List (Sitemty EventFull) → Option (List (Item Row) × Bool)
  | [] => some ([], false)
  | sitemData batch :: rest =>
      match decodeBatch bitshuffle conv empty batch with
      | some (rs, broken) =>
          (decoded conv empty rest).map fun r => ((if broken then .broken rs else .rows rs) :: r.1, r.2)
      | none => none
  | sitemRangeComplete :: rest => (decoded conv empty rest).map fun r => (.mark :: r.1, r.2)
  | .ok (.log _) :: rest => (decoded conv empty rest).map fun r => (.other :: r.1, r.2)
  | .ok (.stats _) :: rest => (decoded conv empty rest).map fun r => (.other :: r.1, r.2)
  | .error _ :: _ => some ([], true)

/-- The input of the stream, decoded -/
def input (s : EventsDynStream) : Option (List (Item Row) × Bool) :=
  decoded bitshuffle s.scalarConv (emptied s.eventsOut) s.eventsFull.items

/-- The stream comes to its end.  The events that go out are all decoded events, each once and in order, and if the
input tells that the range is complete, the output tells it once and behind all events. -/
def DeliversAll (s : EventsDynStream) : Prop :=
  ∃ outs xs failed, Drains (pollNext bitshuffle) s outs ∧ input bitshuffle s = some (xs, failed) ∧
    rowsOf (outs.map view) = rowsOf xs ∧ (Item.mark ∈ xs → Iter.MarkedOnce (outs.map view))

/-- No conversion panics.  When the range is complete, or an error ends the input, no event is held, and behind the
end of the range there is no event and no other end of the range. -/
def CleanInput (s : EventsDynStream) : Prop :=
  ∃ xs failed, input bitshuffle s = some (xs, failed) ∧ Clean s.emitThreshold failed 0 xs

end Spec

/-! ## Containers -/

section Containers

variable {bitshuffle : Bitshuffle} {conv : ValueFromBytes} {events events' empty : EventsDyn} {e : RawEvent}
  {ts pulse : UInt64} {buf : List UInt8} {endian : Endian} {err : SitemErr}

@[simp]
theorem emptied_emptied (events : EventsDyn) : emptied (emptied events) = emptied events := by
  cases events <;> rfl

@[simp]
theorem rows_emptied (events : EventsDyn) : rows (emptied events) = [] := by
  cases events <;> rfl

@[simp]
theorem length_rows (events : EventsDyn) : (rows events).length = events.len := by
  cases events with
  | dim0 t evs => exact List.length_map _
  | dim1 t evs => exact List.length_map _

theorem emptied_emptyEvents {t : ScalarType} {shape : DataShape} (h : emptyEventsPulsedDynEv t shape = some events) :
    emptied events = events := by
  cases shape with
  | scalar =>
      cases h
      rfl
  | wave n =>
      cases h
      rfl
  | image a b => cases h

/-- How a conversion goes on a container, compared to how it goes on the empty one: it fails in the same way, or the
same event is appended. -/
inductive Appends (events : EventsDyn) :
    Option (Except SitemErr EventsDyn) → Option (Except SitemErr EventsDyn) → Prop
  | ok {events' one : EventsDyn} (hrows : rows events' = rows events ++ rows one)
      (hempty : emptied events' = emptied events) : Appends events (some (.ok events')) (some (.ok one))
  | error (err : SitemErr) : Appends events (some (.error err)) (some (.error err))
  | panicked : Appends events none none

theorem appends_convert :
    Appends events ((conv.convert ts pulse buf endian events).map (Except.mapError .fromString))
      ((conv.convert ts pulse buf endian (emptied events)).map (Except.mapError .fromString)) := by
  cases conv with
  | dim0 c =>
      obtain ⟨t, impl⟩ := c
      cases events with
      | dim0 t' evs =>
          by_cases ht : t' = t
          · subst ht
            simp only [ValueFromBytes.convert, emptied, EventsDyn.downcast0_dim0]
            cases impl.convert buf endian with
            | none => exact .panicked
            | some v => exact .ok (by simp [rows]) rfl
          · simp only [ValueFromBytes.convert, emptied, EventsDyn.downcast0, dif_neg ht]
            exact .error _
      | dim1 t' evs => exact .error _
  | dim1 c shape =>
      obtain ⟨t, impl⟩ := c
      cases events with
      | dim0 t' evs => exact .error _
      | dim1 t' evs =>
          by_cases ht : t' = t
          · subst ht
            simp only [ValueFromBytes.convert, emptied, EventsDyn.downcast1_dim1]
            cases shape with
            | wave n =>
                dsimp only
                cases impl.convertDim1 buf endian n with
                | none => exact .panicked
                | some v => exact .ok (by simp [rows]) rfl
            | _ => exact .error _
          · simp only [ValueFromBytes.convert, emptied, EventsDyn.downcast1, dif_neg ht]
            exact .error _

theorem appends_convertEvent :
    Appends events (convertEvent bitshuffle conv e events) (convertEvent bitshuffle conv e (emptied events)) := by
  unfold convertEvent
  split
  · exact .panicked
  · exact .error _
  · exact appends_convert

/-- A batch panics in the same way on every container of the kind, or its decoded events are appended. -/
theorem handleEventFull_cases (bitshuffle : Bitshuffle) (conv : ValueFromBytes) (batch : EventFull)
    (events : EventsDyn) :
    (decodeBatch bitshuffle conv (emptied events) batch = none ∧
      handleEventFull bitshuffle conv batch events = none) ∨
    ∃ rs err events', decodeBatch bitshuffle conv (emptied events) batch = some (rs, err.isSome) ∧
      handleEventFull bitshuffle conv batch events = some (err, events') ∧ rows events' = rows events ++ rs ∧
      emptied events' = emptied events := by
  induction batch generalizing events with
  | nil => exact .inr ⟨[], none, events, rfl, rfl, (List.append_nil _).symm, rfl⟩
  | cons e es ih =>
      have happends : Appends events (convertEvent bitshuffle conv e events)
        (convertEvent bitshuffle conv e (emptied events)) := appends_convertEvent
      rw [decodeBatch, handleEventFull]
      generalize convertEvent bitshuffle conv e events = here at happends
      generalize convertEvent bitshuffle conv e (emptied events) = there at happends
      cases happends with
      | ok hrows hempty =>
          rename_i events' one
          have hrest := ih events'
          rw [hempty] at hrest
          obtain ⟨hnone, hpanic⟩ | ⟨rs, err, events'', hdecode, hhandle, hrows', hempty'⟩ := hrest
          · left
            simp only [hnone, hpanic, Option.map_none, and_self]
          · right
            refine ⟨rows one ++ rs, err, events'', ?_, hhandle, ?_, hempty'⟩
            · simp only [hdecode, Option.map_some]
            · rw [hrows', hrows, List.append_assoc]
      | error err => exact .inr ⟨[], some err, events, rfl, rfl, (List.append_nil _).symm, rfl⟩
      | panicked => exact .inl ⟨rfl, rfl⟩

end Containers

/-! ## Runs -/

section Runs

variable {bitshuffle : Bitshuffle} {s : EventsDynStream}

/-- The stream runs, and the events that are held are in a container of its type and shape. -/
structure Running (s : EventsDynStream) : Prop where
  done : s.done = false
  complete : s.complete = false
  fits : emptyEventsPulsedDynEv s.scalarType s.shape = some (emptied s.eventsOut)

theorem Running.replaceEventsOut (hs : s.Running) :
    s.replaceEventsOut = some (s.eventsOut, { s with eventsOut := emptied s.eventsOut }) := by
  rw [EventsDynStream.replaceEventsOut, hs.fits, Option.map_some]

/-- What is left of a stream whose decoded input is given: it goes out with the events held back, or there is a
panic. -/
def Follows (bitshuffle : Bitshuffle) (s : EventsDynStream) : Option (List (Item Row) × Bool) → Prop
  | some (xs, failed) =>
      ∃ outs, Drains (pollNext bitshuffle) s outs ∧
        outs.map view = holdBack s.emitThreshold failed (rows s.eventsOut) xs
  | none => Panics (pollNext bitshuffle) s

theorem drains_done (hdone : s.done = true) (hcomplete : s.complete = false) : Drains (pollNext bitshuffle) s [] := by
  apply Drains.of_done
  rw [pollNext, hdone, hcomplete]
  rfl

theorem Panics.of_reaches {t : EventsDynStream} {outs : List (Sitemty EventsDyn)}
    (hrun : Reaches (pollNext bitshuffle) s outs t) (h : Panics (pollNext bitshuffle) t) :
    Panics (pollNext bitshuffle) s := by
  obtain ⟨ys, u, hreach, hpanic⟩ := h
  exact ⟨_, u, hrun.trans hreach, hpanic⟩

/-- An item that goes out at once -/
theorem Follows.item {t : EventsDynStream} {out : Sitemty EventsDyn} {input : Option (List (Item Row) × Bool)}
    {x : Item Row} (hpass : pollNext bitshuffle s = .item out t) (h : Follows bitshuffle t input)
    (hback : ∀ failed xs, holdBack s.emitThreshold failed (rows s.eventsOut) (x :: xs) =
      view out :: holdBack t.emitThreshold failed (rows t.eventsOut) xs) :
    Follows bitshuffle s (input.map fun r => (x :: r.1, r.2)) := by
  cases input with
  | none => exact Panics.of_reaches (.item .refl hpass) h
  | some r =>
      obtain ⟨outs, hdrains, hview⟩ := h
      exact ⟨out :: outs, hdrains.of_item hpass, by rw [List.map_cons, hview, hback]⟩

/-- A batch that is held -/
theorem Follows.again {t : EventsDynStream} {input : Option (List (Item Row) × Bool)}
    {x : Item Row} (hpass : pollNext bitshuffle s = .again t) (h : Follows bitshuffle t input)
    (hback : ∀ failed xs, holdBack s.emitThreshold failed (rows s.eventsOut) (x :: xs) =
      holdBack t.emitThreshold failed (rows t.eventsOut) xs) :
    Follows bitshuffle s (input.map fun r => (x :: r.1, r.2)) := by
  cases input with
  | none => exact Panics.of_reaches (.again .refl hpass) h
  | some r =>
      obtain ⟨outs, hdrains, hview⟩ := h
      exact ⟨outs, hdrains.of_again hpass, by rw [hview, hback]⟩

/-- An input that is not ready -/
theorem Follows.pending {t : EventsDynStream} {input : Option (List (Item Row) × Bool)}
    (hpass : pollNext bitshuffle s = .pending t) (h : Follows bitshuffle t input)
    (hthr : t.emitThreshold = s.emitThreshold) (hrows : rows t.eventsOut = rows s.eventsOut) :
    Follows bitshuffle s input := by
  cases input with
  | none => exact Panics.of_reaches (.pending .refl hpass) h
  | some r =>
      obtain ⟨outs, hdrains, hview⟩ := h
      exact ⟨outs, hdrains.of_pending hpass, by rw [hview, hthr, hrows]⟩

/-- A batch, in front of input for which the run is known -/
theorem Running.follows_batch (hs : s.Running) {batch : EventFull} {rest : Script (Sitemty EventFull)}
    (hinp : s.eventsFull = .ready (sitemData batch) :: rest)
    (ih : ∀ t : EventsDynStream, t.Running → t.eventsFull = rest → Follows bitshuffle t (input bitshuffle t)) :
    Follows bitshuffle s (input bitshuffle s) := by
  have hpass : pollNext bitshuffle s = handleData bitshuffle { s with eventsFull := rest } batch := by
    simp [pollNext, hs.done, hs.complete, hinp]
  rw [input, hinp, Script.items_ready, decoded]
  obtain ⟨hnone, hpanic⟩ | ⟨rs, err, events, hdecode, hhandle, hrows, hempty⟩ :=
    handleEventFull_cases bitshuffle s.scalarConv batch s.eventsOut
  · rw [hnone]
    refine ⟨[], s, .refl, ?_⟩
    simp only [hpass, handleData, hpanic]
  · rw [hdecode]
    dsimp only
    have hlen : events.len = (rows s.eventsOut ++ rs).length := by rw [← length_rows, hrows]
    cases err with
    | some err =>
        have hnext := ih { s with eventsFull := rest, eventsOut := events } ⟨hs.done, hs.complete, hempty ▸ hs.fits⟩ rfl
        rw [input] at hnext
        simp only [hempty] at hnext
        have hpass : pollNext bitshuffle s =
            .item (.error err) { s with eventsFull := rest, eventsOut := events } := by
          simp only [hpass, handleData, hhandle]
        refine Follows.item hpass hnext ?_
        intro failed xs
        rw [Option.isSome_some, if_pos rfl, holdBack, hrows]
        rfl
    | none =>
        by_cases hthr : s.emitThreshold ≤ events.len
        · have hs' : Running { s with eventsFull := rest, eventsOut := events } :=
            ⟨hs.done, hs.complete, hempty ▸ hs.fits⟩
          have hnext := ih { s with eventsFull := rest, eventsOut := emptied events }
            ⟨hs.done, hs.complete, by rw [emptied_emptied, hempty, hs.fits]⟩ rfl
          rw [input] at hnext
          simp only [emptied_emptied, hempty] at hnext
          have hpass : pollNext bitshuffle s =
              .item (sitemData events) { s with eventsFull := rest, eventsOut := emptied s.eventsOut } := by
            simp only [hpass, handleData, hhandle, if_pos hthr, hs'.replaceEventsOut, hempty]
          refine Follows.item hpass hnext ?_
          intro failed xs
          rw [Option.isSome_none, if_neg Bool.false_ne_true, holdBack, if_pos (hlen ▸ hthr), ← hrows, rows_emptied]
          rfl
        · have hnext := ih { s with eventsFull := rest, eventsOut := events }
            ⟨hs.done, hs.complete, hempty ▸ hs.fits⟩ rfl
          rw [input] at hnext
          simp only [hempty] at hnext
          have hpass : pollNext bitshuffle s = .again { s with eventsFull := rest, eventsOut := events } := by
            simp only [hpass, handleData, hhandle, if_neg hthr]
          refine Follows.again hpass hnext ?_
          intro failed xs
          rw [Option.isSome_none, if_neg Bool.false_ne_true, holdBack, if_neg (hlen ▸ hthr), ← hrows]

/-- What goes out is the decoded input, with the events held back; or some conversion panics. -/
theorem Running.follows (hs : s.Running) (bitshuffle : Bitshuffle) : Follows bitshuffle s (input bitshuffle s) := by
  generalize hscript : s.eventsFull = script
  induction script generalizing s with
  | nil =>
      have hpass : pollNext bitshuffle s =
          .item (sitemData s.eventsOut) { s with eventsOut := emptied s.eventsOut, done := true } := by
        simp [pollNext, hs.done, hs.complete, hscript, hs.replaceEventsOut]
      rw [input, hscript, Script.items_nil, decoded]
      exact ⟨[sitemData s.eventsOut], .of_item hpass (drains_done rfl hs.complete), rfl⟩
  | cons answer rest ih =>
      have hnext : ∀ t : EventsDynStream, t.Running → t.eventsFull = rest →
          Follows bitshuffle t (input bitshuffle t) := by
        intro t ht hrest
        exact ih ht hrest
      have hlater := hnext { s with eventsFull := rest } ⟨hs.done, hs.complete, hs.fits⟩ rfl
      rcases answer with _ | ⟨err | ⟨⟨⟩ | batch⟩ | item | item⟩
      · have hpass : pollNext bitshuffle s = .pending { s with eventsFull := rest } := by
          simp [pollNext, hs.done, hs.complete, hscript]
        rw [input, hscript, Script.items_pending]
        exact Follows.pending hpass hlater rfl rfl
      · have hpass : pollNext bitshuffle s = .item (.error err) { s with eventsFull := rest, done := true } := by
          simp [pollNext, hs.done, hs.complete, hscript]
        rw [input, hscript, Script.items_ready, decoded]
        exact ⟨[.error err], .of_item hpass (drains_done rfl hs.complete), rfl⟩
      · have hpass : pollNext bitshuffle s = .item sitemRangeComplete { s with eventsFull := rest } := by
          simp [pollNext, hs.done, hs.complete, hscript]
        rw [input, hscript, Script.items_ready, decoded]
        exact Follows.item hpass hlater fun _ _ => rfl
      · exact hs.follows_batch hscript hnext
      · have hpass : pollNext bitshuffle s = .item (.ok (.log item)) { s with eventsFull := rest } := by
          simp [pollNext, hs.done, hs.complete, hscript]
        rw [input, hscript, Script.items_ready, decoded]
        exact Follows.item hpass hlater fun _ _ => rfl
      · have hpass : pollNext bitshuffle s = .item (.ok (.stats item)) { s with eventsFull := rest } := by
          simp [pollNext, hs.done, hs.complete, hscript]
        rw [input, hscript, Script.items_ready, decoded]
        exact Follows.item hpass hlater fun _ _ => rfl

/-- What goes out is determined by the input. -/
theorem Running.view_eq (hs : s.Running) {outs : List (Sitemty EventsDyn)} {xs : List (Item Row)} {failed : Bool}
    (hinput : input bitshuffle s = some (xs, failed)) (hdrains : Drains (pollNext bitshuffle) s outs) :
    outs.map view = holdBack s.emitThreshold failed (rows s.eventsOut) xs := by
  have hfollows := hs.follows bitshuffle
  rw [hinput] at hfollows
  obtain ⟨outs', hdrains', hview⟩ := hfollows
  rw [hdrains.unique hdrains', hview]

/-- Where no events are held yet, all are delivered exactly if the input is clean. -/
theorem Running.delivers_iff_clean (hs : s.Running) (hnew : rows s.eventsOut = []) :
    DeliversAll bitshuffle s ↔ CleanInput bitshuffle s := by
  have hclean : ∀ (xs : List (Item Row)) failed,
      Iter.Delivers s.emitThreshold failed [] xs ↔ Clean s.emitThreshold failed 0 xs :=
    fun xs failed => Iter.delivers_iff
  constructor
  · rintro ⟨outs, xs, failed, hdrains, hinput, hrows, hmark⟩
    have hview := hs.view_eq hinput hdrains
    rw [hnew] at hview
    rw [hview] at hrows hmark
    exact ⟨xs, failed, hinput, (hclean xs failed).mp ⟨hrows, hmark⟩⟩
  · rintro ⟨xs, failed, hinput, hxs⟩
    have hfollows := hs.follows bitshuffle
    rw [hinput] at hfollows
    obtain ⟨outs, hdrains, hview⟩ := hfollows
    have hdelivers := (hclean xs failed).mpr hxs
    rw [hnew] at hview
    exact ⟨outs, xs, failed, hdrains, hinput, hview ▸ hdelivers.rows, hview ▸ hdelivers.mark⟩

end Runs

/-- A new stream runs, with no events held. -/
theorem running_new {fromUtf8Lossy : List UInt8 → String} {scalarType : ScalarType} {shape : DataShape}
    {aggKind : AggKind} {eventsFull : Script (Sitemty EventFull)} {s : EventsDynStream}
    (hnew : new fromUtf8Lossy scalarType shape aggKind eventsFull = some (.ok s)) :
    s.Running ∧ rows s.eventsOut = [] := by
  obtain ⟨events, hevents, hok⟩ := Option.map_eq_some_iff.mp hnew
  have hempty := emptied_emptyEvents hevents
  cases hconv : makeScalarConv fromUtf8Lossy scalarType shape aggKind with
  | error msg =>
      rw [hconv] at hok
      cases hok
  | ok conv =>
      rw [hconv] at hok
      cases hok
      refine ⟨⟨rfl, rfl, ?_⟩, ?_⟩
      · rw [hevents, hempty]
      · rw [← hempty, rows_emptied]

/-- For every type, shape and input: all decoded events go out, in order and each once, with the end of the range once
and behind them, exactly if the input is clean. -/
theorem deliversAll_iff (bitshuffle : Bitshuffle) {fromUtf8Lossy : List UInt8 → String} {scalarType : ScalarType}
    {shape : DataShape} {aggKind : AggKind} {eventsFull : Script (Sitemty EventFull)} {s : EventsDynStream}
    (hnew : new fromUtf8Lossy scalarType shape aggKind eventsFull = some (.ok s)) :
    DeliversAll bitshuffle s ↔ CleanInput bitshuffle s :=
  (running_new hnew).1.delivers_iff_clean (running_new hnew).2

/-- A stream of single bytes -/
def ofBytes (eventsFull : Script (Sitemty EventFull)) : EventsDynStream where
  scalarType := .u8
  shape := .scalar
  eventsFull := eventsFull
  eventsOut := .dim0 .u8 []
  scalarConv := .dim0 ⟨.u8, implScalarValueFromBytes 1⟩
  emitThreshold := 2048

theorem new_ofBytes (fromUtf8Lossy : List UInt8 → String) (eventsFull : Script (Sitemty EventFull)) :
    new fromUtf8Lossy .u8 .scalar .plain eventsFull = some (.ok (ofBytes eventsFull)) := rfl

/-- Three events in two batches, of which the second one is waited for -/
def twoBatches : Script (Sitemty EventFull) :=
  [.ready (sitemData [⟨5, 1, [7], .u8, false, .scalar, none⟩, ⟨6, 2, [8], .u8, false, .scalar, none⟩]), .pending,
    .ready (sitemData [⟨9, 3, [7], .u8, false, .scalar, none⟩])]

/-- Where the input ends without the end of the range, all events go out. -/
theorem deliversAll_twoBatches :
    new (fun _ => "") .u8 .scalar .plain twoBatches = some (.ok (ofBytes twoBatches)) ∧
      DeliversAll (fun _ _ _ => none) (ofBytes twoBatches) := by
  have hclean : CleanInput (fun _ _ _ => none) (ofBytes twoBatches) := by
    refine ⟨_, _, rfl, ?_⟩
    change false = true → _
    exact nofun
  exact ⟨new_ofBytes _ _, (deliversAll_iff (fun _ _ _ => none) (new_ofBytes (fun _ => "") twoBatches)).2 hclean⟩

/-- One event before the end of the range -/
def oneThenComplete : Script (Sitemty EventFull) :=
  .ofItems [sitemData [⟨5, 1, [7], .u8, false, .scalar, none⟩], sitemRangeComplete]

/-- The event is held back when the range is complete, and goes out behind it. -/
theorem not_deliversAll :
    ¬ ∀ (bitshuffle : Bitshuffle) (fromUtf8Lossy : List UInt8 → String) (scalarType : ScalarType) (shape : DataShape)
      (aggKind : AggKind) (eventsFull : Script (Sitemty EventFull)) (s : EventsDynStream),
      new fromUtf8Lossy scalarType shape aggKind eventsFull = some (.ok s) → DeliversAll bitshuffle s := by
  intro h
  have hnew := new_ofBytes (fun _ => "") oneThenComplete
  have hall := h (fun _ _ _ => none) _ _ _ _ _ _ hnew
  obtain ⟨xs, failed, hinput, hclean⟩ := ((running_new hnew).1.delivers_iff_clean (running_new hnew).2).mp hall
  cases hinput
  exact absurd hclean.1 (by decide)

end EventsDynStream

end Disk
end Daqbuf
