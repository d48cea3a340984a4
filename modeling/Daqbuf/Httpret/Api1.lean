import Daqbuf.Items.Merge
import Daqbuf.Parse.Api1
import Daqbuf.Slots.Pool
/-!
# The Response of the Data API 1

{lit}`DataApiPython3DataStream` sends the events of some channels, one channel after the other.  For each channel
it makes a stream of batches, and converts each batch to a header, if there was none yet, and frames of data.
A number of events can be given as a limit.

An input of the loop in {lit}`poll_next` is what it meets in one round: an answer of the stream of the channel,
or, without a stream, whether one can be made.

Main results:

- Theorem {lit}`Service.inv_step`: what is known of a channel while it is served.
- Theorem {lit}`Service.countsEvents_iff`: when the limit counts events.
- Theorem {lit}`Service.not_countsEvents`: two events reach a limit of three.
- Theorem {lit}`Service.headerTrue_iff`: when the header is true for all events behind it.
- Theorem {lit}`Service.not_headerTrue`: an event in the other byte order.
-/

namespace Daqbuf
namespace Httpret

open Netpod Items Parse

/-! ## The stream -/

/-- {lit}`SfChFetchInfo`, as far as it is used here -/
structure SfChFetchInfo where
  name : String
  shape : DataShape
  deriving DecidableEq, Repr

/-- {lit}`ChannelTypeConfigGen` -/
inductive ChannelTypeConfigGen where
  | scylla (name : String)
  | sfDatabuffer (k : SfChFetchInfo)
  deriving DecidableEq, Repr

/-- {lit}`ChannelTypeConfigGen::name` -/
def ChannelTypeConfigGen.name : ChannelTypeConfigGen → String
  | scylla name => name
  | sfDatabuffer k => k.name

/-- What stays the same over a request, with the serialization and the decompression. -/
structure Request where
  doDecompress : Bool
  eventsMax : ℕ
  toJson : Api1ChannelHeader → Option (List UInt8)
  bitshuffle : Bitshuffle

/-- {lit}`DataApiPython3DataStream`; of the stream of the current channel only whether there is one -/
structure DataApiPython3DataStream where
  channels : List ChannelTypeConfigGen
  currentChannel : Option ChannelTypeConfigGen
  currentFetchInfo : Option SfChFetchInfo
  chanStream : Bool
  eventCount : ℕ
  headerOut : Bool
  dataDone : Bool
  completed : Bool

/-- The errors that end the response. -/
inductive Error where
  | eventsMaxReached (eventCount eventsMax : ℕ)
  | convert (e : ConvertError)
  | item (e : SitemErr)

/-- {lit}`convert_item`, with its count of events -/
def convertItem (c : Conversion) (b : EventFull) (headerOut : Bool) (countEvents : ℕ) :
    Except ConvertError (Bool × ℕ × List UInt8) :=
  b.foldlM (fun (headerOut, n, d) e => do
    let (headerOut, d) ← c.convertEvent (headerOut, d) e
    return (headerOut, n + 1, d)) (headerOut, countEvents, [])

namespace Request

variable (q : Request)

/-- What {lit}`convert_item` is given. -/
def conversion (channel : ChannelTypeConfigGen) (fetchInfo : SfChFetchInfo) : Conversion where
  name := channel.name
  shape := fetchInfo.shape
  doDecompress := q.doDecompress
  toJson := q.toJson
  bitshuffle := q.bitshuffle

end Request

/-- The events with the shape of the channel, unless it is a scalar. -/
def shaped (fetchInfo : SfChFetchInfo) (k : EventFull) : EventFull :=
  if fetchInfo.shape = .scalar then k else k.map fun e => { e with shape := fetchInfo.shape }

namespace DataApiPython3DataStream

variable (q : Request)

/-- {lit}`new` -/
def new (channels : List ChannelTypeConfigGen) : DataApiPython3DataStream where
  channels := channels
  currentChannel := none
  currentFetchInfo := none
  chanStream := false
  eventCount := 0
  headerOut := false
  dataDone := false
  completed := false

/-- {lit}`channel_finished` -/
def channelFinished (s : DataApiPython3DataStream) : DataApiPython3DataStream :=
  { s with chanStream := false, headerOut := false, eventCount := 0 }

/-- The branch of {lit}`handle_chan_stream_ready` for events.  The count of 64 bits does not come to its end.  What a
failed conversion leaves of the count and of the header is not read any more.  A panic has no result. -/
def handleData (s : DataApiPython3DataStream) (k : EventFull) :
    Option (Except Error (List UInt8) × DataApiPython3DataStream) :=
  let s := { s with eventCount := s.eventCount + k.length }
  if q.eventsMax ≠ 0 ∧ q.eventsMax ≤ s.eventCount then
    some (.error (.eventsMaxReached s.eventCount q.eventsMax), s)
  else
    match s.currentChannel, s.currentFetchInfo with
    | some channel, some fetchInfo =>
        match convertItem (q.conversion channel fetchInfo) (shaped fetchInfo k) s.headerOut s.eventCount with
        | .ok (headerOut, eventCount, d) => some (.ok d, { s with headerOut := headerOut, eventCount := eventCount })
        | .error (.decompress .panicked) => none
        | .error e => some (.error (.convert e), s)
    | _, _ => none

/-- {lit}`handle_chan_stream_ready` -/
def handleChanStreamReady (s : DataApiPython3DataStream) :
    Sitemty EventFull → Option (Except Error (List UInt8) × DataApiPython3DataStream)
  | .ok (.dataItem .rangeComplete) => some (.ok [], s)
  | .ok (.dataItem (.data k)) => s.handleData q k
  | .ok (.log _) => some (.ok [], s)
  | .ok (.stats _) => some (.ok [], s)
  | .error e => some (.error (.item e), s)

/-- What {lit}`poll_next` does to the state after an error. -/
def afterError (s : DataApiPython3DataStream) : DataApiPython3DataStream :=
  { s with chanStream := false, currentChannel := none, currentFetchInfo := none, dataDone := true }

end DataApiPython3DataStream

/-! ## What the client gets -/

/-- What one round of the loop meets. -/
inductive Input where
  /-- the answers of the stream of the channel -/
  | item (k : Sitemty EventFull)
  | finished
  | pending
  /-- no stream; the next one can be made, or not -/
  | next (ok : Bool)

/-- A stream, with the number of events that it received of the current channel, those it delivered, the header it
sent for them, and the bytes; and for each time it raised the error about the limit the number of events that were
received by then. -/
structure Service where
  stream : DataApiPython3DataStream
  received : ℕ
  delivered : List RawEvent
  header : Option Api1ChannelHeader
  sent : List UInt8
  raised : List ℕ

namespace Service

variable (q : Request)

/-- A new stream -/
def new (channels : List ChannelTypeConfigGen) : Service where
  stream := .new channels
  received := 0
  delivered := []
  header := none
  sent := []
  raised := []

/-- The events that an item carries, in the shape of the channel. -/
def eventsOf (s : DataApiPython3DataStream) : Sitemty EventFull → EventFull
  | .ok (.dataItem (.data k)) => s.currentFetchInfo.elim k fun fetchInfo => shaped fetchInfo k
  | _ => []

/-- The header that is sent with some events. -/
def headerOf (s : DataApiPython3DataStream) (es : EventFull) : Option Api1ChannelHeader := do
  let channel ← s.currentChannel
  let fetchInfo ← s.currentFetchInfo
  let e ← es.head?
  return (q.conversion channel fetchInfo).head e

/-- The round of {lit}`poll_next` with an item of the stream. -/
def item (t : Service) (k : Sitemty EventFull) : Option Service :=
  let es := eventsOf t.stream k
  let t := { t with received := t.received + es.length }
  match t.stream.handleChanStreamReady q k with
  | some (.ok d, s) =>
      some { t with
        stream := s
        delivered := t.delivered ++ es
        header := if t.stream.headerOut then t.header else headerOf q t.stream es
        sent := t.sent ++ d }
  | some (.error (.eventsMaxReached _ _), s) =>
      some { t with stream := s.afterError, raised := t.raised ++ [t.received] }
  | some (.error _, s) => some { t with stream := s.afterError }
  | none => none

/-- The round of {lit}`poll_next` without a stream. -/
def next (t : Service) (ok : Bool) : Service :=
  match t.stream.channels with
  | .scylla _ :: channels => { t with stream := { t.stream with channels := channels } }
  | .sfDatabuffer k :: channels =>
      if ok then
        { t with
          stream := { t.stream with
            channels := channels
            chanStream := true
            currentFetchInfo := some k
            currentChannel := some (.sfDatabuffer k) }
          received := 0
          delivered := []
          header := none
          sent := [] }
      else { t with stream := { t.stream with channels := channels } }
  | [] => { t with stream := { t.stream with dataDone := true } }

/-- One round of {lit}`poll_next`. -/
def step (i : Input) (t : Service) : Option Service :=
  if t.stream.completed then none
  else
    match t.stream.dataDone, t.stream.chanStream, i with
    | true, _, .next _ => some { t with stream := { t.stream with completed := true } }
    | false, true, .item k => t.item q k
    | false, true, .finished => some { t with stream := t.stream.channelFinished }
    | false, true, .pending => some t
    | false, false, .next ok => some (t.next ok)
    | _, _, _ => none

end Service

/-! ## What a conversion does -/

section Convert

variable {c : Conversion} {b es : EventFull} {headerOut : Bool} {n : ℕ} {d : List UInt8}

/-- The conversion counts its events once more. -/
theorem convertItem_eq (c : Conversion) (b : EventFull) (headerOut : Bool) (n : ℕ) :
    convertItem c b headerOut n = (c.convertItem b headerOut).map fun r => (r.1, n + b.length, r.2) := by
  rw [convertItem, Conversion.convertItem]
  generalize ([] : List UInt8) = d
  induction b generalizing headerOut n d with
  | nil => rfl
  | cons e es ih =>
      rw [List.foldlM_cons, List.foldlM_cons]
      cases hstep : c.convertEvent (headerOut, d) e with
      | error err => simp only [hstep, bind, Except.bind, Except.map]
      | ok s =>
          have hrest := ih s.1 (n + 1) s.2
          have hlen : n + (e :: es).length = n + 1 + es.length := by
            rw [List.length_cons]
            omega
          simpa only [hstep, hlen, bind, Except.bind, pure, Except.pure] using hrest

/-- The events whose payload can be made, and whose header, if there is none yet, can be serialized. -/
structure Sendable (c : Conversion) (headerOut : Bool) (es : List RawEvent) : Prop where
  payload : ∀ e ∈ es, ∃ blob, c.payload e = .ok blob
  header : headerOut = false → ∀ e, es.head? = some e → ∃ h, c.toJson (c.head e) = some h

/-- An event is written if its payload can be made, and its header if there is none yet. -/
theorem convertEvent_isOk {e : RawEvent} {blob : List UInt8} (hblob : c.payload e = .ok blob)
    (hhead : headerOut = false → ∃ h, c.toJson (c.head e) = some h) :
    ∃ d', c.convertEvent (headerOut, d) e = .ok (true, d') := by
  cases headerOut with
  | true => exact ⟨_, by simp [Conversion.convertEvent, hblob, bind, Except.bind, pure, Except.pure]; rfl⟩
  | false =>
      obtain ⟨h, hjson⟩ := hhead rfl
      exact ⟨_, by simp [Conversion.convertEvent, hjson, hblob, bind, Except.bind, pure, Except.pure]; rfl⟩

/-- What can be sent is converted, and only that. -/
theorem convertItem_isOk_iff : (∃ r, c.convertItem b headerOut = .ok r) ↔ Sendable c headerOut b := by
  constructor
  · rintro ⟨r, hr⟩
    obtain ⟨js, xs, hwrites, -⟩ := foldlM_convertEvent_eq hr
    refine ⟨fun e he => ?_, fun hout e he => ?_⟩
    · rw [← hwrites.events_eq] at he
      obtain ⟨x, hx, rfl⟩ := List.mem_map.mp he
      exact ⟨x.2, hwrites.payload_eq x hx⟩
    · have hjs := hwrites.header_eq hout
      rw [he, Option.bind_some] at hjs
      cases hjson : c.toJson (c.head e) with
      | some h => exact ⟨h, rfl⟩
      | none =>
          rcases hwrites.header_none.mpr (hjs.trans hjson) with h | h
          · exact absurd (hout.symm.trans h) Bool.false_ne_true
          · rw [h] at he
            cases he
  · intro hs
    rw [Conversion.convertItem]
    generalize ([] : List UInt8) = d
    induction b generalizing headerOut d with
    | nil => exact ⟨_, rfl⟩
    | cons e es ih =>
        obtain ⟨blob, hblob⟩ := hs.payload e List.mem_cons_self
        obtain ⟨d', hstep⟩ := convertEvent_isOk (d := d) hblob fun hout => hs.header hout e rfl
        rw [List.foldlM_cons, hstep]
        exact ih ⟨fun e' he' => hs.payload e' (List.mem_cons_of_mem e he'), fun h => by cases h⟩ d'

end Convert

@[simp]
theorem length_shaped (fetchInfo : SfChFetchInfo) (k : EventFull) : (shaped fetchInfo k).length = k.length := by
  rw [shaped]
  split
  · rfl
  · exact List.length_map _

/-- The shape is all that changes. -/
theorem mem_shaped_iff {fetchInfo : SfChFetchInfo} {k : EventFull} {P : RawEvent → Prop}
    (hP : ∀ e shape, P { e with shape := shape } ↔ P e) : (∀ e ∈ shaped fetchInfo k, P e) ↔ ∀ e ∈ k, P e := by
  rw [shaped]
  split
  · exact Iff.rfl
  · simp [hP]

namespace Service

/-! ## While a channel is served -/

/-- What is known while a channel is served: the events are counted twice, all received events are delivered, and the
bytes are a header, for the first of them, and a frame for each. -/
structure Serving (q : Request) (t : Service) (channel : ChannelTypeConfigGen) (fetchInfo : SfChFetchInfo) : Prop where
  channel_eq : t.stream.currentChannel = some channel
  fetchInfo_eq : t.stream.currentFetchInfo = some fetchInfo
  count_eq : t.stream.eventCount = 2 * t.received
  length_eq : t.delivered.length = t.received
  headerOut_eq : t.stream.headerOut = headerAfter false t.delivered
  header_eq : t.header = t.delivered.head?.map (q.conversion channel fetchInfo).head
  sent_eq : ∃ js xs, Writes (q.conversion channel fetchInfo) false t.delivered js xs ∧ t.sent = written js xs

/-- A channel is served as long as there is a stream, and each one from the start. -/
structure Inv (q : Request) (t : Service) : Prop where
  serving : t.stream.chanStream = true → ∃ channel fetchInfo, Serving q t channel fetchInfo
  between : t.stream.chanStream = false → t.stream.dataDone = false →
    t.stream.eventCount = 0 ∧ t.stream.headerOut = false
  ended : t.stream.dataDone = true → t.stream.chanStream = false

theorem Inv.new (q : Request) (channels : List ChannelTypeConfigGen) : Inv q (new channels) where
  serving := fun h => by cases h
  between := fun _ _ => ⟨rfl, rfl⟩
  ended := fun h => by cases h

/-- The events of a batch are within the limit, as the stream counts them, and can be sent. -/
def Accepts (q : Request) (t : Service) (b : EventFull) : Prop :=
  (q.eventsMax = 0 ∨ 2 * t.received + b.length < q.eventsMax) ∧
    ∃ channel fetchInfo, t.stream.currentChannel = some channel ∧ t.stream.currentFetchInfo = some fetchInfo ∧
      Sendable (q.conversion channel fetchInfo) t.stream.headerOut (shaped fetchInfo b)

/-- The response ends with an error. -/
structure Fails (t t' : Service) : Prop where
  delivered_eq : t'.delivered = t.delivered
  header_eq : t'.header = t.header
  chanStream_eq : t'.stream.chanStream = false
  dataDone_eq : t'.stream.dataDone = true

/-- The events of a batch are delivered. -/
structure Delivers (t t' : Service) (es : EventFull) : Prop where
  delivered_eq : t'.delivered = t.delivered ++ es
  received_eq : t'.received = t.received + es.length
  raised_eq : t'.raised = t.raised
  chanStream_eq : t'.stream.chanStream = t.stream.chanStream
  dataDone_eq : t'.stream.dataDone = t.stream.dataDone

variable {q : Request} {t t' : Service} {channel : ChannelTypeConfigGen} {fetchInfo : SfChFetchInfo}

/-- Behind the header there is no other one. -/
theorem Serving.header_item (hs : Serving q t channel fetchInfo) (es : EventFull) :
    (if t.stream.headerOut then t.header else headerOf q t.stream es) =
      (t.delivered ++ es).head?.map (q.conversion channel fetchInfo).head := by
  have hof : headerOf q t.stream es = es.head?.map (q.conversion channel fetchInfo).head := by
    rw [headerOf, hs.channel_eq, hs.fetchInfo_eq]
    cases es <;> rfl
  rw [hs.headerOut_eq, hof, hs.header_eq]
  cases t.delivered <;> rfl

/-- An item without events leaves all as it is. -/
theorem Serving.item_empty (hs : Serving q t channel fetchInfo) :
    { t with
      received := t.received + ([] : EventFull).length
      delivered := t.delivered ++ []
      header := if t.stream.headerOut then t.header else headerOf q t.stream []
      sent := t.sent ++ [] } = t := by
  rw [hs.header_item, List.append_nil, List.append_nil, ← hs.header_eq, List.length_nil, Nat.add_zero]

/-- Events that are accepted are delivered. -/
theorem Serving.item_accepted (hs : Serving q t channel fetchInfo) {b : EventFull} {r : Bool × List UInt8}
    (hr : (q.conversion channel fetchInfo).convertItem (shaped fetchInfo b) t.stream.headerOut = .ok r)
    (ht' : t' = { t with
      stream := { t.stream with
        headerOut := r.1, eventCount := t.stream.eventCount + b.length + (shaped fetchInfo b).length }
      received := t.received + (shaped fetchInfo b).length
      delivered := t.delivered ++ shaped fetchInfo b
      header := if t.stream.headerOut then t.header else headerOf q t.stream (shaped fetchInfo b)
      sent := t.sent ++ r.2 }) :
    Serving q t' channel fetchInfo ∧ Delivers t t' (shaped fetchInfo b) := by
  obtain ⟨js₁, xs₁, hwrites₁, hsent⟩ := hs.sent_eq
  rw [hs.headerOut_eq] at hr
  obtain ⟨js₂, xs₂, hwrites₂, hout⟩ := foldlM_convertEvent_eq hr
  obtain ⟨hwrites, hbytes⟩ := hwrites₁.append hwrites₂
  rw [hs.header_item] at ht'
  subst ht'
  refine ⟨⟨hs.channel_eq, hs.fetchInfo_eq, ?_, ?_, ?_, rfl, _, _, hwrites, ?_⟩, rfl, rfl, rfl, rfl, rfl⟩
  · change t.stream.eventCount + b.length + (shaped fetchInfo b).length = _
    simp only [hs.count_eq, length_shaped]
    omega
  · change (t.delivered ++ shaped fetchInfo b).length = t.received + _
    rw [List.length_append, hs.length_eq]
  · change r.1 = _
    rw [hout]
    cases t.delivered <;> simp [headerAfter]
  · change t.sent ++ r.2 = _
    rw [hbytes, hsent, hout, List.nil_append]

/-- What an item does: nothing, or it ends the response, or its events are delivered. -/
theorem Serving.item_cases (hs : Serving q t channel fetchInfo) {k : Sitemty EventFull} (hitem : t.item q k = some t') :
    ((∀ b, k ≠ sitemData b) ∧ (t' = t ∨ Fails t t' ∧ t'.raised = t.raised)) ∨
    ∃ b, k = sitemData b ∧
      ((¬ (q.eventsMax = 0 ∨ 2 * t.received + b.length < q.eventsMax) ∧ Fails t t' ∧
          t'.raised = t.raised ++ [t.received + b.length]) ∨
        ((q.eventsMax = 0 ∨ 2 * t.received + b.length < q.eventsMax) ∧ ¬ Accepts q t b ∧ Fails t t' ∧
          t'.raised = t.raised) ∨
        (Accepts q t b ∧ Serving q t' channel fetchInfo ∧ Delivers t t' (shaped fetchInfo b))) := by
  have hquiet : t.item q k = some { t with
      received := t.received + ([] : EventFull).length
      delivered := t.delivered ++ []
      header := if t.stream.headerOut then t.header else headerOf q t.stream []
      sent := t.sent ++ [] } → t' = t := by
    intro heq
    rw [hs.item_empty] at heq
    exact Option.some.inj (hitem.symm.trans heq)
  rcases k with err | ((_ | b) | log | stats)
  · obtain rfl := Option.some.inj hitem
    exact Or.inl ⟨fun b h => (by cases h), Or.inr ⟨⟨rfl, rfl, rfl, rfl⟩, rfl⟩⟩
  · exact Or.inl ⟨fun b h => (by cases h), Or.inl (hquiet rfl)⟩
  · refine Or.inr ⟨b, rfl, ?_⟩
    have hevents : eventsOf t.stream (sitemData b) = shaped fetchInfo b := by
      rw [eventsOf, hs.fetchInfo_eq]
      rfl
    simp only [item, hevents, DataApiPython3DataStream.handleChanStreamReady, DataApiPython3DataStream.handleData,
      hs.channel_eq, hs.fetchInfo_eq, hs.count_eq, convertItem_eq] at hitem
    by_cases hlimit : q.eventsMax = 0 ∨ 2 * t.received + b.length < q.eventsMax
    · refine Or.inr ?_
      rw [if_neg (by omega)] at hitem
      cases hconv : (q.conversion channel fetchInfo).convertItem (shaped fetchInfo b) t.stream.headerOut with
      | ok r =>
          have hsend := convertItem_isOk_iff.mp ⟨r, hconv⟩
          simp only [hconv, Except.map] at hitem
          refine Or.inr ⟨⟨hlimit, channel, fetchInfo, hs.channel_eq, hs.fetchInfo_eq, hsend⟩, ?_⟩
          apply hs.item_accepted hconv
          simpa only [hs.count_eq, hs.channel_eq, hs.fetchInfo_eq] using (Option.some.inj hitem).symm
      | error err =>
          have hunsent : ¬ Accepts q t b := by
            rintro ⟨-, chan, info, hchan, hinfo, hsend⟩
            obtain rfl := Option.some.inj (hs.channel_eq.symm.trans hchan)
            obtain rfl := Option.some.inj (hs.fetchInfo_eq.symm.trans hinfo)
            obtain ⟨r, hr⟩ := convertItem_isOk_iff.mpr hsend
            rw [hconv] at hr
            cases hr
          simp only [hconv, Except.map] at hitem
          refine Or.inl ⟨hlimit, hunsent, ?_⟩
          rcases err with _ | err
          · obtain rfl := Option.some.inj hitem
            exact ⟨⟨rfl, rfl, rfl, rfl⟩, rfl⟩
          · cases err <;> simp only [reduceCtorEq, Option.some.injEq] at hitem <;>
              exact hitem ▸ ⟨⟨rfl, rfl, rfl, rfl⟩, rfl⟩
    · refine Or.inl ⟨hlimit, ?_⟩
      rw [if_pos (by omega)] at hitem
      obtain rfl := Option.some.inj hitem
      exact ⟨⟨rfl, rfl, rfl, rfl⟩, by simp⟩
  · exact Or.inl ⟨fun b h => (by cases h), Or.inl (hquiet rfl)⟩
  · exact Or.inl ⟨fun b h => (by cases h), Or.inl (hquiet rfl)⟩

/-- What a round does: the end of the response, one of the answers of the stream, or the next stream. -/
theorem step_cases {i : Input} (hstep : step q i t = some t') :
    (t.stream.dataDone = true ∧ (∃ ok, i = .next ok) ∧
      t' = { t with stream := { t.stream with completed := true } }) ∨
    (t.stream.dataDone = false ∧
      ((∃ k, i = .item k ∧ t.stream.chanStream = true ∧ t.item q k = some t') ∨
        (i = .finished ∧ t.stream.chanStream = true ∧ t' = { t with stream := t.stream.channelFinished }) ∨
        (i = .pending ∧ t' = t) ∨
        ∃ ok, i = .next ok ∧ t.stream.chanStream = false ∧ t' = t.next ok)) := by
  unfold step at hstep
  cases hcompleted : t.stream.completed with
  | true => simp [hcompleted] at hstep
  | false =>
      cases hdone : t.stream.dataDone with
      | true =>
          cases i <;> simp [hcompleted, hdone] at hstep
          exact Or.inl ⟨rfl, ⟨_, rfl⟩, by simpa [hdone] using hstep.symm⟩
      | false =>
          refine Or.inr ⟨rfl, ?_⟩
          cases hstream : t.stream.chanStream <;> cases i <;> simp [hcompleted, hdone, hstream] at hstep
          · exact Or.inr (Or.inr (Or.inr ⟨_, rfl, rfl, hstep.symm⟩))
          · exact Or.inl ⟨_, rfl, rfl, hstep⟩
          · exact Or.inr (Or.inl ⟨rfl, rfl, hstep.symm⟩)
          · exact Or.inr (Or.inr (Or.inl ⟨rfl, hstep.symm⟩))

theorem Fails.inv (hfails : Fails t t') : Inv q t' where
  serving := fun h => by
    rw [hfails.chanStream_eq] at h
    cases h
  between := fun _ h => by
    rw [hfails.dataDone_eq] at h
    cases h
  ended := fun _ => hfails.chanStream_eq

/-- Without a stream there is nothing to know but that the counts are back at their start. -/
theorem Inv.of_idle (hstream : t.stream.chanStream = false)
    (hcount : t.stream.dataDone = false → t.stream.eventCount = 0 ∧ t.stream.headerOut = false) : Inv q t where
  serving := fun h => by
    rw [hstream] at h
    cases h
  between := fun _ => hcount
  ended := fun _ => hstream

/-- A channel is served from the start. -/
theorem Inv.next (hinv : Inv q t) (hstream : t.stream.chanStream = false) (hdone : t.stream.dataDone = false)
    (ok : Bool) : Inv q (t.next ok) := by
  obtain ⟨hcount, hout⟩ := hinv.between hstream hdone
  rw [Service.next]
  split
  · exact Inv.of_idle hstream fun _ => ⟨hcount, hout⟩
  · rename_i k channels hchannels
    cases ok with
    | false => exact Inv.of_idle hstream fun _ => ⟨hcount, hout⟩
    | true =>
        refine ⟨fun _ => ⟨_, _, rfl, rfl, hcount, rfl, hout, rfl, none, [], ⟨rfl, ?_, fun _ => rfl, ?_⟩, rfl⟩, ?_, ?_⟩
        · exact fun x hx => absurd hx List.not_mem_nil
        · simp
        · exact fun h => by cases h
        · exact fun h => absurd (hdone.symm.trans h) Bool.false_ne_true
  · exact Inv.of_idle hstream fun h => by cases h

/-- The next stream begins without events, if there is one. -/
theorem next_cases (t : Service) (ok : Bool) :
    (t.next ok).raised = t.raised ∧ ((t.next ok).delivered = t.delivered ∨ (t.next ok).delivered = []) := by
  rw [Service.next]
  split
  · exact ⟨rfl, Or.inl rfl⟩
  · cases ok with
    | false => exact ⟨rfl, Or.inl rfl⟩
    | true => exact ⟨rfl, Or.inr rfl⟩
  · exact ⟨rfl, Or.inl rfl⟩

/-- What is known of a channel stays known. -/
theorem inv_step {i : Input} (hinv : Inv q t) (hstep : step q i t = some t') : Inv q t' := by
  rcases step_cases hstep with
    ⟨hdone, ⟨ok, rfl⟩, rfl⟩ | ⟨hdone, ⟨k, -, hstream, hitem⟩ | ⟨-, -, rfl⟩ | ⟨-, rfl⟩ | ⟨ok, -, hstream, rfl⟩⟩
  · exact Inv.of_idle (hinv.ended hdone) fun h => absurd (h.symm.trans hdone) Bool.false_ne_true
  · obtain ⟨channel, fetchInfo, hs⟩ := hinv.serving hstream
    rcases hs.item_cases hitem with
      ⟨-, rfl | ⟨hfails, -⟩⟩ | ⟨b, -, ⟨-, hfails, -⟩ | ⟨-, -, hfails, -⟩ | ⟨-, hs', hdel⟩⟩
    · exact hinv
    · exact hfails.inv
    · exact hfails.inv
    · exact hfails.inv
    · have hstream' := hdel.chanStream_eq.trans hstream
      have hdone' := hdel.dataDone_eq.trans hdone
      refine ⟨fun _ => ⟨channel, fetchInfo, hs'⟩, fun h => ?_, fun h => ?_⟩
      · cases hstream'.symm.trans h
      · cases hdone'.symm.trans h
  · exact Inv.of_idle rfl fun _ => ⟨rfl, rfl⟩
  · exact hinv
  · exact hinv.next hstream hdone ok

/-! ## The limit -/

/-- The error about the limit was only raised once so many events were received, and no more were delivered. -/
structure CountsEvents (q : Request) (t : Service) : Prop where
  raised : ∀ n ∈ t.raised, q.eventsMax ≤ n
  delivered : t.delivered.length ≤ q.eventsMax

/-- A batch that is within the limit also if the events in front of it count twice, or that reaches the limit. -/
def Countable (q : Request) : Input → Service → Prop
  | .item (.ok (.dataItem (.data b))), t =>
      2 * t.received + b.length < q.eventsMax ∨ q.eventsMax ≤ t.received + b.length
  | _, _ => True

theorem countable_of_not_data {k : Sitemty EventFull} (hk : ∀ b, k ≠ sitemData b) : Countable q (.item k) t := by
  rcases k with err | ((_ | b) | log | stats)
  · trivial
  · trivial
  · exact absurd rfl (hk b)
  · trivial
  · trivial

theorem CountsEvents.of_eq (hgood : CountsEvents q t) (hraised : t'.raised = t.raised)
    (hdelivered : t'.delivered.length ≤ q.eventsMax) : CountsEvents q t' where
  raised := hraised ▸ hgood.raised
  delivered := hdelivered

/-- An item lets the limit count events exactly if it can be counted. -/
theorem countsEvents_item_iff (hmax : 0 < q.eventsMax) (hs : Serving q t channel fetchInfo)
    (hgood : CountsEvents q t) {k : Sitemty EventFull} (hitem : t.item q k = some t') :
    CountsEvents q t' ↔ Countable q (.item k) t := by
  rcases hs.item_cases hitem with ⟨hk, ht'⟩ | ⟨b, rfl, ⟨hover, hfails, hraised⟩ | ⟨hlimit, -, hfails, hraised⟩ |
    ⟨⟨hlimit, -⟩, -, hdel⟩⟩
  · refine iff_of_true ?_ (countable_of_not_data hk)
    rcases ht' with rfl | ⟨hfails, hraised⟩
    · exact hgood
    · exact hgood.of_eq hraised (hfails.delivered_eq ▸ hgood.delivered)
  · constructor
    · intro h
      refine Or.inr (h.raised _ ?_)
      rw [hraised]
      exact List.mem_append_right _ List.mem_cons_self
    · rintro (h | h)
      · exact absurd (Or.inr h) hover
      · refine ⟨?_, hfails.delivered_eq ▸ hgood.delivered⟩
        rw [hraised]
        intro n hn
        rcases List.mem_append.mp hn with hold | hnew
        · exact hgood.raised n hold
        · rwa [List.mem_singleton.mp hnew]
  · refine iff_of_true (hgood.of_eq hraised (hfails.delivered_eq ▸ hgood.delivered)) (Or.inl ?_)
    exact hlimit.resolve_left hmax.ne'
  · have hlt := hlimit.resolve_left hmax.ne'
    refine iff_of_true (hgood.of_eq hdel.raised_eq ?_) (Or.inl hlt)
    rw [hdel.delivered_eq, List.length_append, hs.length_eq, length_shaped]
    omega

/-- A round lets the limit count events exactly if its item can be counted. -/
theorem countsEvents_step_iff (hmax : 0 < q.eventsMax) {i : Input} (hinv : Inv q t) (hgood : CountsEvents q t)
    (hstep : step q i t = some t') : CountsEvents q t' ↔ Countable q i t := by
  rcases step_cases hstep with
    ⟨hdone, ⟨ok, rfl⟩, rfl⟩ | ⟨hdone, ⟨k, rfl, hstream, hitem⟩ | ⟨rfl, -, rfl⟩ | ⟨rfl, rfl⟩ | ⟨ok, rfl, hstream, rfl⟩⟩
  · exact iff_of_true ⟨hgood.raised, hgood.delivered⟩ trivial
  · obtain ⟨channel, fetchInfo, hs⟩ := hinv.serving hstream
    exact countsEvents_item_iff hmax hs hgood hitem
  · exact iff_of_true ⟨hgood.raised, hgood.delivered⟩ trivial
  · exact iff_of_true hgood trivial
  · refine iff_of_true ?_ trivial
    rcases next_cases t ok with ⟨hraised, hdel | hdel⟩
    · exact hgood.of_eq hraised (hdel ▸ hgood.delivered)
    · exact hgood.of_eq hraised (hdel ▸ Nat.zero_le _)

/-- In a response with a limit, the limit counts events exactly if every batch can be counted. -/
theorem countsEvents_iff (q : Request) (hmax : 0 < q.eventsMax) (channels : List ChannelTypeConfigGen)
    (inputs : List Input) :
    (∀ t, Slots.Reached (step q) inputs (new channels) t → CountsEvents q t) ↔
      Slots.Along (step q) (Countable q) inputs (new channels) := by
  apply Slots.forall_reached_iff_along_of_inv (Inv q)
  · intro i t t' hinv hgood hstep
    exact ⟨fun _ => inv_step hinv hstep, countsEvents_step_iff hmax hinv hgood hstep⟩
  · exact Inv.new q channels
  · exact ⟨fun n hn => absurd hn List.not_mem_nil, Nat.zero_le _⟩

/-- A request of uncompressed events -/
def exampleRequest (eventsMax : ℕ) : Request where
  doDecompress := false
  eventsMax := eventsMax
  toJson := fun _ => some []
  bitshuffle := fun _ _ _ => none

/-- A batch of one event -/
def exampleBatch (be : Bool) : EventFull := [⟨1, 1, [0, 1], .u16, be, .scalar, none⟩]

/-- A channel with two events in two batches, and a channel with four events in one -/
def exampleInputs : List Input :=
  [.next true, .item (sitemData (exampleBatch false)), .pending, .item (sitemData (exampleBatch false)), .finished,
    .next true, .item (sitemData (exampleBatch false ++ exampleBatch false ++ exampleBatch false ++ exampleBatch false))]

/-- The two events of the first channel stay below a limit of four also if the first one counts twice, and the other
channel reaches it. -/
theorem countsEvents_iff_four :
    Slots.Along (step (exampleRequest 4)) (Countable (exampleRequest 4)) exampleInputs
        (new [.sfDatabuffer ⟨"a", .scalar⟩, .sfDatabuffer ⟨"b", .scalar⟩]) ∧
      ∀ t, Slots.Reached (step (exampleRequest 4)) exampleInputs
        (new [.sfDatabuffer ⟨"a", .scalar⟩, .sfDatabuffer ⟨"b", .scalar⟩]) t → CountsEvents (exampleRequest 4) t := by
  have halong : Slots.Along (step (exampleRequest 4)) (Countable (exampleRequest 4)) exampleInputs
      (new [.sfDatabuffer ⟨"a", .scalar⟩, .sfDatabuffer ⟨"b", .scalar⟩]) := by
    rintro t ⟨⟩
    refine ⟨trivial, ?_⟩
    rintro t ⟨⟩
    refine ⟨.inl (by decide), ?_⟩
    rintro t ⟨⟩
    refine ⟨trivial, ?_⟩
    rintro t ⟨⟩
    refine ⟨.inl (by decide), ?_⟩
    rintro t ⟨⟩
    refine ⟨trivial, ?_⟩
    rintro t ⟨⟩
    refine ⟨trivial, ?_⟩
    rintro t ⟨⟩
    exact ⟨.inr (by decide), trivial⟩
  exact ⟨halong, (countsEvents_iff (exampleRequest 4) (by decide) _ _).2 halong⟩

/-- The first event counts twice, so that with the second one a limit of three seems to be reached. -/
theorem not_countsEvents :
    ¬ ∀ inputs t, Slots.Reached (step (exampleRequest 3)) inputs (new [.sfDatabuffer ⟨"a", .scalar⟩]) t →
      CountsEvents (exampleRequest 3) t := by
  intro hall
  have hlast := hall [.next true, .item (sitemData (exampleBatch false)), .item (sitemData (exampleBatch false))] _
    ⟨_, List.prefix_rfl, rfl⟩
  exact absurd (hlast.raised 2 List.mem_cons_self) (by decide)

/-! ## The header -/

/-- The payload of an event, as it is sent, has the byte order and the compression that a header announces. -/
def Announces (q : Request) (hd : Api1ChannelHeader) (e : RawEvent) : Prop :=
  hd.byteOrder = (if e.be then .big else .little) ∧ hd.compression = if q.doDecompress then none else e.comp

/-- The header that was sent for the current channel announces every event that was sent behind it. -/
def HeaderTrue (q : Request) (t : Service) : Prop :=
  ∀ e ∈ t.delivered, ∃ hd, t.header = some hd ∧ Announces q hd e

/-- Two events have the same byte order, and the same compression unless they are decompressed. -/
def Alike (q : Request) (e f : RawEvent) : Prop := e.be = f.be ∧ (q.doDecompress = true ∨ e.comp = f.comp)

/-- A batch that is refused, or whose events are all like the first event of the channel. -/
def Uniform (q : Request) : Input → Service → Prop
  | .item (.ok (.dataItem (.data b))), t =>
      Accepts q t b → ∀ f, (t.delivered ++ b).head? = some f → ∀ e ∈ b, Alike q e f
  | _, _ => True

theorem uniform_of_not_data {k : Sitemty EventFull} (hk : ∀ b, k ≠ sitemData b) : Uniform q (.item k) t := by
  rcases k with err | ((_ | b) | log | stats)
  · trivial
  · trivial
  · exact absurd rfl (hk b)
  · trivial
  · trivial

/-- The header for an event announces the events that are like it. -/
theorem announces_head_iff (channel : ChannelTypeConfigGen) (fetchInfo : SfChFetchInfo) (e f : RawEvent) :
    Announces q ((q.conversion channel fetchInfo).head f) e ↔ Alike q e f := by
  have horder : ((q.conversion channel fetchInfo).head f).byteOrder = if f.be then .big else .little := rfl
  have hcomp : ((q.conversion channel fetchInfo).head f).compression = if q.doDecompress then none else f.comp := rfl
  rw [Announces, Alike, horder, hcomp]
  cases f.be <;> cases e.be <;> cases q.doDecompress <;> simp [eq_comm]

/-- The header is true exactly if the events are like the first one. -/
theorem Serving.alike_iff (hs : Serving q t channel fetchInfo) :
    HeaderTrue q t ↔ ∀ f, t.delivered.head? = some f → ∀ e ∈ t.delivered, Alike q e f := by
  rw [HeaderTrue, hs.header_eq]
  cases t.delivered with
  | nil => simp
  | cons f es => simp [announces_head_iff]

/-- The first event is as it was, apart from its shape. -/
theorem alike_shaped_iff (fetchInfo : SfChFetchInfo) {b : EventFull} (es : List RawEvent) :
    (∀ f, (es ++ shaped fetchInfo b).head? = some f → ∀ e ∈ shaped fetchInfo b, Alike q e f) ↔
      ∀ f, (es ++ b).head? = some f → ∀ e ∈ b, Alike q e f := by
  cases es with
  | cons f es => simp [mem_shaped_iff (P := fun e => Alike q e f) fun e shape => Iff.rfl]
  | nil =>
      rw [shaped]
      split
      · exact Iff.rfl
      · cases b <;> simp [Alike]

/-- An item keeps the header true exactly if it is uniform. -/
theorem headerTrue_item_iff (hs : Serving q t channel fetchInfo) (hgood : HeaderTrue q t) {k : Sitemty EventFull}
    (hitem : t.item q k = some t') : HeaderTrue q t' ↔ Uniform q (.item k) t := by
  have hfails : Fails t t' → HeaderTrue q t' := fun h => by
    rw [HeaderTrue, h.delivered_eq, h.header_eq]
    exact hgood
  rcases hs.item_cases hitem with ⟨hk, ht'⟩ | ⟨b, rfl, ⟨hover, hf, -⟩ | ⟨-, hnot, hf, -⟩ | ⟨haccepts, hs', hdel⟩⟩
  · refine iff_of_true ?_ (uniform_of_not_data hk)
    rcases ht' with rfl | ⟨hf, -⟩
    · exact hgood
    · exact hfails hf
  · exact iff_of_true (hfails hf) fun h => absurd h.1 hover
  · exact iff_of_true (hfails hf) fun h => absurd h hnot
  · have hbefore := hs.alike_iff.mp hgood
    rw [hs'.alike_iff, hdel.delivered_eq]
    change _ ↔ (Accepts q t b → _)
    rw [← alike_shaped_iff fetchInfo]
    constructor
    · exact fun h _ f hf e he => h f hf e (List.mem_append_right _ he)
    · intro h f hf e he
      rcases List.mem_append.mp he with hold | hnew
      · refine hbefore f ?_ e hold
        cases hdelivered : t.delivered with
        | nil => simp [hdelivered] at hold
        | cons g es => simpa [hdelivered] using hf
      · exact h haccepts f hf e hnew

/-- A round keeps the header true exactly if its item is uniform. -/
theorem headerTrue_step_iff {i : Input} (hinv : Inv q t) (hgood : HeaderTrue q t) (hstep : step q i t = some t') :
    HeaderTrue q t' ↔ Uniform q i t := by
  rcases step_cases hstep with
    ⟨hdone, ⟨ok, rfl⟩, rfl⟩ | ⟨hdone, ⟨k, rfl, hstream, hitem⟩ | ⟨rfl, -, rfl⟩ | ⟨rfl, rfl⟩ | ⟨ok, rfl, hstream, rfl⟩⟩
  · exact iff_of_true hgood trivial
  · obtain ⟨channel, fetchInfo, hs⟩ := hinv.serving hstream
    exact headerTrue_item_iff hs hgood hitem
  · exact iff_of_true hgood trivial
  · exact iff_of_true hgood trivial
  · refine iff_of_true ?_ trivial
    rw [Service.next]
    split
    · exact hgood
    · cases ok with
      | false => exact hgood
      | true => exact fun e he => absurd he List.not_mem_nil
    · exact hgood

/-- In a response, the header of each channel is true for all events behind it exactly if in every batch that is
accepted the events are like the first one of the channel. -/
theorem headerTrue_iff (q : Request) (channels : List ChannelTypeConfigGen) (inputs : List Input) :
    (∀ t, Slots.Reached (step q) inputs (new channels) t → HeaderTrue q t) ↔
      Slots.Along (step q) (Uniform q) inputs (new channels) := by
  apply Slots.forall_reached_iff_along_of_inv (Inv q)
  · intro i t t' hinv hgood hstep
    exact ⟨fun _ => inv_step hinv hstep, headerTrue_step_iff hinv hgood hstep⟩
  · exact Inv.new q channels
  · exact fun e he => absurd he List.not_mem_nil

/-- The second event has the other byte order than the one that the header announces. -/
theorem not_headerTrue :
    ¬ ∀ inputs t, Slots.Reached (step (exampleRequest 10)) inputs (new [.sfDatabuffer ⟨"a", .scalar⟩]) t →
      HeaderTrue (exampleRequest 10) t := by
  intro hall
  have hlast := hall [.next true, .item (sitemData (exampleBatch false)), .item (sitemData (exampleBatch true))] _
    ⟨_, List.prefix_rfl, rfl⟩
  obtain ⟨hd, hheader, horder, -⟩ := hlast _ (List.mem_append_right _ List.mem_cons_self)
  obtain rfl := Option.some.inj hheader
  cases horder

end Service

end Httpret
end Daqbuf
