import Daqbuf.Items.EventFull
import Daqbuf.Parse.Nom
/-!
# The Stream of the Data API 1

A stream of frames: first a header that describes the channel, then a frame for each event.  Every frame has
its length at its beginning and at its end.  The header is JSON text, of which only is used that parsing gives
back the header that was written.

Main results:

- Theorem {lit}`api1Frame_headerFrame` and {lit}`api1Frame_dataFrame`: what is written as a frame is parsed as it.
- Theorem {lit}`convertItems_eq`: the batches of a channel become a header and a frame for each event.
- Theorem {lit}`api1Frames_convertItems`: the parser gives back the header and the events.
- Theorem {lit}`not_api1Frames_convertItems`: without an event there is no header.
-/

namespace Daqbuf
namespace Parse

open Bytes Nom
open Netpod Items

/-! ## Headers and frames -/

/-- {lit}`Api1ByteOrder` -/
inductive Api1ByteOrder where
  | little
  | big
  deriving DecidableEq, Repr

/-- {lit}`Api1ScalarType` -/
inductive Api1ScalarType where
  | u8
  | u16
  | u32
  | u64
  | i8
  | i16
  | i32
  | i64
  | f32
  | f64
  | bool
  | string
  deriving DecidableEq, Repr

/-- {lit}`Api1ScalarType::from` -/
def Api1ScalarType.ofScalarType : ScalarType → Api1ScalarType
  | .u8 => u8
  | .u16 => u16
  | .u32 => u32
  | .u64 => u64
  | .i8 => i8
  | .i16 => i16
  | .i32 => i32
  | .i64 => i64
  | .f32 => f32
  | .f64 => f64
  | .bool => bool
  | .string => string
  | .enum => u16

/-- {lit}`Api1ChannelHeader` -/
structure Api1ChannelHeader where
  name : String
  ty : Api1ScalarType
  byteOrder : Api1ByteOrder
  shape : List ℕ
  compression : Option CompressionMethod
  deriving DecidableEq, Repr

/-- {lit}`Api1ChannelHeader::new` -/
def Api1ChannelHeader.new (name : String) (ty : Api1ScalarType) (byteOrder : Api1ByteOrder) (shape : DataShape)
    (compression : Option CompressionMethod) : Api1ChannelHeader :=
  ⟨name, ty, byteOrder, shape.toU32Vec, compression⟩

/-- {lit}`Api1Frame` -/
inductive Api1Frame where
  | header (header : Api1ChannelHeader)
  | data (ts pulse : ℕ) (data : List UInt8)
  deriving DecidableEq, Repr

/-! ## The parser -/

/-- {lit}`header`, with the deserialization of {lit}`serde_json` -/
def header (fromJson : List UInt8 → Option Api1ChannelHeader) : Parser ErrorKind Api1ChannelHeader := fun inp =>
  match fromJson inp with
  | some k => .ok (k, [])
  | none => .error (.err (.failure .fail))

/-- {lit}`data` -/
def data : Parser ErrorKind Api1Frame := do
  let inp ← get
  refuse (inp.length < 16) (.incomplete (some 16))
  let ts ← beU 8
  let pulse ← beU 8
  let inp ← get
  let data ← take inp.length
  return .data ts pulse data

/-- {lit}`api1_frame_complete` -/
def api1FrameComplete (fromJson : List UInt8 → Option Api1ChannelHeader) : Parser ErrorKind Api1Frame := do
  let mtype ← beU 1
  if mtype = 0 then
    let val ← header fromJson
    let inp ← get
    refuse (inp.length ≠ 0) (.failure .fail)
    return .header val
  else if mtype = 1 then
    let val ← data
    let inp ← get
    refuse (inp.length ≠ 0) (.failure .fail)
    return val
  else throwErr (.incomplete (some 1))

/-- {lit}`api1_frame` -/
def api1Frame (fromJson : List UInt8 → Option Api1ChannelHeader) : Parser ErrorKind Api1Frame := do
  let len ← beU 4
  refuse (len < 1) (.failure .fail)
  let inp ← get
  refuse (inp.length < len + 4) (.incomplete (some len))
  let payload ← take len
  let len2 ← beU 4
  refuse (len ≠ len2) (.failure .fail)
  let (res, left) ← (api1FrameComplete fromJson payload : Except (Stop ErrorKind) _)
  refuse (left.length ≠ 0) (.failure .fail)
  return res

/-- {lit}`api1_frames` -/
def api1Frames (fromJson : List UInt8 → Option Api1ChannelHeader) : Parser ErrorKind (List Api1Frame) :=
  many0 (api1Frame fromJson)

/-! ## The writer -/

/-- A number of 32 bits -/
def toU32 (n : ℕ) : ℕ := n % 2 ^ 32

/-- The header frame, as {lit}`convert_item` writes it. -/
def headerFrame (h : List UInt8) : List UInt8 :=
  let l1 := toU32 (1 + toU32 h.length)
  beBytes 4 l1 ++ beBytes 1 0 ++ h ++ beBytes 4 l1

/-- A data frame, as {lit}`convert_item` writes it. -/
def dataFrame (ts pulse : ℕ) (blob : List UInt8) : List UInt8 :=
  let l1 := toU32 (17 + toU32 blob.length)
  beBytes 4 l1 ++ beBytes 1 1 ++ beBytes 8 ts ++ beBytes 8 pulse ++ blob ++ beBytes 4 l1

/-- Why {lit}`convert_item` fails. -/
inductive ConvertError where
  | json
  | decompress (e : DecompError)
  deriving DecidableEq, Repr

/-- What {lit}`convert_item` is given for a channel: its name, the shape to tell, and whether to decompress; and
the serialization of {lit}`serde_json` and the decompression. -/
structure Conversion where
  name : String
  shape : DataShape
  doDecompress : Bool
  toJson : Api1ChannelHeader → Option (List UInt8)
  bitshuffle : Bitshuffle

namespace Conversion

variable (c : Conversion)

/-- The payload that is sent for an event. -/
def payload (e : RawEvent) : Except ConvertError (List UInt8) :=
  if c.doDecompress then (e.dataDecompressed c.bitshuffle).mapError .decompress else .ok e.dataRaw

/-- The header that is sent in front of an event. -/
def head (e : RawEvent) : Api1ChannelHeader :=
  let byteOrder := if e.be then .big else .little
  let comp := if c.doDecompress then none else e.comp
  .new c.name (.ofScalarType e.scalarType) byteOrder c.shape comp

/-- The body of the loop of {lit}`convert_item`: whether the header is out, and the output. -/
def convertEvent (s : Bool × List UInt8) (e : RawEvent) : Except ConvertError (Bool × List UInt8) := do
  let (headerOut, d) := s
  let d ← if headerOut then .ok d else
    match c.toJson (c.head e) with
    | some h => .ok (d ++ headerFrame h)
    | none => .error .json
  let blob ← c.payload e
  return (true, d ++ dataFrame e.ts.toNat e.pulse.toNat blob)

/-- {lit}`convert_item` -/
def convertItem (b : EventFull) (headerOut : Bool) : Except ConvertError (Bool × List UInt8) :=
  b.foldlM c.convertEvent (headerOut, [])

/-- The bytes for some batches of a channel, one after the other. -/
def convertItems : List EventFull → Bool → Except ConvertError (List UInt8)
  | [], _ => .ok []
  | b :: bs, headerOut => do
      let (headerOut, d) ← c.convertItem b headerOut
      return d ++ (← convertItems bs headerOut)

end Conversion

/-! ## Frames are parsed back -/

section RoundTrip

variable {fromJson : List UInt8 → Option Api1ChannelHeader} {h rest : List UInt8}

theorem toU32_of_lt {n : ℕ} (hlt : n < 2 ^ 32) : toU32 n = n := Nat.mod_eq_of_lt hlt

/-- A frame of a payload that is parsed completely, with its length at both ends. -/
theorem api1Frame_of_complete {payload : List UInt8} {res : Api1Frame} (hpos : 1 ≤ payload.length)
    (hlt : payload.length < 2 ^ 32) (hcomplete : api1FrameComplete fromJson payload = .ok (res, [])) :
    api1Frame fromJson (beBytes 4 payload.length ++ (payload ++ (beBytes 4 payload.length ++ rest))) =
      .ok (res, rest) := by
  have hbytes : payload.length < 256 ^ 4 := hlt
  have hlen : (payload ++ (beBytes 4 payload.length ++ rest)).length = payload.length + 4 + rest.length := by
    simp only [List.length_append, length_beBytes]
    omega
  unfold api1Frame
  rw [bind_of_ok (beU_append hbytes _), bind_of_ok (refuse_of_not (by omega) _),
    bind_of_ok (get_apply _), bind_of_ok (refuse_of_not (by omega) _),
    bind_of_ok (take_append _ _), bind_of_ok (beU_append hbytes _),
    bind_of_ok (refuse_of_not (not_not.mpr rfl) _), hcomplete]
  rfl

/-- A header is parsed back. -/
theorem api1Frame_headerFrame {hd : Api1ChannelHeader} (hjson : fromJson h = some hd)
    (hlt : 1 + h.length < 2 ^ 32) :
    api1Frame fromJson (headerFrame h ++ rest) = .ok (.header hd, rest) := by
  have hl1 : toU32 (1 + toU32 h.length) = (beBytes 1 0 ++ h).length := by
    rw [toU32_of_lt (show h.length < 2 ^ 32 by omega), toU32_of_lt hlt, List.length_append, length_beBytes]
  have hcomplete : api1FrameComplete fromJson (beBytes 1 0 ++ h) = .ok (.header hd, []) := by
    have hheader : header fromJson h = .ok (hd, []) := by
      rw [header, hjson]
    unfold api1FrameComplete
    rw [bind_of_ok (beU_append (by decide) _), if_pos rfl, bind_of_ok hheader]
    rfl
  have hpos : 1 ≤ (beBytes 1 0 ++ h).length := by
    rw [List.length_append, length_beBytes]
    omega
  have hsize : (beBytes 1 0 ++ h).length < 2 ^ 32 := hl1 ▸ Nat.mod_lt _ (by decide)
  rw [headerFrame, hl1]
  simpa only [List.append_assoc] using api1Frame_of_complete hpos hsize hcomplete

/-- An event is parsed back. -/
theorem api1Frame_dataFrame {ts pulse : ℕ} {blob : List UInt8} (hts : ts < 2 ^ 64) (hpulse : pulse < 2 ^ 64)
    (hlt : 17 + blob.length < 2 ^ 32) :
    api1Frame fromJson (dataFrame ts pulse blob ++ rest) = .ok (.data ts pulse blob, rest) := by
  have hl1 : toU32 (17 + toU32 blob.length) = (beBytes 1 1 ++ (beBytes 8 ts ++ (beBytes 8 pulse ++ blob))).length := by
    rw [toU32_of_lt (show blob.length < 2 ^ 32 by omega), toU32_of_lt hlt]
    simp only [List.length_append, length_beBytes]
    omega
  have hdata : data (beBytes 8 ts ++ (beBytes 8 pulse ++ blob)) = .ok (.data ts pulse blob, []) := by
    have hlen : (beBytes 8 ts ++ (beBytes 8 pulse ++ blob)).length = 16 + blob.length := by
      simp only [List.length_append, length_beBytes]
      omega
    have htake := take_append (ε := ErrorKind) blob []
    rw [List.append_nil] at htake
    unfold data
    rw [bind_of_ok (get_apply _), bind_of_ok (refuse_of_not (by omega) _),
      bind_of_ok (beU_append hts _), bind_of_ok (beU_append hpulse _), bind_of_ok (get_apply _),
      bind_of_ok htake]
    rfl
  have hcomplete : api1FrameComplete fromJson (beBytes 1 1 ++ (beBytes 8 ts ++ (beBytes 8 pulse ++ blob))) =
      .ok (.data ts pulse blob, []) := by
    unfold api1FrameComplete
    rw [bind_of_ok (beU_append (by decide) _), if_neg one_ne_zero, if_pos rfl, bind_of_ok hdata]
    rfl
  have hpos : 1 ≤ (beBytes 1 1 ++ (beBytes 8 ts ++ (beBytes 8 pulse ++ blob))).length := by
    rw [List.length_append, length_beBytes]
    omega
  have hsize : (beBytes 1 1 ++ (beBytes 8 ts ++ (beBytes 8 pulse ++ blob))).length < 2 ^ 32 :=
    hl1 ▸ Nat.mod_lt _ (by decide)
  rw [dataFrame, hl1]
  simpa only [List.append_assoc] using api1Frame_of_complete hpos hsize hcomplete

end RoundTrip

/-! ## Batches of events -/

section Batches

variable {c : Conversion} {headerOut : Bool} {es : List RawEvent} {bs : List EventFull} {d : List UInt8}

/-- An event with the payload that is sent for it. -/
abbrev Sent := RawEvent × List UInt8

/-- The data frame of an event -/
def Sent.bytes (x : Sent) : List UInt8 := dataFrame x.1.ts.toNat x.1.pulse.toNat x.2

/-- The data frame as it is parsed back -/
def Sent.frame (x : Sent) : Api1Frame := .data x.1.ts.toNat x.1.pulse.toNat x.2

/-- What is written for some events: a header in front, and a frame for each. -/
structure Writes (c : Conversion) (headerOut : Bool) (es : List RawEvent) (js : Option (List UInt8))
    (xs : List Sent) : Prop where
  events_eq : xs.map Prod.fst = es
  payload_eq : ∀ x ∈ xs, c.payload x.1 = .ok x.2
  header_eq : headerOut = false → js = es.head?.bind fun e => c.toJson (c.head e)
  header_none : headerOut = true ∨ es = [] ↔ js = none

/-- The bytes of a header and of data frames -/
def written (js : Option (List UInt8)) (xs : List Sent) : List UInt8 :=
  (js.elim [] headerFrame) ++ xs.flatMap Sent.bytes

/-- An event is written behind the header, which is written first if it was not yet. -/
theorem convertEvent_eq {e : RawEvent} {s : Bool × List UInt8} (h : c.convertEvent (headerOut, d) e = .ok s) :
    ∃ js blob, Writes c headerOut [e] js [(e, blob)] ∧ s = (true, d ++ written js [(e, blob)]) := by
  unfold Conversion.convertEvent at h
  cases headerOut with
  | true =>
      cases hblob : c.payload e with
      | error err => simp [hblob, bind, Except.bind] at h
      | ok blob =>
          refine ⟨none, blob, ⟨rfl, ?_, nofun, ?_⟩, ?_⟩
          · simpa using hblob
          · simp
          · simp [hblob, bind, Except.bind, pure, Except.pure] at h
            simp [written, Sent.bytes, ← h]
  | false =>
      cases hjson : c.toJson (c.head e) with
      | none => simp [hjson, bind, Except.bind] at h
      | some js =>
          cases hblob : c.payload e with
          | error err => simp [hjson, hblob, bind, Except.bind] at h
          | ok blob =>
              refine ⟨some js, blob, ⟨rfl, ?_, ?_, ?_⟩, ?_⟩
              · simpa using hblob
              · simpa using hjson.symm
              · simp
              · simp [hjson, hblob, bind, Except.bind, pure, Except.pure] at h
                simp [written, Sent.bytes, ← h]

/-- A header is out once there was an event. -/
def headerAfter (headerOut : Bool) (es : List RawEvent) : Bool := headerOut || !es.isEmpty

/-- What is written for some events and then for some more. -/
theorem Writes.append {es₁ es₂ : List RawEvent} {js₁ js₂ : Option (List UInt8)} {xs₁ xs₂ : List Sent}
    (h₁ : Writes c headerOut es₁ js₁ xs₁) (h₂ : Writes c (headerAfter headerOut es₁) es₂ js₂ xs₂) :
    Writes c headerOut (es₁ ++ es₂) (js₁.or js₂) (xs₁ ++ xs₂) ∧
      written (js₁.or js₂) (xs₁ ++ xs₂) = written js₁ xs₁ ++ written js₂ xs₂ := by
  have hpayload : ∀ x ∈ xs₁ ++ xs₂, c.payload x.1 = .ok x.2 := by
    intro x hx
    rcases List.mem_append.mp hx with hx | hx
    · exact h₁.payload_eq x hx
    · exact h₂.payload_eq x hx
  have hevents : (xs₁ ++ xs₂).map Prod.fst = es₁ ++ es₂ := by
    rw [List.map_append, h₁.events_eq, h₂.events_eq]
  cases es₁ with
  | nil =>
      obtain rfl : xs₁ = [] := List.map_eq_nil_iff.mp h₁.events_eq
      obtain rfl : js₁ = none := h₁.header_none.mp (.inr rfl)
      have hout : headerAfter headerOut [] = headerOut := Bool.or_false _
      rw [hout] at h₂
      exact ⟨⟨hevents, hpayload, h₂.header_eq, h₂.header_none⟩, rfl⟩
  | cons e es₁ =>
      have hout : headerAfter headerOut (e :: es₁) = true := Bool.or_true _
      rw [hout] at h₂
      obtain rfl : js₂ = none := h₂.header_none.mp (.inl rfl)
      rw [Option.or_none]
      refine ⟨⟨hevents, hpayload, h₁.header_eq, ?_⟩, ?_⟩
      · rw [← h₁.header_none]
        simp
      · simp [written]

/-- Events are written one after the other. -/
theorem foldlM_convertEvent_eq {s : Bool × List UInt8} (h : es.foldlM c.convertEvent (headerOut, d) = .ok s) :
    ∃ js xs, Writes c headerOut es js xs ∧ s = (headerAfter headerOut es, d ++ written js xs) := by
  induction es generalizing headerOut d with
  | nil =>
      cases h
      refine ⟨none, [], ⟨rfl, nofun, fun _ => rfl, by simp⟩, ?_⟩
      simp [headerAfter, written]
  | cons e es ih =>
      rw [List.foldlM_cons] at h
      cases hstep : c.convertEvent (headerOut, d) e with
      | error err => simp [hstep, bind, Except.bind] at h
      | ok s₁ =>
          obtain ⟨js₁, blob, hwrites₁, rfl⟩ := convertEvent_eq hstep
          rw [hstep] at h
          obtain ⟨js₂, xs, hwrites₂, rfl⟩ := ih h
          have hout : headerAfter headerOut [e] = true := Bool.or_true _
          obtain ⟨hwrites, heq⟩ := hwrites₁.append (hout ▸ hwrites₂)
          refine ⟨_, _, hwrites, ?_⟩
          rw [heq, ← List.append_assoc]
          simp [headerAfter]

/-- The batches of a channel become one header and a frame for each event. -/
theorem convertItems_eq {bytes : List UInt8} (h : c.convertItems bs headerOut = .ok bytes) :
    ∃ js xs, Writes c headerOut bs.flatten js xs ∧ bytes = written js xs := by
  induction bs generalizing headerOut bytes with
  | nil =>
      cases h
      exact ⟨none, [], ⟨rfl, nofun, fun _ => rfl, by simp⟩, rfl⟩
  | cons b bs ih =>
      unfold Conversion.convertItems at h
      cases hitem : c.convertItem b headerOut with
      | error err => simp [hitem, bind, Except.bind] at h
      | ok s =>
          obtain ⟨js₁, xs₁, hwrites₁, rfl⟩ := foldlM_convertEvent_eq hitem
          cases hrest : c.convertItems bs (headerAfter headerOut b) with
          | error err => simp [hitem, hrest, bind, Except.bind] at h
          | ok rest =>
              obtain ⟨js₂, xs₂, hwrites₂, rfl⟩ := ih hrest
              obtain ⟨hwrites, heq⟩ := hwrites₁.append hwrites₂
              refine ⟨_, _, hwrites, ?_⟩
              rw [heq]
              simpa [hitem, hrest, bind, Except.bind, pure, Except.pure] using h.symm

/-- What is written is parsed back as the header and the events. -/
theorem api1Frames_written {fromJson : List UInt8 → Option Api1ChannelHeader} {js : Option (List UInt8)}
    {hd : List Api1Frame} {xs : List Sent}
    (hhead : ∀ h, js = some h → 1 + h.length < 2 ^ 32 ∧ ∃ k, fromJson h = some k ∧ hd = [.header k])
    (hnone : js = none → hd = [])
    (hblob : ∀ x ∈ xs, 17 + x.2.length < 2 ^ 32) :
    api1Frames fromJson (written js xs) = .ok (hd ++ xs.map Sent.frame, []) := by
  have hnil : api1Frame fromJson [] = .error (.err (.error .eof)) := rfl
  have hdata : api1Frames fromJson (xs.flatMap Sent.bytes) = .ok (xs.map Sent.frame, []) := by
    apply many0_flatMap _ _ hnil
    · intro x hx rest
      exact api1Frame_dataFrame x.1.ts.toNat_lt x.1.pulse.toNat_lt (hblob x hx)
    · intro x _ h
      have hlen := congrArg List.length h
      simp only [Sent.bytes, dataFrame, List.length_append, length_beBytes, List.length_nil] at hlen
      omega
  cases js with
  | none =>
      rw [hnone rfl]
      exact hdata
  | some h =>
      obtain ⟨hlt, k, hk, rfl⟩ := hhead h rfl
      have hframe : api1Frame fromJson (headerFrame h ++ xs.flatMap Sent.bytes) =
          .ok (.header k, xs.flatMap Sent.bytes) := api1Frame_headerFrame hk hlt
      have hshorter : (xs.flatMap Sent.bytes).length < (headerFrame h ++ xs.flatMap Sent.bytes).length := by
        simp only [headerFrame, List.length_append, length_beBytes]
        omega
      rw [api1Frames, written, Option.elim, many0_of_ok hframe hshorter]
      exact congrArg (Except.map fun (as, rest) => (Api1Frame.header k :: as, rest)) hdata

theorem mapM_payload {xs : List Sent} (hxs : ∀ x ∈ xs, c.payload x.1 = .ok x.2) :
    (xs.map Prod.fst).mapM c.payload = .ok (xs.map Prod.snd) := by
  induction xs with
  | nil => rfl
  | cons x xs ih =>
      rw [List.map_cons, List.mapM_cons, hxs x List.mem_cons_self, ih fun y hy => hxs y (List.mem_cons_of_mem _ hy)]
      rfl

theorem zipWith_frames {xs : List Sent} (hes : xs.map Prod.fst = es) :
    List.zipWith (fun e blob => Api1Frame.data e.ts.toNat e.pulse.toNat blob) es (xs.map Prod.snd) =
      xs.map Sent.frame := by
  subst hes
  rw [List.zipWith_map, List.zipWith_self]
  rfl

/-- The bytes that are written for the batches of a channel are parsed completely: as the header of the first
event, if there is an event, and a frame for each event, in order, with its timestamp, pulse and payload. -/
theorem api1Frames_convertItems (c : Conversion) (fromJson : List UInt8 → Option Api1ChannelHeader)
    (hjson : ∀ hd js, c.toJson hd = some js → fromJson js = some hd) (bs : List EventFull) (bytes : List UInt8)
    (hbytes : c.convertItems bs false = .ok bytes)
    (hhead : ∀ e ∈ bs.flatten.head?, ∀ js, c.toJson (c.head e) = some js → 1 + js.length < 2 ^ 32)
    (hblob : ∀ e ∈ bs.flatten, ∀ blob, c.payload e = .ok blob → 17 + blob.length < 2 ^ 32) :
    ∃ blobs, bs.flatten.mapM c.payload = .ok blobs ∧
      api1Frames fromJson bytes =
        .ok (bs.flatten.head?.toList.map (fun e => .header (c.head e)) ++
          List.zipWith (fun e blob => .data e.ts.toNat e.pulse.toNat blob) bs.flatten blobs, []) := by
  obtain ⟨js, xs, hwrites, rfl⟩ := convertItems_eq hbytes
  have hlen : ∀ x ∈ xs, 17 + x.2.length < 2 ^ 32 := by
    intro x hx
    refine hblob x.1 ?_ x.2 (hwrites.payload_eq x hx)
    rw [← hwrites.events_eq]
    exact List.mem_map_of_mem hx
  have hsome : ∀ js', js = some js' → ∃ e, bs.flatten.head? = some e ∧ c.toJson (c.head e) = some js' := by
    intro js' h
    exact Option.bind_eq_some_iff.mp ((hwrites.header_eq rfl).symm.trans h)
  refine ⟨xs.map Prod.snd, ?_, ?_⟩
  · rw [← hwrites.events_eq]
    exact mapM_payload hwrites.payload_eq
  · rw [zipWith_frames hwrites.events_eq]
    apply api1Frames_written _ _ hlen
    · intro js' h
      obtain ⟨e, he, hjs⟩ := hsome js' h
      exact ⟨hhead e he js' hjs, c.head e, hjson _ _ hjs, by rw [he]; rfl⟩
    · intro h
      rcases hwrites.header_none.mpr h with h | h
      · cases h
      · rw [h]
        rfl

/-- The header of a channel of bytes, as text -/
def exampleJson : List UInt8 :=
  [123, 34, 110, 97, 109, 101, 34, 58, 34, 99, 104, 34, 44, 34, 116, 121, 112, 101, 34, 58, 34, 117, 105, 110,
    116, 56, 34, 44, 34, 98, 121, 116, 101, 79, 114, 100, 101, 114, 34, 58, 34, 66, 73, 71, 95, 69, 78, 68, 73,
    65, 78, 34, 44, 34, 115, 104, 97, 112, 101, 34, 58, 91, 93, 125]

/-- The channel of that header, without decompression. -/
def exampleConversion : Conversion where
  name := "ch"
  shape := .scalar
  doDecompress := false
  toJson hd := if hd = ⟨"ch", .u8, .big, [], none⟩ then some exampleJson else none
  bitshuffle _ _ _ := none

/-- The header that the text stands for -/
def exampleFromJson (js : List UInt8) : Option Api1ChannelHeader :=
  if js = exampleJson then some ⟨"ch", .u8, .big, [], none⟩ else none

theorem exampleToJson {hd : Api1ChannelHeader} {js : List UInt8} (h : exampleConversion.toJson hd = some js) :
    hd = ⟨"ch", .u8, .big, [], none⟩ ∧ js = exampleJson := by
  unfold exampleConversion at h
  dsimp only at h
  split at h
  · rename_i hhd
    exact ⟨hhd, (Option.some.inj h).symm⟩
  · cases h

/-- Two batches with an event each, and an empty one between them. -/
theorem api1Frames_convertItems_two :
    ∃ blobs, [(⟨20, 21, [7], .u8, true, .scalar, none⟩ : RawEvent), ⟨22, 23, [8], .u8, true, .scalar, none⟩].mapM
        exampleConversion.payload = .ok blobs ∧
      api1Frames exampleFromJson (headerFrame exampleJson ++ dataFrame 20 21 [7] ++ dataFrame 22 23 [8]) =
        .ok ([.header ⟨"ch", .u8, .big, [], none⟩] ++
          List.zipWith (fun e blob => .data e.ts.toNat e.pulse.toNat blob)
            [(⟨20, 21, [7], .u8, true, .scalar, none⟩ : RawEvent), ⟨22, 23, [8], .u8, true, .scalar, none⟩] blobs,
          []) := by
  refine api1Frames_convertItems exampleConversion exampleFromJson ?_
    [[⟨20, 21, [7], .u8, true, .scalar, none⟩], [], [⟨22, 23, [8], .u8, true, .scalar, none⟩]] _ rfl ?_ ?_
  · intro hd js h
    obtain ⟨rfl, rfl⟩ := exampleToJson h
    exact if_pos rfl
  · intro e _ js h
    obtain ⟨-, rfl⟩ := exampleToJson h
    decide
  · intro e he blob h
    obtain rfl : e.blob = blob := Except.ok.inj h
    fin_cases he
    · decide
    · decide

/-- Without an event there is no header. -/
theorem not_api1Frames_convertItems :
    exampleConversion.convertItems [] false = .ok [] ∧ api1Frames exampleFromJson [] = .ok ([], []) := by
  refine ⟨rfl, ?_⟩
  exact many0_of_error rfl

end Batches

end Parse
end Daqbuf
