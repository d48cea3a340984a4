import Daqbuf.Bytes.Endian
/-!
# In-Memory Frames

A frame holds a magic number, the id of the encoder, the id of the type, the length of the payload, the
checksum of the payload, the payload, and the checksum of all before.  The encoder and the parser lay
out these fields separately.

Main results:

- Theorem {lit}`parse_makeFrame`: what is parsed from a frame, whatever stands behind it, is the frame.
- Theorem {lit}`parse_prefix`: from a part of a frame that holds its head, the parser learns the length
  of the frame.
- Theorem {lit}`Built.eq_makeFrame`: all encoders lay out a frame in the same way.
-/

namespace Daqbuf
namespace Items

open Bytes

/-- {lit}`INMEM_FRAME_ENCID` -/
def inmemFrameEncid : UInt32 := 0x12121212

/-- {lit}`INMEM_FRAME_HEAD` -/
def inmemFrameHead : ℕ := 20

/-- {lit}`INMEM_FRAME_FOOT` -/
def inmemFrameFoot : ℕ := 4

/-- {lit}`INMEM_FRAME_MAGIC` -/
def inmemFrameMagic : UInt32 := 0xc6c3b73d

/-- {lit}`TERM_FRAME_TYPE_ID` -/
def termFrameTypeId : UInt32 := 0xaa0001

/-- {lit}`ERROR_FRAME_TYPE_ID` -/
def errorFrameTypeId : UInt32 := 0xaa0002

/-- {lit}`LOG_FRAME_TYPE_ID` -/
def logFrameTypeId : UInt32 := 0xc0000

/-- {lit}`STATS_FRAME_TYPE_ID` -/
def statsFrameTypeId : UInt32 := 0xd0000

/-- {lit}`RANGE_COMPLETE_FRAME_TYPE_ID` -/
def rangeCompleteFrameTypeId : UInt32 := 0xe0000

/-! ## Encoding -/

namespace Frame

/-- {lit}`Error` of the encoder; the errors of the payload codecs are known by their text only. -/
inductive Error where
  | tooLongPayload (len : ℕ)
  | codec (msg : String)
  deriving DecidableEq, Repr

variable (crc : List UInt8 → UInt32)

/-- What all encoders of frames do with an encoded payload. -/
def makeFrame (fty : UInt32) (enc : List UInt8) : List UInt8 :=
  let payloadCrc := crc enc
  let buf := u32LeBytes inmemFrameMagic ++ u32LeBytes inmemFrameEncid ++ u32LeBytes fty ++
    u32LeBytes (UInt32.ofNat enc.length) ++ u32LeBytes payloadCrc ++ enc
  let frameCrc := crc buf
  buf ++ u32LeBytes frameCrc

/-- {lit}`make_frame_2` -/
def makeFrame2 {T : Type*} (encodeToVec : T → Except Error (List UInt8)) (item : T) (fty : UInt32) :
    Except Error (List UInt8) :=
  match encodeToVec item with
  | .ok enc =>
      if enc.length > 2 ^ 32 - 1 then
        .error (.tooLongPayload enc.length)
      else
        .ok (makeFrame crc fty enc)
  | .error e => .error e

/-- An encoder without a check of the length. -/
def makeUncheckedFrame {T : Type*} (toVec : T → Except Error (List UInt8)) (fty : UInt32) (item : T) :
    Except Error (List UInt8) :=
  match toVec item with
  | .ok enc => .ok (makeFrame crc fty enc)
  | .error e => .error e

/-- {lit}`make_error_frame`; the payload is JSON. -/
def makeErrorFrame {E : Type*} (jsonToVec : E → Except Error (List UInt8)) (error : E) :
    Except Error (List UInt8) :=
  makeUncheckedFrame crc jsonToVec errorFrameTypeId error

/-- {lit}`make_log_frame` -/
def makeLogFrame {L : Type*} (encodeToVec : L → Except Error (List UInt8)) (item : L) :
    Except Error (List UInt8) :=
  makeUncheckedFrame crc encodeToVec logFrameTypeId item

/-- {lit}`make_stats_frame` -/
def makeStatsFrame {S : Type*} (encodeToVec : S → Except Error (List UInt8)) (item : S) :
    Except Error (List UInt8) :=
  makeUncheckedFrame crc encodeToVec statsFrameTypeId item

/-- {lit}`make_range_complete_frame` -/
def makeRangeCompleteFrame : Except Error (List UInt8) :=
  .ok (makeFrame crc rangeCompleteFrameTypeId [])

/-- {lit}`make_term_frame` -/
def makeTermFrame : Except Error (List UInt8) := .ok (makeFrame crc termFrameTypeId [])

end Frame

/-! ## Parsing -/

/-- {lit}`InMemoryFrame` -/
structure InMemoryFrame where
  encid : UInt32
  tyid : UInt32
  len : UInt32
  buf : List UInt8
  deriving DecidableEq

/-- {lit}`ParseResult` -/
inductive ParseResult (T : Type*) where
  | notEnoughData (n : ℕ)
  | parsed (lentot : ℕ) (val : T)
  deriving DecidableEq

namespace InMemoryFrame

/-- {lit}`Error` of the parser -/
inductive Error where
  | lessThanHeader
  | badMagic (magic : UInt32)
  | hugeFrame (len : UInt32)
  | badCrc
  deriving DecidableEq, Repr

/-- The greatest length of a payload that is accepted. -/
def maxPayload : ℕ := 1024 * 1024 * 50

variable (crc : List UInt8 → UInt32)

/-- {lit}`parse` -/
def parse (buf : List UInt8) : Except Error (ParseResult InMemoryFrame) :=
  if buf.length < inmemFrameHead then
    .error .lessThanHeader
  else
    let magic := u32OfLe (slice buf 0 4)
    let encid := u32OfLe (slice buf 4 8)
    let tyid := u32OfLe (slice buf 8 12)
    let len := u32OfLe (slice buf 12 16)
    let payloadCrcExp := u32OfLe (slice buf 16 20)
    if magic ≠ inmemFrameMagic then
      .error (.badMagic magic)
    else if len.toNat > maxPayload then
      .error (.hugeFrame len)
    else
      let lentot := inmemFrameHead + inmemFrameFoot + len.toNat
      if buf.length < lentot then
        .ok (.notEnoughData lentot)
      else
        let p1 := inmemFrameHead + len.toNat
        let frameCrc := crc (slice buf 0 p1)
        let payloadCrc := crc (slice buf inmemFrameHead p1)
        let frameCrcInd := u32OfLe (slice buf p1 (p1 + 4))
        if frameCrcInd ≠ frameCrc ∨ payloadCrcExp ≠ payloadCrc then
          .error .badCrc
        else
          .ok (.parsed lentot
            { len := len, tyid := tyid, encid := encid, buf := slice buf inmemFrameHead p1 })

/-! ## Parts of a frame -/

/-- The length that the head states for the whole frame -/
def statedLen (buf : List UInt8) : ℕ := inmemFrameHead + inmemFrameFoot + (u32OfLe (slice buf 12 16)).toNat

/-- The bytes begin with a head that the parser accepts. -/
def HeadAccepted (buf : List UInt8) : Prop :=
  inmemFrameHead ≤ buf.length ∧ u32OfLe (slice buf 0 4) = inmemFrameMagic ∧
    (u32OfLe (slice buf 12 16)).toNat ≤ maxPayload

/-- The bytes do not make up a frame yet: they are no head, or fewer than an accepted head states. -/
def Unfinished (buf : List UInt8) : Prop :=
  buf.length < inmemFrameHead ∨ HeadAccepted buf ∧ buf.length < statedLen buf

section Parts

variable {crc} {buf rest : List UInt8} {n : ℕ} {val : InMemoryFrame}

theorem inmemFrameHead_lt_statedLen (buf : List UInt8) : inmemFrameHead < statedLen buf := by
  unfold statedLen inmemFrameFoot
  omega

theorem statedLen_append (hhead : inmemFrameHead ≤ buf.length) : statedLen (buf ++ rest) = statedLen buf := by
  unfold inmemFrameHead at hhead
  rw [statedLen, slice_append (by omega), statedLen]

theorem headAccepted_append (hhead : inmemFrameHead ≤ buf.length) :
    HeadAccepted (buf ++ rest) ↔ HeadAccepted buf := by
  have hlen : inmemFrameHead ≤ (buf ++ rest).length := by
    rw [List.length_append]
    omega
  have h20 : 20 ≤ buf.length := hhead
  unfold HeadAccepted
  rw [slice_append (by omega), slice_append (by omega), and_iff_right hhead, and_iff_right hlen]

/-- The parser asks for more where an accepted head states more bytes than there are. -/
theorem parse_eq_notEnoughData :
    parse crc buf = .ok (.notEnoughData n) ↔ HeadAccepted buf ∧ buf.length < statedLen buf ∧ statedLen buf = n := by
  unfold parse HeadAccepted
  simp only [← statedLen.eq_1]
  split_ifs with hshort hmagic hhuge hpart hcrc
  · exact iff_of_false nofun fun h => absurd h.1.1 (not_le.mpr hshort)
  · exact iff_of_false nofun fun h => absurd h.1.2.1 hmagic
  · exact iff_of_false nofun fun h => absurd h.1.2.2 (not_le.mpr hhuge)
  · rw [and_iff_right ⟨not_lt.mp hshort, not_not.mp hmagic, not_lt.mp hhuge⟩, and_iff_right hpart]
    simp
  · exact iff_of_false nofun fun h => absurd h.2.1 hpart
  · exact iff_of_false nofun fun h => absurd h.2.1 hpart

/-- Where the parser asks for more, the frame is not finished. -/
theorem parse_ne_notEnoughData (hfinished : ¬ Unfinished buf) : parse crc buf ≠ .ok (.notEnoughData n) := by
  intro hparse
  obtain ⟨haccepted, hlt, -⟩ := parse_eq_notEnoughData.mp hparse
  exact hfinished (Or.inr ⟨haccepted, hlt⟩)

/-- What is parsed was there. -/
theorem parse_eq_parsed (hparse : parse crc buf = .ok (.parsed n val)) : n = statedLen buf ∧ n ≤ buf.length := by
  unfold parse at hparse
  simp only [← statedLen.eq_1] at hparse
  split_ifs at hparse with hshort hmagic hhuge hpart hcrc
  · cases hparse
  · obtain ⟨rfl, -⟩ := ParseResult.parsed.inj (Except.ok.inj hparse)
    exact ⟨rfl, not_lt.mp hpart⟩

/-- What is parsed was no unfinished frame. -/
theorem not_unfinished_of_parsed (hparse : parse crc buf = .ok (.parsed n val)) : ¬ Unfinished buf := by
  obtain ⟨rfl, hle⟩ := parse_eq_parsed hparse
  have hlt := inmemFrameHead_lt_statedLen buf
  rintro (hshort | ⟨-, hpart⟩)
  · omega
  · omega

/-- What begins an unfinished frame is unfinished. -/
theorem Unfinished.of_append (hunfinished : Unfinished (buf ++ rest)) : Unfinished buf := by
  by_cases hhead : inmemFrameHead ≤ buf.length
  · have hlen : (buf ++ rest).length = buf.length + rest.length := List.length_append
    rcases hunfinished with hshort | ⟨haccepted, hlt⟩
    · omega
    · rw [statedLen_append hhead] at hlt
      exact Or.inr ⟨(headAccepted_append hhead).mp haccepted, by omega⟩
  · exact Or.inl (not_le.mp hhead)

/-- Once the bytes are no unfinished frame any more, further ones do not change what is parsed. -/
theorem parse_append (hfinished : ¬ Unfinished buf) : parse crc (buf ++ rest) = parse crc buf := by
  have hhead : inmemFrameHead ≤ buf.length := not_lt.mp fun hlt => hfinished (Or.inl hlt)
  have hlen : (buf ++ rest).length = buf.length + rest.length := List.length_append
  have h20 : 20 ≤ buf.length := hhead
  have h0 : slice (buf ++ rest) 0 4 = slice buf 0 4 := slice_append (by omega)
  have h4 : slice (buf ++ rest) 4 8 = slice buf 4 8 := slice_append (by omega)
  have h8 : slice (buf ++ rest) 8 12 = slice buf 8 12 := slice_append (by omega)
  have h12 : slice (buf ++ rest) 12 16 = slice buf 12 16 := slice_append (by omega)
  have h16 : slice (buf ++ rest) 16 20 = slice buf 16 20 := slice_append (by omega)
  have hnext : ¬ (buf ++ rest).length < inmemFrameHead := by omega
  unfold parse
  rw [if_neg hnext, if_neg (not_lt.mpr hhead)]
  simp only [h0, h4, h8, h12, h16]
  by_cases hmagic : u32OfLe (slice buf 0 4) ≠ inmemFrameMagic
  · rw [if_pos hmagic, if_pos hmagic]
  · rw [if_neg hmagic, if_neg hmagic]
    by_cases hhuge : (u32OfLe (slice buf 12 16)).toNat > maxPayload
    · rw [if_pos hhuge, if_pos hhuge]
    · rw [if_neg hhuge, if_neg hhuge]
      have hlong : statedLen buf ≤ buf.length := by
        by_contra hlt
        exact hfinished (Or.inr ⟨⟨hhead, not_not.mp hmagic, not_lt.mp hhuge⟩, not_le.mp hlt⟩)
      unfold statedLen inmemFrameFoot at hlong
      have hp1 : inmemFrameHead + (u32OfLe (slice buf 12 16)).toNat + 4 ≤ buf.length := by omega
      have hpart : ¬ (buf ++ rest).length < inmemFrameHead + 4 + (u32OfLe (slice buf 12 16)).toNat := by omega
      unfold inmemFrameFoot
      rw [if_neg hpart, if_neg (not_lt.mpr hlong), slice_append hp1, slice_append (by omega), slice_append (by omega)]

end Parts

/-! ## The round trip -/

/-- What the encoder makes of a type id and a payload. -/
def ofPayload (tyid : UInt32) (enc : List UInt8) : InMemoryFrame where
  encid := inmemFrameEncid
  tyid := tyid
  len := UInt32.ofNat enc.length
  buf := enc

/-- The head of a frame. -/
def head (tyid : UInt32) (enc : List UInt8) : List UInt8 :=
  u32LeBytes inmemFrameMagic ++ u32LeBytes inmemFrameEncid ++ u32LeBytes tyid ++
    u32LeBytes (UInt32.ofNat enc.length) ++ u32LeBytes (crc enc)

variable {crc} {tyid : UInt32} {enc rest : List UInt8}

theorem makeFrame_eq (crc : List UInt8 → UInt32) (tyid : UInt32) (enc : List UInt8) :
    Frame.makeFrame crc tyid enc =
      head crc tyid enc ++ enc ++ u32LeBytes (crc (head crc tyid enc ++ enc)) := rfl

@[simp]
theorem length_head : (head crc tyid enc).length = inmemFrameHead := by
  simp [head, inmemFrameHead]

@[simp]
theorem length_makeFrame :
    (Frame.makeFrame crc tyid enc).length = inmemFrameHead + inmemFrameFoot + enc.length := by
  rw [makeFrame_eq, List.length_append, List.length_append, length_head, length_u32LeBytes]
  simp only [inmemFrameFoot]
  omega

/-- The fields are read back from the head. -/
theorem slice_head (crc : List UInt8 → UInt32) (tyid : UInt32) (enc rest : List UInt8) :
    slice (head crc tyid enc ++ rest) 0 4 = u32LeBytes inmemFrameMagic ∧
    slice (head crc tyid enc ++ rest) 4 8 = u32LeBytes inmemFrameEncid ∧
    slice (head crc tyid enc ++ rest) 8 12 = u32LeBytes tyid ∧
    slice (head crc tyid enc ++ rest) 12 16 = u32LeBytes (UInt32.ofNat enc.length) ∧
    slice (head crc tyid enc ++ rest) 16 20 = u32LeBytes (crc enc) := by
  simp only [head]
  refine ⟨?_, ?_, ?_, ?_, ?_⟩
  · rw [List.append_assoc, List.append_assoc, List.append_assoc, List.append_assoc,
      ← List.nil_append (u32LeBytes inmemFrameMagic), List.append_assoc, ← List.append_assoc []]
    exact slice_middle rfl (by simp)
  · rw [List.append_assoc, List.append_assoc, List.append_assoc]
    exact slice_middle (by simp) (by simp)
  · rw [List.append_assoc, List.append_assoc]
    exact slice_middle (by simp) (by simp)
  · rw [List.append_assoc]
    exact slice_middle (by simp) (by simp)
  · exact slice_middle (by simp) (by simp)

/-- A payload of accepted length has its length in the head. -/
theorem toNat_length (henc : enc.length ≤ maxPayload) :
    (UInt32.ofNat enc.length).toNat = enc.length := by
  have hlt : enc.length < 2 ^ 32 := by
    unfold maxPayload at henc
    omega
  simpa using hlt

/-- From a part of a frame that holds its head, the parser learns the length of the frame. -/
theorem parse_prefix {n : ℕ} (henc : enc.length ≤ maxPayload) (hhead : inmemFrameHead ≤ n)
    (hpart : n < inmemFrameHead + inmemFrameFoot + enc.length) :
    parse crc ((Frame.makeFrame crc tyid enc).take n) =
      .ok (.notEnoughData (inmemFrameHead + inmemFrameFoot + enc.length)) := by
  have hlength : ((Frame.makeFrame crc tyid enc).take n).length = n := by
    rw [List.length_take, length_makeFrame]
    omega
  have hsplit : (Frame.makeFrame crc tyid enc).take n = head crc tyid enc ++
      (enc ++ u32LeBytes (crc (head crc tyid enc ++ enc))).take (n - inmemFrameHead) := by
    rw [makeFrame_eq, List.append_assoc, List.take_append, length_head,
      List.take_of_length_le (by rw [length_head]; exact hhead)]
  unfold parse
  rw [hlength, if_neg (by omega), hsplit]
  rcases slice_head crc tyid enc
    ((enc ++ u32LeBytes (crc (head crc tyid enc ++ enc))).take (n - inmemFrameHead)) with
    ⟨h0, h4, h8, h12, h16⟩
  simp only [h0, h4, h8, h12, h16, u32OfLe_u32LeBytes, toNat_length henc]
  rw [if_neg (by simp), if_neg (by omega), if_pos hpart]

/-- What is parsed from a frame, whatever stands behind it, is the frame. -/
theorem parse_makeFrame (henc : enc.length ≤ maxPayload) :
    parse crc (Frame.makeFrame crc tyid enc ++ rest) =
      .ok (.parsed (inmemFrameHead + inmemFrameFoot + enc.length) (ofPayload tyid enc)) := by
  have hlength : (Frame.makeFrame crc tyid enc ++ rest).length =
      inmemFrameHead + inmemFrameFoot + enc.length + rest.length := by
    rw [List.length_append, length_makeFrame]
  have hsplit : Frame.makeFrame crc tyid enc ++ rest = head crc tyid enc ++
      (enc ++ u32LeBytes (crc (head crc tyid enc ++ enc)) ++ rest) := by
    rw [makeFrame_eq]
    simp only [List.append_assoc]
  have hpayload : slice (Frame.makeFrame crc tyid enc ++ rest) inmemFrameHead
      (inmemFrameHead + enc.length) = enc := by
    rw [makeFrame_eq, List.append_assoc]
    exact slice_middle length_head.symm (by rw [length_head])
  have hbody : slice (Frame.makeFrame crc tyid enc ++ rest) 0 (inmemFrameHead + enc.length) =
      head crc tyid enc ++ enc := by
    rw [makeFrame_eq, ← List.nil_append (head crc tyid enc ++ enc), List.append_assoc]
    exact slice_middle rfl (by simp)
  have hfoot : slice (Frame.makeFrame crc tyid enc ++ rest) (inmemFrameHead + enc.length)
      (inmemFrameHead + enc.length + 4) = u32LeBytes (crc (head crc tyid enc ++ enc)) := by
    rw [makeFrame_eq]
    exact slice_middle (by simp) (by simp)
  unfold parse
  rw [hlength, if_neg (by omega)]
  rcases slice_head crc tyid enc (enc ++ u32LeBytes (crc (head crc tyid enc ++ enc)) ++ rest) with
    ⟨h0, h4, h8, h12, h16⟩
  rw [← hsplit] at h0 h4 h8 h12 h16
  simp only [h0, h4, h8, h12, h16, u32OfLe_u32LeBytes, toNat_length henc, hpayload, hbody, hfoot]
  rw [if_neg (by simp), if_neg (by omega), if_neg (by omega), if_neg (by simp)]
  rfl

/-! ## Encoded frames -/

/-- What the encoders make of a type id and of a payload that a codec has given. -/
inductive Built (crc : List UInt8 → UInt32) : UInt32 → List UInt8 → List UInt8 → Prop
  | frame2 {T : Type} {encodeToVec : T → Except Frame.Error (List UInt8)} {item : T} {fty : UInt32}
      {payload bytes : List UInt8} : encodeToVec item = .ok payload →
      Frame.makeFrame2 crc encodeToVec item fty = .ok bytes → Built crc fty payload bytes
  | error {T : Type} {jsonToVec : T → Except Frame.Error (List UInt8)} {item : T}
      {payload bytes : List UInt8} : jsonToVec item = .ok payload →
      Frame.makeErrorFrame crc jsonToVec item = .ok bytes → Built crc errorFrameTypeId payload bytes
  | log {T : Type} {encodeToVec : T → Except Frame.Error (List UInt8)} {item : T}
      {payload bytes : List UInt8} : encodeToVec item = .ok payload →
      Frame.makeLogFrame crc encodeToVec item = .ok bytes → Built crc logFrameTypeId payload bytes
  | stats {T : Type} {encodeToVec : T → Except Frame.Error (List UInt8)} {item : T}
      {payload bytes : List UInt8} : encodeToVec item = .ok payload →
      Frame.makeStatsFrame crc encodeToVec item = .ok bytes → Built crc statsFrameTypeId payload bytes
  | rangeComplete {bytes : List UInt8} :
      Frame.makeRangeCompleteFrame crc = .ok bytes → Built crc rangeCompleteFrameTypeId [] bytes
  | term {bytes : List UInt8} :
      Frame.makeTermFrame crc = .ok bytes → Built crc termFrameTypeId [] bytes

/-- All encoders lay out a frame in the same way. -/
theorem Built.eq_makeFrame {payload bytes : List UInt8} (hbuilt : Built crc tyid payload bytes) :
    bytes = Frame.makeFrame crc tyid payload := by
  cases hbuilt with
  | frame2 hcodec hmake =>
      rw [Frame.makeFrame2, hcodec] at hmake
      simp only at hmake
      split at hmake
      · simp at hmake
      · exact (Except.ok.inj hmake).symm
  | error hcodec hmake =>
      rw [Frame.makeErrorFrame, Frame.makeUncheckedFrame, hcodec] at hmake
      exact (Except.ok.inj hmake).symm
  | log hcodec hmake =>
      rw [Frame.makeLogFrame, Frame.makeUncheckedFrame, hcodec] at hmake
      exact (Except.ok.inj hmake).symm
  | stats hcodec hmake =>
      rw [Frame.makeStatsFrame, Frame.makeUncheckedFrame, hcodec] at hmake
      exact (Except.ok.inj hmake).symm
  | rangeComplete hmake => exact (Except.ok.inj hmake).symm
  | term hmake => exact (Except.ok.inj hmake).symm

end InMemoryFrame

/-- A frame that one of the encoders has made, with a payload of accepted length. -/
structure EncodedFrame (crc : List UInt8 → UInt32) where
  tyid : UInt32
  payload : List UInt8
  bytes : List UInt8
  built : InMemoryFrame.Built crc tyid payload bytes
  accepted : payload.length ≤ InMemoryFrame.maxPayload

namespace EncodedFrame

variable {crc : List UInt8 → UInt32} (f : EncodedFrame crc)

/-- What was encoded. -/
def frame : InMemoryFrame := .ofPayload f.tyid f.payload

theorem bytes_eq : f.bytes = Frame.makeFrame crc f.tyid f.payload := f.built.eq_makeFrame

theorem length_bytes : f.bytes.length = inmemFrameHead + inmemFrameFoot + f.payload.length := by
  rw [f.bytes_eq, InMemoryFrame.length_makeFrame]

/-- A part of the frame that holds its head tells the length of the frame. -/
theorem parse_take {n : ℕ} (hhead : inmemFrameHead ≤ n) (hpart : n < f.bytes.length) :
    InMemoryFrame.parse crc (f.bytes.take n) = .ok (.notEnoughData f.bytes.length) := by
  rw [f.length_bytes] at hpart ⊢
  rw [f.bytes_eq]
  exact InMemoryFrame.parse_prefix f.accepted hhead hpart

/-- The whole frame is parsed, whatever stands behind it. -/
theorem parse_append (rest : List UInt8) :
    InMemoryFrame.parse crc (f.bytes ++ rest) = .ok (.parsed f.bytes.length f.frame) := by
  rw [f.length_bytes, f.bytes_eq]
  exact InMemoryFrame.parse_makeFrame f.accepted

end EncodedFrame

end Items
end Daqbuf
