import Daqbuf.Bytes.Endian
/-!
# Channel Access Messages

The messages of the Channel Access protocol, how an outgoing one is laid out in bytes, and how an
incoming one is made from its header and its payload.  The source slices its buffers; where a slice is
out of bounds it panics.

Floating-point values are kept as their bits.  The time of arrival is left out.
-/

namespace Daqbuf

namespace Netpod

/-- {lit}`Shape`, as far as a value of a channel can have it. -/
inductive Shape where
  | scalar
  | wave (n : UInt32)
  deriving DecidableEq, Repr

/-- {lit}`Shape::from_ca_count` -/
def Shape.fromCaCount (k : UInt32) : Option Shape :=
  if k = 0 then none
  else if k = 1 then some .scalar
  else if k ≤ 1024 * 3000 then some (.wave k)
  else none

end Netpod

namespace Ca

open Bytes Netpod

/-- {lit}`SocketAddrV4` -/
structure SocketAddrV4 where
  ip : UInt32
  port : UInt16
  deriving DecidableEq, Repr

/-- {lit}`CA_PROTO_VERSION` -/
def caProtoVersion : UInt32 := 13

/-- {lit}`Error`; the errors of the operating system and of the buffers are opaque. -/
inductive Error where
  | slideBuf
  | bufferTooSmallForNeedMin (cap needMin : ℕ)
  | io
  | badSlice
  | badCaDbrTypeId (k : UInt16)
  | badCaScalarTypeId (k : UInt16)
  | notEnoughPayload
  | todoConversionArray
  | caProtoVersionMissing
  | notEnoughPayloadTimeMetadata (n : ℕ)
  | mismatchDbrTimeType
  | badCaCount
  | caCommandNotSupported (cmdid : UInt16)
  | parseAttemptInDoneState
  | noReadBufferSpace
  | neitherPendingNorProgress
  | logicError
  | badPayload
  deriving DecidableEq, Repr

/-! ## Texts -/

/-- Decodes the first character of UTF-8 text: the character, or nothing for a maximal invalid sequence,
and how many bytes it takes. -/
def decodeChar (b : UInt8) (bs : List UInt8) : Option Char × ℕ :=
  let isTail (c : ℕ) : Bool := 0x80 ≤ c && c ≤ 0xbf
  let byteAt (i : ℕ) : ℕ := (bs.getD i 0).toNat
  let a := b.toNat
  if a < 0x80 then
    (some (Char.ofNat a), 1)
  else if 0xc2 ≤ a ∧ a ≤ 0xdf then
    if isTail (byteAt 0) then (some (Char.ofNat ((a - 0xc0) * 64 + (byteAt 0 - 0x80))), 2) else (none, 1)
  else if 0xe0 ≤ a ∧ a ≤ 0xef then
    let low := if a = 0xe0 then 0xa0 else 0x80
    let high := if a = 0xed then 0x9f else 0xbf
    if ¬ (low ≤ byteAt 0 ∧ byteAt 0 ≤ high) then (none, 1)
    else if isTail (byteAt 1) then
      (some (Char.ofNat ((a - 0xe0) * 4096 + (byteAt 0 - 0x80) * 64 + (byteAt 1 - 0x80))), 3)
    else (none, 2)
  else if 0xf0 ≤ a ∧ a ≤ 0xf4 then
    let low := if a = 0xf0 then 0x90 else 0x80
    let high := if a = 0xf4 then 0x8f else 0xbf
    if ¬ (low ≤ byteAt 0 ∧ byteAt 0 ≤ high) then (none, 1)
    else if ¬ isTail (byteAt 1) then (none, 2)
    else if isTail (byteAt 2) then
      (some (Char.ofNat ((a - 0xf0) * 262144 + (byteAt 0 - 0x80) * 4096 + (byteAt 1 - 0x80) * 64 +
        (byteAt 2 - 0x80))), 4)
    else (none, 3)
  else
    (none, 1)

/-- The characters of UTF-8 text; each maximal invalid sequence gives nothing.  A character takes at
least one byte, so that as many steps as there are bytes suffice. -/
def decodeChars : ℕ → List UInt8 → List (Option Char)
  | 0, _ => []
  | _, [] => []
  | n + 1, b :: bs =>
      let (c, len) := decodeChar b bs
      c :: decodeChars n (bs.drop (len - 1))

/-- {lit}`String::from_utf8_lossy` -/
def fromUtf8Lossy (bs : List UInt8) : String :=
  .ofList ((decodeChars bs.length bs).map fun c => c.getD (Char.ofNat 0xfffd))

/-- {lit}`str::from_utf8`; nothing for invalid text -/
def fromUtf8 (bs : List UInt8) : Option String :=
  ((decodeChars bs.length bs).mapM id).map .ofList

/-- {lit}`str::as_bytes` -/
def asBytes (s : String) : List UInt8 := s.toUTF8.data.toList

/-- The debug text of a sequence of bytes. -/
def debugBytes (bs : List UInt8) : String :=
  "[" ++ ", ".intercalate (bs.map fun b => toString b.toNat) ++ "]"

/-! ## Values -/

/-- {lit}`CaScalarType` -/
inductive CaScalarType where
  | i8
  | i16
  | i32
  | f32
  | f64
  | enum
  | string
  deriving DecidableEq, Repr

/-- {lit}`CaDbrMetaType` -/
inductive CaDbrMetaType where
  | plain
  | status
  | time
  | ctrl
  deriving DecidableEq, Repr

/-- {lit}`CaDbrType` -/
structure CaDbrType where
  kind : CaDbrMetaType
  scalarType : CaScalarType
  deriving DecidableEq, Repr

/-- {lit}`CaDbrType::from_ca_u16` -/
def CaDbrType.fromCaU16 (k : UInt16) : Except Error CaDbrType :=
  if k = 31 then
    .ok ⟨.ctrl, .enum⟩
  else if 20 < k then
    .error (.badCaDbrTypeId k)
  else
    let (kind, k) : CaDbrMetaType × UInt16 :=
      if 14 ≤ k then (.time, k - 14) else if 7 ≤ k then (.status, k - 7) else (.plain, k)
    match k.toNat with
    | 4 => .ok ⟨kind, .i8⟩
    | 1 => .ok ⟨kind, .i16⟩
    | 5 => .ok ⟨kind, .i32⟩
    | 2 => .ok ⟨kind, .f32⟩
    | 6 => .ok ⟨kind, .f64⟩
    | 3 => .ok ⟨kind, .enum⟩
    | 0 => .ok ⟨kind, .string⟩
    | _ => .error (.badCaScalarTypeId k)

/-- {lit}`CaDataScalarValue`, without the value that no message holds -/
inductive CaDataScalarValue where
  | i8 (x : Int8)
  | i16 (x : Int16)
  | i32 (x : Int32)
  | f32 (bits : UInt32)
  | f64 (bits : UInt64)
  | enum (x : Int16)
  | string (x : String)
  deriving DecidableEq

/-- {lit}`CaDataArrayValue`, without the value that no message holds -/
inductive CaDataArrayValue where
  | i8 (xs : List Int8)
  | i16 (xs : List Int16)
  | i32 (xs : List Int32)
  | f32 (bits : List UInt32)
  | f64 (bits : List UInt64)
  deriving DecidableEq

/-- {lit}`CaDataValue` -/
inductive CaDataValue where
  | scalar (x : CaDataScalarValue)
  | array (xs : CaDataArrayValue)
  deriving DecidableEq

/-- {lit}`CaMetaValue` -/
inductive CaMetaValue where
  | caMetaTime (status severity : UInt16) (caSecs caNanos : UInt32)
  | caMetaVariants (status severity : UInt16) (variants : List String)
  deriving DecidableEq

/-- {lit}`CaEventValue` -/
structure CaEventValue where
  data : CaDataValue
  info : CaMetaValue
  deriving DecidableEq

/-! ## Messages -/

/-- The name in a client-name response: a text, or the debug text of the error that the conversion of the
bytes gave. -/
inductive ClientName where
  | text (name : String)
  | debugOfError (bytes : List UInt8)
  deriving DecidableEq

/-- {lit}`CaMsgTy` -/
inductive CaMsgTy where
  | version
  | versionRes (n : UInt16)
  | error (cid eid : UInt32) (msg : String)
  | clientName
  | clientNameRes (name : ClientName)
  | hostName (name : String)
  | search (id : UInt32) (channel : String)
  | searchRes (addr : UInt32) (tcpPort : UInt16) (id : UInt32) (protoVersion : UInt16)
  | createChan (cid : UInt32) (channel : String)
  | createChanRes (dataType : UInt16) (dataCount cid sid : UInt32)
  | createChanFail (cid : UInt32)
  | accessRightsRes (cid rights : UInt32)
  | eventAdd (dataType : UInt16) (dataCount sid subid : UInt32)
  | eventAddRes (dataType : UInt16) (dataCount status subid payloadLen : UInt32) (value : CaEventValue)
  | eventAddResEmpty (dataType : UInt16) (sid subid : UInt32)
  | eventCancel (dataType : UInt16) (dataCount sid subid : UInt32)
  | eventCancelRes (dataType : UInt16) (sid subid : UInt32)
  | readNotify (dataType : UInt16) (dataCount sid ioid : UInt32)
  | readNotifyRes (dataType : UInt16) (dataCount sid ioid payloadLen : UInt32) (value : CaEventValue)
  | channelClose (sid cid : UInt32)
  | channelCloseRes (sid cid : UInt32)
  | channelDisconnect (cid : UInt32)
  | echo
  deriving DecidableEq

/-- {lit}`CaMsg` -/
structure CaMsg where
  ty : CaMsgTy
  deriving DecidableEq

/-! ## Outgoing messages -/

namespace CaMsgTy

/-- {lit}`cmdid` -/
def cmdid : CaMsgTy → UInt16
  | version => 0
  | versionRes _ => 0
  | error _ _ _ => 0x0b
  | clientName => 0x14
  | clientNameRes _ => 0x14
  | hostName _ => 0x15
  | search _ _ => 0x06
  | searchRes _ _ _ _ => 0x06
  | createChan _ _ => 0x12
  | createChanRes _ _ _ _ => 0x12
  | createChanFail _ => 0x1a
  | accessRightsRes _ _ => 0x16
  | eventAdd _ _ _ _ => 0x01
  | eventAddRes _ _ _ _ _ _ => 0x01
  -- the response to event-cancel is an event-add
  | eventAddResEmpty _ _ _ => 0x01
  | eventCancel _ _ _ _ => 0x02
  | eventCancelRes _ _ _ => 0x01
  | readNotify _ _ _ _ => 0x0f
  | readNotifyRes _ _ _ _ _ _ => 0x0f
  | channelClose _ _ => 0x0c
  | channelCloseRes _ _ => 0x0c
  | channelDisconnect _ => 0x1b
  | echo => 0x17

/-- The length of a text with its terminating zero, padded to a multiple of 8. -/
def paddedLen (n : ℕ) : ℕ := (n + 1 + 7) / 8 * 8

/-- {lit}`payload_len`; {lit}`none` where the source panics.  The length of the debug text of an error is
not known; a client-name response is never written. -/
def payloadLen : CaMsgTy → Option ℕ
  | version => some 0
  | versionRes _ => some 0
  | error _ _ msg => some ((16 + msg.utf8ByteSize + 1 + 7) / 8 * 8)
  | clientName => some 0x10
  | clientNameRes (.text name) => some (paddedLen name.utf8ByteSize)
  | clientNameRes (.debugOfError _) => none
  | hostName name => some (paddedLen name.utf8ByteSize)
  | search _ channel => some (paddedLen channel.utf8ByteSize)
  | searchRes _ _ _ _ => some 8
  | createChan _ channel => some (paddedLen channel.utf8ByteSize)
  | createChanRes _ _ _ _ => some 0
  | createChanFail _ => some 0
  | accessRightsRes _ _ => some 0
  | eventAdd _ _ _ _ => some 16
  | eventAddRes _ _ _ _ _ _ => none
  | eventAddResEmpty _ _ _ => some 0
  | eventCancel _ _ _ _ => some 0
  | eventCancelRes _ _ _ => some 0
  | readNotify _ _ _ _ => some 0
  | readNotifyRes _ _ _ _ _ _ => none
  | channelClose _ _ => some 0
  | channelCloseRes _ _ => some 0
  | channelDisconnect _ => some 0
  | echo => some 0

/-- {lit}`data_type` -/
def dataType : CaMsgTy → UInt16
  | versionRes n => n
  -- the reply flag
  | search _ _ => 1
  | searchRes _ tcpPort _ _ => tcpPort
  | createChanRes dataType _ _ _ => dataType
  | eventAdd dataType _ _ _ => dataType
  | eventAddRes dataType _ _ _ _ _ => dataType
  | eventAddResEmpty dataType _ _ => dataType
  | eventCancel dataType _ _ _ => dataType
  | eventCancelRes dataType _ _ => dataType
  | readNotify dataType _ _ _ => dataType
  | readNotifyRes dataType _ _ _ _ _ => dataType
  | version | error _ _ _ | clientName | clientNameRes _ | hostName _ | createChan _ _ | createChanFail _
  | accessRightsRes _ _ | channelClose _ _ | channelCloseRes _ _ | channelDisconnect _ | echo => 0

/-- {lit}`data_count`; {lit}`none` where the source panics. -/
def dataCount : CaMsgTy → Option UInt32
  | version => some caProtoVersion
  | search _ _ => some caProtoVersion
  | createChanRes _ _ _ _ => none
  | eventAdd _ dataCount _ _ => some dataCount
  | eventAddRes _ _ _ _ _ _ => none
  | eventCancel _ dataCount _ _ => some dataCount
  | readNotify _ dataCount _ _ => some dataCount
  | readNotifyRes _ _ _ _ _ _ => none
  | versionRes _ | error _ _ _ | clientName | clientNameRes _ | hostName _ | searchRes _ _ _ _
  | createChan _ _ | createChanFail _ | accessRightsRes _ _ | eventAddResEmpty _ _ _
  | eventCancelRes _ _ _ | channelClose _ _ | channelCloseRes _ _ | channelDisconnect _ | echo => some 0

/-- {lit}`param1` -/
def param1 : CaMsgTy → UInt32
  | search id _ => id
  | searchRes addr _ _ _ => addr
  | createChan cid _ => cid
  | createChanRes _ _ cid _ => cid
  | createChanFail cid => cid
  | accessRightsRes cid _ => cid
  | eventAdd _ _ sid _ => sid
  | eventAddRes _ _ status _ _ _ => status
  | eventAddResEmpty _ sid _ => sid
  | eventCancel _ _ sid _ => sid
  | eventCancelRes _ sid _ => sid
  | readNotify _ _ sid _ => sid
  | readNotifyRes _ _ sid _ _ _ => sid
  | channelClose sid _ => sid
  | channelCloseRes sid _ => sid
  | channelDisconnect cid => cid
  | version | versionRes _ | error _ _ _ | clientName | clientNameRes _ | hostName _ | echo => 0

/-- {lit}`param2` -/
def param2 : CaMsgTy → UInt32
  | search id _ => id
  | searchRes _ _ id _ => id
  | createChan _ _ => caProtoVersion
  | createChanRes _ _ _ sid => sid
  | accessRightsRes _ rights => rights
  | eventAdd _ _ _ subid => subid
  | eventAddRes _ _ _ subid _ _ => subid
  | eventAddResEmpty _ _ subid => subid
  | eventCancel _ _ _ subid => subid
  | eventCancelRes _ _ subid => subid
  | readNotify _ _ _ ioid => ioid
  | readNotifyRes _ _ _ ioid _ _ => ioid
  | channelClose _ cid => cid
  | channelCloseRes _ cid => cid
  | version | versionRes _ | error _ _ _ | clientName | clientNameRes _ | hostName _ | createChanFail _
  | channelDisconnect _ | echo => 0

/-- {lit}`len`; {lit}`none` where the source panics. -/
def len (ty : CaMsgTy) : Option ℕ := do
  let payload ← ty.payloadLen
  if payload ≤ 0x3ff0 then
    let count ← ty.dataCount
    if count ≤ 0xffff then pure (16 + payload) else pure (24 + payload)
  else
    pure (24 + payload)

/-- Fills a buffer with zeros and copies bytes to its front; {lit}`none` when the buffer is too short. -/
def zeroPadded (bs : List UInt8) (n : ℕ) : Option (List UInt8) :=
  if bs.length ≤ n then some (bs ++ List.replicate (n - bs.length) 0) else none

/-- {lit}`place_payload_into`: what stands in the buffer afterwards; {lit}`none` where the source
panics. -/
def placePayloadInto (ty : CaMsgTy) (buf : List UInt8) : Option (List UInt8) :=
  match ty with
  | error _ _ _ => none
  | clientName => zeroPadded (asBytes "daqingest") buf.length
  | clientNameRes _ => none
  | hostName name => zeroPadded (asBytes name) buf.length
  | search _ channel =>
      let d := asBytes channel
      if buf.length < d.length + 1 then none else zeroPadded d buf.length
  | searchRes _ _ _ _ => none
  | createChan _ channel =>
      let d := asBytes channel
      if buf.length < d.length + 1 then none else zeroPadded d buf.length
  | eventAdd _ _ _ _ =>
      -- the flags for log and alarm
      if buf.length = 16 then some [0, 0, 0, 0, 0, 0, 0, 0, 0, 0, 0, 0, 0, 0x02 ||| 0x04, 0, 0] else none
  | version | versionRes _ | createChanRes _ _ _ _ | createChanFail _ | accessRightsRes _ _
  | eventAddRes _ _ _ _ _ _ | eventAddResEmpty _ _ _ | eventCancel _ _ _ _ | eventCancelRes _ _ _
  | readNotify _ _ _ _ | readNotifyRes _ _ _ _ _ _ | channelClose _ _ | channelCloseRes _ _
  | channelDisconnect _ | echo => some buf

end CaMsgTy

namespace CaMsg

/-- {lit}`len` -/
def len (msg : CaMsg) : Option ℕ := msg.ty.len

/-- {lit}`place_into`: what stands in the buffer afterwards; {lit}`none` where the source panics. -/
def placeInto (msg : CaMsg) (buf : List UInt8) : Option (List UInt8) := do
  let payload ← msg.ty.payloadLen
  let count ← msg.ty.dataCount
  if payload ≤ 0x3ff0 ∧ count ≤ 0xffff then
    if buf.length < 16 then
      none
    else
      let placed ← msg.ty.placePayloadInto (buf.drop 16)
      pure (beBytes 2 msg.ty.cmdid.toNat ++ beBytes 2 payload ++ beBytes 2 msg.ty.dataType.toNat ++
        beBytes 2 count.toNat ++ beBytes 4 msg.ty.param1.toNat ++ beBytes 4 msg.ty.param2.toNat ++ placed)
  else
    if buf.length < 24 then
      none
    else
      let placed ← msg.ty.placePayloadInto (buf.drop 24)
      pure (beBytes 2 msg.ty.cmdid.toNat ++ [0xff, 0xff] ++ beBytes 2 msg.ty.dataType.toNat ++
        [0x00, 0x00] ++ beBytes 4 msg.ty.param1.toNat ++ beBytes 4 msg.ty.param2.toNat ++
        beBytes 4 payload ++ beBytes 4 count.toNat ++ placed)

end CaMsg

/-! ## Incoming messages -/

/-- {lit}`HeadInfo` -/
structure HeadInfo where
  cmdid : UInt16
  payloadSize : UInt32
  dataType : UInt16
  dataCount : UInt32
  param1 : UInt32
  param2 : UInt32
  isExt : Bool
  deriving DecidableEq, Repr

/-- {lit}`HeadInfo::with_ext` -/
def HeadInfo.withExt (hi : HeadInfo) (payload datacount : UInt32) : HeadInfo :=
  { hi with isExt := true, payloadSize := payload, dataCount := datacount }

/-- The result of code that can fail and that can panic, which is {lit}`none`. -/
abbrev Fallible (α : Type) := ExceptT Error Option α

/-- An operation that panics. -/
def panicked {α : Type} : Fallible α := (none : Option (Except Error α))

/-- The slice from one position to another; out of bounds it panics. -/
def sliceAt (bs : List UInt8) (beg fin : ℕ) : Fallible (List UInt8) :=
  if beg ≤ fin ∧ fin ≤ bs.length then pure (slice bs beg fin) else panicked

/-- {lit}`u16::from_be_bytes` -/
def u16OfBe (bs : List UInt8) : UInt16 := UInt16.ofNat (ofBe bs)

/-- {lit}`u32::from_be_bytes` -/
def u32OfBe (bs : List UInt8) : UInt32 := UInt32.ofNat (ofBe bs)

namespace CaMsg

/-- {lit}`convert_scalar_value` for a type of {lit}`stl` bytes -/
def convertScalarValue (stl : ℕ) (value : ℕ → CaDataScalarValue) (buf : List UInt8) :
    Except Error CaDataValue :=
  if buf.length < stl then .error .notEnoughPayload else .ok (.scalar (value (ofBe (buf.take stl))))

/-- {lit}`ca_scalar_value` -/
def caScalarValue (scalarType : CaScalarType) (buf : List UInt8) : Except Error CaDataValue :=
  match scalarType with
  | .i8 => convertScalarValue 1 (fun n => .i8 (Int8.ofNat n)) buf
  | .i16 => convertScalarValue 2 (fun n => .i16 (Int16.ofNat n)) buf
  | .i32 => convertScalarValue 4 (fun n => .i32 (Int32.ofNat n)) buf
  | .f32 => convertScalarValue 4 (fun n => .f32 (UInt32.ofNat n)) buf
  | .f64 => convertScalarValue 8 (fun n => .f64 (UInt64.ofNat n)) buf
  | .enum => convertScalarValue 2 (fun n => .enum (Int16.ofNat n)) buf
  | .string => .ok (.scalar (.string (fromUtf8Lossy (buf.takeWhile (· ≠ 0)))))

/-- {lit}`convert_wave_value` for a type of {lit}`stl` bytes -/
def convertWaveValue {α : Type} (stl : ℕ) (value : ℕ → α) (n : ℕ) (buf : List UInt8) : List α :=
  (List.range (min n (buf.length / stl))).map fun i => value (ofBe (slice buf (i * stl) ((i + 1) * stl)))

/-- {lit}`ca_wave_value` -/
def caWaveValue (scalarType : CaScalarType) (n : ℕ) (buf : List UInt8) : Except Error CaDataValue :=
  match scalarType with
  | .i8 => .ok (.array (.i8 (convertWaveValue 1 Int8.ofNat n buf)))
  | .i16 => .ok (.array (.i16 (convertWaveValue 2 Int16.ofNat n buf)))
  | .i32 => .ok (.array (.i32 (convertWaveValue 4 Int32.ofNat n buf)))
  | .f32 => .ok (.array (.f32 (convertWaveValue 4 UInt32.ofNat n buf)))
  | .f64 => .ok (.array (.f64 (convertWaveValue 8 UInt64.ofNat n buf)))
  | .string => .ok (.scalar (.string "todo-array-string"))
  | .enum => .error .todoConversionArray

/-- One name of an enum's variants, from its field of 26 bytes. -/
def variantName (field : List UInt8) : String :=
  let name : String :=
    if 0 ∈ field then (fromUtf8 (field.takeWhile (· ≠ 0))).getD "encodingerror" else "encodingerror"
  if 26 ≤ name.utf8ByteSize then "toolongerror" else name

/-- The first match of {lit}`extract_ca_data_value`: the metadata and where they end. -/
def extractMeta (kind : CaDbrMetaType) (payload : List UInt8) : Fallible (CaMetaValue × ℕ) :=
  match kind with
  | .plain => throw .mismatchDbrTimeType
  | .status => throw .mismatchDbrTimeType
  | .time => do
      let status ← sliceAt payload 0 2
      let severity ← sliceAt payload 2 4
      let caSecs ← sliceAt payload 4 8
      let caNanos ← sliceAt payload 8 12
      pure (.caMetaTime (u16OfBe status) (u16OfBe severity) (u32OfBe caSecs) (u32OfBe caNanos), 12)
  | .ctrl => do
      let status ← sliceAt payload 0 2
      let severity ← sliceAt payload 2 4
      let varcnt := (u16OfBe (← sliceAt payload 4 6)).toNat
      if 16 < varcnt then
        throw .badCaCount
      else
        let fields ← (List.range varcnt).mapM fun i => sliceAt payload (6 + 26 * i) (6 + 26 * i + 26)
        pure (.caMetaVariants (u16OfBe status) (u16OfBe severity) (fields.map variantName),
          2 + 2 + 2 + 26 * 16)

/-- The padding between the metadata and the value. -/
def metaPadding (ty : CaDbrType) : ℕ :=
  match ty.kind, ty.scalarType with
  | .plain, _ => 0
  | .status, .i8 => 1
  | .status, .f64 => 4
  | .status, _ => 0
  | .time, .i8 => 3
  | .time, .i16 => 2
  | .time, .f64 => 4
  | .time, .enum => 2
  | .time, _ => 0
  | .ctrl, .i8 => 1
  | .ctrl, _ => 0

/-- {lit}`extract_ca_data_value` -/
def extractCaDataValue (hi : HeadInfo) (payload : List UInt8) (arrayTruncate : ℕ) :
    Fallible CaEventValue := do
  let ty ← (CaDbrType.fromCaU16 hi.dataType : Except Error CaDbrType)
  match Shape.fromCaCount hi.dataCount with
  | none => throw .badCaCount
  | some shape =>
      let (info, dataOffset) ← extractMeta ty.kind payload
      let valbuf ← sliceAt payload (dataOffset + metaPadding ty) payload.length
      let data ← match shape with
        | .scalar => (caScalarValue ty.scalarType valbuf : Except Error CaDataValue)
        | .wave n => (caWaveValue ty.scalarType (min n.toNat arrayTruncate) valbuf)
      pure ⟨data, info⟩

/-- {lit}`from_proto_infos` -/
def fromProtoInfos (hi : HeadInfo) (payload : List UInt8) (arrayTruncate : ℕ) : Fallible CaMsg :=
  match hi.cmdid.toNat with
  | 0x00 => pure ⟨.versionRes hi.dataCount.toUInt16⟩
  | 0x0b => do
      let head := debugBytes (payload.take 16)
      if 17 ≤ payload.length then
        let text ← sliceAt payload 17 (payload.length - 1)
        pure ⟨.error hi.param1 hi.param2 (head ++ "  msg: " ++ fromUtf8Lossy text)⟩
      else
        pure ⟨.error hi.param1 hi.param2 head⟩
  | 0x06 =>
      if payload.length < 2 then
        throw .caProtoVersionMissing
      else
        pure ⟨.searchRes hi.param1 hi.dataType hi.param2 (u16OfBe (slice payload 0 2))⟩
  | 0x01 =>
      if payload.length < 12 then
        if payload.length = 0 then
          pure ⟨.eventAddResEmpty hi.dataType hi.param1 hi.param2⟩
        else
          throw (.notEnoughPayloadTimeMetadata payload.length)
      else do
        let value ← extractCaDataValue hi payload arrayTruncate
        pure ⟨.eventAddRes hi.dataType hi.dataCount hi.param1 hi.param2 hi.payloadSize value⟩
  | 0x0c =>
      if payload.length ≠ 0 then throw .badPayload else pure ⟨.channelCloseRes hi.param1 hi.param2⟩
  | 0x0f => do
      let value ← extractCaDataValue hi payload arrayTruncate
      pure ⟨.readNotifyRes hi.dataType hi.dataCount hi.param1 hi.param2 hi.payloadSize value⟩
  | 0x12 => pure ⟨.createChanRes hi.dataType hi.dataCount hi.param1 hi.param2⟩
  | 0x16 => pure ⟨.accessRightsRes hi.param1 hi.param2⟩
  | 0x17 => pure ⟨.echo⟩
  | 0x1a => pure ⟨.createChanFail hi.param1⟩
  | 0x14 =>
      -- a zero inside the name and invalid text are errors of the conversion
      match if 0 ∈ payload then none else fromUtf8 payload with
      | some name => pure ⟨.clientNameRes (.text name)⟩
      | none => pure ⟨.clientNameRes (.debugOfError payload)⟩
  | 0x15 => pure ⟨.hostName "TODOx5288"⟩
  | _ => throw (.caCommandNotSupported hi.cmdid)

end CaMsg

end Ca
end Daqbuf
