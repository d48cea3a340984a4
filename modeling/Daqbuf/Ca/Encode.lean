import Daqbuf.Ca.Wire
/-!
# Encoding and Decoding of Channel Access Headers

The length of an outgoing message, the padding of its payload, the layout of its header and the parsing
of headers are written down separately.

Main results:

- Theorem {lit}`placePayloadInto_outgoing`: the payload fills exactly the bytes that its length announces.
- Theorem {lit}`placeInto_eq`: an outgoing message is placed as a header and a payload on the wire.
- Theorem {lit}`placeInto_cuts`: the header states recover what was placed.
-/

namespace Daqbuf
namespace Ca

open Bytes

namespace CaMsgTy

/-- The kinds of messages that are written; the source panics on the others, which only a server sends. -/
def outgoing : CaMsgTy → Bool
  | error _ _ _ => false
  | clientNameRes _ => false
  | searchRes _ _ _ _ => false
  | createChanRes _ _ _ _ => false
  | eventAddRes _ _ _ _ _ _ => false
  | readNotifyRes _ _ _ _ _ _ => false
  | _ => true

@[simp]
theorem length_asBytes (s : String) : (asBytes s).length = s.utf8ByteSize := by
  rw [asBytes, Array.length_toList]
  rfl

/-- A buffer that is long enough is filled up. -/
theorem zeroPadded_of_le {bs : List UInt8} {n : ℕ} (hle : bs.length ≤ n) :
    ∃ placed, zeroPadded bs n = some placed ∧ placed.length = n := by
  refine ⟨bs ++ List.replicate (n - bs.length) 0, if_pos hle, ?_⟩
  rw [List.length_append, List.length_replicate]
  omega

/-- A text and its terminating zero fit into their padded length. -/
theorem lt_paddedLen (n : ℕ) : n < paddedLen n := by
  unfold paddedLen
  omega

/-- The name that a message carries -/
def name? : CaMsgTy → Option String
  | clientName => some "daqingest"
  | hostName name => some name
  | search _ channel => some channel
  | createChan _ channel => some channel
  | _ => none

/-- What a message has to say in its payload: a name, or twelve zeros and the mask of the events that are asked for,
which are those of the archive and of alarms. -/
def content : CaMsgTy → List UInt8
  | eventAdd _ _ _ _ => List.replicate 12 0 ++ [0, 6, 0, 0]
  | ty => (ty.name?.map asBytes).getD []

/-- A payload that carries what a message has to say, and nothing but zeros behind it: at least one behind a name. -/
structure Carries (ty : CaMsgTy) (payload : List UInt8) : Prop where
  length_eq : some payload.length = ty.payloadLen
  payload_eq : payload = ty.content ++ List.replicate (payload.length - ty.content.length) 0
  terminated : ty.name?.isSome = true → ty.content.length < payload.length

/-- A name that is padded in the buffer -/
theorem carries_of_name (ty : CaMsgTy) {name : String} {n : ℕ} (hcontent : ty.content = asBytes name)
    (hlen : ty.payloadLen = some n) (hlt : name.utf8ByteSize < n) :
    ∃ placed, zeroPadded (asBytes name) n = some placed ∧ placed.length = n ∧ ty.Carries placed := by
  have hlt' : (asBytes name).length < n := by rwa [length_asBytes]
  obtain ⟨placed, hplaced, hsize⟩ := zeroPadded_of_le hlt'.le
  refine ⟨placed, hplaced, hsize, ?_, ?_, fun _ => ?_⟩
  · rw [hsize, hlen]
  · rw [hsize, hcontent]
    rw [zeroPadded, if_pos hlt'.le] at hplaced
    exact (Option.some.inj hplaced).symm
  · rwa [hsize, hcontent]

/-- The payload of an outgoing message fills exactly the bytes that its length announces, whatever stood
there, and carries what the message has to say. -/
theorem placePayloadInto_outgoing {ty : CaMsgTy} (hout : ty.outgoing = true) :
    ∃ n payload, ty.payloadLen = some n ∧ payload.length = n ∧ ty.Carries payload ∧
      ∀ buf, buf.length = n → ty.placePayloadInto buf = some payload := by
  have hnone : ∀ buf : List UInt8, buf.length = 0 → some buf = some [] := by
    intro buf hbuf
    rw [List.length_eq_zero_iff.mp hbuf]
  cases ty with
  | error | clientNameRes | searchRes | createChanRes | eventAddRes | readNotifyRes => simp [outgoing] at hout
  | version | versionRes | createChanFail | accessRightsRes | eventAddResEmpty | eventCancel
  | eventCancelRes | readNotify | channelClose | channelCloseRes | channelDisconnect | echo =>
      exact ⟨0, [], rfl, rfl, ⟨rfl, rfl, fun hname => absurd hname Bool.false_ne_true⟩, hnone⟩
  | clientName =>
      have hlt : "daqingest".utf8ByteSize < 0x10 := by decide
      obtain ⟨placed, hplaced, hlen, hcarries⟩ := carries_of_name .clientName rfl rfl hlt
      refine ⟨0x10, placed, rfl, hlen, hcarries, fun buf hbuf => ?_⟩
      rw [placePayloadInto, hbuf, hplaced]
  | hostName name =>
      obtain ⟨placed, hplaced, hlen, hcarries⟩ := carries_of_name (.hostName name) rfl rfl (lt_paddedLen _)
      refine ⟨_, placed, rfl, hlen, hcarries, fun buf hbuf => ?_⟩
      rw [placePayloadInto, hbuf, hplaced]
  | search id channel =>
      obtain ⟨placed, hplaced, hlen, hcarries⟩ :=
        carries_of_name (.search id channel) rfl rfl (lt_paddedLen _)
      refine ⟨_, placed, rfl, hlen, hcarries, fun buf hbuf => ?_⟩
      have hlt := lt_paddedLen channel.utf8ByteSize
      simp only [placePayloadInto, hbuf, length_asBytes]
      rw [if_neg (by omega), hplaced]
  | createChan cid channel =>
      obtain ⟨placed, hplaced, hlen, hcarries⟩ :=
        carries_of_name (.createChan cid channel) rfl rfl (lt_paddedLen _)
      refine ⟨_, placed, rfl, hlen, hcarries, fun buf hbuf => ?_⟩
      have hlt := lt_paddedLen channel.utf8ByteSize
      simp only [placePayloadInto, hbuf, length_asBytes]
      rw [if_neg (by omega), hplaced]
  | eventAdd dataType dataCount sid subid =>
      refine ⟨16, _, rfl, rfl, ⟨rfl, rfl, fun hname => absurd hname Bool.false_ne_true⟩, fun buf hbuf => if_pos hbuf⟩

/-- An outgoing message has a count. -/
theorem dataCount_outgoing {ty : CaMsgTy} (hout : ty.outgoing = true) : ∃ c, ty.dataCount = some c := by
  cases ty with
  | error | clientNameRes | searchRes | createChanRes | eventAddRes | readNotifyRes => simp [outgoing] at hout
  | version | search => exact ⟨caProtoVersion, rfl⟩
  | eventAdd _ count | eventCancel _ count | readNotify _ count => exact ⟨count, rfl⟩
  | versionRes | createChanFail | accessRightsRes | eventAddResEmpty | eventCancelRes | channelClose
  | channelCloseRes | channelDisconnect | echo | clientName | hostName | createChan => exact ⟨0, rfl⟩

end CaMsgTy

/-- A header says what an outgoing message says. -/
structure Says (hi : HeadInfo) (msg : CaMsg) : Prop where
  cmdid : hi.cmdid = msg.ty.cmdid
  dataType : hi.dataType = msg.ty.dataType
  dataCount : some hi.dataCount = msg.ty.dataCount
  param1 : hi.param1 = msg.ty.param1
  param2 : hi.param2 = msg.ty.param2

/-- The header of an outgoing message with a payload of {lit}`p` bytes and a count of {lit}`c`. -/
def CaMsg.headInfo (msg : CaMsg) (p : ℕ) (c : UInt32) (ext : Bool) : HeadInfo where
  cmdid := msg.ty.cmdid
  payloadSize := UInt32.ofNat p
  dataType := msg.ty.dataType
  dataCount := c
  param1 := msg.ty.param1
  param2 := msg.ty.param2
  isExt := ext

theorem toNat_payloadSize {p : ℕ} (hfits : p < 2 ^ 32) : (UInt32.ofNat p).toNat = p := by
  simpa using hfits

/-- With a short payload and a small count, the standard header is placed. -/
theorem placeInto_std {msg : CaMsg} {p : ℕ} {c : UInt32} {payload buf : List UInt8}
    (hp : msg.ty.payloadLen = some p) (hc : msg.ty.dataCount = some c) (hstd : p ≤ 0x3ff0 ∧ c ≤ 0xffff)
    (hplace : ∀ buf, buf.length = p → msg.ty.placePayloadInto buf = some payload)
    (hbuf : buf.length = 16 + p) :
    msg.placeInto buf = some (headBytes (msg.headInfo p c false) ++ payload) := by
  have hrest : (buf.drop 16).length = p := by
    rw [List.length_drop]
    omega
  have hsize : (UInt32.ofNat p).toNat = p := toNat_payloadSize (by omega)
  have hlong : ¬ buf.length < 16 := by omega
  simp only [CaMsg.placeInto, hp, hc, Option.bind_eq_bind, Option.bind_some, hplace _ hrest,
    Option.pure_def]
  rw [if_pos hstd, if_neg hlong]
  simp only [headBytes, CaMsg.headInfo, Bool.false_eq_true, if_false, stdHeadBytes, hsize]

/-- With a long payload or a great count, the extended header is placed. -/
theorem placeInto_ext {msg : CaMsg} {p : ℕ} {c : UInt32} {payload buf : List UInt8}
    (hp : msg.ty.payloadLen = some p) (hc : msg.ty.dataCount = some c)
    (hext : ¬ (p ≤ 0x3ff0 ∧ c ≤ 0xffff)) (hfits : p < 2 ^ 32)
    (hplace : ∀ buf, buf.length = p → msg.ty.placePayloadInto buf = some payload)
    (hbuf : buf.length = 24 + p) :
    msg.placeInto buf = some (headBytes (msg.headInfo p c true) ++ payload) := by
  have hrest : (buf.drop 24).length = p := by
    rw [List.length_drop]
    omega
  have hlong : ¬ buf.length < 24 := by omega
  have hmark : beBytes 2 0xffff = [0xff, 0xff] := by decide
  have hzero : beBytes 2 0 = [0x00, 0x00] := by decide
  simp only [CaMsg.placeInto, hp, hc, Option.bind_eq_bind, Option.bind_some, hplace _ hrest,
    Option.pure_def]
  rw [if_neg hext, if_neg hlong]
  simp only [headBytes, CaMsg.headInfo, if_true, stdHeadBytes, extHeadBytes, toNat_payloadSize hfits,
    hmark, hzero, List.append_assoc]

/-- An outgoing message is placed as a header and a payload on the wire, and fills exactly the bytes that
were reserved for it. -/
theorem placeInto_eq {msg : CaMsg} (hout : msg.ty.outgoing = true) :
    ∃ n, msg.len = some n ∧ (n < 2 ^ 32 → ∃ hi payload, Says hi msg ∧ WellFormed hi payload ∧
      msg.ty.Carries payload ∧
      (∀ buf, buf.length = payload.length → msg.ty.placePayloadInto buf = some payload) ∧
      (headBytes hi ++ payload).length = n ∧
      ∀ buf, buf.length = n → msg.placeInto buf = some (headBytes hi ++ payload)) := by
  rcases CaMsgTy.placePayloadInto_outgoing hout with ⟨p, payload, hp, hlen, hcarries, hplace⟩
  rcases CaMsgTy.dataCount_outgoing hout with ⟨c, hc⟩
  by_cases hstd : p ≤ 0x3ff0 ∧ c ≤ 0xffff
  · refine ⟨16 + p, ?_, fun hfits => ⟨msg.headInfo p c false, payload, ⟨rfl, rfl, hc.symm, rfl, rfl⟩,
      ⟨?_, fun _ => ⟨?_, ?_⟩⟩, ?_, ?_, ?_, fun buf hbuf => placeInto_std hp hc hstd hplace hbuf⟩⟩
    · simp [CaMsg.len, CaMsgTy.len, hp, hc, hstd.1, hstd.2]
    · rw [hlen, CaMsg.headInfo, toNat_payloadSize (by omega)]
    · rw [CaMsg.headInfo, toNat_payloadSize (by omega)]
      omega
    · exact UInt32.le_iff_toNat_le.mp hstd.2
    · exact hcarries
    · rw [hlen]
      exact hplace
    · rw [headBytes, CaMsg.headInfo, if_neg Bool.false_ne_true, List.length_append,
        length_stdHeadBytes, hlen]
  · refine ⟨24 + p, ?_, fun hfits => ⟨msg.headInfo p c true, payload, ⟨rfl, rfl, hc.symm, rfl, rfl⟩,
      ⟨?_, fun hstd => ?_⟩, ?_, ?_, ?_, fun buf hbuf =>
        placeInto_ext hp hc hstd (by omega) hplace hbuf⟩⟩
    · by_cases hp' : p ≤ 0x3ff0
      · have hc' : ¬ c ≤ 0xffff := fun hle => hstd ⟨hp', hle⟩
        simp [CaMsg.len, CaMsgTy.len, hp, hc, hc']
      · simp [CaMsg.len, CaMsgTy.len, hp, hp']
    · rw [hlen, CaMsg.headInfo, toNat_payloadSize (by omega)]
    · simp [CaMsg.headInfo] at hstd
    · exact hcarries
    · rw [hlen]
      exact hplace
    · rw [headBytes, CaMsg.headInfo, if_pos rfl, List.length_append, List.length_append,
        length_stdHeadBytes, length_extHeadBytes, hlen]

/-- An outgoing message fills exactly the bytes that are reserved for it, and the header states recover
from them what it says and its payload, with the name or the mask of the message, and leave no byte over.  Room is
only ever reserved in the outgoing buffer, whose {lit}`outbufCap` bytes are far below the bound. -/
theorem placeInto_cuts (msg : CaMsg) (hout : msg.ty.outgoing = true)
    (hfits : ∀ n, msg.len = some n → n < 2 ^ 32) :
    ∃ n, msg.len = some n ∧ ∀ buf : List UInt8, buf.length = n →
      ∃ bytes hi payload, msg.placeInto buf = some bytes ∧ bytes.length = n ∧ Says hi msg ∧
        some hi.payloadSize.toNat = msg.ty.payloadLen ∧ msg.ty.Carries payload ∧
        (∀ old, some old.length = msg.ty.payloadLen → msg.ty.placePayloadInto old = some payload) ∧
        ∀ (B : Type) [ByteQueue B] [LawfulByteQueue B] (s : CaProto B) (rest : List UInt8),
          s.state = .stdHead → ByteQueue.data s.buf = bytes ++ rest →
            ∃ t, Cuts hi payload s t ∧ ByteQueue.data t.buf = rest := by
  rcases placeInto_eq hout with ⟨n, hlen, hplaced⟩
  refine ⟨n, hlen, fun buf hbuf => ?_⟩
  rcases hplaced (hfits n hlen) with ⟨hi, payload, hsays, hwf, hcarries, hbytes, htotal, hplace⟩
  refine ⟨_, hi, payload, hplace buf hbuf, htotal, hsays, ?_, hcarries, fun old hold => ?_, ?_⟩
  · rw [← hcarries.length_eq, hwf.size]
  · rw [← hcarries.length_eq] at hold
    exact hbytes old (Option.some.inj hold)
  · intro B _ _ s rest hstate hdata
    exact cuts_wire hwf hstate hdata

/-- A request to create a channel, whose name is padded to 8 bytes. -/
theorem placeInto_cuts_createChan :
    ∃ n, (CaMsg.mk (.createChan 7 "SINEG01")).len = some n ∧
      ∀ buf : List UInt8, buf.length = n →
      ∃ bytes hi payload, (CaMsg.mk (.createChan 7 "SINEG01")).placeInto buf = some bytes ∧
        bytes.length = n ∧ Says hi (CaMsg.mk (.createChan 7 "SINEG01")) ∧
        some hi.payloadSize.toNat = (CaMsgTy.createChan 7 "SINEG01").payloadLen ∧
        (CaMsgTy.createChan 7 "SINEG01").Carries payload ∧
        (∀ old, some old.length = (CaMsgTy.createChan 7 "SINEG01").payloadLen →
          (CaMsgTy.createChan 7 "SINEG01").placePayloadInto old = some payload) ∧
        ∀ (B : Type) [ByteQueue B] [LawfulByteQueue B] (s : CaProto B) (rest : List UInt8),
          s.state = .stdHead → ByteQueue.data s.buf = bytes ++ rest →
            ∃ t, Cuts hi payload s t ∧ ByteQueue.data t.buf = rest := by
  refine placeInto_cuts (CaMsg.mk (.createChan 7 "SINEG01")) rfl fun n hlen => ?_
  have hlen' : (CaMsg.mk (.createChan 7 "SINEG01")).len = some 24 := by decide
  rw [hlen'] at hlen
  rw [← Option.some.inj hlen]
  decide

end Ca
end Daqbuf
