import Daqbuf.Bytes.Fifo
import Daqbuf.Ca.Msg
import Daqbuf.Poll.Loop
/-!
# The Channel Access CaProtoection

{lit}`CaProto` reads a socket into its buffer until the socket is pending or closed, then parses what it
holds into a bounded queue of results, and hands these out one by one.  Outgoing messages are written on
the way.

The buffers are those of an external crate, and stand here for any byte buffer.  A socket is given by the
script of its answers: the bytes that a read can take, and the number of bytes that a write takes.
-/

namespace Daqbuf
namespace Ca

open Bytes Poll

/-- {lit}`PROTO_INPUT_BUF_CAP` -/
def protoInputBufCap : ℕ := 1024 * 1024 * 40

/-- The capacity of the queue of outgoing bytes. -/
def outbufCap : ℕ := 1024 * 256

/-- The capacity of the queue of results. -/
def resquCapacity : ℕ := 256

/-- {lit}`CaItem` -/
inductive CaItem where
  | empty
  | msg (msg : CaMsg)
  deriving DecidableEq

/-- {lit}`CaState` -/
inductive CaState where
  | stdHead
  | extHead (hi : HeadInfo)
  | payload (hi : HeadInfo)
  | done
  deriving DecidableEq, Repr

/-- {lit}`CaState::need_min` -/
def CaState.needMin : CaState → ℕ
  | .stdHead => 16
  | .extHead _ => 8
  | .payload hi => hi.payloadSize.toNat
  | .done => 123

/-- A failure of the operating system. -/
inductive IoError where
  | mk
  deriving DecidableEq, Repr

/-- {lit}`CaProto`; the metrics and the counters that are only reported are left out. -/
structure CaProto (B : Type) where
  tcpRead : Script (Except IoError (List UInt8))
  tcpWrite : Script (Except IoError ℕ)
  tcpEof : Bool
  state : CaState
  buf : B
  outbuf : B
  out : List CaMsg
  arrayTruncate : ℕ
  resqu : List CaItem

namespace CaProto

variable {B : Type} [ByteQueue B]

/-- {lit}`new` -/
def new (tcpRead : Script (Except IoError (List UInt8))) (tcpWrite : Script (Except IoError ℕ))
    (arrayTruncate : ℕ) : CaProto B where
  tcpRead := tcpRead
  tcpWrite := tcpWrite
  tcpEof := false
  state := .stdHead
  buf := ByteQueue.create protoInputBufCap
  outbuf := ByteQueue.create outbufCap
  out := []
  arrayTruncate := arrayTruncate
  resqu := []

/-- {lit}`push_out` -/
def pushOut (s : CaProto B) (item : CaMsg) : CaProto B := { s with out := s.out ++ [item] }

/-! ## Writing -/

/-- The first loop of {lit}`poll_outbound`: outgoing messages are placed into the buffer while there is
room, as {lit}`out_msg_buf` finds; {lit}`none` where placing a message panics. -/
def placeOut : List CaMsg → B → Option (Except Error Unit × List CaMsg × B)
  | [], outbuf => some (.ok (), [], outbuf)
  | msg :: out, outbuf => do
      let msglen ← msg.len
      match ByteQueue.area outbuf msglen with
      | none => some (.ok (), msg :: out, outbuf)
      | some (area, outbuf) =>
          if area < msglen then
            some (.ok (), msg :: out, outbuf)
          else
            let placed ← msg.placeInto (List.replicate msglen 0)
            match ByteQueue.fill outbuf placed with
            | some outbuf => placeOut out outbuf
            | none => some (.error .slideBuf, msg :: out, outbuf)

/-- What writing has come to. -/
inductive Written where
  | pending
  | emptied
  | failed (e : Error)

/-- The second loop of {lit}`poll_outbound`, with {lit}`attempt_output`: the buffer is written until it is
empty or the socket is pending.  The result tells whether there was progress. -/
def writeOut : Script (Except IoError ℕ) → B → Bool →
    Written × Bool × Script (Except IoError ℕ) × B
  | tcpWrite, outbuf, progress =>
      if ByteQueue.len outbuf = 0 then
        (.emptied, progress, tcpWrite, outbuf)
      else
        match tcpWrite with
        | .ready (.ok k) :: rest =>
            match ByteQueue.adv outbuf k with
            | none => (.failed .slideBuf, progress, rest, outbuf)
            | some outbuf =>
                if k = 0 then (.failed .logicError, progress, rest, outbuf)
                else writeOut rest outbuf true
        | .ready (.error _) :: rest => (.failed .io, progress, rest, outbuf)
        | .pending :: rest => (.pending, progress, rest, outbuf)
        | [] => (.pending, progress, [], outbuf)

/-- The answer of {lit}`poll_outbound`. -/
inductive Outbound where
  | progress
  | failed (e : Error)
  | pending
  | idle

/-- {lit}`poll_outbound`; {lit}`none` where placing a message panics. -/
def pollOutbound (s : CaProto B) : Option (Outbound × CaProto B) := do
  match ← placeOut s.out s.outbuf with
  | (.error e, out, outbuf) => pure (.failed e, { s with out := out, outbuf := outbuf })
  | (.ok (), out, outbuf) =>
      match writeOut s.tcpWrite outbuf false with
      | (written, progress, tcpWrite, outbuf) =>
          let s := { s with out := out, outbuf := outbuf, tcpWrite := tcpWrite }
          match written with
          | .failed e => pure (.failed e, s)
          | .pending => if progress then pure (.progress, s) else pure (.pending, s)
          | .emptied =>
              if progress then pure (.progress, s)
              else if s.tcpEof then pure (.idle, { s with state := .done })
              else pure (.idle, s)

/-! ## Reading -/

/-- How a read loop has ended. -/
structure ReadOut (B : Type) where
  result : Except Error Unit
  buf : B
  tcpRead : Script (Except IoError (List UInt8))
  eof : Bool := false
  pending : Bool := false
  progress : Bool

/-- An upper bound of the number of reads. -/
def readWeight : Script (Except IoError (List UInt8)) → ℕ
  | [] => 0
  | .ready (.ok x) :: rest => x.length + 1 + readWeight rest
  | _ :: rest => 1 + readWeight rest

/-- The read loop of {lit}`loop_body`.  A read takes what the socket has, as far as it fits into the
writable area. -/
def readLoop (needMin : ℕ) (buf : B) (tcpRead : Script (Except IoError (List UInt8)))
    (progress : Bool) : ReadOut B :=
  match ByteQueue.area buf needMin with
  | none => { result := .error .slideBuf, buf := buf, tcpRead := tcpRead, progress := progress }
  | some (area, buf) =>
      if _harea : area = 0 then
        { result := .error .noReadBufferSpace, buf := buf, tcpRead := tcpRead, progress := progress }
      else
        match tcpRead with
        | [] => { result := .ok (), buf := buf, tcpRead := [], eof := true, progress := progress }
        | .pending :: rest =>
            { result := .ok (), buf := buf, tcpRead := rest, pending := true, progress := progress }
        | .ready (.error _) :: rest =>
            { result := .error .io, buf := buf, tcpRead := rest, progress := progress }
        | .ready (.ok x) :: rest =>
            if x = [] then
              { result := .ok (), buf := buf, tcpRead := rest, eof := true, progress := progress }
            else
              match ByteQueue.fill buf (x.take area) with
              | none =>
                  { result := .error .slideBuf, buf := buf, tcpRead := rest, progress := progress }
              | some buf =>
                  if _hlong : area < x.length then
                    readLoop needMin buf (.ready (.ok (x.drop area)) :: rest) true
                  else
                    readLoop needMin buf rest true
  termination_by readWeight tcpRead
  decreasing_by
    · simp only [readWeight, List.length_drop]
      omega
    · simp only [readWeight]
      omega

/-! ## Parsing -/

/-- {lit}`HeadInfo::from_netbuf` -/
def headInfoFromNetbuf (buf : B) : Option (HeadInfo × B) := do
  let (command, buf) ← ByteQueue.take buf 2
  let (payloadSize, buf) ← ByteQueue.take buf 2
  let (dataType, buf) ← ByteQueue.take buf 2
  let (dataCount, buf) ← ByteQueue.take buf 2
  let (param1, buf) ← ByteQueue.take buf 4
  let (param2, buf) ← ByteQueue.take buf 4
  pure ({
    cmdid := u16OfBe command
    payloadSize := u32OfBe payloadSize
    dataType := u16OfBe dataType
    dataCount := u32OfBe dataCount
    param1 := u32OfBe param1
    param2 := u32OfBe param2
    isExt := false }, buf)

/-- The two fields of the extended header. -/
def extHeadFromNetbuf (buf : B) : Option (UInt32 × UInt32 × B) := do
  let (payloadSize, buf) ← ByteQueue.take buf 4
  let (dataCount, buf) ← ByteQueue.take buf 4
  pure (u32OfBe payloadSize, u32OfBe dataCount, buf)

/-- What one step of the header states cuts off the buffer: nothing yet, or a header and a payload from
which a message is to be made. -/
inductive Cut (B : Type) where
  | failed (e : Error)
  | nothing (s : CaProto B)
  | message (hi : HeadInfo) (payload : List UInt8) (s : CaProto B)

/-- The states of {lit}`parse_item`, up to the call of {lit}`from_proto_infos`. -/
def cutItem (s : CaProto B) : Cut B :=
  match s.state with
  | .stdHead =>
      match headInfoFromNetbuf s.buf with
      | none => .failed .slideBuf
      | some (hi, buf) =>
          if hi.payloadSize = 0xffff then .nothing { s with buf := buf, state := .extHead hi }
          else if hi.payloadSize = 0 then .message hi [] { s with buf := buf }
          else .nothing { s with buf := buf, state := .payload hi }
  | .extHead hi =>
      match extHeadFromNetbuf s.buf with
      | none => .failed .slideBuf
      | some (payloadSize, dataCount, buf) =>
          .nothing { s with buf := buf, state := .payload (hi.withExt payloadSize dataCount) }
  | .payload hi =>
      match ByteQueue.take s.buf hi.payloadSize.toNat with
      | none => .failed .slideBuf
      | some (g, buf) => .message hi g { s with buf := buf }
  | .done => .failed .parseAttemptInDoneState

/-- What an attempt to parse gives: an item or nothing, an error, or a panic. -/
inductive Parsed where
  | item (item : CaItem)
  | nothing
  | failed (e : Error)
  | panicked
  deriving DecidableEq

/-- {lit}`parse_item` -/
def parseItem (s : CaProto B) : Parsed × CaProto B :=
  match s.cutItem with
  | .failed e => (.failed e, s)
  | .nothing t => (.nothing, t)
  | .message hi payload t =>
      match CaMsg.fromProtoInfos hi payload t.arrayTruncate with
      | none => (.panicked, t)
      | some (.error e) => (.failed e, t)
      | some (.ok msg) => (.item (.msg msg), { t with state := .stdHead })

/-- How many attempts to parse can give nothing before one gives an item or fails. -/
def phase : CaState → ℕ
  | .stdHead => 2
  | .extHead _ => 1
  | .payload _ => 0
  | .done => 0

/-- A step of the header states that cuts off nothing yet leaves the results alone and brings the parser
closer to an item. -/
theorem cutItem_nothing {s t : CaProto B} (hcut : s.cutItem = .nothing t) :
    t.resqu = s.resqu ∧ phase t.state < phase s.state := by
  unfold cutItem at hcut
  cases hstate : s.state with
  | stdHead =>
      simp only [hstate] at hcut
      split at hcut
      · simp at hcut
      · split at hcut
        · rw [← Cut.nothing.inj hcut]
          exact ⟨rfl, by simp [phase]⟩
        · split at hcut
          · simp at hcut
          · rw [← Cut.nothing.inj hcut]
            exact ⟨rfl, by simp [phase]⟩
  | extHead hi =>
      simp only [hstate] at hcut
      split at hcut
      · simp at hcut
      · rw [← Cut.nothing.inj hcut]
        exact ⟨rfl, by simp [phase]⟩
  | payload hi =>
      simp only [hstate] at hcut
      split at hcut <;> simp at hcut
  | done => simp [hstate] at hcut

/-- A step of the header states that cuts off a message leaves the results alone. -/
theorem cutItem_message {s t : CaProto B} {hi : HeadInfo} {payload : List UInt8}
    (hcut : s.cutItem = .message hi payload t) : t.resqu = s.resqu := by
  unfold cutItem at hcut
  split at hcut
  · split at hcut
    · simp at hcut
    · split at hcut
      · simp at hcut
      · split at hcut
        · rw [← (Cut.message.inj hcut).2.2]
        · simp at hcut
  · split at hcut <;> simp at hcut
  · split at hcut
    · simp at hcut
    · rw [← (Cut.message.inj hcut).2.2]
  · simp at hcut

/-- An attempt to parse leaves the results alone, and one that gives nothing brings the parser closer to
an item. -/
theorem parseItem_phase (s : CaProto B) :
    s.parseItem.2.resqu = s.resqu ∧
      (s.parseItem.1 = .nothing → phase s.parseItem.2.state < phase s.state) := by
  unfold parseItem
  cases hcut : s.cutItem with
  | failed e => simp
  | nothing t =>
      have hnothing := cutItem_nothing hcut
      exact ⟨hnothing.1, fun _ => hnothing.2⟩
  | message hi payload t =>
      have hmessage := cutItem_message hcut
      simp only
      split <;> simp [hmessage]

/-- The parse loop of {lit}`loop_body`; the result tells whether there was progress, and is {lit}`none`
where parsing panics. -/
def parseLoop (s : CaProto B) (progress : Bool) : Option (Except Error Bool) × CaProto B :=
  if _hroom : s.resqu.length < resquCapacity then
    if s.state.needMin ≤ ByteQueue.len s.buf then
      match _hparse : s.parseItem with
      | (.item item, t) => parseLoop { t with resqu := t.resqu ++ [item] } true
      | (.nothing, t) => parseLoop t true
      | (.failed e, t) => (some (.error e), t)
      | (.panicked, t) => (none, t)
    else
      (some (.ok progress), s)
  else
    (some (.ok progress), s)
  termination_by (resquCapacity - s.resqu.length, phase s.state)
  decreasing_by
    · have hresqu : t.resqu = s.resqu := by simpa [_hparse] using s.parseItem_phase.1
      apply Prod.Lex.left
      simp only [hresqu, List.length_append, List.length_singleton]
      omega
    · have hphase := s.parseItem_phase
      rw [_hparse] at hphase
      rw [hphase.1]
      exact Prod.Lex.right _ (hphase.2 rfl)

/-! ## The stream -/

/-- What follows the outgoing half of {lit}`loop_body`, given whether that was pending and whether there
was progress. -/
def readAndParse (s : CaProto B) (pending progress : Bool) :
    Option (Except Error (Answer Unit)) × CaProto B :=
  let needMin := s.state.needMin
  if ByteQueue.cap s.buf < needMin then
    (some (.error (.bufferTooSmallForNeedMin (ByteQueue.cap s.buf) needMin)), s)
  else
    let read : ReadOut B :=
      if s.tcpEof then
        { result := .ok (), buf := s.buf, tcpRead := s.tcpRead, eof := true, progress := progress }
      else
        readLoop needMin s.buf s.tcpRead progress
    let s := { s with buf := read.buf, tcpRead := read.tcpRead, tcpEof := read.eof }
    match read.result with
    | .error e => (some (.error e), s)
    | .ok () =>
        match s.parseLoop read.progress with
        | (none, s) => (none, s)
        | (some (.error e), s) => (some (.error e), s)
        | (some (.ok progress), s) =>
            if progress then (some (.ok (.ready ())), s)
            else if pending || read.pending then (some (.ok .pending), s)
            else if s.tcpEof then (some (.ok (.ready ())), { s with state := .done })
            else (some (.error .neitherPendingNorProgress), s)

/-- {lit}`loop_body`; {lit}`none` where it panics. -/
def loopBody (s : CaProto B) : Option (Except Error (Answer Unit)) × CaProto B :=
  match s.pollOutbound with
  | none => (none, s)
  | some (.failed e, s) => (some (.error e), s)
  | some (.progress, s) => s.readAndParse false true
  | some (.pending, s) => s.readAndParse true false
  | some (.idle, s) => s.readAndParse false false

/-- One pass of {lit}`poll_next`. -/
def pollNext (s : CaProto B) : Pass (CaProto B) (Except Error CaItem) :=
  match s.resqu with
  | item :: resqu => .item (.ok item) { s with resqu := resqu }
  | [] =>
      if s.state = .done then
        .done s
      else
        match s.loopBody with
        | (some (.ok (.ready ())), s) => .again s
        | (some (.ok .pending), s) => .pending s
        | (some (.error e), s) => .item (.error e) { s with state := .done }
        | (none, _) => .panic

end CaProto

end Ca
end Daqbuf
