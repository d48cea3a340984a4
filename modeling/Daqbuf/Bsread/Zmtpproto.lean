import Daqbuf.Bytes.Fifo
import Daqbuf.Ca.Msg
import Daqbuf.Poll.Loop
import Daqbuf.Slots.Pool
/-!
# The ZMTP Connection

{lit}`Zmtp` reads the frames of a connection: after a handshake a frame has flags, a length and a body, and frames are
put together to messages.  In each round of its loop it may take a message to send, write, read and parse, and what
these have come to decides whether the loop goes round again, returns an item, or is pending.

The buffers are those of an external crate, and stand here for any byte buffer.  The room at the end of the buffer of
outgoing bytes is not determined by its content.

Main results:

- Theorem {lit}`Zmtp.parseItem_spec`: parsing keeps the capacity, and asks for no more than half of it.
- Theorem {lit}`Zmtp.loopBody_stalls_iff`: when a round is pending behind a closed input.
- Theorem {lit}`Session.notices_iff`: when a closed connection is noticed.
- Theorem {lit}`Session.not_notices`: it is not noticed in the handshake.
-/

namespace Daqbuf
namespace Bsread

open Bytes Ca Poll

/-! ## States -/

/-- {lit}`ConnState`.  No state leads to {lit}`LockScan`. -/
inductive ConnState where
  | initSend
  | initRecv1
  | initRecv2
  | initRecv3
  | initRecv4
  | initRecv5
  | readFrameFlags
  | readFrameShort
  | readFrameLong
  | readFrameBody (msglen : ℕ)
  deriving DecidableEq, Repr

/-- {lit}`need_min` -/
def ConnState.needMin : ConnState → ℕ
  | initSend => 0
  | initRecv1 => 1
  | initRecv2 => 9
  | initRecv3 => 1
  | initRecv4 => 1
  | initRecv5 => 52
  | readFrameFlags => 1
  | readFrameShort => 1
  | readFrameLong => 8
  | readFrameBody msglen => msglen

/-- {lit}`SocketType` -/
inductive SocketType where
  | push
  | pull
  deriving DecidableEq, Repr

/-- {lit}`ZmtpFrame` -/
structure ZmtpFrame where
  msglen : ℕ
  hasMore : Bool
  isCommand : Bool
  data : List UInt8
  deriving DecidableEq, Repr

/-- {lit}`ZmtpEvent` -/
inductive ZmtpEvent where
  | zmtpCommand (g : ZmtpFrame)
  | zmtpMessage (frames : List ZmtpFrame)
  deriving DecidableEq, Repr

/-- {lit}`Error`, and the panics -/
inductive Error where
  | netBuf
  | zmtpInitPeerNot3x
  | zmtpInitPeerUnsupportedVersion
  | badPeerMechanism
  | msgTooLarge (msglen : ℕ)
  | bufferTooSmallForNeedMin (needMin cap : ℕ)
  | fromUtf8Error
  | io
  | panicked
  deriving DecidableEq, Repr

/-- {lit}`Zmtp`, without the logs of its states -/
structure Zmtp (B : Type) where
  done : Bool
  complete : Bool
  socketType : SocketType
  connState : ConnState
  buf : B
  outbuf : B
  outEnable : Bool
  msglen : ℕ
  hasMore : Bool
  isCommand : Bool
  peerVer : ℕ × ℕ
  frames : List ZmtpFrame
  inpEof : Bool

namespace Zmtp

variable {B : Type} [ByteQueue B]

/-- The capacity of the two buffers. -/
def bufCap : ℕ := 1024 * 128

/-- {lit}`new` -/
def new (socketType : SocketType) : Zmtp B where
  done := false
  complete := false
  socketType := socketType
  connState := .initSend
  buf := ByteQueue.create bufCap
  outbuf := ByteQueue.create bufCap
  outEnable := false
  msglen := 0
  hasMore := false
  isCommand := false
  peerVer := (0, 0)
  frames := []
  inpEof := false

/-! ## Parsing -/

/-- {lit}`put_slice` -/
def putSlice (q : B) (bs : List UInt8) : Option B :=
  (ByteQueue.area q bs.length).bind fun r => ByteQueue.fill r.2 bs

/-- A result of the buffers, as {lit}`?` passes it on. -/
def netBuf {α : Type} : Option α → Except Error α
  | some a => .ok a
  | none => .error .netBuf

/-- A result of the buffers that is unwrapped. -/
def unwrap {α : Type} : Option α → Except Error α
  | some a => .ok a
  | none => .error .panicked

/-- An early return with an error. -/
def refuse (p : Prop) [Decidable p] (e : Error) : Except Error Unit := if p then .error e else .ok ()

/-- A command with its size and its context. -/
def putCommand (outbuf : B) (name ctx : List UInt8) : Option B := do
  let outbuf ← putSlice outbuf [0x04]
  let outbuf ← putSlice outbuf [UInt8.ofNat (5 + ctx.length)]
  let outbuf ← putSlice outbuf (0x04 :: name)
  putSlice outbuf ctx

/-- The answer to a {lit}`PING`, and a {lit}`PING` of the client; {lit}`wcap` is the room at the end of the buffer. -/
def answerPing (wcap : B → ℕ) (outbuf : B) (data : List UInt8) : Except Error B := do
  let outbuf ← if wcap outbuf < data.length then .ok outbuf
    else unwrap (putCommand outbuf (asBytes "PONG") (data.drop 7))
  if wcap outbuf < 32 then .ok outbuf else unwrap (putCommand outbuf (asBytes "PING") (asBytes "daqingest"))

/-- Of the commands, only a {lit}`PING` of the right size is answered. -/
def answerCommand (wcap : B → ℕ) (s : Zmtp B) (data : List UInt8) : Except Error B :=
  if s.isCommand ∧ 7 ≤ data.length ∧ data.take 5 = 0x04 :: asBytes "PING" ∧ data.length ≤ 32 then
    answerPing wcap s.outbuf data
  else .ok s.outbuf

/-- The command that tells the type of the socket. -/
def readyCommand (socketType : SocketType) : List UInt8 :=
  [0x04, 0x1a, 0x05] ++ asBytes "READY" ++ [0x0b] ++ asBytes "Socket-Type" ++ [0, 0, 0, 4] ++
    match socketType with
    | .push => asBytes "PUSH"
    | .pull => asBytes "PULL"

/-- The length of a frame is accepted up to half of the buffer. -/
def acceptLength (s : Zmtp B) (msglen : ℕ) : Except Error (Option ZmtpEvent × Zmtp B) :=
  if ByteQueue.cap s.buf / 2 < msglen then .error (.msgTooLarge msglen)
  else .ok (none, { s with msglen := msglen, connState := .readFrameBody msglen })

/-- The end of the branch for a body: a command, a frame of a message, or a message. -/
def finishBody (s : Zmtp B) (g : ZmtpFrame) : Option ZmtpEvent × Zmtp B :=
  if s.isCommand then (some (.zmtpCommand g), s)
  else if s.hasMore then (none, { s with frames := s.frames ++ [g] })
  else (some (.zmtpMessage (s.frames ++ [g])), { s with frames := [] })

/-- {lit}`parse_item`.  What an error leaves is not looked at any more. -/
def parseItem (wcap : B → ℕ) (s : Zmtp B) : Except Error (Option ZmtpEvent × Zmtp B) :=
  match s.connState with
  | .initSend => do
      let outbuf ← netBuf (putSlice s.outbuf [0xff, 0, 0, 0, 0, 0, 0, 0, 0, 0x7f, 3, 1])
      return (none, { s with outbuf := outbuf, connState := .initRecv1 })
  | .initRecv1 => do
      let (b, buf) ← netBuf (ByteQueue.take s.buf 1)
      refuse (b ≠ [0xff]) .zmtpInitPeerNot3x
      return (none, { s with buf := buf, connState := .initRecv2 })
  | .initRecv2 => do
      let buf ← netBuf (ByteQueue.adv s.buf 8)
      let (b, buf) ← netBuf (ByteQueue.take buf 1)
      refuse (ofBe b % 2 ≠ 1) .zmtpInitPeerNot3x
      return (none, { s with buf := buf, connState := .initRecv3 })
  | .initRecv3 => do
      let (b, buf) ← netBuf (ByteQueue.take s.buf 1)
      refuse (ofBe b ≠ 3) .zmtpInitPeerNot3x
      let outbuf ← netBuf (putSlice s.outbuf (asBytes "NULL"))
      let outbuf ← netBuf (putSlice outbuf (List.replicate 48 0))
      return (none, { s with buf := buf, outbuf := outbuf, peerVer := (3, s.peerVer.2), connState := .initRecv4 })
  | .initRecv4 => do
      let (b, buf) ← netBuf (ByteQueue.take s.buf 1)
      refuse (1 < ofBe b) .zmtpInitPeerUnsupportedVersion
      return (none, { s with buf := buf, peerVer := (s.peerVer.1, ofBe b), connState := .initRecv5 })
  | .initRecv5 => do
      let (b2, buf) ← netBuf (ByteQueue.take s.buf 20)
      refuse (0 ∉ b2) .badPeerMechanism
      refuse (fromUtf8 (b2.takeWhile (· ≠ 0)) = none) .fromUtf8Error
      let buf ← netBuf (ByteQueue.adv buf 32)
      let outbuf ← netBuf (putSlice s.outbuf (readyCommand s.socketType))
      return (none, { s with buf := buf, outbuf := outbuf, outEnable := true, connState := .readFrameFlags })
  | .readFrameFlags => do
      let (flags, buf) ← netBuf (ByteQueue.take s.buf 1)
      let hasMore : Bool := ofBe flags % 2 = 1
      let longSize : Bool := ofBe flags / 2 % 2 = 1
      let isCommand : Bool := ofBe flags / 4 % 2 = 1
      return (none, { s with
        buf := buf
        hasMore := if isCommand then s.hasMore else hasMore
        isCommand := isCommand
        connState := if longSize then .readFrameLong else .readFrameShort })
  | .readFrameShort => do
      let (b, buf) ← netBuf (ByteQueue.take s.buf 1)
      acceptLength { s with buf := buf } (ofBe b)
  | .readFrameLong => do
      let (b, buf) ← netBuf (ByteQueue.take s.buf 8)
      acceptLength { s with buf := buf } (ofBe b)
  | .readFrameBody msglen => do
      let (data, buf) ← netBuf (ByteQueue.take s.buf msglen)
      let outbuf ← s.answerCommand wcap data
      let s := { s with buf := buf, outbuf := outbuf, msglen := 0, connState := .readFrameFlags }
      return s.finishBody ⟨msglen, s.hasMore, s.isCommand, data⟩

/-! ## The loop -/

/-- {lit}`Int`: what one of the parts of the loop has come to. -/
inductive Work (α : Type) where
  | noWork
  | pend
  | empty
  | item (x : Except Error α)
  | done

/-- {lit}`item_count` -/
def Work.itemCount {α : Type} : Work α → ℕ
  | .item _ => 1
  | _ => 0

/-- What one round of the loop is answered: whether there is a message to send, by the channel of which the
connection itself holds a sender, and by the socket. -/
structure Answers where
  message : Bool
  write : Answer (Except Unit ℕ)
  read : Answer (Except Unit (List UInt8))

/-- The part for the messages to send.  A message is taken and not yet sent. -/
def pollMessages (wcap : B → ℕ) (a : Answers) (s : Zmtp B) : Work Unit :=
  if s.outEnable ∧ ByteQueue.cap s.outbuf / 2 ≤ wcap s.outbuf then
    if a.message then .empty else .pend
  else .noWork

/-- The part that writes. -/
def pollWrite (a : Answers) (s : Zmtp B) (itemCount : ℕ) : Work Unit × Zmtp B :=
  if 0 < itemCount then (.noWork, s)
  else if 0 < ByteQueue.len s.outbuf then
    match a.write with
    | .ready (.ok k) =>
        match ByteQueue.adv s.outbuf k with
        | some outbuf => (.empty, { s with outbuf := outbuf })
        | none => (.item (.error .netBuf), s)
    | .ready (.error _) => (.item (.error .io), s)
    | .pending => (.pend, s)
  else (.noWork, s)

/-- The part that reads.  A read fits into the area that it is given; without an area the round ends. -/
def pollRead (a : Answers) (s : Zmtp B) (itemCount : ℕ) : Except Error (Work Unit × Zmtp B) :=
  if 0 < itemCount ∨ s.inpEof then .ok (.noWork, s)
  else
    let needMin := s.connState.needMin
    if ByteQueue.cap s.buf < needMin then
      .ok (.item (.error (.bufferTooSmallForNeedMin needMin (ByteQueue.cap s.buf))), { s with done := true })
    else if ByteQueue.len s.buf < needMin then
      match ByteQueue.area s.buf needMin with
      | none => .error .netBuf
      | some (area, buf) =>
          match a.read with
          | .ready (.ok bs) =>
              if bs = [] then .ok (.done, { s with buf := buf, inpEof := true })
              else if area < bs.length then .error .panicked
              else
                match ByteQueue.fill buf bs with
                | some buf => .ok (.empty, { s with buf := buf })
                | none => .ok (.item (.error .netBuf), { s with buf := buf })
          | .ready (.error _) => .ok (.item (.error .io), { s with buf := buf })
          | .pending => .ok (.pend, { s with buf := buf })
    else .ok (.noWork, s)

/-- The part that parses; after an error the connection is done. -/
def pollParse (wcap : B → ℕ) (s : Zmtp B) (itemCount : ℕ) : Work ZmtpEvent × Zmtp B :=
  if 0 < itemCount ∨ ByteQueue.len s.buf < s.connState.needMin then (.noWork, s)
  else
    match s.parseItem wcap with
    | .ok (some k, s) => (.item (.ok k), s)
    | .ok (none, s) => (.empty, s)
    | .error e => (.item (.error e), s)

/-- What a round has come to. -/
inductive Outcome where
  | again
  | pending
  | event (x : ZmtpEvent)
  | error (e : Error)
  | ended
  deriving DecidableEq, Repr

/-- A part neither waits nor has it done anything. -/
def Work.idle {α : Type} : Work α → Bool
  | .noWork | .done => true
  | _ => false

/-- A part was done without an item. -/
def Work.isEmpty {α : Type} : Work α → Bool
  | .empty => true
  | _ => false

/-- The cases at the end of {lit}`loop_body` -/
def combine (serialized write read : Work Unit) (parsed : Work ZmtpEvent) : Outcome :=
  if serialized.idle && write.idle && read.idle && parsed.idle then .pending
  else
    match serialized, write, read, parsed with
    | .item (.error e), _, _, _ => .error e
    | _, .item (.error e), _, _ => .error e
    | _, _, .item (.error e), _ => .error e
    | _, _, _, .item (.error e) => .error e
    | .item _, _, _, _ => .again
    | _, .item _, _, _ => .again
    | _, _, .item _, _ => .again
    | _, _, _, .item (.ok item) => .event item
    | _, _, _, _ =>
        if serialized.isEmpty || write.isEmpty || read.isEmpty || parsed.isEmpty then .again else .pending

/-- A part waits. -/
def Work.waits {α : Type} : Work α → Bool
  | .pend => true
  | _ => false

/-- The end of {lit}`loop_body`, with whether it waits until its output can be written; after an error the connection
is done, and a panic has no result. -/
def conclude (waits : Bool) (s : Zmtp B) : Outcome → Option (Outcome × Bool × Zmtp B)
  | .error .panicked => none
  | .error e => some (.error e, waits, { s with done := true })
  | outcome => some (outcome, waits, s)

/-- {lit}`loop_body` -/
def loopBody (wcap : B → ℕ) (a : Answers) (s : Zmtp B) : Option (Outcome × Bool × Zmtp B) :=
  let serialized := s.pollMessages wcap a
  let count := serialized.itemCount
  let (write, s) := s.pollWrite a count
  let count := count + write.itemCount
  match s.pollRead a count with
  | .error .panicked => none
  | .error e => some (.error e, write.waits, s)
  | .ok (read, s) =>
      let count := count + read.itemCount
      let (parsed, s) := s.pollParse wcap count
      conclude write.waits s (combine serialized write read parsed)

end Zmtp

namespace Zmtp

variable {B : Type} [ByteQueue B] [LawfulByteQueue B] {wcap : B → ℕ} {a : Answers} {s t : Zmtp B}

/-! ## What a round does -/

theorem netBuf_eq_ok {α : Type} {x : Option α} {y : α} : netBuf x = .ok y ↔ x = some y := by
  cases x <;> simp [netBuf]

theorem bind_eq_ok {α β : Type} {x : Except Error α} {f : α → Except Error β} {y : β} :
    (x >>= f) = .ok y ↔ ∃ z, x = .ok z ∧ f z = .ok y := by
  cases x <;> simp [bind, Except.bind]

/-- A buffer keeps its capacity when bytes are taken. -/
theorem cap_of_take {q q' : B} {n : ℕ} {bs : List UInt8} (h : ByteQueue.take q n = some (bs, q')) :
    ByteQueue.cap q' = ByteQueue.cap q := by
  obtain ⟨q₁, hadv, heq⟩ := Option.map_eq_some_iff.mp h
  obtain ⟨-, rfl⟩ := Prod.mk.inj heq
  exact (LawfulByteQueue.adv_spec q q₁ n hadv).1

/-- The parser can go on: its buffer is as it was made, and a frame takes at most half of it. -/
structure Sound (s : Zmtp B) : Prop where
  cap_eq : ByteQueue.cap s.buf = bufCap
  needMin_le : 2 * s.connState.needMin ≤ bufCap

theorem Sound.new (socketType : SocketType) : Sound (new socketType : Zmtp B) where
  cap_eq := (LawfulByteQueue.create_spec bufCap).2
  needMin_le := Nat.zero_le _

/-- What parsing leaves: a sound state with the flags as they were. -/
structure Parsed (s t : Zmtp B) : Prop where
  sound : Sound t
  done_eq : t.done = s.done
  inpEof_eq : t.inpEof = s.inpEof

omit [LawfulByteQueue B] in
/-- A next state that asks for little. -/
theorem Parsed.of_small (hs : Sound s) (hcap : ByteQueue.cap t.buf = ByteQueue.cap s.buf)
    (hneed : t.connState.needMin ≤ 52) (hdone : t.done = s.done) (heof : t.inpEof = s.inpEof) : Parsed s t where
  sound := by
    refine ⟨hcap.trans hs.cap_eq, ?_⟩
    have hcap : bufCap = 1024 * 128 := rfl
    omega
  done_eq := hdone
  inpEof_eq := heof

omit [LawfulByteQueue B] in
/-- A length that is accepted is at most half of the buffer. -/
theorem acceptLength_spec {s₀ : Zmtp B} (hs : Sound s₀) (hcap : ByteQueue.cap s.buf = ByteQueue.cap s₀.buf)
    (hdone : s.done = s₀.done) (heof : s.inpEof = s₀.inpEof) {msglen : ℕ} {k : Option ZmtpEvent}
    (h : s.acceptLength msglen = .ok (k, t)) : Parsed s₀ t := by
  rw [acceptLength] at h
  split at h
  · cases h
  · rename_i hle
    cases h
    refine ⟨⟨hcap.trans hs.cap_eq, ?_⟩, hdone, heof⟩
    rw [hcap, hs.cap_eq] at hle
    change 2 * msglen ≤ bufCap
    omega

omit [ByteQueue B] [LawfulByteQueue B] in
theorem finishBody_spec (s : Zmtp B) (g : ZmtpFrame) : (s.finishBody g).2.buf = s.buf ∧
    (s.finishBody g).2.connState = s.connState ∧ (s.finishBody g).2.done = s.done ∧
    (s.finishBody g).2.inpEof = s.inpEof := by
  rw [finishBody]
  split
  · exact ⟨rfl, rfl, rfl, rfl⟩
  · split
    · exact ⟨rfl, rfl, rfl, rfl⟩
    · exact ⟨rfl, rfl, rfl, rfl⟩

/-- Parsing keeps the capacity of the buffer, and asks for no more than half of it. -/
theorem parseItem_spec (hs : Sound s) {k : Option ZmtpEvent} (h : s.parseItem wcap = .ok (k, t)) : Parsed s t := by
  unfold parseItem at h
  split at h
  · obtain ⟨outbuf, -, h⟩ := bind_eq_ok.mp h
    cases h
    exact Parsed.of_small hs rfl (Nat.le_of_ble_eq_true rfl) rfl rfl
  · obtain ⟨⟨b, buf⟩, hbuf, h⟩ := bind_eq_ok.mp h
    obtain ⟨-, -, h⟩ := bind_eq_ok.mp h
    cases h
    exact Parsed.of_small hs (cap_of_take (netBuf_eq_ok.mp hbuf)) (Nat.le_of_ble_eq_true rfl) rfl rfl
  · obtain ⟨buf₁, hadv, h⟩ := bind_eq_ok.mp h
    obtain ⟨⟨b, buf⟩, hbuf, h⟩ := bind_eq_ok.mp h
    obtain ⟨-, -, h⟩ := bind_eq_ok.mp h
    cases h
    have hcap := (LawfulByteQueue.adv_spec _ _ _ (netBuf_eq_ok.mp hadv)).1
    exact Parsed.of_small hs ((cap_of_take (netBuf_eq_ok.mp hbuf)).trans hcap) (Nat.le_of_ble_eq_true rfl) rfl rfl
  · obtain ⟨⟨b, buf⟩, hbuf, h⟩ := bind_eq_ok.mp h
    obtain ⟨-, -, h⟩ := bind_eq_ok.mp h
    obtain ⟨outbuf₁, -, h⟩ := bind_eq_ok.mp h
    obtain ⟨outbuf₂, -, h⟩ := bind_eq_ok.mp h
    cases h
    exact Parsed.of_small hs (cap_of_take (netBuf_eq_ok.mp hbuf)) (Nat.le_of_ble_eq_true rfl) rfl rfl
  · obtain ⟨⟨b, buf⟩, hbuf, h⟩ := bind_eq_ok.mp h
    obtain ⟨-, -, h⟩ := bind_eq_ok.mp h
    cases h
    exact Parsed.of_small hs (cap_of_take (netBuf_eq_ok.mp hbuf)) (Nat.le_of_ble_eq_true rfl) rfl rfl
  · obtain ⟨⟨b, buf₁⟩, hbuf, h⟩ := bind_eq_ok.mp h
    obtain ⟨-, -, h⟩ := bind_eq_ok.mp h
    obtain ⟨-, -, h⟩ := bind_eq_ok.mp h
    obtain ⟨buf, hadv, h⟩ := bind_eq_ok.mp h
    obtain ⟨outbuf, -, h⟩ := bind_eq_ok.mp h
    cases h
    have hcap := (LawfulByteQueue.adv_spec _ _ _ (netBuf_eq_ok.mp hadv)).1
    exact Parsed.of_small hs (hcap.trans (cap_of_take (netBuf_eq_ok.mp hbuf))) (Nat.le_of_ble_eq_true rfl) rfl rfl
  · obtain ⟨⟨b, buf⟩, hbuf, h⟩ := bind_eq_ok.mp h
    cases h
    refine Parsed.of_small hs (cap_of_take (netBuf_eq_ok.mp hbuf)) ?_ rfl rfl
    dsimp only
    split <;> decide
  · obtain ⟨⟨b, buf⟩, hbuf, h⟩ := bind_eq_ok.mp h
    exact acceptLength_spec (s := { s with buf := buf }) hs (cap_of_take (netBuf_eq_ok.mp hbuf)) rfl rfl h
  · obtain ⟨⟨b, buf⟩, hbuf, h⟩ := bind_eq_ok.mp h
    exact acceptLength_spec (s := { s with buf := buf }) hs (cap_of_take (netBuf_eq_ok.mp hbuf)) rfl rfl h
  · obtain ⟨⟨b, buf⟩, hbuf, h⟩ := bind_eq_ok.mp h
    obtain ⟨outbuf, -, h⟩ := bind_eq_ok.mp h
    obtain rfl := (Prod.mk.inj (Except.ok.inj h)).2
    obtain ⟨hbuf', hstate, hdone, heof⟩ := finishBody_spec { s with
      buf := buf, outbuf := outbuf, msglen := 0, connState := .readFrameFlags } ⟨_, s.hasMore, s.isCommand, b⟩
    apply Parsed.of_small hs _ _ hdone heof
    · rw [hbuf']
      exact cap_of_take (netBuf_eq_ok.mp hbuf)
    · rw [hstate]
      exact Nat.le_of_ble_eq_true rfl

/-- A part that has done nothing: it has no work, is done, or waits. -/
def Work.quiet {α : Type} : Work α → Bool
  | .noWork | .done | .pend => true
  | _ => false

theorem Work.quiet_of_idle {α : Type} {w : Work α} (h : w.idle = true) : w.quiet = true := by
  cases w <;> trivial

theorem Work.quiet_of_not {α : Type} {w : Work α} (hitem : ∀ x, w = .item x → False) (hempty : w.isEmpty = false) :
    w.quiet = true := by
  cases w with
  | item x => exact (hitem x rfl).elim
  | empty => cases hempty
  | _ => rfl

/-- A round is only pending if all parts have done nothing. -/
theorem quiet_of_combine {serialized write read : Work Unit} {parsed : Work ZmtpEvent}
    (h : combine serialized write read parsed = .pending) :
    serialized.quiet = true ∧ write.quiet = true ∧ read.quiet = true ∧ parsed.quiet = true := by
  unfold combine at h
  split at h
  · rename_i hidle
    simp only [Bool.and_eq_true] at hidle
    exact ⟨Work.quiet_of_idle hidle.1.1.1, Work.quiet_of_idle hidle.1.1.2, Work.quiet_of_idle hidle.1.2,
      Work.quiet_of_idle hidle.2⟩
  · split at h
    all_goals try cases h
    rename_i hserialized _ hwrite _ hread herror hitem
    split at h
    · cases h
    rename_i hempty
    simp only [Bool.not_eq_true, Bool.or_eq_false_iff] at hempty
    refine ⟨Work.quiet_of_not hserialized hempty.1.1.1, Work.quiet_of_not hwrite hempty.1.1.2,
      Work.quiet_of_not hread hempty.1.2, Work.quiet_of_not ?_ hempty.2⟩
    rintro (e | x) hparsed
    · exact herror e hparsed
    · exact hitem x hparsed

/-- The input is closed, and what was read of it is used up. -/
def AtEnd (s : Zmtp B) : Prop := s.inpEof = true ∧ ByteQueue.len s.buf < s.connState.needMin

/-- A message to send can be taken. -/
def Takes (wcap : B → ℕ) (a : Answers) (s : Zmtp B) : Prop :=
  s.outEnable = true ∧ ByteQueue.cap s.outbuf / 2 ≤ wcap s.outbuf ∧ a.message = true

/-- The input is found closed and used up, there is nothing to write and no message to take. -/
structure Stalls (wcap : B → ℕ) (a : Answers) (s : Zmtp B) : Prop where
  closed : s.inpEof = true ∨ a.read = .ready (.ok [])
  usedUp : ByteQueue.len s.buf < s.connState.needMin
  written : ByteQueue.len s.outbuf = 0
  nothing : ¬ Takes wcap a s

omit [LawfulByteQueue B] in
theorem pollMessages_cases (wcap : B → ℕ) (a : Answers) (s : Zmtp B) :
    (Takes wcap a s ∧ s.pollMessages wcap a = .empty) ∨
      (¬ Takes wcap a s ∧ (s.pollMessages wcap a = .pend ∨ s.pollMessages wcap a = .noWork)) := by
  rw [pollMessages, Takes]
  split
  · rename_i h
    cases ha : a.message with
    | true => exact Or.inl ⟨⟨h.1, h.2, rfl⟩, rfl⟩
    | false => exact Or.inr ⟨fun h => Bool.false_ne_true h.2.2, Or.inl rfl⟩
  · rename_i h
    exact Or.inr ⟨fun hall => h ⟨hall.1, hall.2.1⟩, Or.inr rfl⟩

omit [LawfulByteQueue B] in
/-- Writing touches the outgoing bytes only, and there is no work exactly if there are none. -/
theorem pollWrite_spec (a : Answers) (s : Zmtp B) :
    ∃ w outbuf, s.pollWrite a 0 = (w, { s with outbuf := outbuf }) ∧
      ((ByteQueue.len s.outbuf = 0 ∧ w = .noWork ∧ outbuf = s.outbuf) ∨
        (ByteQueue.len s.outbuf ≠ 0 ∧ (w = .pend ∨ w.quiet = false))) := by
  rw [pollWrite, if_neg (lt_irrefl 0)]
  split
  · rename_i hpos
    cases hwrite : a.write with
    | pending => exact ⟨.pend, s.outbuf, rfl, Or.inr ⟨hpos.ne', Or.inl rfl⟩⟩
    | ready r =>
        cases r with
        | error e => exact ⟨.item (.error .io), s.outbuf, rfl, Or.inr ⟨hpos.ne', Or.inr rfl⟩⟩
        | ok k =>
            cases hadv : ByteQueue.adv s.outbuf k with
            | none => exact ⟨.item (.error .netBuf), s.outbuf, by simp [hadv], Or.inr ⟨hpos.ne', Or.inr rfl⟩⟩
            | some outbuf => exact ⟨.empty, outbuf, by simp [hadv], Or.inr ⟨hpos.ne', Or.inr rfl⟩⟩
  · rename_i hzero
    exact ⟨.noWork, s.outbuf, rfl, Or.inl ⟨Nat.eq_zero_of_not_pos hzero, rfl, rfl⟩⟩

/-- What reading leaves: a sound state, with the input closed exactly if that was found. -/
structure Read (a : Answers) (s t : Zmtp B) (r : Work Unit) : Prop where
  sound : Sound t
  connState_eq : t.connState = s.connState
  cases : (r = .noWork ∧ t = s) ∨
    (s.inpEof = false ∧ ByteQueue.len s.buf < s.connState.needMin ∧
      ((r = .done ∧ a.read = .ready (.ok []) ∧ t.inpEof = true ∧ ByteQueue.len t.buf = ByteQueue.len s.buf) ∨
        (a.read ≠ .ready (.ok []) ∧ (r = .pend ∧ t.inpEof = false ∨ r.quiet = false))))

/-- Reading only fails when more is read than fits. -/
theorem pollRead_spec (hs : Sound s) (n : ℕ) : s.pollRead a n = .error .panicked ∨
    ∃ r t, s.pollRead a n = .ok (r, t) ∧ Read a s t r ∧
      (r = .noWork → 0 < n ∨ s.inpEof = true ∨ s.connState.needMin ≤ ByteQueue.len s.buf) := by
  have hneed := hs.needMin_le
  have hbuf := hs.cap_eq
  by_cases hskip : 0 < n ∨ s.inpEof = true
  · refine Or.inr ⟨.noWork, s, by rw [pollRead, if_pos hskip], ⟨hs, rfl, Or.inl ⟨rfl, rfl⟩⟩, fun _ => ?_⟩
    exact hskip.imp_right Or.inl
  have heof : s.inpEof = false := Bool.eq_false_iff.mpr fun h => hskip (Or.inr h)
  rw [pollRead, if_neg hskip]
  dsimp only
  rw [if_neg (by omega)]
  by_cases hused : ByteQueue.len s.buf < s.connState.needMin
  · rw [if_pos hused]
    obtain ⟨area, buf, harea⟩ := area_of_le (q := s.buf) (n := s.connState.needMin) (by omega)
    obtain ⟨hroom, hcap, hdata, hfill⟩ := LawfulByteQueue.area_spec _ _ _ _ harea
    have hsound : Sound { s with buf := buf } := ⟨hcap.trans hbuf, hneed⟩
    have hlen : ByteQueue.len buf = ByteQueue.len s.buf := congrArg List.length hdata
    rw [harea]
    dsimp only
    cases hread : a.read with
    | pending =>
        exact Or.inr ⟨.pend, _, rfl, ⟨hsound, rfl, Or.inr ⟨heof, hused, Or.inr ⟨by rw [hread]; simp, Or.inl ⟨rfl, heof⟩⟩⟩⟩,
          fun h => by cases h⟩
    | ready res =>
        cases res with
        | error e =>
            exact Or.inr ⟨_, _, rfl, ⟨hsound, rfl, Or.inr ⟨heof, hused, Or.inr ⟨by rw [hread]; simp, Or.inr rfl⟩⟩⟩,
              fun h => by cases h⟩
        | ok bs =>
            dsimp only
            by_cases hnil : bs = []
            · rw [if_pos hnil]
              refine Or.inr ⟨.done, _, rfl, ⟨⟨hcap.trans hbuf, hneed⟩, rfl, Or.inr ⟨heof, hused, Or.inl ?_⟩⟩,
                fun h => by cases h⟩
              exact ⟨rfl, by rw [hread, hnil], rfl, hlen⟩
            · rw [if_neg hnil]
              by_cases hfits : area < bs.length
              · rw [if_pos hfits]
                exact Or.inl rfl
              · rw [if_neg hfits]
                obtain ⟨buf', hbuf', hcap', -⟩ := hfill bs (not_lt.mp hfits)
                rw [hbuf']
                refine Or.inr ⟨.empty, _, rfl, ⟨⟨hcap'.trans hbuf, hneed⟩, rfl, Or.inr ⟨heof, hused, Or.inr ?_⟩⟩,
                  fun h => by cases h⟩
                exact ⟨by rw [hread]; simpa using hnil, Or.inr rfl⟩
  · rw [if_neg hused]
    exact Or.inr ⟨.noWork, s, rfl, ⟨hs, rfl, Or.inl ⟨rfl, rfl⟩⟩, fun _ => Or.inr (Or.inr (not_lt.mp hused))⟩

/-- Parsing has something to do exactly if there is enough in the buffer. -/
theorem pollParse_spec (hs : Sound s) (wcap : B → ℕ) (n : ℕ) :
    ∃ p t, s.pollParse wcap n = (p, t) ∧ Sound t ∧
      ((p = .noWork ∧ t = s ∧ (0 < n ∨ ByteQueue.len s.buf < s.connState.needMin)) ∨
        (p.quiet = false ∧ n = 0 ∧ s.connState.needMin ≤ ByteQueue.len s.buf)) := by
  rw [pollParse]
  split
  · rename_i h
    exact ⟨_, _, rfl, hs, Or.inl ⟨rfl, rfl, h⟩⟩
  · rename_i h
    have hwork : n = 0 ∧ s.connState.needMin ≤ ByteQueue.len s.buf := by omega
    cases hparse : s.parseItem wcap with
    | error e => exact ⟨_, _, rfl, hs, Or.inr ⟨rfl, hwork⟩⟩
    | ok r =>
        obtain ⟨k, t⟩ := r
        have hsound := (parseItem_spec hs hparse).sound
        cases k with
        | none => exact ⟨_, _, rfl, hsound, Or.inr ⟨rfl, hwork⟩⟩
        | some k => exact ⟨_, _, rfl, hsound, Or.inr ⟨rfl, hwork⟩⟩

/-- The parts of a round. -/
structure Round (wcap : B → ℕ) (a : Answers) (s : Zmtp B) where
  outbuf : B
  write : Work Unit
  read : Work Unit
  afterRead : Zmtp B
  parsed : Work ZmtpEvent
  afterParse : Zmtp B
  write_eq : s.pollWrite a 0 = (write, { s with outbuf := outbuf })
  read_eq : { s with outbuf := outbuf }.pollRead a write.itemCount = .ok (read, afterRead)
  parse_eq : afterRead.pollParse wcap (write.itemCount + read.itemCount) = (parsed, afterParse)

/-- What the parts of a round have come to. -/
def Round.outcome (r : Round wcap a s) : Outcome := combine (s.pollMessages wcap a) r.write r.read r.parsed

omit [LawfulByteQueue B] in
theorem itemCount_pollMessages (wcap : B → ℕ) (a : Answers) (s : Zmtp B) : (s.pollMessages wcap a).itemCount = 0 := by
  rcases pollMessages_cases wcap a s with ⟨-, h⟩ | ⟨-, h | h⟩ <;> rw [h] <;> rfl

omit [ByteQueue B] [LawfulByteQueue B] in
theorem conclude_eq_some {waits waits' : Bool} {o o' : Outcome} (h : conclude waits s o = some (o', waits', t)) :
    o' = o ∧ waits' = waits ∧ (t = s ∨ (∃ e, o = .error e) ∧ t = { s with done := true }) := by
  unfold conclude at h
  split at h
  · cases h
  · cases h
    exact ⟨rfl, rfl, Or.inr ⟨⟨_, rfl⟩, rfl⟩⟩
  · cases h
    exact ⟨rfl, rfl, Or.inl rfl⟩

/-- A round has its parts, and is done after an error. -/
theorem exists_round (hs : Sound s) {o : Outcome} {waits : Bool} (h : s.loopBody wcap a = some (o, waits, t)) :
    ∃ r : Round wcap a s, o = r.outcome ∧ waits = r.write.waits ∧
      (t = r.afterParse ∨ (∃ e, r.outcome = .error e) ∧ t = { r.afterParse with done := true }) := by
  obtain ⟨write, outbuf, hwrite, -⟩ := pollWrite_spec a s
  have hs₁ : Sound { s with outbuf := outbuf } := ⟨hs.cap_eq, hs.needMin_le⟩
  unfold loopBody at h
  simp only [itemCount_pollMessages, hwrite, Nat.zero_add] at h
  rcases pollRead_spec (a := a) hs₁ write.itemCount with hread | ⟨read, s₂, hread, hafter, -⟩
  · rw [hread] at h
    cases h
  · obtain ⟨parsed, s₃, hparse, -, -⟩ := pollParse_spec hafter.sound wcap (write.itemCount + read.itemCount)
    rw [hread] at h
    simp only [hparse] at h
    exact ⟨⟨outbuf, write, read, s₂, parsed, s₃, hwrite, hread, hparse⟩, conclude_eq_some h⟩

/-- Each round leaves a sound state; it is pending at the end of the input, without anything to write, exactly if it
stalls. -/
theorem loopBody_stalls_iff (hs : Sound s) {o : Outcome} {waits : Bool}
    (h : s.loopBody wcap a = some (o, waits, t)) :
    Sound t ∧ (AtEnd t ∧ o = .pending ∧ waits = false ↔ Stalls wcap a s) := by
  obtain ⟨r, rfl, rfl, ht⟩ := exists_round hs h
  obtain ⟨write, outbuf, hwrite, hcases⟩ := pollWrite_spec a s
  obtain ⟨rfl, houtbuf⟩ := Prod.mk.inj (r.write_eq.symm.trans hwrite)
  have hs₁ : Sound { s with outbuf := r.outbuf } := ⟨hs.cap_eq, hs.needMin_le⟩
  rcases pollRead_spec (a := a) hs₁ r.write.itemCount with hread | ⟨read, s₂, hread, hafter, hwork⟩
  · cases hread.symm.trans r.read_eq
  obtain ⟨rfl, rfl⟩ := Prod.mk.inj (Except.ok.inj (hread.symm.trans r.read_eq))
  obtain ⟨parsed, s₃, hparse, hs₃, hparsed⟩ := pollParse_spec hafter.sound wcap (r.write.itemCount + r.read.itemCount)
  obtain ⟨rfl, rfl⟩ := Prod.mk.inj (hparse.symm.trans r.parse_eq)
  refine ⟨?_, ?_⟩
  · rcases ht with rfl | ⟨-, rfl⟩
    · exact hs₃
    · exact ⟨hs₃.cap_eq, hs₃.needMin_le⟩
  have hafterParse : r.outcome = .pending → t = r.afterParse := by
    rintro hpending
    rcases ht with ht | ⟨⟨e, he⟩, -⟩
    · exact ht
    · cases hpending.symm.trans he
  constructor
  · rintro ⟨hend, hpending, hwaits⟩
    obtain ⟨hser, hw, hr, hp⟩ := quiet_of_combine hpending
    obtain rfl := hafterParse hpending
    -- nothing was written, and nothing parsed
    rcases hcases with ⟨hwritten, -⟩ | ⟨-, hw' | hw'⟩
    rotate_left
    · rw [hw'] at hwaits
      cases hwaits
    · cases hw.symm.trans hw'
    rcases hparsed with ⟨-, heq, -⟩ | ⟨hp', -⟩
    rotate_left
    · cases hp.symm.trans hp'
    rw [heq] at hend
    have hnothing : ¬ Takes wcap a s := by
      rcases pollMessages_cases wcap a s with ⟨-, hempty⟩ | ⟨hnot, -⟩
      · rw [hempty] at hser
        cases hser
      · exact hnot
    rcases hafter.cases with ⟨-, hsame⟩ | ⟨-, hused, ⟨-, hread', -⟩ | ⟨-, ⟨-, hopen⟩ | hr'⟩⟩
    · rw [hsame] at hend
      exact ⟨Or.inl hend.1, hend.2, hwritten, hnothing⟩
    · exact ⟨Or.inr hread', hused, hwritten, hnothing⟩
    · cases hend.1.symm.trans hopen
    · cases hr.symm.trans hr'
  · intro hstalls
    rcases hcases with ⟨-, hw, -⟩ | ⟨hlen, -⟩
    rotate_left
    · exact absurd hstalls.written hlen
    -- the input was closed before, or is found closed in this round
    have hread' : (r.read = .noWork ∨ r.read = .done) ∧ AtEnd r.afterRead := by
      rcases hafter.cases with ⟨hr, hsame⟩ | ⟨hopen, -, ⟨hr, -, heof, hlen⟩ | ⟨hnot, -⟩⟩
      · refine ⟨Or.inl hr, ?_⟩
        rw [hsame]
        refine ⟨?_, hstalls.usedUp⟩
        rcases hwork hr with hpos | heof | hle
        · rw [hw] at hpos
          cases hpos
        · exact heof
        · exact absurd hstalls.usedUp (not_lt.mpr hle)
      · refine ⟨Or.inr hr, heof, ?_⟩
        rw [hlen, hafter.connState_eq]
        exact hstalls.usedUp
      · rcases hstalls.closed with heof | heof
        · cases heof.symm.trans hopen
        · exact absurd heof hnot
    rcases hparsed with ⟨hp, heq, -⟩ | ⟨-, -, hle⟩
    rotate_left
    · exact absurd hread'.2.2 (not_lt.mpr hle)
    have hpending : r.outcome = .pending := by
      rw [Round.outcome, hw, hp]
      rcases pollMessages_cases wcap a s with ⟨htakes, -⟩ | ⟨-, hser | hser⟩
      · exact absurd htakes hstalls.nothing
      · rw [hser]
        rcases hread'.1 with hr | hr <;> rw [hr] <;> rfl
      · rw [hser]
        rcases hread'.1 with hr | hr <;> rw [hr] <;> rfl
    rw [hafterParse hpending, heq, hw]
    exact ⟨hread'.2, hpending, rfl⟩

end Zmtp

/-! ## Sessions -/

/-- A connection with what its last round has come to, and whether that waits until output can be written. -/
structure Session (B : Type) where
  zmtp : Zmtp B
  last : Option Zmtp.Outcome
  waits : Bool

namespace Session

variable {B : Type} [ByteQueue B]

def new (socketType : SocketType) : Session B := ⟨.new socketType, none, false⟩

/-- One round of {lit}`poll_next`. -/
def step (wcap : B → ℕ) (a : Zmtp.Answers) (t : Session B) : Option (Session B) :=
  if t.zmtp.complete then none
  else if t.zmtp.done then some ⟨{ t.zmtp with complete := true }, some .ended, false⟩
  else (t.zmtp.loopBody wcap a).map fun r => ⟨r.2.2, some r.1, r.2.1⟩

/-- A connection that is closed, and used up, is only pending as long as there is output that waits to be
written. -/
def Notices (t : Session B) : Prop := t.zmtp.AtEnd → t.last = some .pending → t.waits = true

/-- A round of a running connection that does not stall. -/
def Proceeds (wcap : B → ℕ) (a : Zmtp.Answers) (t : Session B) : Prop :=
  t.zmtp.done = false → ¬ t.zmtp.Stalls wcap a

variable [LawfulByteQueue B] {wcap : B → ℕ} {a : Zmtp.Answers} {s t : Session B}

/-- A round notices that the connection is closed exactly if it does not stall. -/
theorem notices_step_iff (hs : s.zmtp.Sound) (hstep : step wcap a s = some t) :
    t.zmtp.Sound ∧ (Notices t ↔ Proceeds wcap a s) := by
  rw [step] at hstep
  split at hstep
  · cases hstep
  split at hstep
  · rename_i hdone
    obtain rfl := Option.some.inj hstep
    refine ⟨⟨hs.cap_eq, hs.needMin_le⟩, iff_of_true (fun _ h => by cases h) fun h => ?_⟩
    cases hdone.symm.trans h
  · rename_i hdone
    obtain ⟨⟨o, waits, z⟩, hbody, rfl⟩ := Option.map_eq_some_iff.mp hstep
    obtain ⟨hsound, hstalls⟩ := Zmtp.loopBody_stalls_iff hs hbody
    refine ⟨hsound, ?_⟩
    rw [Proceeds, ← hstalls]
    constructor
    · rintro hnotices - ⟨hend, rfl, hwaits⟩
      cases hwaits.symm.trans (hnotices hend rfl)
    · intro hproceeds hend hlast
      by_contra hwaits
      exact hproceeds (Bool.eq_false_iff.mpr hdone)
        ⟨hend, Option.some.inj hlast, Bool.eq_false_iff.mpr hwaits⟩

/-- A closed connection is noticed in all of a run exactly if no round of it stalls. -/
theorem notices_iff (wcap : B → ℕ) (socketType : SocketType) (answers : List Zmtp.Answers) :
    (∀ t, Slots.Reached (step wcap) answers (new socketType) t → Notices t) ↔
      Slots.Along (step wcap) (Proceeds wcap) answers (new socketType) := by
  apply Slots.forall_reached_iff_along_of_inv fun t : Session B => t.zmtp.Sound
  · intro a s t hs _ hstep
    have hboth := notices_step_iff hs hstep
    exact ⟨fun _ => hboth.1, hboth.2⟩
  · exact Zmtp.Sound.new socketType
  · intro _ h
    cases h

/-- The room behind the bytes of a queue. -/
def roomBehind (q : Fifo) : ℕ := q.cap - q.len

/-- The peer sends a part of its greeting and closes the connection, while that of the client is being written. -/
def closing : List Zmtp.Answers :=
  [⟨false, .pending, .pending⟩, ⟨false, .ready (.ok 5), .ready (.ok [255, 0])⟩, ⟨false, .pending, .ready (.ok [])⟩,
    ⟨false, .pending, .pending⟩, ⟨false, .ready (.ok 7), .pending⟩]

/-- As long as there is something to be written, the closed connection is noticed. -/
theorem notices_iff_closing :
    Slots.Along (step roomBehind) (Proceeds roomBehind) closing (new .pull : Session Fifo) ∧
      ∀ t, Slots.Reached (step roomBehind) closing (new .pull : Session Fifo) t → Notices t := by
  have halong : Slots.Along (step roomBehind) (Proceeds roomBehind) closing (new .pull : Session Fifo) := by
    rintro t ⟨⟩
    refine ⟨fun _ h => absurd h.usedUp (by decide), ?_⟩
    rintro t ⟨⟩
    refine ⟨fun _ h => absurd h.written (by decide), ?_⟩
    rintro t ⟨⟩
    refine ⟨fun _ h => absurd h.written (by decide), ?_⟩
    rintro t ⟨⟩
    refine ⟨fun _ h => absurd h.written (by decide), ?_⟩
    rintro t ⟨⟩
    exact ⟨fun _ h => absurd h.written (by decide), trivial⟩
  exact ⟨halong, (notices_iff roomBehind .pull closing).2 halong⟩

/-- The peer closes the connection while the greeting is written, and the client waits for ever. -/
theorem not_notices :
    ¬ ∀ answers t, Slots.Reached (step roomBehind) answers (new .pull : Session Fifo) t → Notices t := by
  intro hall
  have hlast := hall [⟨false, .pending, .pending⟩, ⟨false, .ready (.ok 12), .ready (.ok [])⟩,
    ⟨false, .pending, .pending⟩] _ ⟨_, List.prefix_rfl, rfl⟩
  cases hlast ⟨rfl, Nat.zero_lt_one⟩ rfl

end Session

end Bsread
end Daqbuf
