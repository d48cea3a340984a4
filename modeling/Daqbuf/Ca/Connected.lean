import Daqbuf.Ca.Asynbuf
import Daqbuf.Poll.Machine
/-!
# Connected

{lit}`Connected` reads messages of the server into its input, and moves them on to the handshake, and later to
{lit}`ActiveCa`.  The handshake sends three messages before it looks at what it was given.  What it still holds when it
is done is dropped, and taking a message that it does not expect is no progress.

Of the protocol there is what it answers, and of {lit}`ActiveCa` its input buffer.

Main results:

- Theorem {lit}`Connected.pollHandshake_good`: a pass while the handshake is not over.
- Theorem {lit}`Connected.step_good`: what a step preserves.
- Theorem {lit}`Connected.handsOver_run`: runs in which the reply is never held beside another message.
- Theorem {lit}`Connected.not_handsOver_burst`: a message right behind the reply.
-/

namespace Daqbuf
namespace Ca

open Poll
open Connset (HaveProgressPending)
open Slots (Growth)

/-! ## The handshake -/

/-- The messages of {lit}`HelloSend::new` -/
def helloMsgs : List CaMsg := [⟨.version⟩, ⟨.clientName⟩, ⟨.hostName "data-api.psi.ch"⟩]

/-- {lit}`handshake::State` -/
inductive HandshakeState where
  | helloSend (msgs : List CaMsg)
  | helloRecv
  | done
  deriving DecidableEq

/-- The capacity of the input of the handshake -/
def handshakeInpBufCap : ℕ := 16

/-- {lit}`Handshake` -/
structure Handshake where
  state : HandshakeState
  inpBuf : AsynBuf CaMsg handshakeInpBufCap
  deriving DecidableEq

/-- {lit}`handshake::Item` -/
inductive HandshakeItem where
  | caMsg (x : CaMsg)
  | handshakeDone
  deriving DecidableEq

/-- {lit}`handshake::Error`, as far as it is used -/
inductive HandshakeError where
  | epicsVersion (n : UInt16)
  deriving DecidableEq

namespace Handshake

/-- {lit}`new` -/
def new : Handshake := ⟨.helloSend helloMsgs, .new⟩

/-- {lit}`inp_push_try`; a message that finds no space is handed back. -/
def inpPushTry (st : Handshake) (item : CaMsg) : Option Handshake :=
  (st.inpBuf.pushBack item).map fun b => { st with inpBuf := b }

/-- The loop body of {lit}`poll_next`.  Where a message is taken, the progress is only asked for, not marked. -/
def pass (st : Handshake) : Pass Handshake (Except HandshakeError HandshakeItem) :=
  match st.state with
  | .helloSend (msg :: msgs) => .item (.ok (.caMsg msg)) { st with state := .helloSend msgs }
  | .helloSend [] => HaveProgressPending.finish ⟨true, false⟩ { st with state := .helloRecv }
  | .helloRecv =>
      match st.inpBuf.popFront with
      | some (item, rest) =>
          match item.ty with
          | .versionRes n =>
              if n < 12 ∨ 13 < n then .item (.error (.epicsVersion n)) ⟨.done, rest⟩
              else .item (.ok .handshakeDone) ⟨.done, rest⟩
          | _ => HaveProgressPending.finish ⟨false, false⟩ { st with inpBuf := rest }
      | none => HaveProgressPending.finish ⟨false, false⟩ st
  | .done => HaveProgressPending.finish ⟨false, false⟩ st

/-- {lit}`poll_next`; it goes round again once, where everything is sent. -/
def pollNext (st : Handshake) : Pass Handshake (Except HandshakeError HandshakeItem) := spin pass 2 st

end Handshake

/-! ## The connection -/

/-- {lit}`ProtoPusher`, without the protocol -/
structure ProtoPusher where
  done : Bool
  protoOutBuf : Asynbuf.AsynBuf CaMsg
  deriving DecidableEq

namespace ProtoPusher

/-- {lit}`new` -/
def new : ProtoPusher := ⟨false, .new 3⟩

/-- {lit}`is_space` -/
def isSpace (w : ProtoPusher) : Bool := w.protoOutBuf.isSpace

/-- {lit}`push_back_or_drop` -/
def pushBackOrDrop (g : Growth) (w : ProtoPusher) (item : CaMsg) : ProtoPusher :=
  { w with protoOutBuf := (w.protoOutBuf.pushBack g item).2 }

/-- {lit}`push_back_force` -/
def pushBackForce (g : Growth) (w : ProtoPusher) (item : CaMsg) : ProtoPusher :=
  { w with protoOutBuf := ⟨w.protoOutBuf.buf.pushBack g item⟩ }

/-- The protocol takes so many messages, as long as there are any. -/
def takes : ℕ → ProtoPusher → ProtoPusher
  | 0, w => w
  | n + 1, w => takes n { w with protoOutBuf := w.protoOutBuf.popFront.2 }

end ProtoPusher

/-- The answer of the protocol when it is asked for a message -/
inductive ProtoRead where
  | msg (x : CaMsg)
  | empty
  | err
  | closed
  | pending
  deriving DecidableEq

/-- The answer of the protocol when it is to send -/
inductive Outbound where
  | progress
  | err
  | idle
  | pending
  deriving DecidableEq

/-- The answer of {lit}`ActiveCa`: items, with messages for the protocol -/
inductive ActiveAnswer (ι : Type) where
  | items (xs : List ι) (protoOut : List CaMsg)
  | err
  | done
  | pending
  deriving DecidableEq

/-- What a pass of {lit}`Connected` meets: the answers of the protocol, the number of messages that it takes, and the
number of items that {lit}`ActiveCa` takes from its input, with its answer. -/
structure ConnectedPolls (ι : Type) where
  outbound : Outbound
  protoTakes : ℕ
  read : ProtoRead
  activeTakes : ℕ
  active : ActiveAnswer ι
  deriving DecidableEq

/-- {lit}`connected::State`; of {lit}`ActiveCa` there is its input buffer. -/
inductive ConnectedState where
  | init
  | handshake (st : Handshake)
  | activeCa (inpBuf : AsynBuf InpItem inpBufCap)
  | done
  deriving DecidableEq

/-- {lit}`connected::Error` -/
inductive ConnectedError where
  | protowrap
  | handshake (e : HandshakeError)
  | activeCa
  deriving DecidableEq

/-- {lit}`INP_BUF_CAP` of {lit}`Connected` -/
def connectedInpBufCap : ℕ := 128

/-- {lit}`Connected`, with the messages that it has read so far, those that it has handed to {lit}`ActiveCa`, and
whether there was one -/
structure Connected where
  protowrap : ProtoPusher
  state : ConnectedState
  inpBuf : AsynBuf CaMsg connectedInpBufCap
  inpCmdBuf : AsynBuf CaCommand connectedInpBufCap
  seen : List CaMsg
  handed : List CaMsg
  reached : Bool
  deriving DecidableEq

namespace Connected

variable {ι : Type} (g : Growth)

/-- {lit}`new` -/
def new : Connected where
  protowrap := .new
  state := .init
  inpBuf := .new
  inpCmdBuf := .new
  seen := []
  handed := []
  reached := false

/-- {lit}`goto_state_done` -/
def gotoStateDone (s : Connected) : Connected := { s with state := .done }

/-- The part of a pass that reads, with what the pass marked before; the state where the connection fails -/
def pollProtowrap (p : ConnectedPolls ι) (hpp : HaveProgressPending) (s : Connected) :
    Except Connected (HaveProgressPending × Connected) :=
  if h : s.inpBuf.isSpace = true then
    if s.protowrap.done then .ok (hpp, s)
    else
      let s := { s with protowrap := s.protowrap.takes p.protoTakes }
      match p.read with
      | .msg x => .ok ({ hpp with progress := true },
          { s with inpBuf := s.inpBuf.pushBackForce x h, seen := s.seen ++ [x] })
      | .empty => .ok ({ hpp with progress := true }, s)
      | .err => .error s.gotoStateDone
      | .closed => .ok (hpp, { s with protowrap := { s.protowrap with done := true } })
      | .pending => .ok ({ hpp with pending := true }, s)
  else .ok (hpp, s)

/-- A message of the input goes to the handshake, if that has space. -/
def moveToHandshake (hpp : HaveProgressPending) (st : Handshake) (s : Connected) :
    HaveProgressPending × Handshake × Connected :=
  match s.inpBuf.popFront with
  | some (x, rest) =>
      match st.inpPushTry x with
      | some st => ({ hpp with progress := true }, st, { s with inpBuf := rest })
      | none => (hpp, st, s)
  | none => (hpp, st, s)

/-- The handshake is polled if there is space for what it sends. -/
def pollIfSpace (hpp : HaveProgressPending) (st : Handshake) (s : Connected) :
    Pass Connected (Except ConnectedError (List ι)) :=
  if s.protowrap.isSpace then
    match st.pollNext with
    | .item (.ok (.caMsg x)) st =>
        { hpp with progress := true }.finish
          { s with state := .handshake st, protowrap := s.protowrap.pushBackOrDrop g x }
    -- what the handshake still holds is dropped
    | .item (.ok .handshakeDone) _ =>
        { hpp with progress := true }.finish { s with state := .activeCa .new, reached := true }
    | .item (.error e) _ => .item (.error (.handshake e)) s.gotoStateDone
    | .pending st => { hpp with pending := true }.finish { s with state := .handshake st }
    | .again st | .done st => hpp.finish { s with state := .handshake st }
    | .panic => .panic
  else hpp.finish { s with state := .handshake st }

/-- The rest of a pass in {lit}`State::Handshake` -/
def pollHandshake (hpp : HaveProgressPending) (st : Handshake) (s : Connected) :
    Pass Connected (Except ConnectedError (List ι)) :=
  let (hpp, st, s) := moveToHandshake hpp st s
  pollIfSpace g hpp st s

/-- A command goes to {lit}`ActiveCa`, if that has space. -/
def moveCmd (hpp : HaveProgressPending) (inp : AsynBuf InpItem inpBufCap) (s : Connected) :
    HaveProgressPending × AsynBuf InpItem inpBufCap × Connected :=
  if h : inp.isSpace = true then
    match s.inpCmdBuf.popFront with
    | some (x, rest) => ({ hpp with progress := true }, inp.pushBackForce (.cmd x) h, { s with inpCmdBuf := rest })
    | none => (hpp, inp, s)
  else (hpp, inp, s)

/-- A message of the input goes to {lit}`ActiveCa`, if that has space. -/
def moveToActive (hpp : HaveProgressPending) (inp : AsynBuf InpItem inpBufCap) (s : Connected) :
    HaveProgressPending × AsynBuf InpItem inpBufCap × Connected :=
  match s.inpBuf.popFront with
  | some (x, rest) =>
      match inp.pushBack (.caMsg x) with
      | some inp => ({ hpp with progress := true }, inp, { s with inpBuf := rest, handed := s.handed ++ [x] })
      | none => (hpp, inp, s)
  | none => (hpp, inp, s)

/-- The rest of a pass in {lit}`State::ActiveCa` -/
def pollActiveCa (p : ConnectedPolls ι) (hpp : HaveProgressPending) (inp : AsynBuf InpItem inpBufCap) (s : Connected) :
    Pass Connected (Except ConnectedError (List ι)) :=
  let (hpp, inp, s) := moveCmd hpp inp s
  let (hpp, inp, s) := moveToActive hpp inp s
  if s.protowrap.isSpace then
    let s := { s with state := .activeCa (inp.drop p.activeTakes) }
    match p.active with
    | .items xs protoOut =>
        .item (.ok xs) { s with protowrap := protoOut.foldl (ProtoPusher.pushBackForce g) s.protowrap }
    | .err => .item (.error .activeCa) s.gotoStateDone
    | .done => { hpp with progress := true }.finish s.gotoStateDone
    | .pending => { hpp with pending := true }.finish s
  else hpp.finish { s with state := .activeCa inp }

/-- The rest of a pass -/
def pollState (p : ConnectedPolls ι) (hpp : HaveProgressPending) (s : Connected) :
    Pass Connected (Except ConnectedError (List ι)) :=
  match s.state with
  | .init => { hpp with progress := true }.finish { s with state := .handshake .new }
  | .handshake st => pollHandshake g hpp st s
  | .activeCa inp => pollActiveCa g p hpp inp s
  | .done => hpp.finish s

/-- One pass of {lit}`poll_next` -/
def pollNext (p : ConnectedPolls ι) (s : Connected) : Pass Connected (Except ConnectedError (List ι)) :=
  if s.state = .done then s.pollState g p ⟨false, false⟩
  else if p.outbound = .err then .item (.error .protowrap) s
  else
    match s.pollProtowrap p ⟨p.outbound = .progress, p.outbound = .pending⟩ with
    | .ok (hpp, s) => s.pollState g p hpp
    | .error s => .item (.error .protowrap) s

/-! ## Runs -/

end Connected

/-- A pass, or a command that the owner of the connection puts into its buffer -/
inductive ConnectedEvent (ι : Type) where
  | poll (p : ConnectedPolls ι)
  | cmd (x : CaCommand)
  deriving DecidableEq

/-- What a pass gives to its caller: an item, or nothing at the end of a poll. -/
inductive ConnectedOutput (ι : Type) where
  | item (x : Except ConnectedError (List ι))
  | settled (s : Connected)

namespace Connected

variable {ι : Type} (g : Growth)

/-- The effect of a pass -/
def stepPoll (p : ConnectedPolls ι) (s : Connected) : List (ConnectedOutput ι) × Connected :=
  match s.pollNext g p with
  | .again t => ([], t)
  | .pending t | .done t => ([.settled t], t)
  | .item x t => ([.item x], t)
  | .panic => ([], s)

/-- The effect of an event; a command that finds no space stays with the owner. -/
def step (e : ConnectedEvent ι) (s : Connected) : List (ConnectedOutput ι) × Connected :=
  match e with
  | .poll p => s.stepPoll g p
  | .cmd x => ([], { s with inpCmdBuf := (s.inpCmdBuf.pushBack x).getD s.inpCmdBuf })

/-- The connection as a machine -/
def machine : Machine Connected (ConnectedEvent ι) (ConnectedOutput ι) := ⟨step g⟩

end Connected

/-! ## Replies -/

/-- Whether the message is the reply with a version -/
def isVersionRes (m : CaMsg) : Bool :=
  match m.ty with
  | .versionRes _ => true
  | _ => false

/-- Whether the message is a reply that ends the handshake -/
def isReply (m : CaMsg) : Bool :=
  match m.ty with
  | .versionRes n => !(n < 12 ∨ 13 < n)
  | _ => false

/-- Whether the reply is among the messages -/
def replied (msgs : List CaMsg) : Bool := msgs.any isReply

/-- The messages behind the reply -/
def behindReply : List CaMsg → List CaMsg
  | [] => []
  | m :: msgs => if isReply m then msgs else behindReply msgs

theorem replied_concat (msgs : List CaMsg) (m : CaMsg) : replied (msgs ++ [m]) = (replied msgs || isReply m) := by
  simp [replied]

/-- A message that comes behind the reply -/
theorem behindReply_concat_of_replied {msgs : List CaMsg} (h : replied msgs = true) (m : CaMsg) :
    behindReply (msgs ++ [m]) = behindReply msgs ++ [m] := by
  induction msgs with
  | nil => cases h
  | cons m' msgs ih =>
      rw [List.cons_append, behindReply, behindReply]
      cases hm : isReply m' with
      | true => rfl
      | false =>
          rw [replied, List.any_cons, hm, Bool.false_or] at h
          exact ih h

/-- Nothing is behind the reply when it comes. -/
theorem behindReply_concat_of_not_replied {msgs : List CaMsg} (hnot : replied msgs = false) (m : CaMsg) :
    behindReply (msgs ++ [m]) = [] := by
  induction msgs with
  | nil =>
      rw [List.nil_append, behindReply]
      split <;> rfl
  | cons m' msgs ih =>
      rw [replied, List.any_cons, Bool.or_eq_false_iff] at hnot
      rw [List.cons_append, behindReply, if_neg (Bool.not_eq_true _ ▸ hnot.1)]
      exact ih hnot.2

/-! ## What the handshake does -/

namespace Handshake

/-- Everything is sent, and the handshake looks at what it was given. -/
def Awaits (st : Handshake) : Prop := st.state = .helloSend [] ∨ st.state = .helloRecv

variable {st : Handshake} {m : CaMsg} {b rest : AsynBuf CaMsg handshakeInpBufCap}

/-- A message is sent. -/
theorem pollNext_send {msg : CaMsg} {msgs : List CaMsg} (hstate : st.state = .helloSend (msg :: msgs)) :
    st.pollNext = .item (.ok (.caMsg msg)) { st with state := .helloSend msgs } := by
  rw [pollNext, spin, pass, hstate]

theorem pass_recv_nil (hpop : b.popFront = none) : pass ⟨.helloRecv, b⟩ = .done ⟨.helloRecv, b⟩ := by
  rw [pass]
  dsimp only
  rw [hpop]
  rfl

theorem pass_recv_other (hpop : b.popFront = some (m, rest)) (hm : isVersionRes m = false) :
    pass ⟨.helloRecv, b⟩ = .done ⟨.helloRecv, rest⟩ := by
  rw [pass]
  dsimp only
  rw [hpop]
  unfold isVersionRes at hm
  split at hm
  · cases hm
  · rename_i hother
    dsimp only
    split
    · rename_i n hty
      exact absurd hty (hother n)
    · rfl

theorem pass_recv_reply (hpop : b.popFront = some (m, rest)) (hm : isReply m = true) :
    pass ⟨.helloRecv, b⟩ = .item (.ok .handshakeDone) ⟨.done, rest⟩ := by
  rw [pass]
  dsimp only
  rw [hpop]
  unfold isReply at hm
  split at hm
  · rename_i n hty
    dsimp only
    rw [hty]
    dsimp only
    rw [if_neg (by simpa using hm)]
  · cases hm

theorem pass_recv_ne_again (t : Handshake) : pass ⟨.helloRecv, b⟩ ≠ .again t := by
  rw [pass]
  dsimp only
  cases b.popFront with
  | none => exact nofun
  | some x =>
      dsimp only
      split
      · split <;> exact nofun
      · exact nofun

/-- The loop goes round at most once. -/
theorem Awaits.pollNext_eq (h : st.Awaits) : st.pollNext = pass ⟨.helloRecv, st.inpBuf⟩ := by
  have hspin : ∀ n, spin pass (n + 1) ⟨.helloRecv, st.inpBuf⟩ = pass ⟨.helloRecv, st.inpBuf⟩ := by
    intro n
    rw [spin]
    cases hpass : pass ⟨.helloRecv, st.inpBuf⟩ with
    | again t => exact absurd hpass (pass_recv_ne_again t)
    | _ => rfl
  rcases st with ⟨state, inpBuf⟩
  rcases h with rfl | rfl
  · exact hspin 0
  · exact hspin 1

end Handshake

/-! ## What is held -/

namespace ProtoPusher

/-- Taking messages makes no space less. -/
theorem isSpace_takes (n : ℕ) {w : ProtoPusher} (hspace : w.isSpace = true) : (w.takes n).isSpace = true := by
  induction n generalizing w with
  | zero => exact hspace
  | succ n ih =>
      apply ih
      rw [isSpace, Asynbuf.AsynBuf.isSpace_iff] at hspace ⊢
      unfold Asynbuf.AsynBuf.popFront
      split
      · rename_i x rest hpop
        rcases Slots.Deque.popFront_eq_some.mp hpop with ⟨hitems, hcap⟩
        change rest.items.length < rest.capacity
        change w.protoOutBuf.buf.items.length < w.protoOutBuf.buf.capacity at hspace
        rw [hitems, List.length_cons] at hspace
        omega
      · exact hspace

end ProtoPusher

namespace Connected

/-- The handshake is not over. -/
def handshaking (s : Connected) : Bool :=
  match s.state with
  | .init | .handshake _ => true
  | .activeCa _ | .done => false

/-- The messages that were read, and neither looked at nor handed on -/
def held (s : Connected) : List CaMsg :=
  match s.state with
  | .handshake st => st.inpBuf.buf ++ s.inpBuf.buf
  | _ => s.inpBuf.buf

/-- The handshake looks at a message in each pass. -/
def looks (s : Connected) : Bool :=
  match s.state with
  | .handshake st => st.state = .helloRecv && s.protowrap.isSpace
  | _ => false

section Runs

variable {ι : Type} {g : Growth} {p : ConnectedPolls ι} {hpp hpp' : HaveProgressPending} {s t : Connected}
  {st st' : Handshake}

/-- What may come while the handshake is not over: once the reply is there, nothing, and the reply only where at most
the message that is looked at in the same pass is in front of it.  The connection does not fail, and the only version is
that of the reply. -/
def Calm (p : ConnectedPolls ι) (s : Connected) : Prop :=
  match p.read with
  | .msg m => replied s.seen = false ∧ (isVersionRes m = true → isReply m = true) ∧
      (isReply m = true → s.held = [] ∨ (s.looks = true ∧ s.held.length = 1))
  | .err => False
  | _ => True

/-- The condition on an event -/
def CalmEvent (e : ConnectedEvent ι) (s : Connected) : Prop :=
  match e with
  | .poll p => s.handshaking = true → Calm p s
  | .cmd _ => True

/-- When nothing more can be done, the reply has led to {lit}`ActiveCa`, if there is space for the messages that are to
be sent. -/
def Settled (t : Connected) : Prop := replied t.seen = true → t.protowrap.isSpace = true → t.reached = true

/-- Nothing is handed on yet. -/
structure Fresh (s : Connected) : Prop where
  handed : s.handed = []
  reached : s.reached = false

/-- No version is held before the reply, and the reply is held alone. -/
def Holds (s : Connected) (msgs : List CaMsg) : Prop :=
  (replied s.seen = false ∧ ∀ m ∈ msgs, isVersionRes m = false) ∨
  (replied s.seen = true ∧ behindReply s.seen = [] ∧ ∃ m, isReply m = true ∧ msgs = [m])

/-- What holds while there is {lit}`ActiveCa`: every message behind the reply was handed on, or is held. -/
structure Active (s : Connected) : Prop where
  reached : s.reached = true
  replied_eq : replied s.seen = true
  msgs_eq : s.handed ++ s.inpBuf.buf = behindReply s.seen

/-- What holds between the passes of a calm run -/
def Inv (s : Connected) : Prop :=
  match s.state with
  | .init => Fresh s ∧ Holds s s.inpBuf.buf
  | .handshake st => Fresh s ∧ st.state ≠ .done ∧ Holds s (st.inpBuf.buf ++ s.inpBuf.buf)
  | .activeCa _ => Active s
  | .done => s.reached = true ∧ s.handed <+: behindReply s.seen

/-- What a pass leaves -/
def PassGood (r : Pass Connected (Except ConnectedError (List ι))) : Prop :=
  match r with
  | .again t | .item _ t => Inv t
  | .pending t | .done t => Inv t ∧ Settled t
  | .panic => False

theorem passGood_finish (hinv : Inv t) (hsettled : hpp.progress = false → Settled t) :
    PassGood (hpp.finish t : Pass Connected (Except ConnectedError (List ι))) := by
  unfold HaveProgressPending.finish
  split
  · exact hinv
  · rename_i hnot
    have hgood : Inv t ∧ Settled t := ⟨hinv, hsettled (Bool.eq_false_of_not_eq_true hnot)⟩
    split
    · exact hgood
    · exact hgood

/-- What the reading part of a pass does -/
structure Reads (p : ConnectedPolls ι) (s : Connected) (hpp : HaveProgressPending) (t : Connected) : Prop where
  state_eq : t.state = s.state
  handed_eq : t.handed = s.handed
  reached_eq : t.reached = s.reached
  space : s.protowrap.isSpace = true → t.protowrap.isSpace = true
  msgs : (t.inpBuf = s.inpBuf ∧ t.seen = s.seen) ∨
    ∃ m, p.read = .msg m ∧ t.inpBuf.buf = s.inpBuf.buf ++ [m] ∧ t.seen = s.seen ++ [m] ∧ hpp.progress = true

theorem pollProtowrap_ok (hpoll : s.pollProtowrap p hpp = .ok (hpp', t)) : Reads p s hpp' t := by
  unfold pollProtowrap at hpoll
  split at hpoll
  · split at hpoll
    · cases hpoll
      exact ⟨rfl, rfl, rfl, id, .inl ⟨rfl, rfl⟩⟩
    · dsimp only at hpoll
      split at hpoll
      · rename_i m hread
        cases hpoll
        exact ⟨rfl, rfl, rfl, ProtoPusher.isSpace_takes _, .inr ⟨m, hread, rfl, rfl, rfl⟩⟩
      · cases hpoll
        exact ⟨rfl, rfl, rfl, ProtoPusher.isSpace_takes _, .inl ⟨rfl, rfl⟩⟩
      · cases hpoll
      · cases hpoll
        exact ⟨rfl, rfl, rfl, ProtoPusher.isSpace_takes _, .inl ⟨rfl, rfl⟩⟩
      · cases hpoll
        exact ⟨rfl, rfl, rfl, ProtoPusher.isSpace_takes _, .inl ⟨rfl, rfl⟩⟩
  · cases hpoll
    exact ⟨rfl, rfl, rfl, id, .inl ⟨rfl, rfl⟩⟩

theorem pollProtowrap_error (hpoll : s.pollProtowrap p hpp = .error t) :
    p.read = .err ∧ t.state = .done ∧ t.handed = s.handed ∧ t.reached = s.reached ∧ t.seen = s.seen := by
  unfold pollProtowrap at hpoll
  split at hpoll
  · split at hpoll
    · cases hpoll
    · dsimp only at hpoll
      split at hpoll
      · cases hpoll
      · cases hpoll
      · rename_i hread
        cases hpoll
        exact ⟨hread, rfl, rfl, rfl, rfl⟩
      · cases hpoll
      · cases hpoll
  · cases hpoll

/-- What moving a message to the handshake does -/
structure Moved (hpp : HaveProgressPending) (st : Handshake) (s : Connected) (hpp' : HaveProgressPending)
    (st' : Handshake) (t : Connected) : Prop where
  conn : t = { s with inpBuf := t.inpBuf }
  state_eq : st'.state = st.state
  held_eq : st'.inpBuf.buf ++ t.inpBuf.buf = st.inpBuf.buf ++ s.inpBuf.buf
  progress : hpp.progress = true → hpp'.progress = true
  given : st'.inpBuf.buf = [] → t.inpBuf.buf = []

theorem moveToHandshake_spec (hmove : moveToHandshake hpp st s = (hpp', st', t)) : Moved hpp st s hpp' st' t := by
  unfold moveToHandshake at hmove
  split at hmove
  · rename_i x rest hpop
    have hbuf := AsynBuf.popFront_eq_some hpop
    split at hmove
    · rename_i st1 hpush
      cases hmove
      rcases Option.map_eq_some_iff.mp hpush with ⟨b, hb, rfl⟩
      have hb := AsynBuf.pushBack_eq_some hb
      refine ⟨rfl, rfl, ?_, fun _ => rfl, fun hnil => ?_⟩
      · change b.buf ++ rest.buf = _
        rw [hb, hbuf, List.append_assoc, List.singleton_append]
      · exact absurd (hb.symm.trans hnil) (by simp)
    · rename_i hpush
      cases hmove
      have hfull := AsynBuf.pushBack_eq_none (Option.map_eq_none_iff.mp hpush)
      refine ⟨rfl, rfl, rfl, id, fun hnil => ?_⟩
      rw [hnil] at hfull
      exact absurd hfull (by decide)
  · rename_i hpop
    cases hmove
    exact ⟨rfl, rfl, rfl, id, fun _ => AsynBuf.popFront_eq_none.mp hpop⟩

/-- A message in front of the reply is looked at in this pass, which has made progress. -/
structure InFront (hpp : HaveProgressPending) (st : Handshake) (s : Connected) (msgs : List CaMsg) : Prop where
  replied_eq : replied s.seen = true
  behind : behindReply s.seen = []
  state_eq : st.state = .helloRecv
  space : s.protowrap.isSpace = true
  progress : hpp.progress = true
  msgs_eq : ∃ a m, isVersionRes a = false ∧ isReply m = true ∧ msgs = [a, m]

/-- What a pass holds behind its reading part -/
theorem holds_of_calm (hheld : s.held = st.inpBuf.buf ++ s.inpBuf.buf)
    (hlook : s.looks = true → st.state = .helloRecv ∧ s.protowrap.isSpace = true)
    (hholds : Holds s (st.inpBuf.buf ++ s.inpBuf.buf)) (hcalm : Calm p s) (hreads : Reads p s hpp t) :
    Holds t (st.inpBuf.buf ++ t.inpBuf.buf) ∨ InFront hpp st t (st.inpBuf.buf ++ t.inpBuf.buf) := by
  rcases hreads.msgs with ⟨hbuf, hseen⟩ | ⟨m, hread, hbuf, hseen, hprogress⟩
  · rw [Holds, hbuf, hseen]
    exact .inl hholds
  · unfold Calm at hcalm
    rw [hread] at hcalm
    rcases hcalm with ⟨hnot, hversion, hfront⟩
    have hbehind := behindReply_concat_of_not_replied hnot m
    rw [hheld] at hfront
    rcases hholds with ⟨-, hothers⟩ | ⟨hreplied, -⟩
    · cases hm : isReply m with
      | false =>
          have hother : isVersionRes m = false := Bool.eq_false_iff.mpr fun h => Bool.eq_false_iff.mp hm (hversion h)
          refine .inl (.inl ⟨by rw [hseen, replied_concat, hnot, hm]; rfl, ?_⟩)
          rw [hbuf, ← List.append_assoc]
          exact List.forall_mem_append.mpr ⟨hothers, List.forall_mem_singleton.mpr hother⟩
      | true =>
          have hreplied : replied t.seen = true := by
            rw [hseen, replied_concat, hm, Bool.or_true]
          rw [hbuf, ← List.append_assoc]
          rcases hfront hm with hnil | ⟨hlooks, hlen⟩
          · exact .inl (.inr ⟨hreplied, by rw [hseen, hbehind], m, hm, by rw [hnil]; rfl⟩)
          · rcases hlook hlooks with ⟨hrecv, hspace⟩
            rcases List.length_eq_one_iff.mp hlen with ⟨a, ha⟩
            refine .inr ⟨hreplied, by rw [hseen, hbehind], hrecv, hreads.space hspace, hprogress,
              a, m, hothers a (by rw [ha]; exact List.mem_singleton_self a), hm, by rw [ha]; rfl⟩
    · rw [hnot] at hreplied
      cases hreplied

theorem Holds.of_seen {msgs : List CaMsg} (h : Holds s msgs) (hseen : t.seen = s.seen) : Holds t msgs := by
  rw [Holds, hseen]
  exact h

theorem InFront.of_seen {msgs : List CaMsg} (h : InFront hpp st s msgs) (hseen : t.seen = s.seen)
    (hwrap : t.protowrap = s.protowrap) (hstate : st'.state = st.state)
    (hprogress : hpp.progress = true → hpp'.progress = true) : InFront hpp' st' t msgs :=
  ⟨by rw [hseen, h.replied_eq], by rw [hseen, h.behind], by rw [hstate, h.state_eq], by rw [hwrap, h.space],
    hprogress h.progress, h.msgs_eq⟩

theorem inv_handshake (st : Handshake) (hfresh : Fresh s) (hne : st.state ≠ .done)
    (hholds : Holds s (st.inpBuf.buf ++ s.inpBuf.buf)) (w : ProtoPusher) :
    Inv { s with state := .handshake st, protowrap := w } :=
  ⟨⟨hfresh.handed, hfresh.reached⟩, hne, hholds.of_seen rfl⟩

/-- Before the reply, nothing is missed. -/
theorem Settled.of_not_replied (hnot : replied t.seen = false) : Settled t := by
  intro hreplied
  rw [hnot] at hreplied
  cases hreplied

/-- The handshake that looks at what it was given, in a calm run -/
theorem pollIfSpace_awaits (hfresh : Fresh s) (hawaits : st.Awaits)
    (hholds : Holds s (st.inpBuf.buf ++ s.inpBuf.buf) ∨ InFront hpp st s (st.inpBuf.buf ++ s.inpBuf.buf))
    (hgiven : st.inpBuf.buf = [] → s.inpBuf.buf = []) (hspace : s.protowrap.isSpace = true) :
    PassGood (pollIfSpace g hpp st s : Pass Connected (Except ConnectedError (List ι))) := by
  have hne : HandshakeState.helloRecv ≠ .done := nofun
  rw [pollIfSpace, if_pos hspace, hawaits.pollNext_eq]
  cases hpop : st.inpBuf.popFront with
  | none =>
      have hnil := AsynBuf.popFront_eq_none.mp hpop
      rw [hnil, hgiven hnil] at hholds
      rw [Handshake.pass_recv_nil hpop]
      rcases hholds with (⟨hnot, hothers⟩ | ⟨-, -, m, -, hm⟩) | hfront
      · refine passGood_finish (inv_handshake _ hfresh hne (.inl ⟨hnot, ?_⟩) s.protowrap)
          fun _ => Settled.of_not_replied hnot
        rw [hnil, hgiven hnil]
        exact hothers
      · cases hm
      · rcases hfront.msgs_eq with ⟨a, m, -, -, ham⟩
        cases ham
  | some x =>
      rcases x with ⟨x, rest⟩
      rw [AsynBuf.popFront_eq_some hpop, List.cons_append] at hholds
      rcases hholds with (⟨hnot, hothers⟩ | ⟨hreplied, hbehind, m, hm, hmsgs⟩) | hfront
      · -- a message that is not expected is taken
        rw [List.forall_mem_cons] at hothers
        rw [Handshake.pass_recv_other hpop hothers.1]
        exact passGood_finish (inv_handshake _ hfresh hne (.inl ⟨hnot, hothers.2⟩) s.protowrap)
          fun _ => Settled.of_not_replied hnot
      · -- the reply is taken, and nothing is dropped
        rcases List.cons.inj hmsgs with ⟨rfl, hnil⟩
        rw [Handshake.pass_recv_reply hpop hm]
        refine passGood_finish ⟨rfl, hreplied, ?_⟩ nofun
        change s.handed ++ s.inpBuf.buf = behindReply s.seen
        rw [hfresh.handed, hbehind, (List.append_eq_nil_iff.mp hnil).2]
        rfl
      · -- the message in front of the reply is taken, and there is another pass
        rcases hfront.msgs_eq with ⟨a, m, ha, hm, ham⟩
        rcases List.cons.inj ham with ⟨rfl, hrest⟩
        rw [Handshake.pass_recv_other hpop ha]
        refine passGood_finish (inv_handshake _ hfresh hne ?_ s.protowrap) fun hnot => ?_
        · exact .inr ⟨hfront.replied_eq, hfront.behind, m, hm, hrest⟩
        · rw [hfront.progress] at hnot
          cases hnot

/-- A pass of the handshake in a calm run -/
theorem pollHandshake_good (hfresh : Fresh s) (hne : st.state ≠ .done)
    (hholds : Holds s (st.inpBuf.buf ++ s.inpBuf.buf) ∨ InFront hpp st s (st.inpBuf.buf ++ s.inpBuf.buf)) :
    PassGood (pollHandshake g hpp st s : Pass Connected (Except ConnectedError (List ι))) := by
  unfold pollHandshake
  rcases hmove : moveToHandshake hpp st s with ⟨hpp', st', t⟩
  have hmoved := moveToHandshake_spec hmove
  have hseen : t.seen = s.seen := by rw [hmoved.conn]
  have hwrap : t.protowrap = s.protowrap := by rw [hmoved.conn]
  have hfresh : Fresh t := by
    rw [hmoved.conn]
    exact ⟨hfresh.handed, hfresh.reached⟩
  rw [← hmoved.state_eq] at hne
  rw [← hmoved.held_eq] at hholds
  have hholds : Holds t (st'.inpBuf.buf ++ t.inpBuf.buf) ∨ InFront hpp' st' t (st'.inpBuf.buf ++ t.inpBuf.buf) :=
    hholds.imp (fun h => h.of_seen hseen) fun h => h.of_seen hseen hwrap hmoved.state_eq hmoved.progress
  dsimp only
  cases hspace : t.protowrap.isSpace with
  | true =>
      cases hstate : st'.state with
      | done => exact absurd hstate hne
      | helloRecv => exact pollIfSpace_awaits hfresh (.inr hstate) hholds hmoved.given hspace
      | helloSend msgs =>
          cases msgs with
          | nil => exact pollIfSpace_awaits hfresh (.inl hstate) hholds hmoved.given hspace
          | cons msg msgs =>
              rw [pollIfSpace, if_pos hspace, Handshake.pollNext_send hstate]
              have hholds : Holds t (st'.inpBuf.buf ++ t.inpBuf.buf) := by
                rcases hholds with hholds | hfront
                · exact hholds
                · cases hstate.symm.trans hfront.state_eq
              have hne : HandshakeState.helloSend msgs ≠ .done := nofun
              exact passGood_finish (inv_handshake ⟨_, st'.inpBuf⟩ hfresh hne hholds _) nofun
  | false =>
      rw [pollIfSpace, if_neg (by rw [hspace]; exact Bool.false_ne_true)]
      rcases hholds with hholds | hfront
      · refine passGood_finish (inv_handshake _ hfresh hne hholds t.protowrap) fun _ _ h => ?_
        rw [hspace] at h
        cases h
      · rw [hfront.space] at hspace
        cases hspace

/-- What moving a command or a message to {lit}`ActiveCa` does -/
structure Handed (s t : Connected) : Prop where
  seen_eq : t.seen = s.seen
  reached_eq : t.reached = s.reached
  msgs_eq : t.handed ++ t.inpBuf.buf = s.handed ++ s.inpBuf.buf

variable {inp inp' : AsynBuf InpItem inpBufCap}

theorem moveCmd_handed (hmove : moveCmd hpp inp s = (hpp', inp', t)) : Handed s t := by
  unfold moveCmd at hmove
  split at hmove
  · split at hmove
    · cases hmove
      exact ⟨rfl, rfl, rfl⟩
    · cases hmove
      exact ⟨rfl, rfl, rfl⟩
  · cases hmove
    exact ⟨rfl, rfl, rfl⟩

theorem moveToActive_handed (hmove : moveToActive hpp inp s = (hpp', inp', t)) : Handed s t := by
  unfold moveToActive at hmove
  split at hmove
  · rename_i x rest hpop
    split at hmove
    · cases hmove
      refine ⟨rfl, rfl, ?_⟩
      rw [AsynBuf.popFront_eq_some hpop, List.append_assoc]
      rfl
    · cases hmove
      exact ⟨rfl, rfl, rfl⟩
  · cases hmove
    exact ⟨rfl, rfl, rfl⟩

theorem Active.handed (h : Active s) (hhanded : Handed s t) : Active t :=
  ⟨hhanded.reached_eq.trans h.reached, by rw [hhanded.seen_eq, h.replied_eq],
    by rw [hhanded.msgs_eq, hhanded.seen_eq, h.msgs_eq]⟩

theorem Active.reads (h : Active s) (hreads : Reads p s hpp t) : Active t := by
  refine ⟨hreads.reached_eq.trans h.reached, ?_, ?_⟩
  · rcases hreads.msgs with ⟨-, hseen⟩ | ⟨m, -, -, hseen, -⟩
    · rw [hseen, h.replied_eq]
    · rw [hseen, replied_concat, h.replied_eq]
      rfl
  · rcases hreads.msgs with ⟨hbuf, hseen⟩ | ⟨m, -, hbuf, hseen, -⟩
    · rw [hreads.handed_eq, hbuf, hseen, h.msgs_eq]
    · rw [hreads.handed_eq, hbuf, hseen, ← List.append_assoc, h.msgs_eq, behindReply_concat_of_replied h.replied_eq]

theorem Active.inv (h : Active s) (inp : AsynBuf InpItem inpBufCap) (w : ProtoPusher) :
    Inv { s with state := .activeCa inp, protowrap := w } :=
  ⟨h.reached, h.replied_eq, h.msgs_eq⟩

theorem Active.inv_done (h : Active s) : Inv s.gotoStateDone :=
  ⟨h.reached, ⟨s.inpBuf.buf, h.msgs_eq⟩⟩

/-- A pass of {lit}`ActiveCa` -/
theorem pollActiveCa_good (hactive : Active s) :
    PassGood (pollActiveCa g p hpp inp s : Pass Connected (Except ConnectedError (List ι))) := by
  unfold pollActiveCa
  rcases hcmd : moveCmd hpp inp s with ⟨hpp1, inp1, s1⟩
  rcases hmsg : moveToActive hpp1 inp1 s1 with ⟨hpp2, inp2, s2⟩
  have hactive : Active s2 := (hactive.handed (moveCmd_handed hcmd)).handed (moveToActive_handed hmsg)
  dsimp only
  rw [hmsg]
  dsimp only
  split
  · split
    · exact hactive.inv _ _
    · exact hactive.inv_done
    · exact passGood_finish hactive.inv_done nofun
    · exact passGood_finish (hactive.inv _ s2.protowrap) fun _ _ _ => hactive.reached
  · exact passGood_finish (hactive.inv _ s2.protowrap) fun _ _ _ => hactive.reached

/-- The rest of a pass in a calm run -/
theorem pollState_good (hinv : Inv s) (hne : s.state ≠ .done) (hcalm : s.handshaking = true → Calm p s)
    (hreads : Reads p s hpp t) :
    PassGood (t.pollState g p hpp : Pass Connected (Except ConnectedError (List ι))) := by
  unfold pollState
  unfold Inv at hinv
  rw [hreads.state_eq]
  cases hstate : s.state with
  | init =>
      rw [hstate] at hinv
      have hheld : s.held = Handshake.new.inpBuf.buf ++ s.inpBuf.buf := by
        rw [held, hstate]
        rfl
      have hlooks : s.looks = false := by rw [looks, hstate]
      have hcalm := hcalm (by rw [handshaking, hstate])
      have hfresh : Fresh t := ⟨hreads.handed_eq.trans hinv.1.handed, hreads.reached_eq.trans hinv.1.reached⟩
      rcases holds_of_calm hheld (by rw [hlooks]; nofun) hinv.2 hcalm hreads with hholds | hfront
      · have hne : Handshake.new.state ≠ .done := fun h => by cases h
        exact passGood_finish (inv_handshake _ hfresh hne hholds t.protowrap) nofun
      · cases hfront.state_eq
  | handshake st =>
      rw [hstate] at hinv
      have hheld : s.held = st.inpBuf.buf ++ s.inpBuf.buf := by rw [held, hstate]
      have hlook : s.looks = true → st.state = .helloRecv ∧ s.protowrap.isSpace = true := by
        rw [looks, hstate, Bool.and_eq_true, decide_eq_true_iff]
        exact id
      have hcalm := hcalm (by rw [handshaking, hstate])
      have hfresh : Fresh t := ⟨hreads.handed_eq.trans hinv.1.handed, hreads.reached_eq.trans hinv.1.reached⟩
      exact pollHandshake_good hfresh hinv.2.1 (holds_of_calm hheld hlook hinv.2.2 hcalm hreads)
  | activeCa inp =>
      rw [hstate] at hinv
      exact pollActiveCa_good (Active.reads hinv hreads)
  | done => exact absurd hstate hne

/-- A pass in a calm run -/
theorem pollNext_good (hinv : Inv s) (hcalm : s.handshaking = true → Calm p s) :
    PassGood (s.pollNext g p : Pass Connected (Except ConnectedError (List ι))) := by
  unfold pollNext
  split
  · rename_i hstate
    rw [pollState, hstate]
    refine passGood_finish hinv fun _ _ _ => ?_
    rw [Inv, hstate] at hinv
    exact hinv.1
  · rename_i hne
    split
    · exact hinv
    · split
      · rename_i hpp t hpoll
        exact pollState_good hinv hne hcalm (pollProtowrap_ok hpoll)
      · rename_i t hpoll
        rcases pollProtowrap_error hpoll with ⟨hread, hdone, hhanded, hreached, hseen⟩
        have hover : s.handshaking = false := by
          refine Bool.eq_false_iff.mpr fun hshaking => ?_
          have hfalse := hcalm hshaking
          rw [Calm, hread] at hfalse
          exact hfalse
        cases hstate : s.state with
        | init => rw [handshaking, hstate] at hover; cases hover
        | handshake st => rw [handshaking, hstate] at hover; cases hover
        | activeCa inp =>
            rw [Inv, hstate] at hinv
            change Inv t
            rw [Inv, hdone]
            refine ⟨hreached.trans hinv.reached, s.inpBuf.buf, ?_⟩
            rw [hhanded, hseen]
            exact hinv.msgs_eq
        | done => exact absurd hstate hne

/-- A command changes nothing else. -/
theorem inv_cmd (hinv : Inv s) (b : AsynBuf CaCommand connectedInpBufCap) : Inv { s with inpCmdBuf := b } := by
  unfold Inv at hinv ⊢
  dsimp only
  cases hstate : s.state with
  | init =>
      rw [hstate] at hinv
      exact ⟨⟨hinv.1.handed, hinv.1.reached⟩, hinv.2⟩
  | handshake st =>
      rw [hstate] at hinv
      exact ⟨⟨hinv.1.handed, hinv.1.reached⟩, hinv.2⟩
  | activeCa inp =>
      rw [hstate] at hinv
      exact ⟨hinv.reached, hinv.replied_eq, hinv.msgs_eq⟩
  | done =>
      rw [hstate] at hinv
      exact hinv

/-- What an output tells -/
def OutputGood (o : ConnectedOutput ι) : Prop :=
  match o with
  | .settled t => Settled t
  | .item _ => True

/-- An event in a calm run -/
theorem step_good (e : ConnectedEvent ι) (hcalm : CalmEvent e s) (hinv : Inv s) :
    Inv (s.step g e).2 ∧ ∀ o ∈ (s.step g e).1, OutputGood o := by
  cases e with
  | cmd x => exact ⟨inv_cmd hinv _, nofun⟩
  | poll p =>
      have hgood : PassGood (s.pollNext g p) := pollNext_good hinv hcalm
      rw [step, stepPoll]
      cases hpass : s.pollNext g p with
      | panic =>
          rw [hpass] at hgood
          exact hgood.elim
      | again t =>
          rw [hpass] at hgood
          exact ⟨hgood, nofun⟩
      | item x t =>
          rw [hpass] at hgood
          exact ⟨hgood, List.forall_mem_singleton.mpr trivial⟩
      | pending t =>
          rw [hpass] at hgood
          exact ⟨hgood.1, List.forall_mem_singleton.mpr hgood.2⟩
      | done t =>
          rw [hpass] at hgood
          exact ⟨hgood.1, List.forall_mem_singleton.mpr hgood.2⟩

/-- {lit}`ActiveCa` gets the messages behind the reply in order, and while there is one, those that it did not get are
held; the handshake ends with {lit}`ActiveCa`. -/
structure HandsOver (s : Connected) : Prop where
  inOrder : s.handed <+: behindReply s.seen
  complete : ∀ inp, s.state = .activeCa inp → s.handed ++ s.inpBuf.buf = behindReply s.seen
  ended : s.handshaking = false → s.reached = true

theorem Inv.handsOver (hinv : Inv s) : HandsOver s := by
  unfold Inv at hinv
  cases hstate : s.state with
  | init =>
      rw [hstate] at hinv
      refine ⟨by rw [hinv.1.handed]; exact List.nil_prefix, fun _ h => (by cases hstate.symm.trans h), fun hover => ?_⟩
      rw [handshaking, hstate] at hover
      cases hover
  | handshake st =>
      rw [hstate] at hinv
      refine ⟨by rw [hinv.1.handed]; exact List.nil_prefix, fun _ h => (by cases hstate.symm.trans h), fun hover => ?_⟩
      rw [handshaking, hstate] at hover
      cases hover
  | activeCa inp =>
      rw [hstate] at hinv
      exact ⟨⟨_, hinv.msgs_eq⟩, fun _ _ => hinv.msgs_eq, fun _ => hinv.reached⟩
  | done =>
      rw [hstate] at hinv
      exact ⟨hinv.2, fun _ h => (by cases hstate.symm.trans h), fun _ => hinv.1⟩

theorem inv_new : Inv new := ⟨⟨rfl, rfl⟩, .inl ⟨rfl, nofun⟩⟩

/-- In every calm run, the messages behind the reply are handed on exactly once and in order, and no poll ends with a
reply that has not led to {lit}`ActiveCa`. -/
theorem handsOver_run (g : Growth) (es : List (ConnectedEvent ι)) (halong : (machine g).Along CalmEvent es new) :
    HandsOver ((machine g).run es new).2 ∧ ∀ o ∈ ((machine g).run es new).1, OutputGood o := by
  constructor
  · exact (Machine.inv_run (fun e s (hcalm : CalmEvent e s) hinv => (step_good e hcalm hinv).1) halong
      inv_new).handsOver
  · exact Machine.outputs_run (fun e s (hcalm : CalmEvent e s) hinv => (step_good e hcalm hinv).1)
      (fun e s hcalm hinv => (step_good e hcalm hinv).2) halong inv_new

end Runs

/-! ## Examples of runs -/

section Examples

/-- A pass in which the protocol sends what there is, and gives the answer -/
def reading (read : ProtoRead) : ConnectedEvent Unit := .poll ⟨.idle, 3, read, 3, .pending⟩

/-- The reply comes while the messages are being sent, and another message comes later. -/
theorem handsOver_reply :
    let es := [reading .pending, reading (.msg ⟨.versionRes 13⟩), reading .pending, reading .pending, reading .pending,
      reading (.msg ⟨.createChanRes 6 1 0 7⟩), reading .pending]
    HandsOver ((machine Asynbuf.doubling).run es new).2 ∧
      ∀ o ∈ ((machine Asynbuf.doubling).run es new).1, OutputGood o :=
  handsOver_run Asynbuf.doubling _
    ⟨fun _ => trivial, fun _ => ⟨rfl, fun _ => rfl, fun _ => .inl rfl⟩, fun _ => trivial, fun _ => trivial,
      fun _ => trivial, nofun, nofun, trivial⟩

/-- A message that comes right behind the reply, while the messages are being sent, is lost. -/
theorem not_handsOver_burst :
    ¬ ∀ es : List (ConnectedEvent Unit), (∀ e ∈ es, ∃ read, e = reading read ∧ read ≠ .err) →
      HandsOver ((machine Asynbuf.doubling).run es new).2 := by
  intro hall
  have hlost := hall [reading .pending, reading (.msg ⟨.versionRes 13⟩), reading (.msg ⟨.createChanRes 6 1 0 7⟩),
    reading .pending, reading .pending] (by
      intro e he
      simp only [List.mem_cons, List.not_mem_nil, or_false] at he
      rcases he with rfl | rfl | rfl | rfl | rfl
      all_goals exact ⟨_, rfl, nofun⟩)
  exact absurd (hlost.complete .new (by decide +kernel)) (by decide +kernel)

end Examples

end Connected

end Ca
end Daqbuf
