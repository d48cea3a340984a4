import Daqbuf.Channelheap.Creating
import Daqbuf.Channelheap.Running
import Daqbuf.Slots.Pool
/-!
# The Handler of a Channel

The handler takes a channel from its creation over its operation to its end.  In each state it looks at the messages in
its own way; a command can ask it to remove the channel, and the input can end.

Some of what it does not expect makes it panic, and a channel that can not be created makes the process exit.

A run is a list of events: messages, commands, the end of the input, elapsed timers, the answer of the lookup, and
passes of the poll loop, in any order.

Main results:

- Theorem {lit}`ChannelHandler.tolerates_iff`: in every run the handler tolerates what comes, exactly if each pass finds
  only messages that its state knows, and each command and the end of the input come in a state that expects them.
-/

namespace Daqbuf
namespace Channelheap

open Poll
open Ca (CaMsgTy CaEventValue)
open Connset (HaveProgressPending)
open Netpod (ScalarType Shape)
open Slots (Reached Along forall_reached_iff_along_of_inv)

/-! ## The state -/

/-- {lit}`Cmd`; whom the commands are reported to is left out. -/
inductive ChannelHandler.Cmd where
  | remove
  | channelHandlerStatus
  deriving DecidableEq, Repr

/-- {lit}`State`; the one that stands in while the state is exchanged is left out. -/
inductive ChannelHandler.State where
  | init
  | creating (st : Creating)
  | running (st : Running)
  | closing1 (chanCloseAck fut : Bool) (timer : Sleep)
  | closing2
  | done1
  | done
  deriving DecidableEq

/-- {lit}`ChannelHandler`; of the configuration it is kept whether the channel is polled. -/
structure ChannelHandler where
  state : ChannelHandler.State
  removing : Bool
  cid : UInt32
  name : String
  backend : String
  isPolled : Bool
  protoInpBuf : List CaMsgTy
  protoInpDone : Bool
  cmds : List ChannelHandler.Cmd
  deriving DecidableEq

/-- {lit}`ItemInner`, and the error that a handler reports -/
inductive HandlerItem where
  | channelInfoQuery (backend channel : String) (scalarType : ScalarType) (shape : Shape)
  | protoOut (msg : CaMsgTy)
  | running (x : RunningItem)
  | protoRxClosed
  deriving DecidableEq

namespace ChannelHandler

/-- The process panics, or it exits because the channel can not be created. -/
inductive Fault where
  | panicked
  | exited (e : Creating.Error)
  deriving DecidableEq

/-- {lit}`ChannelHandler::new` -/
def new (cid : UInt32) (name backend : String) (isPolled : Bool) : ChannelHandler :=
  ⟨.init, false, cid, name, backend, isPolled, [], false, []⟩

/-- {lit}`handle_cmd_remove` -/
def handleCmdRemove (s : ChannelHandler) : Except Fault ChannelHandler :=
  match s.state with
  | .init => .ok { s with removing := true, state := .done1 }
  | .creating _ => .error .panicked
  | .running st => .ok { s with removing := true, state := .running st.triggerRemove }
  | .closing1 _ _ _ | .closing2 => .ok { s with removing := true }
  | .done1 | .done => .error .panicked

/-- {lit}`handle_cmd` -/
def handleCmd (cmd : Cmd) (s : ChannelHandler) : Except Fault ChannelHandler :=
  match cmd with
  | .remove => if s.removing then .ok s else s.handleCmdRemove
  | .channelHandlerStatus => .ok s

/-- A command is taken, if there is one; at the end it is ignored. -/
def pollCmd (s : ChannelHandler) : Except Fault (HaveProgressPending × ChannelHandler) :=
  match s.cmds with
  | [] => .ok (⟨false, true⟩, s)
  | cmd :: rest =>
    match s.state with
    | .done => .ok (⟨true, false⟩, { s with cmds := rest })
    | _ => ({ s with cmds := rest }.handleCmd cmd).map fun t => (⟨true, false⟩, t)

/-- {lit}`poll_proto_rx_creating`, which hands messages on as long as they are taken; {lit}`none` where the input has
ended and all were taken. -/
def pollProtoRxCreating (s : ChannelHandler) (st : Creating) :
    Option (HaveProgressPending × ChannelHandler × Creating) :=
  let taken := s.protoInpBuf.take (16 - st.inpBuf.length)
  let rest := s.protoInpBuf.drop (16 - st.inpBuf.length)
  if rest = [] ∧ s.protoInpDone = true then none
  else
    some (if taken = [] then ⟨false, true⟩ else ⟨true, false⟩, { s with protoInpBuf := rest },
      { st with inpBuf := st.inpBuf ++ taken })

/-- What a pass does while the channel is created. -/
def passCreating (hpp : HaveProgressPending) (s : ChannelHandler) (st : Creating) :
    Except Fault (Pass ChannelHandler HandlerItem) :=
  match s.pollProtoRxCreating st with
  | none => .ok (.item .protoRxClosed { s with state := .done1, protoInpBuf := [] })
  | some (hpp', s, st) =>
    let hpp : HaveProgressPending := ⟨hpp.progress || hpp'.progress, hpp.pending || hpp'.pending⟩
    match st.pollNext with
    | .item (.ok (.caMsgOut m)) t => .ok (.item (.protoOut m) { s with state := .creating t })
    | .item (.ok (.channelInfoQuery backend channel scalarType shape)) t =>
      .ok (.item (.channelInfoQuery backend channel scalarType shape) { s with state := .creating t })
    | .item (.ok (.done sid _ shape caDbrTy series)) _ =>
      .ok ({ hpp with progress := true }.finish
        { s with state := .running (Running.new s.isPolled s.cid sid shape caDbrTy series) })
    | .item (.error e) _ => .error (.exited e)
    | .done t => .ok (hpp.finish { s with state := .creating t })
    | .pending t => .ok ({ hpp with pending := true }.finish { s with state := .creating t })
    -- a poll leaves its loop, by `Creating.pollNext_ne_again`
    | .again t => .ok (.again { s with state := .creating t })
    | .panic => .error .panicked

/-- The messages that a running channel has room for are moved to it. -/
def moveProtoInp (s : ChannelHandler) (st : Running) : HaveProgressPending × ChannelHandler × Running :=
  let taken := s.protoInpBuf.take (64 - st.inpBuf.length)
  let rest := s.protoInpBuf.drop (64 - st.inpBuf.length)
  (⟨!taken.isEmpty, !rest.isEmpty⟩, { s with protoInpBuf := rest }, { st with inpBuf := st.inpBuf ++ taken })

/-- What a pass does while the channel is running. -/
def passRunning (hpp : HaveProgressPending) (s : ChannelHandler) (st : Running) :
    Except Fault (Pass ChannelHandler HandlerItem) :=
  match s.moveProtoInp st with
  | (hpp', s, st) =>
    let hpp : HaveProgressPending := ⟨hpp.progress || hpp'.progress, hpp.pending || hpp'.pending⟩
    match st.pollNext with
    | .item x t => .ok (.item (.running x) { s with state := .running t })
    | .pending t => .ok ({ hpp with pending := true }.finish { s with state := .running t })
    | .done t =>
      .ok (.item (.protoOut (.channelClose t.sid s.cid))
        { s with state := .closing1 false true (sleep (.millis 2000)) })
    -- a poll leaves its loop, by `Running.pollNext_ne_again`
    | .again t => .ok (.again { s with state := .running t })
    | .panic => .error .panicked

/-- A reply to a request to close the channel -/
def isChannelCloseRes : CaMsgTy → Bool
  | .channelCloseRes _ _ => true
  | _ => false

/-- What a pass does while the close request is out; the future that is waited for as well is ready at once. -/
def passClosing1 (hpp : HaveProgressPending) (s : ChannelHandler) (ack fut : Bool) (timer : Sleep) :
    Pass ChannelHandler HandlerItem :=
  let ack := ack || (s.protoInpBuf.take 1).any isChannelCloseRes
  let hpp : HaveProgressPending :=
    ⟨hpp.progress || fut || !s.protoInpBuf.isEmpty, hpp.pending || (s.protoInpBuf.isEmpty && !s.protoInpDone)⟩
  let s := { s with protoInpBuf := s.protoInpBuf.tail }
  if ack || timer.elapsed then { hpp with progress := true }.finish { s with state := .closing2 }
  else { hpp with pending := true }.finish { s with state := .closing1 ack false timer }

/-- What the state asks for, after the commands were looked at. -/
def passState (hpp : HaveProgressPending) (s : ChannelHandler) : Except Fault (Pass ChannelHandler HandlerItem) :=
  match s.state with
  | .init =>
    .ok ({ hpp with progress := true }.finish { s with state := .creating (Creating.new s.cid s.name s.backend) })
  | .creating st => s.passCreating hpp st
  | .running st => s.passRunning hpp st
  | .closing1 ack fut timer => .ok (s.passClosing1 hpp ack fut timer)
  | .closing2 => .ok ({ hpp with progress := true }.finish { s with state := .done1 })
  | .done1 => .ok ({ hpp with progress := true }.finish { s with state := .done })
  | .done => .ok (hpp.finish s)

/-- One pass of the loop of {lit}`poll_next` -/
def pass (s : ChannelHandler) : Except Fault (Pass ChannelHandler HandlerItem) :=
  match s.pollCmd with
  | .ok (hpp, t) => t.passState hpp
  | .error e => .error e

/-- {lit}`inp_push_try`; {lit}`none` where the message comes back. -/
def inpPushTry (m : CaMsgTy) (s : ChannelHandler) : Option ChannelHandler :=
  if s.protoInpBuf.length < 64 then some { s with protoInpBuf := s.protoInpBuf ++ [m] } else none

/-- {lit}`inp_done` -/
def endInp (s : ChannelHandler) : Except Fault ChannelHandler :=
  match s.state with
  | .creating st => .ok { s with protoInpDone := true, state := .creating st.endInp }
  | .running st => .ok { s with protoInpDone := true, state := .running st.endInp }
  | .closing1 _ _ _ | .closing2 => .error .panicked
  | .init | .done1 | .done => .ok { s with protoInpDone := true }

/-- A command is sent, if there is room for it. -/
def sendCmd (cmd : Cmd) (s : ChannelHandler) : ChannelHandler :=
  if s.cmds.length < 16 then { s with cmds := s.cmds ++ [cmd] } else s

/-- The timers of a handler -/
inductive Timer where
  | creating
  | polling
  | monitoring
  | closing
  deriving DecidableEq, Repr

/-- A timer elapses. -/
def elapse (timer : Timer) (s : ChannelHandler) : ChannelHandler :=
  match timer, s.state with
  | .creating, .creating st => { s with state := .creating st.elapse }
  | .polling, .running st =>
    { s with
      state := .running { st with state := st.state.modify fun mpx => { mpx with polling := mpx.polling.elapse } } }
  | .monitoring, .running st =>
    { s with
      state := .running
        { st with state := st.state.modify fun mpx => { mpx with monitoring := mpx.monitoring.elapse } } }
  | .closing, .closing1 ack fut timer => { s with state := .closing1 ack fut timer.elapse }
  | _, _ => s

/-- The lookup of the series answers. -/
def lookup (answer : Creating.Lookup) (s : ChannelHandler) : ChannelHandler :=
  match s.state with
  | .creating st => { s with state := .creating (st.lookup answer) }
  | _ => s

/-! ## Runs -/

/-- What can happen to a handler. -/
inductive Event where
  | message (m : CaMsgTy)
  | command (cmd : Cmd)
  | inpDone
  | elapses (timer : Timer)
  | lookup (answer : Creating.Lookup)
  | pass
  deriving DecidableEq

/-- A handler that is watched, or the fault that ended it; and whether the end of the channel was announced to it. -/
structure Watched where
  handler : Except Fault ChannelHandler
  announced : Bool

/-- The messages that announce the end of a channel -/
def announcesEnd : CaMsgTy → Bool
  | .channelCloseRes _ _ | .channelDisconnect _ => true
  | _ => false

/-- The handler behind a pass -/
def behind : Except Fault (Pass ChannelHandler HandlerItem) → Except Fault ChannelHandler
  | .ok (.again s) | .ok (.pending s) | .ok (.item _ s) | .ok (.done s) => .ok s
  | .ok .panic => .error .panicked
  | .error e => .error e

/-- A handler handles an event. -/
def handle (e : Event) (s : ChannelHandler) (announced : Bool) : Watched :=
  match e with
  | .message m =>
    match s.inpPushTry m with
    | some t => ⟨.ok t, announced || announcesEnd m⟩
    | none => ⟨.ok s, announced⟩
  | .command cmd => ⟨.ok (s.sendCmd cmd), announced⟩
  | .inpDone => ⟨s.endInp, announced⟩
  | .elapses timer => ⟨.ok (s.elapse timer), announced⟩
  | .lookup answer => ⟨.ok (s.lookup answer), announced⟩
  | .pass => ⟨behind s.pass, announced⟩

/-- A step of a run, which ends with a fault. -/
def step (e : Event) (w : Watched) : Option Watched :=
  match w.handler with
  | .ok s => some (handle e s w.announced)
  | .error _ => none

/-! ## What is tolerated -/

/-- The channel has come to its end, or is about to. -/
def ended (s : ChannelHandler) : Bool :=
  match s.state with
  | .closing1 _ _ _ | .closing2 | .done1 | .done => true
  | .init | .creating _ | .running _ => false

/-- There is a reason for the channel to end: it is to be removed, the input has ended, or the end was announced. -/
def Excused (s : ChannelHandler) (announced : Bool) : Prop :=
  s.removing = true ∨ s.protoInpDone = true ∨ announced = true

/-- What has come has not made the process panic or exit, and the channel has not ended without a reason. -/
def Tolerates (w : Watched) : Prop :=
  match w.handler with
  | .error .panicked => False
  | .error (.exited e) => e.ofInput = false
  | .ok s => s.ended = true → s.Excused w.announced

/-- A command to remove the channel is up next, and no such command was taken before. -/
def RemoveNext (s : ChannelHandler) : Prop := s.cmds.head? = some .remove ∧ s.removing = false

/-- A command to remove the channel comes in a state that expects it. -/
def ExpectsRemove (s : ChannelHandler) : Prop :=
  match s.state with
  | .creating _ | .done1 => False
  | _ => True

/-- The state knows what it finds in a pass.  While the channel is created, these are replies that accept the request;
while it is running without a reason to end, these are messages that the dispatch knows. -/
def Knows (s : ChannelHandler) (announced : Bool) : Prop :=
  match s.state with
  | .creating st =>
    s.protoInpBuf.drop (16 - st.inpBuf.length) = [] ∧ s.protoInpDone = true ∨
      { st with inpBuf := st.inpBuf ++ s.protoInpBuf.take (16 - st.inpBuf.length) }.Accepts
  | .running st =>
    s.Excused announced ∨
      match st.state with
      | .normal mpx => Running.Takes (64 - mpx.inpBuf.length) (st.inpBuf ++ s.protoInpBuf.take (64 - st.inpBuf.length))
      | .done => True
  | _ => True

/-- An event comes in a state that expects it. -/
def Expects (e : Event) (w : Watched) : Prop :=
  match w.handler, e with
  | .ok s, .pass => (s.RemoveNext → s.ExpectsRemove) ∧ (¬s.RemoveNext → s.Knows w.announced)
  | .ok s, .inpDone =>
    match s.state with
    | .closing1 _ _ _ | .closing2 => False
    | _ => True
  | _, _ => True

/-- What holds of a handler in any case: a running channel is healthy, as long as there is no reason for it to end. -/
def Consistent (w : Watched) : Prop :=
  match w.handler with
  | .error _ => True
  | .ok s =>
    match s.state with
    | .running st => st.Sound ∧ ((∃ mpx, st.Healthy mpx) ∨ s.Excused w.announced)
    | _ => True

/-! ## What a pass does -/

@[simp]
theorem behind_finish (hpp : HaveProgressPending) (s : ChannelHandler) : behind (.ok (hpp.finish s)) = .ok s := by
  unfold HaveProgressPending.finish
  (repeat' split) <;> rfl

/-- The handler is consistent, and it tolerates what has come exactly under a condition. -/
def Meets (w : Watched) (P : Prop) : Prop := Consistent w ∧ (Tolerates w ↔ P)

theorem Meets.congr {w : Watched} {P Q : Prop} (hmeets : Meets w P) (hPQ : P ↔ Q) : Meets w Q :=
  ⟨hmeets.1, hmeets.2.trans hPQ⟩

theorem Meets.of_starting {s : ChannelHandler} {announced : Bool} {P : Prop}
    (hstate : s.state = .init ∨ ∃ st, s.state = .creating st) (hP : P) : Meets ⟨.ok s, announced⟩ P := by
  rcases hstate with hstate | ⟨st, hstate⟩
  · exact ⟨by simp only [Consistent, hstate], by simp [Tolerates, ended, hstate, hP]⟩
  · exact ⟨by simp only [Consistent, hstate], by simp [Tolerates, ended, hstate, hP]⟩

theorem Meets.of_running {s : ChannelHandler} {st : Running} {announced : Bool} {P : Prop}
    (hstate : s.state = .running st) (hsound : st.Sound) (hgood : (∃ mpx, st.Healthy mpx) ∨ s.Excused announced)
    (hP : P) : Meets ⟨.ok s, announced⟩ P := by
  constructor
  · simp only [Consistent, hstate]
    exact ⟨hsound, hgood⟩
  · simp [Tolerates, ended, hstate, hP]

theorem Meets.of_ended {s : ChannelHandler} {announced : Bool} {P : Prop} (hended : s.ended = true)
    (hP : s.Excused announced ↔ P) : Meets ⟨.ok s, announced⟩ P := by
  constructor
  · cases hstate : s.state with
    | running st => simp [ended, hstate] at hended
    | _ => simp only [Consistent, hstate]
  · simpa [Tolerates, hended] using hP

/-- A new running channel is healthy. -/
theorem healthy_new (isPolled : Bool) (cid sid : UInt32) (shape : Shape) (caDbrTy : UInt16) (series : ℕ) :
    (Running.new isPolled cid sid shape caDbrTy series).Sound ∧
      (Running.new isPolled cid sid shape caDbrTy series).Healthy
        (Fetchmpx.new isPolled series cid sid shape caDbrTy) := by
  have hnew : (Fetchmpx.new isPolled series cid sid shape caDbrTy).Healthy := by
    unfold Fetchmpx.new
    split <;> exact ⟨rfl, rfl, nofun⟩
  refine ⟨⟨Nat.zero_le _, ?_⟩, rfl, rfl, hnew⟩
  intro mpx hmpx hdone
  cases hmpx
  rw [hnew.inpDone] at hdone
  cases hdone

/-- While the channel is created, a pass is expected to find a reply that accepts the request. -/
theorem meets_passCreating {s : ChannelHandler} {st : Creating} {announced : Bool} (hpp : HaveProgressPending)
    (hstate : s.state = .creating st) : Meets ⟨behind (s.passCreating hpp st), announced⟩ (s.Knows announced) := by
  unfold passCreating pollProtoRxCreating
  simp only [Knows, hstate]
  by_cases hdone : s.protoInpBuf.drop (16 - st.inpBuf.length) = [] ∧ s.protoInpDone = true
  · rw [if_pos hdone]
    exact Meets.of_ended rfl (iff_of_true (.inr (.inl hdone.2)) (.inl hdone))
  · rw [if_neg hdone, or_iff_right hdone]
    generalize ({ st with inpBuf := st.inpBuf ++ s.protoInpBuf.take (16 - st.inpBuf.length) } : Creating) = st'
    have hrefuses := st'.refuses_pollNext_iff
    have haccepts : ¬Creating.Refuses st'.pollNext → st'.Accepts := by
      intro h
      by_contra hnot
      exact h (hrefuses.mpr hnot)
    have hleaves := st'.leaves_pollNext
    dsimp only
    cases hpoll : st'.pollNext with
    | again t => exact absurd hpoll (st'.pollNext_ne_again t)
    | panic =>
        rw [hpoll] at hleaves
        exact hleaves.elim
    | pending t =>
        rw [hpoll] at haccepts
        dsimp only
        rw [behind_finish]
        exact Meets.of_starting (.inr ⟨_, rfl⟩) (haccepts id)
    | done t =>
        rw [hpoll] at haccepts
        dsimp only
        rw [behind_finish]
        exact Meets.of_starting (.inr ⟨_, rfl⟩) (haccepts id)
    | item x t =>
        rw [hpoll] at haccepts hrefuses
        cases x with
        | error e =>
            refine ⟨trivial, ?_⟩
            have hinput : Creating.Refuses (.item (.error e) t) ↔ e.ofInput = true := Iff.rfl
            rw [hinput] at hrefuses
            rw [← not_iff_not, ← hrefuses]
            simp [Tolerates, behind]
        | ok item =>
            cases item with
            | caMsgOut m => exact Meets.of_starting (.inr ⟨_, rfl⟩) (haccepts id)
            | channelInfoQuery backend channel scalarType shape => exact Meets.of_starting (.inr ⟨_, rfl⟩) (haccepts id)
            | done sid scalarType shape caDbrTy series =>
                have hnew := healthy_new s.isPolled s.cid sid shape caDbrTy series
                dsimp only
                rw [behind_finish]
                exact Meets.of_running rfl hnew.1 (.inl ⟨_, hnew.2⟩) (haccepts id)

/-- While the channel is running without a reason to end, a pass is expected to find messages that it knows. -/
theorem meets_passRunning {s : ChannelHandler} {st : Running} {announced : Bool} (hpp : HaveProgressPending)
    (hstate : s.state = .running st) (hcons : Consistent ⟨.ok s, announced⟩) :
    Meets ⟨behind (s.passRunning hpp st), announced⟩ (s.Knows announced) := by
  simp only [Consistent, hstate] at hcons
  obtain ⟨hsound, hgood⟩ := hcons
  unfold passRunning moveProtoInp
  dsimp only
  have hmoved : ({ st with inpBuf := st.inpBuf ++ s.protoInpBuf.take (64 - st.inpBuf.length) } : Running).Sound := by
    refine ⟨?_, hsound.inpDone⟩
    have hcap := hsound.inpBuf
    have htake := List.length_take_le (64 - st.inpBuf.length) s.protoInpBuf
    rw [List.length_append]
    omega
  by_cases hexcused : s.Excused announced
  · have hknows : s.Knows announced := by
      simp only [Knows, hstate]
      exact .inl hexcused
    have hpolled := Running.sound_pollNext hmoved
    cases hpoll : Running.pollNext { st with inpBuf := st.inpBuf ++ s.protoInpBuf.take (64 - st.inpBuf.length) } with
    | again t => exact absurd hpoll (Running.pollNext_ne_again hmoved t)
    | panic =>
        rw [hpoll] at hpolled
        exact hpolled.elim
    | item x t =>
        rw [hpoll] at hpolled
        exact Meets.of_running rfl hpolled (.inr hexcused) hknows
    | pending t =>
        rw [hpoll] at hpolled
        dsimp only
        rw [behind_finish]
        exact Meets.of_running rfl hpolled (.inr hexcused) hknows
    | done t => exact Meets.of_ended rfl (iff_of_true hexcused hknows)
  · obtain ⟨mpx, hhealthy⟩ := hgood.resolve_right hexcused
    have hthere : ({ st with inpBuf := st.inpBuf ++ s.protoInpBuf.take (64 - st.inpBuf.length) } : Running).Healthy
        mpx := ⟨hhealthy.normal, hhealthy.inpDone, hhealthy.healthy⟩
    have hknows : s.Knows announced ↔ Running.Takes (64 - mpx.inpBuf.length)
        (st.inpBuf ++ s.protoInpBuf.take (64 - st.inpBuf.length)) := by
      simp only [Knows, hstate, hhealthy.normal]
      exact or_iff_right hexcused
    by_cases htakes : Running.Takes (64 - mpx.inpBuf.length)
        (st.inpBuf ++ s.protoInpBuf.take (64 - st.inpBuf.length))
    · have hstays := Running.stays_pollNext hthere htakes
      have hpolled := Running.sound_pollNext hmoved
      cases hpoll : Running.pollNext { st with inpBuf := st.inpBuf ++ s.protoInpBuf.take (64 - st.inpBuf.length) } with
      | item x t =>
          rw [hpoll] at hstays hpolled
          exact Meets.of_running rfl hpolled (.inl hstays) (hknows.mpr htakes)
      | pending t =>
          rw [hpoll] at hstays hpolled
          dsimp only
          rw [behind_finish]
          exact Meets.of_running rfl hpolled (.inl hstays) (hknows.mpr htakes)
      | _ =>
          rw [hpoll] at hstays
          exact hstays.elim
    · obtain ⟨t, hpoll⟩ := Running.done_pollNext hthere htakes
      rw [hpoll]
      exact Meets.of_ended rfl (iff_of_false hexcused fun h => htakes (hknows.mp h))

/-- What the state asks for is as expected exactly if the state knows what it finds. -/
theorem meets_passState {s : ChannelHandler} {announced : Bool} (hpp : HaveProgressPending)
    (hcons : Consistent ⟨.ok s, announced⟩) (htol : Tolerates ⟨.ok s, announced⟩) :
    Meets ⟨behind (s.passState hpp), announced⟩ (s.Knows announced) := by
  unfold passState
  cases hstate : s.state with
  | init =>
      dsimp only
      rw [behind_finish]
      exact Meets.of_starting (.inr ⟨_, rfl⟩) (by simp only [Knows, hstate])
  | creating st => exact meets_passCreating hpp hstate
  | running st => exact meets_passRunning hpp hstate hcons
  | closing1 ack fut timer =>
      have hexcused : s.Excused announced := htol (by simp only [ended, hstate])
      have hknows : s.Knows announced := by simp only [Knows, hstate]
      unfold passClosing1
      dsimp only
      split
      · rw [behind_finish]
        exact Meets.of_ended rfl (iff_of_true hexcused hknows)
      · rw [behind_finish]
        exact Meets.of_ended rfl (iff_of_true hexcused hknows)
  | closing2 =>
      have hexcused : s.Excused announced := htol (by simp only [ended, hstate])
      dsimp only
      rw [behind_finish]
      exact Meets.of_ended rfl (iff_of_true hexcused (by simp only [Knows, hstate]))
  | done1 =>
      have hexcused : s.Excused announced := htol (by simp only [ended, hstate])
      dsimp only
      rw [behind_finish]
      exact Meets.of_ended rfl (iff_of_true hexcused (by simp only [Knows, hstate]))
  | done =>
      have hended : s.ended = true := by simp only [ended, hstate]
      dsimp only
      rw [behind_finish]
      exact Meets.of_ended hended (iff_of_true (htol hended) (by simp only [Knows, hstate]))

/-- Without a command to remove the channel, and at the end, only a command is used up. -/
theorem pollCmd_of_not_removeNext {s : ChannelHandler} (hnext : ¬s.RemoveNext ∨ s.state = .done) :
    ∃ hpp cmds, s.pollCmd = .ok (hpp, { s with cmds := cmds }) := by
  unfold pollCmd
  split
  · exact ⟨_, s.cmds, rfl⟩
  · rename_i cmd rest hcmds
    split
    · exact ⟨_, rest, rfl⟩
    · rename_i hstate
      cases cmd with
      | channelHandlerStatus => exact ⟨_, rest, rfl⟩
      | remove =>
          cases hremoving : s.removing with
          | false => exact absurd ⟨by rw [hcmds, List.head?_cons], hremoving⟩ (hnext.resolve_right hstate)
          | true => exact ⟨⟨true, false⟩, rest, by simp [handleCmd, Except.map]⟩

/-- A command to remove the channel is handled, unless the channel is at its end. -/
theorem pollCmd_of_removeNext {s : ChannelHandler} (hnext : s.RemoveNext) (hstate : s.state ≠ .done) :
    s.pollCmd = ({ s with cmds := s.cmds.tail }.handleCmdRemove).map fun t => (⟨true, false⟩, t) := by
  obtain ⟨hhead, hremoving⟩ := hnext
  unfold pollCmd
  split
  · rename_i hcmds
    rw [hcmds] at hhead
    cases hhead
  · rename_i cmd rest hcmds
    rw [hcmds, List.head?_cons, Option.some.injEq] at hhead
    split
    · rename_i hdone
      exact absurd hdone hstate
    · simp [handleCmd, hremoving, hhead, hcmds]

/-- After the commands, a pass is as expected exactly if the state knows what it finds. -/
theorem meets_of_pollCmd {s t : ChannelHandler} (announced : Bool) {hpp : HaveProgressPending}
    (hcmd : s.pollCmd = .ok (hpp, t)) (hcons : Consistent ⟨.ok t, announced⟩) (htol : Tolerates ⟨.ok t, announced⟩) :
    Meets ⟨behind s.pass, announced⟩ (t.Knows announced) := by
  unfold pass
  rw [hcmd]
  exact meets_passState hpp hcons htol

/-- Work on the multiplexer that leaves it as it is with the end of its input is sound. -/
theorem sound_modify {st : Running} (hst : st.Sound) {f : Fetchmpx → Fetchmpx}
    (hf : ∀ mpx, (f mpx).inpDone = mpx.inpDone) : ({ st with state := st.state.modify f } : Running).Sound := by
  refine ⟨hst.inpBuf, ?_⟩
  intro mpx hmpx hdone
  cases hstate : st.state with
  | done =>
      simp only [hstate] at hmpx
      cases hmpx
  | normal mpx' =>
      simp only [hstate] at hmpx
      cases hmpx
      exact hst.inpDone mpx' hstate (hf mpx' ▸ hdone)

/-- Work on the multiplexer that keeps it healthy keeps the channel so. -/
theorem healthy_modify {st : Running} {mpx : Fetchmpx} (hst : st.Healthy mpx) {f : Fetchmpx → Fetchmpx}
    (hf : mpx.Healthy → (f mpx).Healthy) :
    ∃ mpx', ({ st with state := st.state.modify f } : Running).Healthy mpx' := by
  refine ⟨f mpx, ?_, hst.inpDone, hf hst.healthy⟩
  simp only [hst.normal, Running.State.modify]

/-- A command that is not expected makes the process panic. -/
theorem meets_of_panic {s : ChannelHandler} {announced : Bool} {P : Prop} (hcmd : s.pollCmd = .error .panicked)
    (hP : ¬P) : Meets ⟨behind s.pass, announced⟩ P := by
  unfold pass
  rw [hcmd]
  exact ⟨trivial, iff_of_false id hP⟩

/-- A pass that takes a command to remove the channel is as expected exactly if the command is. -/
theorem meets_pass_of_removeNext {s : ChannelHandler} {announced : Bool} (hcons : Consistent ⟨.ok s, announced⟩)
    (htol : Tolerates ⟨.ok s, announced⟩) (hnext : s.RemoveNext) :
    Meets ⟨behind s.pass, announced⟩ s.ExpectsRemove := by
  have hcmd := pollCmd_of_removeNext hnext
  unfold handleCmdRemove at hcmd
  cases hstate : s.state with
  | creating st =>
      rw [hstate] at hcmd
      exact meets_of_panic (hcmd nofun) (by simp [ExpectsRemove, hstate])
  | done1 =>
      rw [hstate] at hcmd
      exact meets_of_panic (hcmd nofun) (by simp [ExpectsRemove, hstate])
  | init =>
      rw [hstate] at hcmd
      have hmeets := meets_of_pollCmd announced (hcmd nofun) trivial fun _ => .inl rfl
      simpa only [Knows, ExpectsRemove, hstate] using hmeets
  | running st =>
      rw [hstate] at hcmd
      simp only [Consistent, hstate] at hcons
      have hsound := sound_modify hcons.1 (f := Fetchmpx.triggerClosing) fun mpx => by
        unfold Fetchmpx.triggerClosing
        split <;> rfl
      have hmeets := meets_of_pollCmd announced (hcmd nofun) ⟨⟨hsound.1, hsound.2⟩, .inr (.inl rfl)⟩
        fun _ => .inl rfl
      exact hmeets.congr (iff_of_true (.inl (.inl rfl)) (by simp only [ExpectsRemove, hstate]))
  | closing1 ack fut timer =>
      rw [hstate] at hcmd
      have hmeets := meets_of_pollCmd announced (hcmd nofun) trivial fun _ => .inl rfl
      exact hmeets.congr (iff_of_true trivial (by simp only [ExpectsRemove, hstate]))
  | closing2 =>
      rw [hstate] at hcmd
      have hmeets := meets_of_pollCmd announced (hcmd nofun) trivial fun _ => .inl rfl
      exact hmeets.congr (iff_of_true trivial (by simp only [ExpectsRemove, hstate]))
  | done =>
      obtain ⟨hpp, cmds, hcmd⟩ := pollCmd_of_not_removeNext (.inr hstate)
      have hmeets := meets_of_pollCmd announced hcmd hcons htol
      simpa only [Knows, ExpectsRemove, hstate] using hmeets

/-- A pass is as expected exactly if a command to remove the channel is, and the state knows what it finds. -/
theorem meets_pass {s : ChannelHandler} {announced : Bool} (hcons : Consistent ⟨.ok s, announced⟩)
    (htol : Tolerates ⟨.ok s, announced⟩) :
    Meets ⟨behind s.pass, announced⟩ (Expects .pass ⟨.ok s, announced⟩) := by
  simp only [Expects]
  by_cases hnext : s.RemoveNext
  · have hmeets := meets_pass_of_removeNext hcons htol hnext
    simpa only [hnext, not_true, false_implies, and_true, true_implies] using hmeets
  · obtain ⟨hpp, cmds, hcmd⟩ := pollCmd_of_not_removeNext (.inl hnext)
    have hmeets := meets_of_pollCmd announced (t := { s with cmds := cmds }) hcmd hcons htol
    have hknows : ({ s with cmds := cmds } : ChannelHandler).Knows announced ↔ s.Knows announced := Iff.rfl
    rw [hknows] at hmeets
    simpa only [hnext, false_implies, true_and, not_false_eq_true, true_implies] using hmeets

/-- An event that leaves the state as it is, and every reason to end, is as expected. -/
theorem meets_of_state_eq {s t : ChannelHandler} {announced announced' : Bool} (hcons : Consistent ⟨.ok s, announced⟩)
    (htol : Tolerates ⟨.ok s, announced⟩) (hstate : t.state = s.state)
    (hexcused : s.Excused announced → t.Excused announced') : Meets ⟨.ok t, announced'⟩ True := by
  cases hs : s.state with
  | init => exact Meets.of_starting (.inl (hstate.trans hs)) trivial
  | creating st => exact Meets.of_starting (.inr ⟨st, hstate.trans hs⟩) trivial
  | running st =>
      simp only [Consistent, hs] at hcons
      exact Meets.of_running (hstate.trans hs) hcons.1 (hcons.2.imp_right hexcused) trivial
  | _ =>
      have hended : s.ended = true := by simp only [ended, hs]
      have hended' : t.ended = true := by simp only [ended, hstate, hs]
      exact Meets.of_ended hended' (iff_of_true (hexcused (htol hended)) trivial)

/-- An event is as expected exactly under the condition. -/
theorem meets_handle {s : ChannelHandler} {announced : Bool} (e : Event) (hcons : Consistent ⟨.ok s, announced⟩)
    (htol : Tolerates ⟨.ok s, announced⟩) : Meets (handle e s announced) (Expects e ⟨.ok s, announced⟩) := by
  cases e with
  | pass => exact meets_pass hcons htol
  | message m =>
      simp only [handle, inpPushTry]
      by_cases hroom : s.protoInpBuf.length < 64
      · simp only [hroom, if_true]
        apply meets_of_state_eq hcons htol rfl
        rintro (h | h | h)
        · exact .inl h
        · exact .inr (.inl h)
        · exact .inr (.inr (by rw [h, Bool.true_or]))
      · simp only [hroom, if_false]
        exact meets_of_state_eq hcons htol rfl id
  | command cmd =>
      simp only [handle, sendCmd]
      split
      · exact meets_of_state_eq hcons htol rfl id
      · exact meets_of_state_eq hcons htol rfl id
  | lookup answer =>
      simp only [handle, lookup]
      split
      · exact Meets.of_starting (.inr ⟨_, rfl⟩) trivial
      · exact meets_of_state_eq hcons htol rfl id
  | elapses timer =>
      simp only [handle, elapse]
      split
      · exact Meets.of_starting (.inr ⟨_, rfl⟩) trivial
      · rename_i st hstate
        simp only [Consistent, hstate] at hcons
        have hsound := sound_modify hcons.1 (f := fun mpx => { mpx with polling := mpx.polling.elapse }) fun _ => rfl
        refine Meets.of_running rfl hsound (hcons.2.imp_left ?_) trivial
        rintro ⟨mpx, hmpx⟩
        exact healthy_modify hmpx fun h => ⟨h.normal, h.inpDone, h.inpBuf⟩
      · rename_i st hstate
        simp only [Consistent, hstate] at hcons
        have hsound := sound_modify hcons.1 (f := fun mpx => { mpx with monitoring := mpx.monitoring.elapse })
          fun _ => rfl
        refine Meets.of_running rfl hsound (hcons.2.imp_left ?_) trivial
        rintro ⟨mpx, hmpx⟩
        exact healthy_modify hmpx fun h => ⟨h.normal, h.inpDone, h.inpBuf⟩
      · rename_i ack fut timer hstate
        have hexcused := htol (by simp only [ended, hstate])
        exact Meets.of_ended rfl (iff_of_true hexcused trivial)
      · exact meets_of_state_eq hcons htol rfl id
  | inpDone =>
      simp only [handle, endInp, Expects]
      cases hstate : s.state with
      | creating st => exact Meets.of_starting (.inr ⟨_, rfl⟩) trivial
      | running st =>
          simp only [Consistent, hstate] at hcons
          exact Meets.of_running rfl ⟨hcons.1.inpBuf, fun _ _ _ => rfl⟩ (.inr (.inr (.inl rfl))) trivial
      | closing1 ack fut timer => exact ⟨trivial, Iff.rfl⟩
      | closing2 => exact ⟨trivial, Iff.rfl⟩
      | init => exact Meets.of_starting (.inl rfl) trivial
      | done1 => exact Meets.of_ended rfl (iff_of_true (.inr (.inl rfl)) trivial)
      | done => exact Meets.of_ended rfl (iff_of_true (.inr (.inl rfl)) trivial)

/-- In every run, a handler tolerates what comes exactly if everything comes in a state that expects it. -/
theorem tolerates_iff (cid : UInt32) (name backend : String) (isPolled : Bool) (es : List Event) :
    (∀ w, Reached step es ⟨.ok (new cid name backend isPolled), false⟩ w → Tolerates w) ↔
      Along step Expects es ⟨.ok (new cid name backend isPolled), false⟩ := by
  apply forall_reached_iff_along_of_inv Consistent
  · rintro e ⟨handler, announced⟩ w' hcons htol hstep
    cases handler with
    | error f => cases hstep
    | ok s =>
        obtain rfl := Option.some.inj hstep
        have hmeets := meets_handle e hcons htol
        exact ⟨fun _ => hmeets.1, hmeets.2⟩
  · trivial
  · exact nofun

instance (w : Watched) : Decidable (Tolerates w) :=
  match w with
  | ⟨.error .panicked, _⟩ => isFalse id
  | ⟨.error (.exited e), _⟩ => inferInstanceAs (Decidable (e.ofInput = false))
  | ⟨.ok s, announced⟩ =>
    inferInstanceAs
      (Decidable (s.ended = true → s.removing = true ∨ s.protoInpDone = true ∨ announced = true))

/-- The messages that a server sends for a channel -/
def serverSends : CaMsgTy → Bool
  | .error _ _ _ | .createChanRes _ _ _ _ | .createChanFail _ | .accessRightsRes _ _ | .eventAddRes _ _ _ _ _ _
  | .eventAddResEmpty _ _ _ | .readNotifyRes _ _ _ _ _ _ | .channelCloseRes _ _ | .channelDisconnect _ => true
  | _ => false

/-- A channel is created, and while it is running its access rights change. -/
def rightsChange : List Event :=
  [.pass, .pass, .message (.accessRightsRes 1 3), .message (.createChanRes 6 1 1 2), .pass, .lookup (.found 7), .pass,
    .pass, .message (.accessRightsRes 1 1), .pass]

/-- A change of the access rights ends a running channel. -/
theorem not_tolerates : ¬ ∀ (cid : UInt32) (name backend : String) (isPolled : Bool) (es : List Event),
    (∀ m, .message m ∈ es → serverSends m = true) →
      ∀ w, Reached step es ⟨.ok (new cid name backend isPolled), false⟩ w → Tolerates w := by
  intro hall
  have hlegal : ∀ m, .message m ∈ rightsChange → serverSends m = true := by
    simp [rightsChange, serverSends]
  have hends : (Slots.run step rightsChange ⟨.ok (new 1 "CHAN" "backend" false), false⟩).any
      (fun w => !decide (Tolerates w)) = true := by decide
  obtain ⟨w, hrun, hw⟩ := (Option.any_eq_true _ _).mp hends
  have htolerates := hall 1 "CHAN" "backend" false rightsChange hlegal w ⟨_, List.prefix_rfl, hrun⟩
  simp [htolerates] at hw

end ChannelHandler

end Channelheap
end Daqbuf
