import Daqbuf.Channelheap.FetchMonitoring
/-!
# Fetching the Values of a Channel

A running channel is polled or monitored.  Its messages go to the part that waits for them; both parts are
polled one after the other, and closed together.

A run is a list of events: messages, commands, elapsed timers and passes of the poll loop, in any order.

Main results:

- Theorem {lit}`Controlled.acquires_run`: a part that is enabled acquires, in every run in which no wanted
  reply is overdue and no part is enabled while it is on its way to being disabled.
- Theorem {lit}`Controlled.not_acquires_run`: after a lost reply to a subscribe request nothing is done.
- Theorem {lit}`Controlled.not_completes_run`: where a closing channel finds nothing to do, its timers never
  bring it to its end.
-/

namespace Daqbuf
namespace Channelheap

open Poll
open Ca (CaMsgTy CaEventValue)
open Connset (HaveProgressPending)

/-! ## The state -/

/-- {lit}`FetchmpxItem` -/
inductive FetchmpxItem where
  | caMsgOutIoid (msg : CaMsgTy) (sid : UInt32)
  | caMsgOutSubid (msg : CaMsgTy)
  | subidRemove (cid : UInt32)
  | localLog
  | inputDone
  | channelEventValue (series : ℕ) (value : CaEventValue)
  deriving DecidableEq

/-- {lit}`Error`, as far as the input gives one -/
inductive Fetchmpx.Error where
  | createMonitorUnexpectedMessage
  deriving DecidableEq

/-- {lit}`State` of the multiplexer -/
inductive Fetchmpx.State where
  | normal
  | closing1
  | done
  | done2
  deriving DecidableEq, Repr

/-- {lit}`Fetchmpx` -/
structure Fetchmpx where
  state : Fetchmpx.State
  polling : FetchPolling
  monitoring : FetchMonitoring
  inpBuf : List CaMsgTy
  inpDone : Bool
  llog : ℕ
  deriving DecidableEq

/-- The item that a poll of the polling part hands on, if it is not empty. -/
def FetchPolling.Item.handedOn : FetchPolling.Item → Option FetchmpxItem
  | .none => .none
  | .protoOutIoid msg sid => some (.caMsgOutIoid msg sid)
  | .channelEventValue series value => some (.channelEventValue series value)
  | .localLog => some .localLog

/-- The item that a poll of the monitoring part hands on. -/
def MonitoringItem.handedOn : MonitoringItem → FetchmpxItem
  | .protoOutSubid msg => .caMsgOutSubid msg
  | .subidRemove cid => .subidRemove cid
  | .channelEventValue series value => .channelEventValue series value
  | .localLog => .localLog

/-- The commands of {lit}`handle_channel_handler_cmd` -/
inductive Command where
  | pollingDisable
  | pollingEnable
  | monitoringDisable
  | monitoringEnable
  deriving DecidableEq, Repr

namespace Fetchmpx

/-- {lit}`Fetchmpx::new` -/
def new (isPolled : Bool) (series : ℕ) (cid sid : UInt32) (shape : Netpod.Shape) (caDbrTy : UInt16) :
    Fetchmpx :=
  let polling := FetchPolling.new series sid shape caDbrTy
  let monitoring := FetchMonitoring.new series cid sid shape caDbrTy
  if isPolled then ⟨.normal, polling.transitionToEnable, monitoring, [], false, 0⟩
  else ⟨.normal, polling, monitoring.transitionToEnable, [], false, 0⟩

/-- {lit}`trigger_closing`, which {lit}`trigger_remove` calls -/
def triggerClosing (s : Fetchmpx) : Fetchmpx :=
  match s.state with
  | .normal =>
    { s with
      monitoring := s.monitoring.triggerClosing
      polling := s.polling.triggerClosing
      state := .closing1 }
  | _ => s

/-- {lit}`handle_channel_handler_cmd`, which refuses commands in the other states. -/
def handleChannelHandlerCmd (cmd : Command) (s : Fetchmpx) : Fetchmpx :=
  match s.state with
  | .normal =>
    match cmd with
    | .pollingDisable => { s with polling := s.polling.transitionToDisable }
    | .pollingEnable => { s with polling := s.polling.transitionToEnable }
    | .monitoringDisable => { s with monitoring := s.monitoring.transitionToDisable }
    | .monitoringEnable => { s with monitoring := s.monitoring.transitionToEnable }
  | _ => s

/-- {lit}`inp_push_try`; {lit}`none` where the message comes back. -/
def inpPushTry (m : CaMsgTy) (s : Fetchmpx) : Option Fetchmpx :=
  if s.inpBuf.length < 64 then some { s with inpBuf := s.inpBuf ++ [m] } else none

/-- {lit}`inp_done` -/
def endInp (s : Fetchmpx) : Fetchmpx :=
  { s with
    inpDone := true
    polling := { s.polling with inpDone := true }
    monitoring := { s.monitoring with inpDone := true } }

/-- What {lit}`poll_inp_dispatch` comes to. -/
inductive Dispatched where
  | pending
  | inputDone
  | error (e : Error)
  deriving DecidableEq

/-- {lit}`poll_inp_dispatch` on the messages in the buffer: they go to the part that they are for, as long
as it takes them. -/
def pollInpDispatch : List CaMsgTy → Fetchmpx → Dispatched × Fetchmpx
  | [], s =>
    if s.inpDone then (.inputDone, { s with inpBuf := [] }.triggerClosing)
    else (.pending, { s with inpBuf := [] })
  | m :: rest, s =>
    match m with
    | .eventAddRes _ _ _ _ _ _ | .eventAddResEmpty _ _ _ | .eventCancelRes _ _ _ =>
      match s.monitoring.inpPushTry m with
      | some t => pollInpDispatch rest { s with monitoring := t }
      | none => (.pending, { s with inpBuf := m :: rest })
    | .readNotifyRes _ _ _ _ _ _ =>
      match s.polling.inpPushTry m with
      | some t => pollInpDispatch rest { s with polling := t }
      | none => (.pending, { s with inpBuf := m :: rest })
    | _ => (.error .createMonitorUnexpectedMessage, { s with inpBuf := rest })

/-- The monitoring part is polled, and the pass of the loop ends. -/
def pollMonitoring (finish : HaveProgressPending → Fetchmpx → Pass Fetchmpx FetchmpxItem)
    (hpp : HaveProgressPending) (s : Fetchmpx) : Pass Fetchmpx FetchmpxItem :=
  match s.monitoring.pollNextUnpin with
  | .item x t => .item x.handedOn { s with monitoring := t }
  | .pending t => finish { hpp with pending := true } { s with monitoring := t }
  | .done t => finish hpp { s with monitoring := t }
  -- a poll leaves its loop, by `FetchMonitoring.pollNextUnpin_ne_again`
  | .again t => .again { s with monitoring := t }
  | .panic => .panic

/-- The parts are polled, and the pass of the loop ends. -/
def pollParts (finish : HaveProgressPending → Fetchmpx → Pass Fetchmpx FetchmpxItem)
    (hpp : HaveProgressPending) (s : Fetchmpx) : Pass Fetchmpx FetchmpxItem :=
  match s.polling.pollNext with
  | .item x t =>
    match x.handedOn with
    | some y => .item y { s with polling := t }
    | none => pollMonitoring finish { hpp with progress := true } { s with polling := t }
  | .pending t => pollMonitoring finish { hpp with pending := true } { s with polling := t }
  | .done t => pollMonitoring finish hpp { s with polling := t }
  | .again t => .again { s with polling := t }
  | .panic => .panic

/-- The end of a pass while the channel is closing: without progress and nothing to wait for it is done. -/
def finishClosing (hpp : HaveProgressPending) (s : Fetchmpx) : Pass Fetchmpx FetchmpxItem :=
  if hpp.progress then .again s else if hpp.pending then .pending s else .done { s with state := .done }

/-- One pass of the loop of {lit}`poll_next` -/
def pass (s : Fetchmpx) : Pass Fetchmpx FetchmpxItem :=
  if 0 < s.llog then .item .localLog { s with llog := s.llog - 1 }
  else
    match s.state with
    | .normal =>
      match pollInpDispatch s.inpBuf s with
      | (.inputDone, t) => .item .inputDone t
      | (.error _, t) => pollParts HaveProgressPending.finish ⟨true, false⟩ { t with state := .done }
      | (.pending, t) => pollParts HaveProgressPending.finish ⟨false, true⟩ t
    | .closing1 =>
      match pollInpDispatch s.inpBuf s with
      | (.inputDone, t) => .item .inputDone t
      | (.error _, t) => pollParts finishClosing ⟨true, false⟩ { t with state := .done }
      -- the input is not waited for
      | (.pending, t) => pollParts finishClosing ⟨false, false⟩ t
    | .done => .done { s with state := .done2 }
    | .done2 => .done s

end Fetchmpx

/-! ## What a pass preserves -/

namespace Fetchmpx

/-- What everything in a pass preserves. -/
structure Kept (I : Fetchmpx → Prop) : Prop where
  llog : ∀ s n, I s → I { s with llog := n }
  inpBuf : ∀ s ms, I s → I { s with inpBuf := ms }
  pushPolling : ∀ s m t, I s → s.polling.inpPushTry m = some t → I { s with polling := t }
  pushMonitoring : ∀ s m t, I s → s.monitoring.inpPushTry m = some t → I { s with monitoring := t }
  polling : ∀ s, I s → s.polling.pollNext.Leaves fun t => I { s with polling := t }
  monitoring : ∀ s, I s → s.monitoring.pollNextUnpin.Leaves fun t => I { s with monitoring := t }
  closing : ∀ s, I s → I s.triggerClosing
  ended : ∀ s st, I s → st = .done ∨ st = .done2 → I { s with state := st }

variable {I : Fetchmpx → Prop}

/-- The dispatch of the input keeps it. -/
theorem Kept.pollInpDispatch (hI : Kept I) (ms : List CaMsgTy) {s : Fetchmpx} (hs : I s) :
    I (pollInpDispatch ms s).2 := by
  induction ms generalizing s with
  | nil =>
      unfold Fetchmpx.pollInpDispatch
      split
      · exact hI.closing _ (hI.inpBuf s [] hs)
      · exact hI.inpBuf s [] hs
  | cons m rest ih =>
      unfold Fetchmpx.pollInpDispatch
      split
      all_goals first
        | exact hI.inpBuf s rest hs
        | (split
           · rename_i t hpush
             first
             | exact ih (hI.pushMonitoring s _ t hs hpush)
             | exact ih (hI.pushPolling s _ t hs hpush)
           · exact hI.inpBuf s _ hs)

/-- The end of a pass keeps it, if it does so by itself. -/
theorem Kept.pollMonitoring (hI : Kept I)
    {finish : HaveProgressPending → Fetchmpx → Pass Fetchmpx FetchmpxItem}
    (hfinish : ∀ hpp s, I s → (finish hpp s).Leaves I) (hpp : HaveProgressPending) {s : Fetchmpx}
    (hs : I s) : (s.pollMonitoring finish hpp).Leaves I := by
  have hpoll := hI.monitoring s hs
  unfold Fetchmpx.pollMonitoring
  cases hpass : s.monitoring.pollNextUnpin with
  | item x t => rwa [hpass] at hpoll
  | again t => rwa [hpass] at hpoll
  | panic => rwa [hpass] at hpoll
  | pending t =>
      rw [hpass] at hpoll
      exact hfinish _ _ hpoll
  | done t =>
      rw [hpass] at hpoll
      exact hfinish _ _ hpoll

/-- The polls of the parts keep it. -/
theorem Kept.pollParts (hI : Kept I)
    {finish : HaveProgressPending → Fetchmpx → Pass Fetchmpx FetchmpxItem}
    (hfinish : ∀ hpp s, I s → (finish hpp s).Leaves I) (hpp : HaveProgressPending) {s : Fetchmpx}
    (hs : I s) : (s.pollParts finish hpp).Leaves I := by
  have hpoll := hI.polling s hs
  unfold Fetchmpx.pollParts
  cases hpass : s.polling.pollNext with
  | item x t =>
      rw [hpass] at hpoll
      dsimp only
      split
      · exact hpoll
      · exact hI.pollMonitoring hfinish _ hpoll
  | again t => rwa [hpass] at hpoll
  | panic => rwa [hpass] at hpoll
  | pending t =>
      rw [hpass] at hpoll
      exact hI.pollMonitoring hfinish _ hpoll
  | done t =>
      rw [hpass] at hpoll
      exact hI.pollMonitoring hfinish _ hpoll

/-- A pass keeps it. -/
theorem Kept.pass (hI : Kept I) {s : Fetchmpx} (hs : I s) : s.pass.Leaves I := by
  have hfinish : ∀ (hpp : HaveProgressPending) (s : Fetchmpx), I s →
      (hpp.finish s : Pass Fetchmpx FetchmpxItem).Leaves I := by
    intro hpp s hs
    unfold HaveProgressPending.finish
    (repeat' split) <;> exact hs
  have hclosing : ∀ (hpp : HaveProgressPending) (s : Fetchmpx), I s → (finishClosing hpp s).Leaves I := by
    intro hpp s hs
    unfold finishClosing
    split
    · exact hs
    · split
      · exact hs
      · exact hI.ended s .done hs (.inl rfl)
  have hdispatch := hI.pollInpDispatch s.inpBuf hs
  unfold Fetchmpx.pass
  split
  · exact hI.llog s _ hs
  · split
    · split <;> rename_i heq <;> rw [heq] at hdispatch
      · exact hdispatch
      · exact hI.pollParts hfinish _ (hI.ended _ .done hdispatch (.inl rfl))
      · exact hI.pollParts hfinish _ hdispatch
    · split <;> rename_i heq <;> rw [heq] at hdispatch
      · exact hdispatch
      · exact hI.pollParts hclosing _ (hI.ended _ .done hdispatch (.inl rfl))
      · exact hI.pollParts hclosing _ hdispatch
    · exact hI.ended s .done2 hs (.inr rfl)
    · exact hs

end Fetchmpx

/-! ## Runs -/

/-- What can happen to a channel. -/
inductive Event where
  | message (m : CaMsgTy)
  | inpDone
  | command (cmd : Command)
  | triggerRemove
  | pollingElapses
  | monitoringElapses
  | pass
  deriving DecidableEq

/-- What is seen of a channel. -/
inductive Seen where
  | returned (m : CaMsgTy)
  | item (x : FetchmpxItem)
  | pending
  | done
  deriving DecidableEq

/-- A channel, and which of its parts the last commands want on. -/
structure Controlled where
  mpx : Fetchmpx
  pollingOn : Bool
  monitoringOn : Bool
  deriving DecidableEq

namespace Controlled

/-- A channel as it was configured. -/
def new (isPolled : Bool) (series : ℕ) (cid sid : UInt32) (shape : Netpod.Shape) (caDbrTy : UInt16) :
    Controlled :=
  ⟨Fetchmpx.new isPolled series cid sid shape caDbrTy, isPolled, !isPolled⟩

/-- A command is given. -/
def command (cmd : Command) (c : Controlled) : Controlled :=
  let mpx := c.mpx.handleChannelHandlerCmd cmd
  if c.mpx.state = .normal then
    match cmd with
    | .pollingDisable => { c with mpx := mpx, pollingOn := false }
    | .pollingEnable => { c with mpx := mpx, pollingOn := true }
    | .monitoringDisable => { c with mpx := mpx, monitoringOn := false }
    | .monitoringEnable => { c with mpx := mpx, monitoringOn := true }
  else { c with mpx := mpx }

/-- A pass of the poll loop. -/
def pass (c : Controlled) : List Seen × Controlled :=
  match c.mpx.pass with
  | .again t => ([], { c with mpx := t })
  | .pending t => ([.pending], { c with mpx := t })
  | .item x t => ([.item x], { c with mpx := t })
  | .done t => ([.done], { c with mpx := t })
  | .panic => ([], c)

/-- The channel as a machine -/
def machine : Machine Controlled Event Seen where
  step e c :=
    match e with
    | .message m =>
      match c.mpx.inpPushTry m with
      | some t => ([], { c with mpx := t })
      | none => ([.returned m], c)
    | .inpDone => ([], { c with mpx := c.mpx.endInp })
    | .command cmd => ([], c.command cmd)
    | .triggerRemove => ([], { c with mpx := c.mpx.triggerClosing })
    | .pollingElapses => ([], { c with mpx := { c.mpx with polling := c.mpx.polling.elapse } })
    | .monitoringElapses => ([], { c with mpx := { c.mpx with monitoring := c.mpx.monitoring.elapse } })
    | .pass => c.pass

/-! ## Acquiring -/

/-- No wanted reply is overdue when the channel is polled, and no part is enabled while it is on its way to
being disabled. -/
def InTime (e : Event) (c : Controlled) : Prop :=
  c.mpx.state = .normal →
    match e with
    | .pass => c.mpx.polling.state.overdue = false ∧ c.mpx.monitoring.state.overdue = false
    | .command .pollingEnable => c.mpx.polling.state.disabling = false
    | .command .monitoringEnable => c.mpx.monitoring.state.disabling = false
    | _ => True

instance (e : Event) (c : Controlled) : Decidable (InTime e c) := by
  unfold InTime
  cases e with
  | command cmd => cases cmd <;> exact inferInstance
  | _ => exact inferInstance

/-- A channel that is not closing acquires the values of each part that is enabled. -/
def Acquires (c : Controlled) : Prop :=
  c.mpx.state = .normal →
    (c.pollingOn = true → c.mpx.polling.Acquires) ∧ (c.monitoringOn = true → c.mpx.monitoring.Acquires)

/-- The parts of a channel that is not closing are fit. -/
def Fit (pollingOn monitoringOn : Bool) (s : Fetchmpx) : Prop :=
  s.state = .normal → s.polling.state.Fit pollingOn ∧ s.monitoring.state.Fit monitoringOn

/-- The parts of a channel that is not closing are fit, and no wanted reply is overdue. -/
def FitInTime (pollingOn monitoringOn : Bool) (s : Fetchmpx) : Prop :=
  s.state = .normal →
    (s.polling.state.Fit pollingOn ∧ s.polling.state.overdue = false) ∧
      s.monitoring.state.Fit monitoringOn ∧ s.monitoring.state.overdue = false

/-- A pass keeps the parts fit and in time. -/
theorem kept_fitInTime (pollingOn monitoringOn : Bool) :
    Fetchmpx.Kept (FitInTime pollingOn monitoringOn) where
  llog _ _ hs := hs
  inpBuf _ _ hs := hs
  pushPolling s m t hs hpush := by
    unfold FetchPolling.inpPushTry at hpush
    split at hpush
    · cases hpush
      exact hs
    · cases hpush
  pushMonitoring s m t hs hpush := by
    unfold FetchMonitoring.inpPushTry at hpush
    split at hpush
    · cases hpush
      exact hs
    · cases hpush
  polling s hs := by
    refine (FetchPolling.step_pollNext s.polling).mono fun t hstep hnormal => ?_
    exact ⟨FetchPolling.fit_of_step hstep (hs hnormal).1, (hs hnormal).2⟩
  monitoring s hs := by
    by_cases hnormal : s.state = .normal
    · refine (FetchMonitoring.leaves_pollNextUnpin (fun _ _ => FetchMonitoring.fit_of_step)
        (hs hnormal).2).mono fun t ht _ => ?_
      exact ⟨(hs hnormal).1, ht⟩
    · refine (FetchMonitoring.leaves_pollNextUnpin (fun _ _ _ => id) trivial
        (Q := fun _ => True)).mono fun t _ h => absurd h hnormal
  closing s hs := by
    intro h
    unfold Fetchmpx.triggerClosing at h
    split at h
    · cases h
    · contradiction
  ended s st _ hst := by
    rintro rfl
    rcases hst with h | h <;> cases h

/-- The parts of a channel are as they are wanted. -/
def Settled (c : Controlled) : Prop := Fit c.pollingOn c.monitoringOn c.mpx

/-- An event in time keeps the parts of a channel as they are wanted. -/
theorem settled_step (e : Event) (c : Controlled) (htime : InTime e c) (hfit : Settled c) :
    Settled (machine.step e c).2 := by
  cases e with
  | message m =>
      simp only [machine, Fetchmpx.inpPushTry]
      by_cases hlen : c.mpx.inpBuf.length < 64
      · simp only [hlen, if_true]
        exact hfit
      · simp only [hlen, if_false]
        exact hfit
  | inpDone => exact hfit
  | pollingElapses =>
      intro hnormal
      exact ⟨FetchPolling.fit_elapse (hfit hnormal).1, (hfit hnormal).2⟩
  | monitoringElapses =>
      intro hnormal
      exact ⟨(hfit hnormal).1, FetchMonitoring.fit_elapse (hfit hnormal).2⟩
  | triggerRemove =>
      intro hnormal
      simp only [machine, Fetchmpx.triggerClosing] at hnormal
      split at hnormal
      · cases hnormal
      · contradiction
  | command cmd =>
      simp only [machine, command]
      by_cases hnormal : c.mpx.state = .normal
      · rw [if_pos hnormal]
        cases cmd <;> intro _ <;> simp only [Fetchmpx.handleChannelHandlerCmd, hnormal]
        · exact ⟨FetchPolling.fit_transitionToDisable (hfit hnormal).1, (hfit hnormal).2⟩
        · exact ⟨FetchPolling.fit_transitionToEnable (hfit hnormal).1 (htime hnormal), (hfit hnormal).2⟩
        · exact ⟨(hfit hnormal).1, FetchMonitoring.fit_transitionToDisable (hfit hnormal).2⟩
        · exact ⟨(hfit hnormal).1, FetchMonitoring.fit_transitionToEnable (hfit hnormal).2 (htime hnormal)⟩
      · rw [if_neg hnormal]
        have hsame : c.mpx.handleChannelHandlerCmd cmd = c.mpx := by
          unfold Fetchmpx.handleChannelHandlerCmd
          split
          · contradiction
          · rfl
        rw [hsame]
        exact hfit
  | pass =>
      have hin : FitInTime c.pollingOn c.monitoringOn c.mpx := fun hnormal =>
        ⟨⟨(hfit hnormal).1, (htime hnormal).1⟩, (hfit hnormal).2, (htime hnormal).2⟩
      have hleaves := ((kept_fitInTime c.pollingOn c.monitoringOn).pass hin).mono
        (R := Fit c.pollingOn c.monitoringOn) fun s hs hnormal => ⟨(hs hnormal).1.1, (hs hnormal).2.1⟩
      simp only [machine, pass]
      cases hpass : c.mpx.pass with
      | panic => exact hfit
      | _ => rwa [hpass] at hleaves

/-- The parts of a new channel are as they are wanted. -/
theorem settled_new (isPolled : Bool) (series : ℕ) (cid sid : UInt32) (shape : Netpod.Shape)
    (caDbrTy : UInt16) : Settled (new isPolled series cid sid shape caDbrTy) := by
  intro _
  cases isPolled with
  | true => exact ⟨⟨trivial, fun _ => trivial⟩, trivial, fun h => absurd h Bool.false_ne_true⟩
  | false => exact ⟨⟨trivial, fun h => absurd h Bool.false_ne_true⟩, .inl rfl, fun _ => trivial⟩

/-- In every run in which no wanted reply is overdue and no part is enabled while it is on its way to being
disabled, each part that is enabled acquires. -/
theorem acquires_run (isPolled : Bool) (series : ℕ) (cid sid : UInt32) (shape : Netpod.Shape)
    (caDbrTy : UInt16) (es : List Event)
    (halong : machine.Along InTime es (new isPolled series cid sid shape caDbrTy)) :
    Acquires (machine.run es (new isPolled series cid sid shape caDbrTy)).2 := by
  have hfit := Machine.inv_run settled_step halong (settled_new isPolled series cid sid shape caDbrTy)
  intro hnormal
  exact ⟨fun hon => FetchPolling.acquires_of_isOn ((hfit hnormal).1.2 hon),
    fun hon => FetchMonitoring.acquires_of_isOn ((hfit hnormal).2.2 hon)⟩

/-- The first passes of a monitored channel: it subscribes and waits for an event. -/
def subscribing : List Event := List.replicate 5 .pass

/-- A subscription that is established and silent. -/
theorem acquires_run_one :
    Acquires (machine.run (subscribing ++
        [.message (.eventAddRes 20 1 1 0 16 ⟨.scalar (.i32 5), .caMetaTime 0 0 0 0⟩), .pass, .pass,
          .monitoringElapses, .pass, .pass, .pass])
      (new false 1 2 3 .scalar 20)).2 :=
  acquires_run false 1 2 3 .scalar 20 _ (by decide)

/-- When the reply to the subscribe request is lost, the channel does nothing any more. -/
theorem not_acquires_run : ¬ ∀ es : List Event,
    Acquires (machine.run es (new false 1 2 3 .scalar 20)).2 := by
  intro hall
  have hacquires := (hall (subscribing ++ [.monitoringElapses, .pass]) (by decide)).2 (by decide)
  have hstate : (machine.run (subscribing ++ [.monitoringElapses, .pass])
      (new false 1 2 3 .scalar 20)).2.mpx.monitoring.state = .doNothing := by decide
  rcases hacquires with ⟨timer, h⟩ | ⟨timer, h⟩ | h
  · rw [hstate] at h
    cases h
  · rw [hstate] at h
    cases h
  · exact FetchMonitoring.not_subscribes_of_doNothing hstate h

/-! ## Closing -/

/-- What is known of every channel: a closing channel has a closing polling part, and the parts know the end
of the input. -/
def Sound (s : Fetchmpx) : Prop :=
  s.polling.Sound ∧ (s.state = .closing1 → s.polling.Closes) ∧ s.monitoring.Sound s.inpDone

/-- A pass leaves a sound channel sound. -/
theorem kept_sound : Fetchmpx.Kept Sound where
  llog _ _ hs := hs
  inpBuf _ _ hs := hs
  pushPolling s m t hs hpush := by
    unfold FetchPolling.inpPushTry at hpush
    split at hpush
    · cases hpush
      exact hs
    · cases hpush
  pushMonitoring s m t hs hpush := by
    unfold FetchMonitoring.inpPushTry at hpush
    split at hpush
    · cases hpush
      exact hs
    · cases hpush
  polling s hs := by
    by_cases hclosing : s.state = .closing1
    · exact (FetchPolling.closes_pollNext (hs.2.1 hclosing)).1.mono fun t ht =>
        ⟨ht.sound, fun _ => ht, hs.2.2⟩
    · exact (FetchPolling.sound_pollNext hs.1).mono fun t ht => ⟨ht, fun h => absurd h hclosing, hs.2.2⟩
  monitoring s hs := (FetchMonitoring.sound_pollNextUnpin hs.2.2).mono fun t ht => ⟨hs.1, hs.2.1, ht⟩
  closing s hs := by
    unfold Fetchmpx.triggerClosing
    split
    · have hcloses := FetchPolling.closes_triggerClosing hs.1
      refine ⟨hcloses.sound, fun _ => hcloses, ?_⟩
      have hmon := hs.2.2
      unfold FetchMonitoring.triggerClosing FetchMonitoring.transitionTo
      cases hstate : s.monitoring.state <;> simp_all [FetchMonitoring.Sound, FetchMonitoring.log]
    · exact hs
  ended s st hs hst := by
    refine ⟨hs.1, ?_, hs.2.2⟩
    rintro rfl
    rcases hst with h | h <;> cases h

/-- What {lit}`transition_to_enable` and {lit}`transition_to_disable` keep of a channel. -/
theorem sound_handleChannelHandlerCmd {cmd : Command} {s : Fetchmpx} (hs : Sound s) :
    Sound (s.handleChannelHandlerCmd cmd) := by
  unfold Fetchmpx.handleChannelHandlerCmd
  split
  · rename_i hnormal
    rcases hs with ⟨hpolling, -, hmonitoring⟩
    have hclosing : ∀ P : Prop, s.state = .closing1 → P := fun P h => by rw [hnormal] at h; cases h
    cases cmd with
    | pollingDisable =>
        refine ⟨?_, hclosing _, hmonitoring⟩
        unfold FetchPolling.transitionToDisable
        cases hstate : s.polling.state <;>
          simp_all [FetchPolling.Sound, FetchPolling.log, FetchPolling.transitionState]
    | pollingEnable =>
        refine ⟨?_, hclosing _, hmonitoring⟩
        unfold FetchPolling.transitionToEnable
        cases hstate : s.polling.state <;>
          simp_all [FetchPolling.Sound, FetchPolling.log, FetchPolling.transitionState]
    | monitoringDisable =>
        refine ⟨hpolling, hclosing _, ?_⟩
        unfold FetchMonitoring.transitionToDisable FetchMonitoring.transitionTo
        cases hstate : s.monitoring.state <;> simp_all [FetchMonitoring.Sound, FetchMonitoring.log]
    | monitoringEnable =>
        refine ⟨hpolling, hclosing _, ?_⟩
        unfold FetchMonitoring.transitionToEnable
        cases hstate : s.monitoring.state <;>
          simp_all [FetchMonitoring.Sound, FetchMonitoring.log, FetchMonitoring.transitionState]
  · exact hs

/-- The timers keep a channel sound. -/
theorem sound_elapse {s : Fetchmpx} (hs : Sound s) :
    Sound { s with polling := s.polling.elapse } ∧ Sound { s with monitoring := s.monitoring.elapse } := by
  rcases hs with ⟨hpolling, hcloses, hmonitoring⟩
  constructor
  · refine ⟨?_, fun h => ?_, hmonitoring⟩
    · unfold FetchPolling.elapse
      cases hstate : s.polling.state <;> simp_all [FetchPolling.Sound]
    · have hc := hcloses h
      unfold FetchPolling.elapse
      cases hstate : s.polling.state <;> simp_all [FetchPolling.Closes]
  · refine ⟨hpolling, hcloses, ?_⟩
    unfold FetchMonitoring.elapse
    cases hstate : s.monitoring.state <;> simp_all [FetchMonitoring.Sound]

/-- Every event leaves a sound channel sound. -/
theorem sound_step (e : Event) (c : Controlled) (hs : Sound c.mpx) : Sound (machine.step e c).2.mpx := by
  cases e with
  | message m =>
      simp only [machine, Fetchmpx.inpPushTry]
      by_cases hlen : c.mpx.inpBuf.length < 64
      · simp only [hlen, if_true]
        exact hs
      · simp only [hlen, if_false]
        exact hs
  | inpDone =>
      refine ⟨fun _ => rfl, fun h => ?_, fun _ => rfl, .inl rfl⟩
      exact (hs.2.1 h).imp_right fun hdone => ⟨hdone.1, rfl⟩
  | command cmd =>
      have hcmd : Sound (c.mpx.handleChannelHandlerCmd cmd) := sound_handleChannelHandlerCmd hs
      simp only [machine, command]
      split
      · cases cmd <;> exact hcmd
      · exact hcmd
  | triggerRemove => exact kept_sound.closing _ hs
  | pollingElapses => exact (sound_elapse hs).1
  | monitoringElapses => exact (sound_elapse hs).2
  | pass =>
      have hleaves := kept_sound.pass hs
      simp only [machine, pass]
      cases hpass : c.mpx.pass with
      | panic => exact hs
      | _ => rwa [hpass] at hleaves

/-- A new channel is sound. -/
theorem sound_new (isPolled : Bool) (series : ℕ) (cid sid : UInt32) (shape : Netpod.Shape)
    (caDbrTy : UInt16) : Sound (new isPolled series cid sid shape caDbrTy).mpx := by
  cases isPolled with
  | true => exact ⟨nofun, nofun, nofun, .inl rfl⟩
  | false => exact ⟨nofun, nofun, nofun, .inl rfl⟩

/-- Both timers elapse. -/
def elapse (s : Fetchmpx) : Fetchmpx :=
  { s with polling := s.polling.elapse, monitoring := s.monitoring.elapse }

/-- A channel whose timers are armed is brought to its end by them, without a message. -/
def Completes (s : Fetchmpx) : Prop :=
  (s.polling.state.armed || s.monitoring.state.armed) = true ∧
    ∃ n, ((Machine.clock elapse Fetchmpx.pass).run (List.replicate n ()) s).2.state ∈
      [Fetchmpx.State.done, .done2]

/-- A closing channel without messages that is to get some, and only a message brings it to its end. -/
def Hanging (s : Fetchmpx) : Prop :=
  s.state = .closing1 ∧ s.inpBuf = [] ∧ s.inpDone = false ∧ s.monitoring.Hanging

/-- A poll of the monitoring part leaves a hanging channel hanging. -/
theorem hanging_pollMonitoring {s : Fetchmpx} (hs : Hanging s) (hpp : HaveProgressPending) :
    (s.pollMonitoring Fetchmpx.finishClosing hpp).Leaves Hanging := by
  rcases hs with ⟨hstate, hbuf, hdone, hmonitoring⟩
  rcases FetchMonitoring.hanging_pollNextUnpin hmonitoring with ⟨hleaves, hnot⟩
  unfold Fetchmpx.pollMonitoring
  cases hpoll : s.monitoring.pollNextUnpin with
  | item x t =>
      rw [hpoll] at hleaves
      exact ⟨hstate, hbuf, hdone, hleaves⟩
  | again t =>
      rw [hpoll] at hleaves
      exact ⟨hstate, hbuf, hdone, hleaves⟩
  | panic => rwa [hpoll] at hleaves
  | done t => exact absurd hpoll (hnot t)
  | pending t =>
      rw [hpoll] at hleaves
      have hnext : Hanging { s with monitoring := t } := ⟨hstate, hbuf, hdone, hleaves⟩
      -- the part waits, so the channel is not done
      simp only [Fetchmpx.finishClosing, if_true]
      split <;> exact hnext

/-- Without messages there is nothing to dispatch. -/
theorem pollInpDispatch_nil {s : Fetchmpx} (hbuf : s.inpBuf = []) (hdone : s.inpDone = false) :
    Fetchmpx.pollInpDispatch s.inpBuf s = (.pending, s) := by
  rcases s with ⟨state, polling, monitoring, inpBuf, inpDone, llog⟩
  simp only at hbuf hdone
  simp [hbuf, hdone, Fetchmpx.pollInpDispatch]

/-- A pass leaves a hanging channel hanging. -/
theorem hanging_pass {s : Fetchmpx} (hs : Hanging s) : s.pass.Leaves Hanging := by
  have hpolled : ∀ t : FetchPolling, Hanging { s with polling := t } := fun _ => hs
  have hparts := FetchPolling.step_pollNext s.polling
  unfold Fetchmpx.pass
  split
  · exact hs
  · rw [hs.1, pollInpDispatch_nil hs.2.1 hs.2.2.1]
    dsimp only
    unfold Fetchmpx.pollParts
    cases hpoll : s.polling.pollNext with
    | item x t =>
        dsimp only
        split
        · exact hpolled t
        · exact hanging_pollMonitoring (hpolled t) _
    | again t => exact hpolled t
    | panic =>
        rw [hpoll] at hparts
        exact hparts.elim
    | pending t => exact hanging_pollMonitoring (hpolled t) _
    | done t => exact hanging_pollMonitoring (hpolled t) _

/-- The timers do not bring a hanging channel to its end. -/
theorem not_completes_of_hanging {s : Fetchmpx} (hs : Hanging s) : ¬ Completes s := by
  rintro ⟨-, n, hended⟩
  have hstep : ∀ (_ : Unit) (s : Fetchmpx), True → Hanging s →
      Hanging ((Machine.clock elapse Fetchmpx.pass).step () s).2 := by
    intro _ s _ hs
    have helapsed : Hanging (elapse s) :=
      ⟨hs.1, hs.2.1, hs.2.2.1, FetchMonitoring.hanging_elapse hs.2.2.2⟩
    have hleaves := hanging_pass helapsed
    simp only [Machine.clock]
    cases hpass : (elapse s).pass with
    | panic => exact hs
    | _ => rwa [hpass] at hleaves
  have hhanging := Machine.inv_run hstep (Machine.along_of_forall (fun _ _ => trivial)
    (List.replicate n ()) s) hs
  rw [hhanging.1] at hended
  exact absurd hended (by decide)

/-- A dispatch that waits changes no state, and it leaves no message only where the input goes on. -/
theorem pollInpDispatch_pending {ms : List CaMsgTy} {s t : Fetchmpx}
    (hdispatch : Fetchmpx.pollInpDispatch ms s = (.pending, t)) :
    t.state = s.state ∧ (t.inpBuf = [] → t.inpDone = false) := by
  induction ms generalizing s with
  | nil =>
      unfold Fetchmpx.pollInpDispatch at hdispatch
      split at hdispatch
      · cases hdispatch
      · cases hdispatch
        exact ⟨rfl, fun _ => Bool.eq_false_iff.mpr (by assumption)⟩
  | cons m rest ih =>
      unfold Fetchmpx.pollInpDispatch at hdispatch
      split at hdispatch
      all_goals first
        | cases hdispatch
        | (split at hdispatch
           · have hrest := ih hdispatch
             exact hrest
           · cases hdispatch
             exact ⟨rfl, nofun⟩)

/-- A pass that ends without anything to do has made no progress, and the monitoring part waits, or what
was polled before. -/
theorem pollMonitoring_pending {hpp : HaveProgressPending} {s t : Fetchmpx}
    (hpending : s.pollMonitoring Fetchmpx.finishClosing hpp = .pending t) :
    hpp.progress = false ∧
      (hpp.pending = true ∨ ∃ m, s.monitoring.pollNextUnpin = .pending m ∧ t = { s with monitoring := m }) := by
  unfold Fetchmpx.pollMonitoring Fetchmpx.finishClosing at hpending
  cases hprogress : hpp.progress <;> cases hwait : hpp.pending <;>
    cases hpoll : s.monitoring.pollNextUnpin <;> simp_all

/-- The parts end a pass without anything to do where no progress was made.  Where the polling part is
closing, the monitoring part waits, or what was looked at before. -/
theorem pollParts_pending {hpp : HaveProgressPending} {s t : Fetchmpx}
    (hpending : s.pollParts Fetchmpx.finishClosing hpp = .pending t) :
    hpp.progress = false ∧
      (s.polling.Closes → hpp.pending = false →
        ∃ p m, s.monitoring.pollNextUnpin = .pending m ∧ t = { s with polling := p, monitoring := m }) := by
  unfold Fetchmpx.pollParts at hpending
  cases hpoll : s.polling.pollNext with
  | panic => simp [hpoll] at hpending
  | again p => simp [hpoll] at hpending
  | item x p =>
      simp only [hpoll] at hpending
      split at hpending
      · cases hpending
      · exact absurd (pollMonitoring_pending hpending).1 nofun
  | pending p =>
      simp only [hpoll] at hpending
      have hprogress := (pollMonitoring_pending hpending).1
      exact ⟨hprogress, fun hcloses => absurd hpoll ((FetchPolling.closes_pollNext hcloses).2 p)⟩
  | done p =>
      simp only [hpoll] at hpending
      rcases pollMonitoring_pending hpending with ⟨hprogress, hwaits⟩
      refine ⟨hprogress, fun _ hwait => ?_⟩
      rcases hwaits with h | ⟨m, hm, rfl⟩
      · rw [hwait] at h
        cases h
      · exact ⟨p, m, hm, rfl⟩

/-- Where a closing channel finds nothing to do and has no message, it hangs. -/
theorem hanging_of_pending {s t : Fetchmpx} (hs : Sound s) (hclosing : s.state = .closing1)
    (hpending : s.pass = .pending t) (hbuf : t.inpBuf = []) : Hanging t := by
  have hkept := kept_sound.pollInpDispatch s.inpBuf hs
  unfold Fetchmpx.pass at hpending
  split at hpending
  · cases hpending
  · simp only [hclosing] at hpending
    split at hpending
    · cases hpending
    · exact absurd (pollParts_pending hpending).1 (by decide)
    · rename_i u hdispatch
      rw [hdispatch] at hkept
      rcases pollInpDispatch_pending hdispatch with ⟨hstate, hdone⟩
      rw [hclosing] at hstate
      rcases (pollParts_pending hpending).2 (hkept.2.1 hstate) rfl with ⟨p, m, hm, rfl⟩
      have hgoes : u.inpDone = false := hdone hbuf
      have hsound := hkept.2.2
      rw [hgoes] at hsound
      exact ⟨hstate, hbuf, hgoes, FetchMonitoring.hanging_of_pending hsound hm⟩

/-- Where a closing channel finds nothing to do and no message waits, its timers never bring it to its
end. -/
theorem not_completes_run (isPolled : Bool) (series : ℕ) (cid sid : UInt32) (shape : Netpod.Shape)
    (caDbrTy : UInt16) (es : List Event)
    (hclosing : (machine.run es (new isPolled series cid sid shape caDbrTy)).2.mpx.state = .closing1)
    (hpending : (machine.step .pass (machine.run es (new isPolled series cid sid shape caDbrTy)).2).1 =
      [.pending])
    (hbuf : (machine.step .pass (machine.run es (new isPolled series cid sid shape caDbrTy)).2).2.mpx.inpBuf =
      []) :
    ¬ Completes (machine.step .pass (machine.run es (new isPolled series cid sid shape caDbrTy)).2).2.mpx := by
  have hstep : ∀ e c, True → Sound c.mpx → Sound (machine.step e c).2.mpx := fun e c _ hs => sound_step e c hs
  have hsound := Machine.inv_run hstep (Machine.along_of_forall (fun _ _ => trivial) es _)
    (sound_new isPolled series cid sid shape caDbrTy)
  generalize (machine.run es (new isPolled series cid sid shape caDbrTy)).2 = c at *
  simp only [machine, pass] at hpending hbuf ⊢
  cases hpass : c.mpx.pass with
  | pending t =>
      simp only [hpass] at hbuf ⊢
      exact not_completes_of_hanging (hanging_of_pending hsound hclosing hpass hbuf)
  | _ => simp [hpass] at hpending

/-- A monitored channel that is removed, and whose cancel request is out. -/
theorem not_completes_run_one :
    ¬ Completes (machine.step .pass (machine.run (subscribing ++
        [.message (.eventAddRes 20 1 1 0 16 ⟨.scalar (.i32 5), .caMetaTime 0 0 0 0⟩), .pass, .pass,
          .triggerRemove] ++ List.replicate 8 .pass) (new false 1 2 3 .scalar 20)).2).2.mpx :=
  not_completes_run false 1 2 3 .scalar 20 _ (by decide) (by decide) (by decide)

/-- A polled channel that is removed waits without a timer. -/
theorem not_completes_polled : ¬ ∀ es : List Event,
    (machine.run es (new true 1 2 3 .scalar 20)).2.mpx.state = .closing1 →
      (machine.step .pass (machine.run es (new true 1 2 3 .scalar 20)).2).1 = [.pending] →
        Completes (machine.step .pass (machine.run es (new true 1 2 3 .scalar 20)).2).2.mpx := by
  intro hall
  have hcompletes := hall ([.triggerRemove] ++ List.replicate 8 .pass) (by decide) (by decide)
  exact absurd hcompletes.1 (by decide)

end Controlled

end Channelheap
end Daqbuf
