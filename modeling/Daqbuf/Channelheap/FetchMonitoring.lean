import Daqbuf.Channelheap.FetchPolling
/-!
# Monitoring a Channel

A channel that is monitored is subscribed: a subscribe request is sent, events come in, and in the end the
subscription is cancelled again.

Main results:

- Theorem {lit}`FetchMonitoring.leaves_pollNextUnpin`: what a poll does to the state.
- Theorem {lit}`FetchMonitoring.subscribes_of_createMonitorSend`: a part that is about to subscribe does.
- Theorem {lit}`FetchMonitoring.hanging_of_pending`: where a poll finds nothing to do.
-/

namespace Daqbuf
namespace Channelheap

open Poll
open Ca (CaMsgTy CaEventValue)
open Connset (HaveProgressPending)

/-! ## The state -/

namespace FetchMonitoring

/-- {lit}`StateDirection` -/
inductive StateDirection where
  | none
  | disable
  | enable
  | closing
  deriving DecidableEq, Repr

/-- {lit}`State` -/
inductive State where
  | doNothing
  | createMonitorSend (stdir : StateDirection)
  | createMonitorRecv (timer : Sleep) (stdir : StateDirection)
  | monitoring (timer : Sleep) (stdir : StateDirection)
  | removeMonitorSend (stdir : StateDirection)
  | removeMonitorRecv (timer : Sleep) (stdir : StateDirection)
  | removeSubidSend (stdir : StateDirection)
  | closing1
  | done
  deriving DecidableEq, Repr

end FetchMonitoring

/-- {lit}`MonitoringItem` -/
inductive MonitoringItem where
  | protoOutSubid (msg : CaMsgTy)
  | subidRemove (cid : UInt32)
  | channelEventValue (series : ℕ) (value : CaEventValue)
  | localLog
  deriving DecidableEq

/-- A subscribe request -/
def MonitoringItem.IsSubscribe : MonitoringItem → Prop
  | .protoOutSubid (.eventAdd _ _ _ _) => True
  | _ => False

/-- {lit}`FetchMonitoring` -/
structure FetchMonitoring where
  state : FetchMonitoring.State
  series : ℕ
  cid : UInt32
  sid : UInt32
  shape : Netpod.Shape
  caDbrTy : UInt16
  inpBuf : List CaMsgTy
  inpDone : Bool
  llog : ℕ
  deriving DecidableEq

namespace FetchMonitoring

/-- {lit}`SILENCE_MONITOR_WAKEUP` -/
def silenceMonitorWakeup : Dur := .jittered 60000

/-- {lit}`CREATE_SEND_TIMEOUT` -/
def createSendTimeout : Dur := .millis 20000

/-- {lit}`FetchMonitoring::new` -/
def new (series : ℕ) (cid sid : UInt32) (shape : Netpod.Shape) (caDbrTy : UInt16) : FetchMonitoring :=
  ⟨.doNothing, series, cid, sid, shape, caDbrTy, [], false, 0⟩

/-- An entry is put into the local log. -/
def log (s : FetchMonitoring) : FetchMonitoring := { s with llog := pushLog s.llog }

/-- {lit}`transition_state` -/
def transitionState (s : FetchMonitoring) (new : State) : FetchMonitoring := { s.log with state := new }

/-- {lit}`transition_to_enable` -/
def transitionToEnable (s : FetchMonitoring) : FetchMonitoring :=
  match s.state with
  | .doNothing => s.log.transitionState (.createMonitorSend .enable)
  | .removeMonitorSend _ => { s.log with state := .removeMonitorSend .enable }
  | .removeMonitorRecv timer _ => { s.log with state := .removeMonitorRecv timer .enable }
  | .removeSubidSend _ => { s.log with state := .removeSubidSend .enable }
  | _ => s.log

/-- {lit}`transition_to_disable` and {lit}`transition_to_closing`, which differ in the direction. -/
def transitionTo (stdir : StateDirection) (s : FetchMonitoring) : FetchMonitoring :=
  match s.state with
  | .createMonitorSend _ => { s.log with state := .createMonitorSend stdir }
  | .createMonitorRecv timer _ => { s.log with state := .createMonitorRecv timer stdir }
  | .monitoring timer _ => { s.log with state := .monitoring timer stdir }
  | _ => s.log

/-- {lit}`transition_to_disable` -/
def transitionToDisable (s : FetchMonitoring) : FetchMonitoring := s.transitionTo .disable

/-- {lit}`transition_to_closing`, which {lit}`trigger_closing` calls -/
def triggerClosing (s : FetchMonitoring) : FetchMonitoring := s.transitionTo .closing

/-- {lit}`inp_push_try`; {lit}`none` where the message comes back. -/
def inpPushTry (m : CaMsgTy) (s : FetchMonitoring) : Option FetchMonitoring :=
  if s.inpBuf.length < 16 then some { s with inpBuf := s.inpBuf ++ [m] } else none

/-- {lit}`handle_received_item` -/
def handleReceivedItem (m : CaMsgTy) (s : FetchMonitoring) : Pass FetchMonitoring MonitoringItem :=
  match m with
  | .eventAddRes _ _ _ _ _ value => .item (.channelEventValue s.series value) s
  | _ => .again s

/-- {lit}`poll_inp`; to go round again is to have taken a message without an item for it. -/
def pollInp (s : FetchMonitoring) : Pass FetchMonitoring MonitoringItem :=
  match s.inpBuf with
  | [] => if s.inpDone then .done s else .pending s
  | m :: rest =>
    match s.state with
    | .createMonitorRecv _ stdir =>
      handleReceivedItem m
        ({ s with inpBuf := rest }.transitionState (.monitoring (sleep silenceMonitorWakeup) stdir))
    | .monitoring _ _ | .removeMonitorSend _ => handleReceivedItem m { s with inpBuf := rest }
    | .removeMonitorRecv _ stdir =>
      match m with
      | .eventAddResEmpty _ _ _ | .eventCancelRes _ _ _ =>
        .again ({ s with inpBuf := rest }.transitionState (.removeSubidSend stdir))
      | _ => .again { s with inpBuf := rest }
    | .removeSubidSend _ => .again { s with inpBuf := [] }
    | .doNothing | .createMonitorSend _ | .closing1 | .done => .again { s with inpBuf := rest }

/-- What the state asks for, after the input was looked at. -/
def pollState (hpp : HaveProgressPending) (s : FetchMonitoring) : Pass FetchMonitoring MonitoringItem :=
  match s.state with
  | .doNothing | .done => hpp.finish s
  | .createMonitorSend stdir =>
    .item (.protoOutSubid (.eventAdd s.caDbrTy (toCaCount s.shape) s.sid 0))
      (s.transitionState (.createMonitorRecv (sleep createSendTimeout) stdir))
  | .createMonitorRecv timer _ =>
    if timer.elapsed then .again (s.transitionState .doNothing)
    else { hpp with pending := true }.finish s
  | .monitoring timer stdir =>
    match stdir with
    | .disable | .closing => .again (s.transitionState (.removeMonitorSend stdir))
    | .enable =>
      if timer.elapsed then
        .again (s.log.transitionState (.monitoring (sleep silenceMonitorWakeup) stdir))
      else { hpp with pending := true }.finish s
    | .none => hpp.finish s
  | .removeMonitorSend stdir =>
    .item (.protoOutSubid (.eventCancel s.caDbrTy (toCaCount s.shape) s.sid 0))
      (s.transitionState (.removeMonitorRecv (sleep createSendTimeout) stdir))
  | .removeMonitorRecv timer _ =>
    if timer.elapsed then .again (s.transitionState .doNothing)
    else { hpp with pending := true }.finish s
  | .removeSubidSend stdir =>
    match stdir with
    | .none | .disable => .item (.subidRemove s.cid) (s.transitionState .doNothing)
    | .enable => .item (.subidRemove s.cid) (s.transitionState (.createMonitorSend stdir))
    | .closing => .item (.subidRemove s.cid) (s.transitionState .closing1)
  | .closing1 => .again { s with inpDone := true, state := .done }

/-- One pass of the loop of {lit}`poll_next_unpin` -/
def pass (s : FetchMonitoring) : Pass FetchMonitoring MonitoringItem :=
  if 0 < s.llog then .item .localLog { s with llog := s.llog - 1 }
  else
    match s.pollInp with
    | .item x t => .item x t
    | .again t => t.pollState ⟨true, false⟩
    | .pending t => t.pollState ⟨false, true⟩
    | .done t => t.pollState ⟨false, false⟩
    | .panic => .panic

/-- {lit}`poll_next_unpin`, which needs at most a pass for each message and two more. -/
def pollNextUnpin (s : FetchMonitoring) : Pass FetchMonitoring MonitoringItem :=
  spin pass (s.inpBuf.length + 3) s

/-- The timer of the state elapses. -/
def elapse (s : FetchMonitoring) : FetchMonitoring :=
  match s.state with
  | .createMonitorRecv timer stdir => { s with state := .createMonitorRecv timer.elapse stdir }
  | .monitoring timer stdir => { s with state := .monitoring timer.elapse stdir }
  | .removeMonitorRecv timer stdir => { s with state := .removeMonitorRecv timer.elapse stdir }
  | _ => s

/-! ## What a poll does to the state -/

/-- How the state changes. -/
inductive Step : State → State → Prop where
  | sends (stdir : StateDirection) :
      Step (.createMonitorSend stdir) (.createMonitorRecv (sleep createSendTimeout) stdir)
  | subscribed (timer : Sleep) (stdir : StateDirection) :
      Step (.createMonitorRecv timer stdir) (.monitoring (sleep silenceMonitorWakeup) stdir)
  | createTimesOut {timer : Sleep} (helapsed : timer.elapsed) (stdir : StateDirection) :
      Step (.createMonitorRecv timer stdir) .doNothing
  | unwanted (timer : Sleep) {stdir : StateDirection} (hoff : stdir = .disable ∨ stdir = .closing) :
      Step (.monitoring timer stdir) (.removeMonitorSend stdir)
  | wakes (timer : Sleep) :
      Step (.monitoring timer .enable) (.monitoring (sleep silenceMonitorWakeup) .enable)
  | cancels (stdir : StateDirection) :
      Step (.removeMonitorSend stdir) (.removeMonitorRecv (sleep createSendTimeout) stdir)
  | cancelled (timer : Sleep) (stdir : StateDirection) :
      Step (.removeMonitorRecv timer stdir) (.removeSubidSend stdir)
  | removeTimesOut {timer : Sleep} (helapsed : timer.elapsed) (stdir : StateDirection) :
      Step (.removeMonitorRecv timer stdir) .doNothing
  | disabled {stdir : StateDirection} (hoff : stdir = .none ∨ stdir = .disable) :
      Step (.removeSubidSend stdir) .doNothing
  | resubscribes : Step (.removeSubidSend .enable) (.createMonitorSend .enable)
  | closes : Step (.removeSubidSend .closing) .closing1
  | ends : Step .closing1 .done

/-- A property of the state that steps preserve is kept by a message. -/
theorem leaves_pollInp {Q : State → Prop} (hQ : ∀ st st', Step st st' → Q st → Q st')
    {s : FetchMonitoring} (hs : Q s.state) : s.pollInp.Leaves fun t => Q t.state := by
  unfold pollInp handleReceivedItem
  cases hbuf : s.inpBuf with
  | nil => cases hdone : s.inpDone <;> simpa [hdone] using hs
  | cons m rest =>
      cases hstate : s.state with
      | createMonitorRecv timer stdir =>
          rw [hstate] at hs
          have hnext := hQ _ _ (.subscribed timer stdir) hs
          cases m <;> exact hnext
      | removeMonitorRecv timer stdir =>
          rw [hstate] at hs
          have hnext := hQ _ _ (.cancelled timer stdir) hs
          cases m <;> first | exact hnext | simpa [hstate] using hs
      | _ => rw [hstate] at hs; cases m <;> simpa [hstate] using hs

/-- The end of a pass leaves the state as it is. -/
theorem leaves_finish {hpp : HaveProgressPending} {s : FetchMonitoring} {Q : FetchMonitoring → Prop}
    (hs : Q s) : (hpp.finish s : Pass FetchMonitoring MonitoringItem).Leaves Q := by
  unfold HaveProgressPending.finish
  (repeat' split) <;> exact hs

/-- A property of the state that steps preserve is kept by what the state asks for. -/
theorem leaves_pollState {Q : State → Prop} (hQ : ∀ st st', Step st st' → Q st → Q st')
    {s : FetchMonitoring} (hs : Q s.state) (hpp : HaveProgressPending) :
    (s.pollState hpp).Leaves fun t => Q t.state := by
  unfold pollState
  cases hstate : s.state with
  | doNothing => exact leaves_finish hs
  | done => exact leaves_finish hs
  | createMonitorSend stdir => exact hQ _ _ (.sends stdir) (hstate ▸ hs)
  | removeMonitorSend stdir => exact hQ _ _ (.cancels stdir) (hstate ▸ hs)
  | closing1 => exact hQ _ _ .ends (hstate ▸ hs)
  | createMonitorRecv timer stdir =>
      dsimp only
      split
      · exact hQ _ _ (.createTimesOut (by assumption) stdir) (hstate ▸ hs)
      · exact leaves_finish hs
  | removeMonitorRecv timer stdir =>
      dsimp only
      split
      · exact hQ _ _ (.removeTimesOut (by assumption) stdir) (hstate ▸ hs)
      · exact leaves_finish hs
  | monitoring timer stdir =>
      cases stdir with
      | none => exact leaves_finish hs
      | disable => exact hQ _ _ (.unwanted timer (.inl rfl)) (hstate ▸ hs)
      | closing => exact hQ _ _ (.unwanted timer (.inr rfl)) (hstate ▸ hs)
      | enable =>
          dsimp only
          split
          · exact hQ _ _ (.wakes timer) (hstate ▸ hs)
          · exact leaves_finish hs
  | removeSubidSend stdir =>
      cases stdir with
      | none => exact hQ _ _ (.disabled (.inl rfl)) (hstate ▸ hs)
      | disable => exact hQ _ _ (.disabled (.inr rfl)) (hstate ▸ hs)
      | enable => exact hQ _ _ .resubscribes (hstate ▸ hs)
      | closing => exact hQ _ _ .closes (hstate ▸ hs)

/-- A property of the state that steps preserve is kept by a poll. -/
theorem leaves_pollNextUnpin {Q : State → Prop} (hQ : ∀ st st', Step st st' → Q st → Q st')
    {s : FetchMonitoring} (hs : Q s.state) : s.pollNextUnpin.Leaves fun t => Q t.state := by
  refine leaves_spin (Q := fun t : FetchMonitoring => Q t.state) ?_ _ hs
  intro t ht
  unfold pass
  split
  · exact ht
  · have hinp := leaves_pollInp hQ ht
    cases hpoll : t.pollInp with
    | item x u => rwa [hpoll] at hinp
    | panic => rwa [hpoll] at hinp
    | again u =>
        rw [hpoll] at hinp
        exact leaves_pollState hQ hinp _
    | pending u =>
        rw [hpoll] at hinp
        exact leaves_pollState hQ hinp _
    | done u =>
        rw [hpoll] at hinp
        exact leaves_pollState hQ hinp _

/-! ## The loop ends -/

/-- What a poll of the input finds when there is no message. -/
theorem pollInp_nil {s : FetchMonitoring} (hbuf : s.inpBuf = []) :
    s.pollInp = if s.inpDone then .done s else .pending s := by
  simp [pollInp, hbuf]

/-- A message is taken, with an item or a transition, or it is dropped. -/
theorem pollInp_cons {s : FetchMonitoring} {m : CaMsgTy} {rest : List CaMsgTy} (hbuf : s.inpBuf = m :: rest) :
    (∃ x t, s.pollInp = .item x t) ∨
      ∃ t, s.pollInp = .again t ∧
        (0 < t.llog ∨ t.state = s.state ∧ t.llog = s.llog ∧ t.inpBuf.length < s.inpBuf.length) := by
  unfold pollInp handleReceivedItem
  rw [hbuf]
  cases hstate : s.state <;> cases m <;>
    simp [transitionState, log, pushLog_pos]

/-- How many passes a loop makes at most. -/
def rank (s : FetchMonitoring) : ℕ :=
  if 0 < s.llog then 0 else s.inpBuf.length + if s.state = .closing1 then 2 else 1

theorem rank_of_log {s : FetchMonitoring} (hlog : 0 < s.llog) : s.rank = 0 := if_pos hlog

/-- The end of a pass goes round again only for progress. -/
theorem finish_again {hpp : HaveProgressPending} {s t : FetchMonitoring}
    (hpass : (hpp.finish s : Pass FetchMonitoring MonitoringItem) = .again t) :
    hpp.progress = true ∧ t = s := by
  unfold HaveProgressPending.finish at hpass
  split at hpass
  · cases hpass
    exact ⟨by assumption, rfl⟩
  · split at hpass <;> cases hpass

/-- What the state asks for goes round again with an entry in the log, for progress that was made before,
or at the end. -/
theorem pollState_again {hpp : HaveProgressPending} {s t : FetchMonitoring}
    (hpass : s.pollState hpp = .again t) :
    0 < t.llog ∨ (hpp.progress = true ∧ t = s) ∨
      (s.state = .closing1 ∧ t = { s with inpDone := true, state := .done }) := by
  have hlogged : ∀ (u : FetchMonitoring) (new : State),
      (Pass.again (u.transitionState new) : Pass FetchMonitoring MonitoringItem) = .again t →
        0 < t.llog := by
    intro u new heq
    cases heq
    exact pushLog_pos _
  unfold pollState at hpass
  cases hstate : s.state with
  | doNothing =>
      rw [hstate] at hpass
      exact .inr (.inl (finish_again hpass))
  | done =>
      rw [hstate] at hpass
      exact .inr (.inl (finish_again hpass))
  | createMonitorSend stdir => simp [hstate] at hpass
  | removeMonitorSend stdir => simp [hstate] at hpass
  | removeSubidSend stdir => cases stdir <;> simp [hstate] at hpass
  | closing1 =>
      rw [hstate] at hpass
      cases hpass
      exact .inr (.inr ⟨rfl, rfl⟩)
  | createMonitorRecv timer stdir =>
      simp only [hstate] at hpass
      split at hpass
      · exact .inl (hlogged _ _ hpass)
      · have hfinish := finish_again hpass
        exact .inr (.inl hfinish)
  | removeMonitorRecv timer stdir =>
      simp only [hstate] at hpass
      split at hpass
      · exact .inl (hlogged _ _ hpass)
      · have hfinish := finish_again hpass
        exact .inr (.inl hfinish)
  | monitoring timer stdir =>
      cases stdir with
      | none =>
          simp only [hstate] at hpass
          exact .inr (.inl (finish_again hpass))
      | disable =>
          simp only [hstate] at hpass
          exact .inl (hlogged _ _ hpass)
      | closing =>
          simp only [hstate] at hpass
          exact .inl (hlogged _ _ hpass)
      | enable =>
          simp only [hstate] at hpass
          split at hpass
          · exact .inl (hlogged _ _ hpass)
          · have hfinish := finish_again hpass
            exact .inr (.inl hfinish)

/-- A pass that goes round again lowers the rank. -/
theorem rank_pass {s t : FetchMonitoring} (hpass : s.pass = .again t) : t.rank < s.rank := by
  unfold pass at hpass
  split at hpass
  · cases hpass
  · rename_i hlog
    have hrank : s.rank = s.inpBuf.length + if s.state = .closing1 then 2 else 1 := if_neg hlog
    by_cases hlogged : 0 < t.llog
    · rw [rank_of_log hlogged, hrank]
      split <;> omega
    have htrank : t.rank = t.inpBuf.length + if t.state = .closing1 then 2 else 1 := if_neg hlogged
    cases hbuf : s.inpBuf with
    | nil =>
        rw [pollInp_nil hbuf] at hpass
        -- without a message only the end goes round again
        have hends : s.state = .closing1 ∧ t = { s with inpDone := true, state := .done } := by
          cases hdone : s.inpDone <;> simp only [hdone, if_true, if_false, Bool.false_eq_true] at hpass <;>
            rcases pollState_again hpass with h | ⟨h, -⟩ | h
          all_goals first | exact absurd h hlogged | exact absurd h Bool.false_ne_true | exact h
        rw [htrank, hrank, hends.1, hends.2]
        simp
    | cons m rest =>
        rcases pollInp_cons hbuf with ⟨x, u, hinp⟩ | ⟨u, hinp, hu⟩
        · rw [hinp] at hpass
          cases hpass
        · rw [hinp] at hpass
          rcases pollState_again hpass with h | ⟨-, rfl⟩ | ⟨hclosing, rfl⟩
          · exact absurd h hlogged
          · rcases hu with h | ⟨hstate, -, hlen⟩
            · exact absurd h hlogged
            · rw [htrank, hrank, hstate]
              omega
          · rcases hu with h | ⟨hstate, -, hlen⟩
            · exact absurd h hlogged
            · rw [htrank, hrank, ← hstate, hclosing]
              simp only [reduceCtorEq, if_false, if_true]
              omega

/-- A poll leaves its loop. -/
theorem pollNextUnpin_ne_again (s t : FetchMonitoring) : s.pollNextUnpin ≠ .again t := by
  apply spin_ne_again (fun _ _ => rank_pass)
  unfold rank
  (repeat' split) <;> omega

/-! ## Acquiring -/

/-- The part is not being closed. -/
def State.Operating : State → Prop
  | .doNothing => True
  | .createMonitorSend stdir | .createMonitorRecv _ stdir | .monitoring _ stdir | .removeMonitorSend stdir
  | .removeMonitorRecv _ stdir | .removeSubidSend stdir => stdir = .enable ∨ stdir = .disable
  | .closing1 | .done => False

/-- The part is on: it is subscribed, or it is about to be. -/
def State.IsOn : State → Prop
  | .createMonitorSend .enable | .createMonitorRecv _ .enable | .monitoring _ .enable
  | .removeSubidSend .enable => True
  | _ => False

/-- The part is on its way to being disabled. -/
def State.disabling : State → Bool
  | .createMonitorSend .disable | .createMonitorRecv _ .disable | .monitoring _ .disable
  | .removeMonitorSend _ | .removeMonitorRecv _ _ => true
  | _ => false

/-- The timer of a subscribe request that is wanted has elapsed. -/
def State.overdue : State → Bool
  | .createMonitorRecv timer .enable => timer.elapsed
  | _ => false

/-- A part that is on operates. -/
theorem State.Operating.of_isOn {st : State} (hon : st.IsOn) : st.Operating := by
  unfold State.IsOn at hon
  split at hon
  · exact .inl rfl
  · exact .inl rfl
  · exact .inl rfl
  · exact .inl rfl
  · exact hon.elim

/-- The part operates, and it is on where it is wanted. -/
def State.Fit (on : Bool) (st : State) : Prop := st.Operating ∧ (on = true → st.IsOn)

/-- A step keeps a part operating. -/
theorem operating_of_step {st st' : State} (hstep : Step st st') (hop : st.Operating) : st'.Operating := by
  cases hstep with
  | createTimesOut => trivial
  | removeTimesOut => trivial
  | disabled => trivial
  | resubscribes => exact .inl rfl
  | closes => simp [State.Operating] at hop
  | _ => exact hop

/-- A step of a part that is on, and whose subscribe request is not overdue, keeps it on. -/
theorem isOn_of_step {st st' : State} (hstep : Step st st') (hon : st.IsOn) (htime : st.overdue = false) :
    st'.IsOn := by
  cases hstep with
  | sends stdir => cases stdir <;> simp_all [State.IsOn]
  | subscribed timer stdir => cases stdir <;> simp_all [State.IsOn]
  | createTimesOut helapsed stdir => cases stdir <;> simp_all [State.IsOn, State.overdue]
  | unwanted timer hoff => rcases hoff with rfl | rfl <;> exact hon
  | disabled hoff => rcases hoff with rfl | rfl <;> exact hon
  | _ => trivial

/-- No step makes a subscribe request overdue. -/
theorem overdue_of_step {st st' : State} (hstep : Step st st') : st'.overdue = false := by
  cases hstep with
  | sends stdir => cases stdir <;> rfl
  | _ => rfl

/-- A step of a fit part whose subscribe request is not overdue keeps it so. -/
theorem fit_of_step {on : Bool} {st st' : State} (hstep : Step st st')
    (hfit : st.Fit on ∧ st.overdue = false) : st'.Fit on ∧ st'.overdue = false :=
  ⟨⟨operating_of_step hstep hfit.1.1, fun h => isOn_of_step hstep (hfit.1.2 h) hfit.2⟩,
    overdue_of_step hstep⟩

/-- What enabling does to the state. -/
theorem isOn_transitionToEnable {s : FetchMonitoring} (hop : s.state.Operating)
    (hdisabling : s.state.disabling = false) : s.transitionToEnable.state.IsOn := by
  unfold transitionToEnable
  cases hstate : s.state with
  | doNothing => trivial
  | removeSubidSend stdir => trivial
  | createMonitorSend stdir => cases stdir <;> simp_all [log, State.IsOn, State.disabling, State.Operating]
  | createMonitorRecv timer stdir =>
      cases stdir <;> simp_all [log, State.IsOn, State.disabling, State.Operating]
  | monitoring timer stdir => cases stdir <;> simp_all [log, State.IsOn, State.disabling, State.Operating]
  | removeMonitorSend stdir => simp [hstate, State.disabling] at hdisabling
  | removeMonitorRecv timer stdir => simp [hstate, State.disabling] at hdisabling
  | closing1 => simp [hstate, State.Operating] at hop
  | done => simp [hstate, State.Operating] at hop

/-- A part that is enabled is fit, if it is not on its way to being disabled. -/
theorem fit_transitionToEnable {on : Bool} {s : FetchMonitoring} (hfit : s.state.Fit on)
    (hdisabling : s.state.disabling = false) : s.transitionToEnable.state.Fit true :=
  have hon := isOn_transitionToEnable hfit.1 hdisabling
  ⟨.of_isOn hon, fun _ => hon⟩

/-- A part that is disabled is fit. -/
theorem fit_transitionToDisable {on : Bool} {s : FetchMonitoring} (hfit : s.state.Fit on) :
    s.transitionToDisable.state.Fit false := by
  refine ⟨?_, fun h => absurd h Bool.false_ne_true⟩
  have hop := hfit.1
  unfold transitionToDisable transitionTo
  cases hstate : s.state <;> simp_all [log, State.Operating]

/-- The timers keep the part fit. -/
theorem fit_elapse {on : Bool} {s : FetchMonitoring} (hfit : s.state.Fit on) : s.elapse.state.Fit on := by
  rcases hfit with ⟨hop, hon⟩
  unfold elapse
  cases hstate : s.state with
  | createMonitorRecv timer stdir =>
      rw [hstate] at hop hon
      exact ⟨hop, fun h => by have := hon h; cases stdir <;> exact this⟩
  | monitoring timer stdir =>
      rw [hstate] at hop hon
      exact ⟨hop, fun h => by have := hon h; cases stdir <;> exact this⟩
  | removeMonitorRecv timer stdir =>
      rw [hstate] at hop hon
      exact ⟨hop, hon⟩
  | _ => exact ⟨by simpa [hstate] using hop, by simpa [hstate] using hon⟩

/-! ## The next subscribe request -/

/-- When the timers fire and no message comes, a subscribe request follows. -/
def Subscribes (s : FetchMonitoring) : Prop :=
  (Machine.clock elapse pollNextUnpin).Follows MonitoringItem.IsSubscribe s

/-- A subscription is established, a subscribe request is out and its timer armed, or one follows when the
timers fire. -/
def Acquires (s : FetchMonitoring) : Prop :=
  (∃ timer, s.state = .monitoring timer .enable) ∨ (∃ timer, s.state = .createMonitorRecv timer .enable) ∨
    s.Subscribes

/-- The local log is handed out first. -/
theorem clock_of_log {s : FetchMonitoring} (hlog : 0 < s.llog) :
    ((Machine.clock elapse pollNextUnpin).step () s).2 = { s.elapse with llog := s.llog - 1 } := by
  have hsame : s.elapse.llog = s.llog := by
    unfold elapse
    split <;> rfl
  simp [Machine.clock, pollNextUnpin, spin_succ, pass, hsame, hlog]

/-- A subscribe request that is to be sent is sent. -/
theorem subscribes_of_createMonitorSend {s : FetchMonitoring} {stdir : StateDirection}
    (hstate : s.state = .createMonitorSend stdir) : s.Subscribes := by
  apply Machine.follows_of_rank (P := fun s : FetchMonitoring => s.state = .createMonitorSend stdir)
    (r := fun s => s.llog) ?_ hstate
  intro s hs
  have hsame : s.elapse = s := by simp [elapse, hs]
  by_cases hlog : 0 < s.llog
  · rw [clock_of_log hlog, hsame]
    exact .inr ⟨hs, Nat.sub_lt hlog Nat.one_pos⟩
  · left
    apply Machine.follows_of_output
      (o := .protoOutSubid (.eventAdd s.caDbrTy (toCaCount s.shape) s.sid 0)) ?_ trivial
    cases hbuf : s.inpBuf with
    | nil =>
        cases hdone : s.inpDone <;>
          simp [Machine.clock, hsame, pollNextUnpin, spin_succ, pass, hlog, pollInp, hbuf, hdone, hs, pollState]
    | cons m rest =>
        simp [Machine.clock, hsame, pollNextUnpin, spin_succ, pass, hlog, pollInp, hbuf, hs, pollState]

/-- A part that is enabled while its subscription is removed subscribes again. -/
theorem subscribes_of_removeSubidSend {s : FetchMonitoring}
    (hstate : s.state = .removeSubidSend .enable) : s.Subscribes := by
  apply Machine.follows_of_rank (P := fun s : FetchMonitoring => s.state = .removeSubidSend .enable)
    (r := fun s => s.llog) ?_ hstate
  intro s hs
  have hsame : s.elapse = s := by simp [elapse, hs]
  by_cases hlog : 0 < s.llog
  · rw [clock_of_log hlog, hsame]
    exact .inr ⟨hs, Nat.sub_lt hlog Nat.one_pos⟩
  · left
    apply Machine.follows_of_step
    have hsend : ((Machine.clock elapse pollNextUnpin).step () s).2.state = .createMonitorSend .enable := by
      cases hbuf : s.inpBuf with
      | nil =>
          cases hdone : s.inpDone <;>
            simp [Machine.clock, hsame, pollNextUnpin, spin_succ, pass, hlog, pollInp, hbuf, hdone, hs,
              pollState, transitionState]
      | cons m rest =>
          simp [Machine.clock, hsame, pollNextUnpin, spin_succ, pass, hlog, pollInp, hbuf, hs, pollState,
            transitionState]
    exact subscribes_of_createMonitorSend hsend

/-- A part that does nothing goes on to do nothing. -/
theorem doNothing_pollNextUnpin {s : FetchMonitoring} (hstate : s.state = .doNothing) :
    s.pollNextUnpin.Leaves fun t => t.state = .doNothing := by
  apply leaves_pollNextUnpin (Q := fun st => st = .doNothing) ?_ hstate
  rintro _ st' hstep rfl
  cases hstep

/-- A pass of a part that does nothing. -/
theorem pass_of_doNothing {s : FetchMonitoring} (hstate : s.state = .doNothing) :
    (∃ t, s.pass = .item .localLog t) ∨
      ∃ t, t.state = .doNothing ∧ (s.pass = .again t ∨ s.pass = .pending t ∨ s.pass = .done t) := by
  unfold pass
  split
  · exact .inl ⟨_, rfl⟩
  · right
    cases hbuf : s.inpBuf with
    | nil =>
        refine ⟨s, hstate, ?_⟩
        cases hdone : s.inpDone <;>
          simp [pollInp, hbuf, hdone, pollState, hstate, HaveProgressPending.finish]
    | cons m rest =>
        refine ⟨{ s with inpBuf := rest }, hstate, ?_⟩
        simp [pollInp, hbuf, pollState, hstate, HaveProgressPending.finish]

/-- A part that does nothing gives only entries of its log. -/
theorem item_of_doNothing {s t : FetchMonitoring} {x : MonitoringItem} (hstate : s.state = .doNothing)
    (hitem : s.pollNextUnpin = .item x t) : x = .localLog := by
  have hagain : ∀ u v : FetchMonitoring, u.state = .doNothing → u.pass = .again v → v.state = .doNothing := by
    intro u v hu hpass
    rcases pass_of_doNothing hu with ⟨w, hw⟩ | ⟨w, hw, h | h | h⟩
    · rw [hw] at hpass
      cases hpass
    · rw [h] at hpass
      cases hpass
      exact hw
    · rw [h] at hpass
      cases hpass
    · rw [h] at hpass
      cases hpass
  rcases exists_last_spin hagain hstate (n := s.inpBuf.length + 3) with ⟨u, hu⟩ | ⟨u, hu, hlast⟩
  · exact absurd hu (pollNextUnpin_ne_again s u)
  · have hpass : u.pass = .item x t := hlast.trans hitem
    rcases pass_of_doNothing hu with ⟨w, hw⟩ | ⟨w, -, h | h | h⟩
    · rw [hw] at hpass
      cases hpass
      rfl
    · rw [h] at hpass
      cases hpass
    · rw [h] at hpass
      cases hpass
    · rw [h] at hpass
      cases hpass

/-- A part that does nothing does not subscribe, whatever its timers do. -/
theorem not_subscribes_of_doNothing {s : FetchMonitoring} (hstate : s.state = .doNothing) :
    ¬ s.Subscribes := by
  have helapse : ∀ s : FetchMonitoring, s.state = .doNothing → s.elapse = s := by
    intro s hs
    simp [elapse, hs]
  have hstep : ∀ (_ : Unit) (s : FetchMonitoring), True → s.state = .doNothing →
      ((Machine.clock elapse pollNextUnpin).step () s).2.state = .doNothing := by
    intro _ s _ hs
    have hleaves := doNothing_pollNextUnpin hs
    simp only [Machine.clock, helapse s hs]
    cases hpoll : s.pollNextUnpin with
    | panic => exact hs
    | _ => rwa [hpoll] at hleaves
  have hout : ∀ (_ : Unit) (s : FetchMonitoring), True → s.state = .doNothing →
      ∀ x ∈ ((Machine.clock elapse pollNextUnpin).step () s).1, ¬ x.IsSubscribe := by
    intro _ s _ hs x hx
    simp only [Machine.clock, helapse s hs] at hx
    split at hx
    · rename_i y t hpoll
      rw [List.mem_singleton.mp hx, item_of_doNothing hs hpoll]
      exact id
    all_goals exact absurd hx List.not_mem_nil
  rintro ⟨n, x, hx, hsub⟩
  exact Machine.outputs_run hstep hout (Machine.along_of_forall (fun _ _ => trivial) _ s) hstate x hx hsub

/-- A part that is on acquires. -/
theorem acquires_of_isOn {s : FetchMonitoring} (hon : s.state.IsOn) : s.Acquires := by
  unfold State.IsOn at hon
  split at hon
  · exact .inr (.inr (subscribes_of_createMonitorSend (by assumption)))
  · exact .inr (.inl ⟨_, by assumption⟩)
  · exact .inl ⟨_, by assumption⟩
  · exact .inr (.inr (subscribes_of_removeSubidSend (by assumption)))
  · exact hon.elim

/-! ## Waiting for a message -/

/-- The end of the input is known, from outside or since the part is done. -/
def Sound (inpDone : Bool) (s : FetchMonitoring) : Prop :=
  (s.state = .done → s.inpDone = true) ∧ (s.inpDone = inpDone ∨ s.state = .done)

/-- A message does not tell the end of the input. -/
theorem sound_pollInp {inpDone : Bool} {s : FetchMonitoring} (hs : s.Sound inpDone) :
    s.pollInp.Leaves (Sound inpDone) := by
  unfold pollInp handleReceivedItem
  cases hbuf : s.inpBuf with
  | nil => cases hdone : s.inpDone <;> simpa [hdone] using hs
  | cons m rest =>
      unfold Sound at hs
      cases hstate : s.state <;> cases m <;> simp_all [Sound, transitionState, log]

/-- What the state asks for tells the end of the input only where the part is done. -/
theorem sound_pollState {inpDone : Bool} {s : FetchMonitoring} (hs : s.Sound inpDone)
    (hpp : HaveProgressPending) : (s.pollState hpp).Leaves (Sound inpDone) := by
  unfold pollState
  cases hstate : s.state with
  | doNothing => exact leaves_finish hs
  | done => exact leaves_finish hs
  | closing1 => exact ⟨fun _ => rfl, .inr rfl⟩
  | createMonitorRecv timer stdir =>
      dsimp only
      split
      · simp_all [Sound, transitionState, log]
      · exact leaves_finish hs
  | removeMonitorRecv timer stdir =>
      dsimp only
      split
      · simp_all [Sound, transitionState, log]
      · exact leaves_finish hs
  | monitoring timer stdir =>
      cases stdir with
      | none => exact leaves_finish hs
      | enable =>
          dsimp only
          split
          · simp_all [Sound, transitionState, log]
          · exact leaves_finish hs
      | _ => simp_all [Sound, transitionState, log]
  | removeSubidSend stdir => cases stdir <;> simp_all [Sound, transitionState, log]
  | _ => simp_all [Sound, transitionState, log]

theorem sound_pass {inpDone : Bool} {s : FetchMonitoring} (hs : s.Sound inpDone) :
    s.pass.Leaves (Sound inpDone) := by
  unfold pass
  split
  · exact hs
  · have hinp := sound_pollInp hs
    cases hpoll : s.pollInp with
    | item x u => rwa [hpoll] at hinp
    | panic => rwa [hpoll] at hinp
    | again u =>
        rw [hpoll] at hinp
        exact sound_pollState hinp _
    | pending u =>
        rw [hpoll] at hinp
        exact sound_pollState hinp _
    | done u =>
        rw [hpoll] at hinp
        exact sound_pollState hinp _

/-- A poll tells the end of the input only where the part is done. -/
theorem sound_pollNextUnpin {inpDone : Bool} {s : FetchMonitoring} (hs : s.Sound inpDone) :
    s.pollNextUnpin.Leaves (Sound inpDone) :=
  leaves_spin (fun _ => sound_pass) _ hs

/-- The part has no message and is to get some, and only a message brings it to its end. -/
def Hanging (s : FetchMonitoring) : Prop :=
  s.inpBuf = [] ∧ s.inpDone = false ∧
    match s.state with
    | .removeSubidSend _ | .closing1 | .done => False
    | _ => True

/-- A pass of a hanging part leaves it hanging, and does not end. -/
theorem hanging_pass {s : FetchMonitoring} (hs : s.Hanging) :
    s.pass.Leaves Hanging ∧ ∀ t, s.pass ≠ .done t := by
  rcases hs with ⟨hbuf, hdone, hstate⟩
  unfold pass
  split
  · exact ⟨⟨hbuf, hdone, hstate⟩, nofun⟩
  · rw [pollInp_nil hbuf, hdone]
    simp only [Bool.false_eq_true, if_false]
    unfold pollState HaveProgressPending.finish
    cases hs : s.state with
    | createMonitorRecv timer stdir =>
        cases helapsed : timer.elapsed <;> simp [Hanging, hbuf, hdone, hs, helapsed, transitionState, log]
    | removeMonitorRecv timer stdir =>
        cases helapsed : timer.elapsed <;> simp [Hanging, hbuf, hdone, hs, helapsed, transitionState, log]
    | monitoring timer stdir =>
        cases stdir <;> cases helapsed : timer.elapsed <;>
          simp [Hanging, hbuf, hdone, hs, helapsed, transitionState, log]
    | removeSubidSend stdir => simp [hs] at hstate
    | closing1 => simp [hs] at hstate
    | done => simp [hs] at hstate
    | _ => simp [Hanging, hbuf, hdone, hs, transitionState, log]

/-- A poll of a hanging part leaves it hanging, and does not end. -/
theorem hanging_pollNextUnpin {s : FetchMonitoring} (hs : s.Hanging) :
    s.pollNextUnpin.Leaves Hanging ∧ ∀ t, s.pollNextUnpin ≠ .done t := by
  refine ⟨leaves_spin (fun _ h => (hanging_pass h).1) _ hs, fun t ht => ?_⟩
  have hagain : ∀ u v : FetchMonitoring, u.Hanging → u.pass = .again v → v.Hanging := by
    intro u v hu hpass
    have hleaves := (hanging_pass hu).1
    rwa [hpass] at hleaves
  rcases exists_last_spin hagain hs (n := s.inpBuf.length + 3) with ⟨u, hu⟩ | ⟨u, hu, hlast⟩
  · exact pollNextUnpin_ne_again s u hu
  · exact (hanging_pass hu).2 t (hlast.trans ht)

/-- A hanging part hangs when its timer elapses. -/
theorem hanging_elapse {s : FetchMonitoring} (hs : s.Hanging) : s.elapse.Hanging := by
  unfold elapse
  cases hstate : s.state <;> simp_all [Hanging]

/-- Some timer of the part is armed. -/
def State.armed : State → Bool
  | .createMonitorRecv _ _ | .monitoring _ _ | .removeMonitorRecv _ _ => true
  | _ => false

/-- Where the state asks for nothing. -/
theorem pollState_pending {hpp : HaveProgressPending} {s t : FetchMonitoring}
    (hpass : s.pollState hpp = .pending t) :
    t = s ∧ hpp.progress = false ∧
      match s.state with
      | .removeSubidSend _ | .closing1 => False
      | .done => hpp.pending = true
      | _ => True := by
  unfold pollState HaveProgressPending.finish at hpass
  cases hstate : s.state with
  | createMonitorRecv timer stdir =>
      cases helapsed : timer.elapsed <;> cases hprogress : hpp.progress <;> simp_all
  | removeMonitorRecv timer stdir =>
      cases helapsed : timer.elapsed <;> cases hprogress : hpp.progress <;> simp_all
  | monitoring timer stdir =>
      cases stdir <;> cases helapsed : timer.elapsed <;> cases hprogress : hpp.progress <;>
        cases hpending : hpp.pending <;> simp_all
  | removeSubidSend stdir => cases stdir <;> simp [hstate] at hpass
  | _ => cases hprogress : hpp.progress <;> cases hpending : hpp.pending <;> simp_all

/-- Where a pass finds nothing to do, the part hangs, unless the end of the input is told. -/
theorem hanging_of_pass {s t : FetchMonitoring} (hs : s.Sound false) (hpass : s.pass = .pending t) :
    t.Hanging := by
  unfold pass at hpass
  split at hpass
  · cases hpass
  · cases hbuf : s.inpBuf with
    | cons m rest =>
        -- a message that is taken is progress
        rcases pollInp_cons hbuf with ⟨x, u, hinp⟩ | ⟨u, hinp, -⟩
        · rw [hinp] at hpass
          cases hpass
        · rw [hinp] at hpass
          exact absurd (pollState_pending hpass).2.1 (by decide)
    | nil =>
        rw [pollInp_nil hbuf] at hpass
        cases hdone : s.inpDone with
        | true =>
            have hstate : s.state = .done := hs.2.resolve_left (by simp [hdone])
            simp [hdone, pollState, hstate, HaveProgressPending.finish] at hpass
        | false =>
            simp only [hdone, Bool.false_eq_true, if_false] at hpass
            rcases pollState_pending hpass with ⟨rfl, -, hstate⟩
            refine ⟨hbuf, hdone, ?_⟩
            cases hst : t.state with
            | done => exact absurd (hs.1 hst) (by simp [hdone])
            | removeSubidSend stdir => simp [hst] at hstate
            | closing1 => simp [hst] at hstate
            | _ => trivial

/-- Where a poll finds nothing to do, the part hangs, unless the end of the input is told. -/
theorem hanging_of_pending {s t : FetchMonitoring} (hs : s.Sound false)
    (hpending : s.pollNextUnpin = .pending t) : t.Hanging := by
  have hagain : ∀ u v : FetchMonitoring, u.Sound false → u.pass = .again v → v.Sound false := by
    intro u v hu hpass
    have hleaves := sound_pass hu
    rwa [hpass] at hleaves
  rcases exists_last_spin hagain hs (n := s.inpBuf.length + 3) with ⟨u, hu⟩ | ⟨u, hu, hlast⟩
  · exact absurd hu (pollNextUnpin_ne_again s u)
  · exact hanging_of_pass hu (hlast.trans hpending)

end FetchMonitoring

end Channelheap
end Daqbuf
