import Daqbuf.Connset.Channel
/-!
# Polling a Channel

A channel that is polled is read again and again: a timer runs, a read request is sent, and the reply is
waited for.

The content of the local log is left out, as are the times at which messages came in.

Main results:

- Theorem {lit}`FetchPolling.step_pollNext`: what a poll does to the state.
- Theorem {lit}`FetchPolling.fit_of_step`: what is wanted on stays on, where no reply is overdue.
- Theorem {lit}`FetchPolling.reads_of_idle`: when the timer of an idle part fires, a read request follows.
-/

namespace Daqbuf
namespace Channelheap

open Poll
open Ca (CaMsgTy CaEventValue)
open Connset (HaveProgressPending)

/-! ## Timers and the local log -/

/-- How long a timer runs: a number of milliseconds, or a random time about it. -/
inductive Dur where
  | millis (n : ℕ)
  | jittered (n : ℕ)
  deriving DecidableEq, Repr

/-- A timer that was armed, and whether it has elapsed. -/
structure Sleep where
  dur : Dur
  elapsed : Bool
  deriving DecidableEq, Repr

/-- {lit}`sleep` -/
def sleep (dur : Dur) : Sleep := ⟨dur, false⟩

/-- The time of the timer has come. -/
def Sleep.elapse (s : Sleep) : Sleep := { s with elapsed := true }

/-- {lit}`LocalLog::push`, as far as the number of entries is concerned -/
def pushLog (n : ℕ) : ℕ := (if 120 ≤ n then n - 20 else n) + 1

theorem pushLog_pos (n : ℕ) : 0 < pushLog n := Nat.succ_pos _

/-- {lit}`to_ca_count` -/
def toCaCount : Netpod.Shape → UInt32
  | .scalar => 1
  | .wave n => n

/-! ## The state -/

namespace FetchPolling

/-- {lit}`StateDirection` -/
inductive StateDirection where
  | none
  | doNothing
  deriving DecidableEq, Repr

/-- {lit}`State` -/
inductive State where
  | doNothing
  | idle (fut : Sleep)
  | sendReq (stdir : StateDirection)
  | waitRes (timer : Sleep) (stdir : StateDirection)
  | closing1
  | done
  deriving DecidableEq, Repr

/-- {lit}`Item` -/
inductive Item where
  | none
  | protoOutIoid (msg : CaMsgTy) (sid : UInt32)
  | channelEventValue (series : ℕ) (value : CaEventValue)
  | localLog
  deriving DecidableEq

end FetchPolling

/-- {lit}`FetchPolling` -/
structure FetchPolling where
  state : FetchPolling.State
  series : ℕ
  sid : UInt32
  shape : Netpod.Shape
  caDbrTy : UInt16
  /-- {lit}`interval`, in milliseconds -/
  interval : ℕ
  inpBuf : List CaMsgTy
  inpDone : Bool
  llog : ℕ
  deriving DecidableEq

namespace FetchPolling

/-- {lit}`FetchPolling::new` -/
def new (series : ℕ) (sid : UInt32) (shape : Netpod.Shape) (caDbrTy : UInt16) : FetchPolling :=
  ⟨.doNothing, series, sid, shape, caDbrTy, 3000, [], false, 0⟩

/-- An entry is put into the local log. -/
def log (s : FetchPolling) : FetchPolling := { s with llog := pushLog s.llog }

/-- {lit}`transition_state` -/
def transitionState (s : FetchPolling) (new : State) : FetchPolling := { s.log with state := new }

/-- {lit}`transition_to_enable` -/
def transitionToEnable (s : FetchPolling) : FetchPolling :=
  match s.state with
  | .doNothing => s.log.transitionState (.idle (sleep (.jittered s.interval)))
  | _ => s.log

/-- {lit}`transition_to_disable` -/
def transitionToDisable (s : FetchPolling) : FetchPolling :=
  match s.state with
  | .idle _ => s.log.transitionState .doNothing
  | .sendReq _ => { s.log with state := .sendReq .doNothing }
  | .waitRes timer _ => { s.log with state := .waitRes timer .doNothing }
  | _ => s.log

/-- {lit}`transition_to_closing`, which {lit}`trigger_closing` calls -/
def triggerClosing (s : FetchPolling) : FetchPolling :=
  match s.state with
  | .closing1 | .done => s.log
  | _ => s.log.transitionState .closing1

/-- {lit}`inp_push_try`; {lit}`none` where the message comes back. -/
def inpPushTry (m : CaMsgTy) (s : FetchPolling) : Option FetchPolling :=
  if s.inpBuf.length < 16 then some { s with inpBuf := s.inpBuf ++ [m] } else none

/-- The end of {lit}`poll_next`: progress is reported as an empty item. -/
def finish (hpp : HaveProgressPending) (s : FetchPolling) : Pass FetchPolling Item :=
  if hpp.progress then .item .none s else if hpp.pending then .pending s else .done s

/-- What the state asks for, after the input was looked at. -/
def pollState (hpp : HaveProgressPending) (s : FetchPolling) : Pass FetchPolling Item :=
  match s.state with
  | .doNothing | .done => finish hpp s
  | .idle fut =>
    if fut.elapsed then .item .none (s.transitionState (.sendReq .none))
    else finish { hpp with pending := true } s
  | .sendReq stdir =>
    .item (.protoOutIoid (.readNotify s.caDbrTy (toCaCount s.shape) s.sid 0) s.sid)
      (s.transitionState (.waitRes (sleep (.millis 3000)) stdir))
  | .waitRes timer stdir =>
    if timer.elapsed then
      match stdir with
      | .doNothing => .item .none (s.transitionState .doNothing)
      -- the request is not sent again
      | .none => .item .none (s.transitionState (.waitRes (sleep (.millis 27427)) .none))
    else finish { hpp with pending := true } s
  | .closing1 => .item .none ({ s with inpDone := true }.transitionState .done)

/-- {lit}`poll_next` -/
def pollNext (s : FetchPolling) : Pass FetchPolling Item :=
  if 0 < s.llog then .item .localLog { s with llog := s.llog - 1 }
  else
    match s.inpBuf with
    | [] => s.pollState ⟨false, !s.inpDone⟩
    | m :: rest =>
      match s.state, m with
      | .waitRes _ .doNothing, .readNotifyRes _ _ _ _ _ value =>
        .item (.channelEventValue s.series value)
          ({ s with inpBuf := rest }.transitionState .doNothing)
      | .waitRes _ .none, .readNotifyRes _ _ _ _ _ value =>
        .item (.channelEventValue s.series value)
          ({ s with inpBuf := rest }.transitionState (.idle (sleep (.jittered s.interval))))
      | _, _ => { s with inpBuf := rest }.pollState ⟨true, false⟩

/-- The timer of the state elapses. -/
def elapse (s : FetchPolling) : FetchPolling :=
  match s.state with
  | .idle fut => { s with state := .idle fut.elapse }
  | .waitRes timer stdir => { s with state := .waitRes timer.elapse stdir }
  | _ => s

/-! ## What a poll does to the state -/

/-- How the state changes in one poll. -/
inductive Step : State → State → Prop where
  | refl (st : State) : Step st st
  | fires {fut : Sleep} (helapsed : fut.elapsed) : Step (.idle fut) (.sendReq .none)
  | sends (stdir : StateDirection) : Step (.sendReq stdir) (.waitRes (sleep (.millis 3000)) stdir)
  | timesOut {timer : Sleep} (helapsed : timer.elapsed) :
      Step (.waitRes timer .none) (.waitRes (sleep (.millis 27427)) .none)
  | givesUp (timer : Sleep) : Step (.waitRes timer .doNothing) .doNothing
  | answered (timer fut : Sleep) : Step (.waitRes timer .none) (.idle fut)
  | closes : Step .closing1 .done

/-- The end of a poll leaves the state as it is. -/
theorem leaves_finish {hpp : HaveProgressPending} {s : FetchPolling} {Q : FetchPolling → Prop} :
    (s.finish hpp).Leaves Q ↔ Q s := by
  unfold finish
  (repeat' split) <;> exact Iff.rfl

/-- What the state asks for is a step. -/
theorem step_pollState (hpp : HaveProgressPending) (s : FetchPolling) :
    (s.pollState hpp).Leaves fun t => Step s.state t.state := by
  unfold pollState
  cases hstate : s.state with
  | doNothing => simp only [leaves_finish, hstate, Step.refl]
  | done => simp only [leaves_finish, hstate, Step.refl]
  | closing1 => exact .closes
  | sendReq stdir => exact .sends stdir
  | idle fut =>
      by_cases helapsed : fut.elapsed
      · simp only [helapsed, if_true]
        exact .fires helapsed
      · simpa only [helapsed, if_false, Bool.false_eq_true, leaves_finish, hstate] using Step.refl _
  | waitRes timer stdir =>
      by_cases helapsed : timer.elapsed
      · cases stdir with
        | none =>
            simp only [helapsed, if_true]
            exact .timesOut helapsed
        | doNothing =>
            simp only [helapsed, if_true]
            exact .givesUp timer
      · simpa only [helapsed, if_false, Bool.false_eq_true, leaves_finish, hstate] using Step.refl _

/-- A poll is a step. -/
theorem step_pollNext (s : FetchPolling) : s.pollNext.Leaves fun t => Step s.state t.state := by
  unfold pollNext
  split
  · exact .refl _
  · split
    · exact step_pollState _ s
    · rename_i m rest hbuf
      split
      · rename_i hstate
        rw [hstate]
        exact .givesUp _
      · rename_i hstate
        rw [hstate]
        exact .answered _ _
      · exact step_pollState _ { s with inpBuf := rest }

/-! ## Acquiring -/

/-- The part is not being closed, and the replies it waits for are not given up. -/
def State.Operating : State → Prop
  | .doNothing | .idle _ | .sendReq _ | .waitRes _ .doNothing => True
  | .waitRes timer .none => timer.dur = .millis 3000
  | .closing1 | .done => False

/-- The part is on: it waits for its time, it sends a request, or it waits for the reply. -/
def State.IsOn : State → Prop
  | .idle _ | .sendReq .none => True
  | .waitRes timer .none => timer.dur = .millis 3000
  | _ => False

/-- The part is on its way to being disabled. -/
def State.disabling : State → Bool
  | .sendReq .doNothing | .waitRes _ .doNothing => true
  | _ => false

/-- The timer of a request whose reply is wanted has elapsed. -/
def State.overdue : State → Bool
  | .waitRes timer .none => timer.elapsed
  | _ => false

/-- A part that is on operates. -/
theorem State.Operating.of_isOn {st : State} (hon : st.IsOn) : st.Operating := by
  rcases st with _ | _ | stdir | ⟨timer, stdir⟩ | _ | _ <;> (try cases stdir) <;>
    simp_all [State.IsOn, State.Operating]

/-- The part operates, and it is on where it is wanted. -/
def State.Fit (on : Bool) (st : State) : Prop := st.Operating ∧ (on = true → st.IsOn)

/-- A step of a fit part whose reply is not overdue keeps it so. -/
theorem fit_of_step {on : Bool} {st st' : State} (hstep : Step st st')
    (hfit : st.Fit on ∧ st.overdue = false) : st'.Fit on ∧ st'.overdue = false := by
  rcases hfit with ⟨⟨hop, hon⟩, htime⟩
  cases hstep with
  | refl => exact ⟨⟨hop, hon⟩, htime⟩
  | fires => exact ⟨⟨trivial, fun _ => trivial⟩, rfl⟩
  | sends stdir =>
      cases stdir with
      | none => exact ⟨⟨rfl, fun _ => rfl⟩, rfl⟩
      | doNothing => exact ⟨⟨trivial, hon⟩, rfl⟩
  | timesOut helapsed => exact absurd htime (by simp [State.overdue, helapsed])
  | givesUp => exact ⟨⟨trivial, hon⟩, rfl⟩
  | answered => exact ⟨⟨trivial, fun _ => trivial⟩, rfl⟩
  | closes => exact hop.elim

/-- What enabling does to the state. -/
theorem isOn_transitionToEnable {s : FetchPolling} (hop : s.state.Operating)
    (hdisabling : s.state.disabling = false) : s.transitionToEnable.state.IsOn := by
  unfold transitionToEnable
  cases hstate : s.state with
  | doNothing => trivial
  | idle fut => simp [log, hstate, State.IsOn]
  | sendReq stdir => cases stdir <;> simp_all [log, State.IsOn, State.disabling]
  | waitRes timer stdir => cases stdir <;> simp_all [log, State.IsOn, State.disabling, State.Operating]
  | closing1 => simp [hstate, State.Operating] at hop
  | done => simp [hstate, State.Operating] at hop

/-- A part that is enabled is fit, if it is not on its way to being disabled. -/
theorem fit_transitionToEnable {on : Bool} {s : FetchPolling} (hfit : s.state.Fit on)
    (hdisabling : s.state.disabling = false) : s.transitionToEnable.state.Fit true :=
  have hon := isOn_transitionToEnable hfit.1 hdisabling
  ⟨.of_isOn hon, fun _ => hon⟩

/-- A part that is disabled is fit. -/
theorem fit_transitionToDisable {on : Bool} {s : FetchPolling} (hfit : s.state.Fit on) :
    s.transitionToDisable.state.Fit false := by
  refine ⟨?_, fun h => absurd h Bool.false_ne_true⟩
  have hop := hfit.1
  unfold transitionToDisable
  cases hstate : s.state <;> simp_all [log, transitionState, State.Operating]

/-- The timers keep the part fit. -/
theorem fit_elapse {on : Bool} {s : FetchPolling} (hfit : s.state.Fit on) : s.elapse.state.Fit on := by
  rcases hfit with ⟨hop, hon⟩
  unfold elapse
  cases hstate : s.state with
  | idle fut => exact ⟨trivial, fun _ => trivial⟩
  | waitRes timer stdir =>
      rw [hstate] at hop hon
      cases stdir with
      | none => exact ⟨hop, hon⟩
      | doNothing => exact ⟨trivial, hon⟩
  | _ => exact ⟨by simpa [hstate] using hop, by simpa [hstate] using hon⟩

/-! ## Closing -/

/-- The part is closing, and it knows the end of the input when it is done. -/
def Closes (s : FetchPolling) : Prop :=
  s.state = .closing1 ∨ (s.state = .done ∧ s.inpDone = true)

/-- A part that is done knows the end of the input. -/
def Sound (s : FetchPolling) : Prop := s.state = .done → s.inpDone = true

theorem closes_triggerClosing {s : FetchPolling} (hs : s.Sound) : s.triggerClosing.Closes := by
  unfold triggerClosing
  cases hstate : s.state with
  | closing1 => exact .inl hstate
  | done => exact .inr ⟨hstate, hs hstate⟩
  | _ => exact .inl rfl

theorem Closes.sound {s : FetchPolling} (hs : s.Closes) : s.Sound := by
  intro hdone
  rcases hs with hs | hs
  · rw [hdone] at hs
    cases hs
  · exact hs.2

/-- A poll of a closing part leaves it closing, and finds something to do or the end. -/
theorem closes_pollNext {s : FetchPolling} (hs : s.Closes) :
    s.pollNext.Leaves Closes ∧ ∀ t, s.pollNext ≠ .pending t := by
  unfold pollNext
  split
  · exact ⟨hs, nofun⟩
  · rcases hs with hs | ⟨hs, hdone⟩
    · cases hbuf : s.inpBuf <;>
        simp [hs, pollState, Closes, transitionState, log]
    · cases hbuf : s.inpBuf <;>
        simp [hs, hdone, pollState, finish, Closes]

/-- A poll leaves a sound part sound. -/
theorem sound_pollNext {s : FetchPolling} (hs : s.Sound) : s.pollNext.Leaves Sound := by
  have hfinish : ∀ (hpp : HaveProgressPending) (t : FetchPolling), t.state = s.state →
      t.inpDone = s.inpDone → (t.pollState hpp).Leaves Sound := by
    intro hpp t hstate hdone
    have ht : t.Sound := by
      intro h
      rw [hdone]
      exact hs (hstate ▸ h)
    unfold pollState
    cases htst : t.state with
    | doNothing => exact leaves_finish.mpr ht
    | done => exact leaves_finish.mpr ht
    | closing1 => exact fun _ => rfl
    | sendReq stdir => exact nofun
    | idle fut =>
        dsimp only
        split
        · exact nofun
        · exact leaves_finish.mpr ht
    | waitRes timer stdir =>
        dsimp only
        split
        · cases stdir <;> exact nofun
        · exact leaves_finish.mpr ht
  unfold pollNext
  split
  · exact hs
  · split
    · exact hfinish _ s rfl rfl
    · split
      · exact nofun
      · exact nofun
      · exact hfinish _ { s with inpBuf := _ } rfl rfl

/-- Some timer of the part is armed. -/
def State.armed : State → Bool
  | .idle _ | .waitRes _ _ => true
  | _ => false

/-! ## The next read request -/

/-- A read request -/
def Item.IsRead : Item → Prop
  | .protoOutIoid (.readNotify _ _ _ _) _ => True
  | _ => False

/-- When the timers fire and no message comes, a read request follows. -/
def Reads (s : FetchPolling) : Prop := (Machine.clock elapse pollNext).Follows Item.IsRead s

/-- A read request is out and its time has not run out, or one follows when the timers fire. -/
def Acquires (s : FetchPolling) : Prop :=
  (∃ timer, s.state = .waitRes timer .none ∧ timer.dur = .millis 3000) ∨ s.Reads

/-- The local log is handed out first. -/
theorem clock_of_log {s : FetchPolling} (hlog : 0 < s.llog) :
    ((Machine.clock elapse pollNext).step () s).2 = { s.elapse with llog := s.llog - 1 } := by
  have hsame : s.elapse.llog = s.llog := by
    unfold elapse
    split <;> rfl
  simp [Machine.clock, pollNext, hsame, hlog]

/-- A read request that is to be sent is sent. -/
theorem reads_of_sendReq {s : FetchPolling} {stdir : StateDirection} (hstate : s.state = .sendReq stdir) :
    s.Reads := by
  apply Machine.follows_of_rank (P := fun s : FetchPolling => s.state = .sendReq stdir)
    (r := fun s => s.llog) ?_ hstate
  intro s hs
  have hsame : s.elapse = s := by simp [elapse, hs]
  by_cases hlog : 0 < s.llog
  · rw [clock_of_log hlog, hsame]
    exact .inr ⟨hs, Nat.sub_lt hlog Nat.one_pos⟩
  · left
    apply Machine.follows_of_output
      (o := .protoOutIoid (.readNotify s.caDbrTy (toCaCount s.shape) s.sid 0) s.sid) ?_ trivial
    cases hbuf : s.inpBuf <;> simp [Machine.clock, hsame, pollNext, hlog, hbuf, hs, pollState]

/-- When the timer of an idle part fires, a read request follows. -/
theorem reads_of_idle {s : FetchPolling} {fut : Sleep} (hstate : s.state = .idle fut) : s.Reads := by
  apply Machine.follows_of_rank (P := fun s : FetchPolling => ∃ fut, s.state = .idle fut)
    (r := fun s => s.llog) ?_ ⟨fut, hstate⟩
  rintro s ⟨fut, hs⟩
  by_cases hlog : 0 < s.llog
  · rw [clock_of_log hlog]
    exact .inr ⟨⟨fut.elapse, by simp [elapse, hs]⟩, Nat.sub_lt hlog Nat.one_pos⟩
  · left
    apply Machine.follows_of_step
    have hsend : ((Machine.clock elapse pollNext).step () s).2.state = .sendReq .none := by
      cases hbuf : s.inpBuf <;>
        simp [Machine.clock, elapse, hs, pollNext, hlog, hbuf, pollState, Sleep.elapse, transitionState]
    exact reads_of_sendReq hsend

/-- A part that is on acquires. -/
theorem acquires_of_isOn {s : FetchPolling} (hon : s.state.IsOn) : s.Acquires := by
  cases hstate : s.state with
  | idle fut => exact .inr (reads_of_idle hstate)
  | sendReq stdir => exact .inr (reads_of_sendReq hstate)
  | waitRes timer stdir =>
      cases stdir with
      | none =>
          rw [hstate] at hon
          exact .inl ⟨timer, hstate, hon⟩
      | doNothing => simp [hstate, State.IsOn] at hon
  | _ => simp [hstate, State.IsOn] at hon

end FetchPolling

end Channelheap
end Daqbuf
