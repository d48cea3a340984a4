import Daqbuf.Ca.ActiveCa
import Daqbuf.Channelheap.FetchMonitoring
import Daqbuf.Poll.Paired
import Daqbuf.Slots.Pool
/-!
# Subscriptions of a Channel

A channel that is monitored, with the registry of the subscription ids and the messages of the server.  Subscriptions
are numbered as they are requested.  Each message of the server belongs to one of them, of which the client sees only
the id.

The buffers between the dispatch of a message and the part that monitors are one queue.  Other channels use the registry
as well, at any time.

Main results:

- Theorem {lit}`FetchMonitoring.effect_pollNextUnpin`: what a poll takes, what it gives, and how it moves on.
- Theorem {lit}`Monitored.oneSubscription_run`: if no request times out, a channel has one subscription at a time, and
  takes only the data of that one.
-/

namespace Daqbuf
namespace Channelheap

open Poll
open Ca (CaMsgTy)
open Connset (HaveProgressPending)
open Slots (Reached Along run forall_reached_of_along)

/-- A reply to a cancel request -/
def isReply : CaMsgTy → Bool
  | .eventAddResEmpty _ _ _ | .eventCancelRes _ _ _ => true
  | _ => false

namespace FetchMonitoring

/-! ## What a poll does -/

/-- How far the part is with a subscription -/
inductive Stage where
  | idle
  | subscribed
  | cancelling
  | answered
  deriving DecidableEq, Repr

def State.stage : State → Stage
  | doNothing | createMonitorSend _ | closing1 | done => .idle
  | createMonitorRecv _ _ | monitoring _ _ | removeMonitorSend _ => .subscribed
  | removeMonitorRecv _ _ => .cancelling
  | removeSubidSend _ => .answered

/-- The timer of a request has elapsed. -/
def State.expired : State → Bool
  | createMonitorRecv timer _ | removeMonitorRecv timer _ => timer.elapsed
  | _ => false

/-- No request times out at the next poll: its timer has not elapsed, or an entry of the log comes first, or a message
that the state waits for. -/
def InTime (s : FetchMonitoring) : Prop :=
  s.state.expired = true → 0 < s.llog ∨ ∃ m ∈ s.inpBuf.head?, s.state.stage = .cancelling → isReply m = true

instance (s : FetchMonitoring) : Decidable s.InTime := inferInstanceAs (Decidable (_ → _))

/-- How a poll moves on, with the item that it gives and the messages that it takes -/
inductive Moves (cid : UInt32) : Stage → Option MonitoringItem → Stage → List CaMsgTy → Prop where
  | stays {stage : Stage} {x : Option MonitoringItem} {taken : List CaMsgTy} (hx : x = none ∨ x = some .localLog) :
      Moves cid stage x stage taken
  | adds {dataType : UInt16} {dataCount sid subid : UInt32} {taken : List CaMsgTy} :
      Moves cid .idle (some (.protoOutSubid (.eventAdd dataType dataCount sid subid))) .subscribed taken
  | values {series : ℕ} {value : Ca.CaEventValue} {taken : List CaMsgTy} (htaken : taken ≠ []) :
      Moves cid .subscribed (some (.channelEventValue series value)) .subscribed taken
  | cancels {dataType : UInt16} {dataCount sid subid : UInt32} {taken : List CaMsgTy} :
      Moves cid .subscribed (some (.protoOutSubid (.eventCancel dataType dataCount sid subid))) .cancelling taken
  | answers {x : Option MonitoringItem} {taken : List CaMsgTy} (hx : x = none ∨ x = some .localLog)
      (htaken : ∃ m ∈ taken, isReply m = true) : Moves cid .cancelling x .answered taken
  | removes {taken : List CaMsgTy} : Moves cid .answered (some (.subidRemove cid)) .idle taken
  | answersRemoves {taken : List CaMsgTy} (htaken : ∃ m ∈ taken, isReply m = true) :
      Moves cid .cancelling (some (.subidRemove cid)) .idle taken

theorem Moves.trans {cid : UInt32} {a b c : Stage} {x : Option MonitoringItem} {taken taken' : List CaMsgTy}
    (h : Moves cid a none b taken) (h' : Moves cid b x c taken') : Moves cid a x c (taken ++ taken') := by
  cases h with
  | stays hx =>
      cases h' with
      | stays hx' => exact .stays hx'
      | adds => exact .adds
      | values hne => exact .values (List.append_ne_nil_of_right_ne_nil _ hne)
      | cancels => exact .cancels
      | answers hx' hreply =>
          obtain ⟨m, hm, hreply⟩ := hreply
          exact .answers hx' ⟨m, List.mem_append_right _ hm, hreply⟩
      | removes => exact .removes
      | answersRemoves hreply =>
          obtain ⟨m, hm, hreply⟩ := hreply
          exact .answersRemoves ⟨m, List.mem_append_right _ hm, hreply⟩
  | answers hx hreply =>
      obtain ⟨m, hm, hreply⟩ := hreply
      cases h' with
      | stays hx' => exact .answers hx' ⟨m, List.mem_append_left _ hm, hreply⟩
      | removes => exact .answersRemoves ⟨m, List.mem_append_left _ hm, hreply⟩

/-- What a poll does -/
structure Effect (s : FetchMonitoring) (x : Option MonitoringItem) (t : FetchMonitoring) : Prop where
  cid : t.cid = s.cid
  moves : ∃ taken, s.inpBuf = taken ++ t.inpBuf ∧ Moves s.cid s.state.stage x t.state.stage taken

theorem Effect.refl (s : FetchMonitoring) : s.Effect none s where
  cid := rfl
  moves := ⟨[], rfl, .stays (.inl rfl)⟩

theorem Effect.trans {s t u : FetchMonitoring} {x : Option MonitoringItem} (h : s.Effect none t) (h' : t.Effect x u) :
    s.Effect x u := by
  obtain ⟨taken, hbuf, hmoves⟩ := h.moves
  obtain ⟨taken', hbuf', hmoves'⟩ := h'.moves
  rw [h.cid] at hmoves'
  refine ⟨h'.cid.trans h.cid, taken ++ taken', ?_, hmoves.trans hmoves'⟩
  rw [hbuf, hbuf', List.append_assoc]

/-- The effect of a change that takes no message -/
theorem Effect.of_inpBuf_eq {s t : FetchMonitoring} {x : Option MonitoringItem} (hcid : t.cid = s.cid)
    (hbuf : t.inpBuf = s.inpBuf) (hmoves : Moves s.cid s.state.stage x t.state.stage []) : s.Effect x t :=
  ⟨hcid, [], hbuf.symm, hmoves⟩

/-- The effect of a change that takes a message -/
theorem Effect.of_cons {s t : FetchMonitoring} {x : Option MonitoringItem} {m : CaMsgTy} (hcid : t.cid = s.cid)
    (hbuf : s.inpBuf = m :: t.inpBuf) (hmoves : Moves s.cid s.state.stage x t.state.stage [m]) : s.Effect x t :=
  ⟨hcid, [m], hbuf, hmoves⟩

/-- An effect behind which no timer of a request has elapsed, unless there is an item -/
def Settles (s : FetchMonitoring) (x : Option MonitoringItem) (t : FetchMonitoring) : Prop :=
  s.Effect x t ∧ (x = none → t.state.expired = false)

theorem yields_finish {s : FetchMonitoring} {hpp : HaveProgressPending} (hs : s.state.expired = false) :
    (hpp.finish s : Pass FetchMonitoring MonitoringItem).Yields s.Settles := by
  have hsettles : s.Settles none s := ⟨.refl s, fun _ => hs⟩
  unfold HaveProgressPending.finish
  split
  · exact hsettles
  · split
    · exact hsettles
    · exact hsettles

/-- What the state asks for -/
theorem yields_pollState {s : FetchMonitoring} (hs : s.state.expired = false) (hpp : HaveProgressPending) :
    (s.pollState hpp).Yields s.Settles := by
  unfold pollState
  cases hstate : s.state with
  | doNothing => exact yields_finish hs
  | done => exact yields_finish hs
  | createMonitorSend stdir => exact ⟨.of_inpBuf_eq rfl rfl (hstate ▸ .adds), nofun⟩
  | createMonitorRecv timer stdir =>
      have htimer : timer.elapsed = false := by rwa [hstate] at hs
      simp only [htimer, Bool.false_eq_true, if_false]
      exact yields_finish hs
  | monitoring timer stdir =>
      cases stdir with
      | none => exact yields_finish hs
      | disable =>
          exact ⟨.of_inpBuf_eq rfl rfl (hstate ▸ .stays (.inl rfl)), fun _ => rfl⟩
      | closing =>
          exact ⟨.of_inpBuf_eq rfl rfl (hstate ▸ .stays (.inl rfl)), fun _ => rfl⟩
      | enable =>
          dsimp only
          split
          · exact ⟨.of_inpBuf_eq rfl rfl (hstate ▸ .stays (.inl rfl)), fun _ => rfl⟩
          · exact yields_finish hs
  | removeMonitorSend stdir => exact ⟨.of_inpBuf_eq rfl rfl (hstate ▸ .cancels), nofun⟩
  | removeMonitorRecv timer stdir =>
      have htimer : timer.elapsed = false := by rwa [hstate] at hs
      simp only [htimer, Bool.false_eq_true, if_false]
      exact yields_finish hs
  | removeSubidSend stdir =>
      cases stdir <;> exact ⟨.of_inpBuf_eq rfl rfl (hstate ▸ .removes), nofun⟩
  | closing1 => exact ⟨.of_inpBuf_eq rfl rfl (hstate ▸ .stays (.inl rfl)), fun _ => rfl⟩

/-- A message is data with a value, or it gives no item. -/
theorem yields_handleReceivedItem {s t : FetchMonitoring} {m : CaMsgTy} (hcid : t.cid = s.cid)
    (hbuf : s.inpBuf = m :: t.inpBuf) (hs : s.state.stage = .subscribed) (ht : t.state.stage = .subscribed)
    (hexpired : t.state.expired = false) : (handleReceivedItem m t).Yields s.Settles := by
  unfold handleReceivedItem
  split
  · refine ⟨.of_cons hcid hbuf ?_, nofun⟩
    rw [hs, ht]
    exact .values (List.cons_ne_nil _ _)
  · refine ⟨.of_cons hcid hbuf ?_, fun _ => hexpired⟩
    rw [hs, ht]
    exact .stays (.inl rfl)

/-- A state that takes no message drops it. -/
theorem settles_drop {s t : FetchMonitoring} {m : CaMsgTy} (hcid : t.cid = s.cid) (hbuf : s.inpBuf = m :: t.inpBuf)
    (hstate : t.state = s.state) (hexpired : s.state.expired = false) : s.Settles none t := by
  refine ⟨.of_cons hcid hbuf ?_, fun _ => hstate ▸ hexpired⟩
  rw [hstate]
  exact .stays (.inl rfl)

/-- What a message does -/
theorem yields_pollInp {s : FetchMonitoring} (hs : s.InTime) (hlog : ¬ 0 < s.llog) : s.pollInp.Yields s.Settles := by
  obtain ⟨state, series, cid, sid, shape, caDbrTy, inpBuf, inpDone, llog⟩ := s
  have hwaits := fun hexpired => (hs hexpired).resolve_left hlog
  cases inpBuf with
  | nil =>
      have hexpired : state.expired = false := by
        rw [← Bool.not_eq_true]
        intro hexpired
        obtain ⟨m, hm, -⟩ := hwaits hexpired
        cases hm
      cases inpDone with
      | false => exact ⟨.refl _, fun _ => hexpired⟩
      | true => exact ⟨.refl _, fun _ => hexpired⟩
  | cons m rest =>
      cases state with
      | doNothing => exact settles_drop rfl rfl rfl rfl
      | createMonitorSend stdir => exact settles_drop rfl rfl rfl rfl
      | closing1 => exact settles_drop rfl rfl rfl rfl
      | done => exact settles_drop rfl rfl rfl rfl
      | createMonitorRecv timer stdir => exact yields_handleReceivedItem rfl rfl rfl rfl rfl
      | monitoring timer stdir => exact yields_handleReceivedItem rfl rfl rfl rfl rfl
      | removeMonitorSend stdir => exact yields_handleReceivedItem rfl rfl rfl rfl rfl
      | removeSubidSend stdir =>
          exact ⟨⟨rfl, m :: rest, (List.append_nil _).symm, .stays (.inl rfl)⟩, fun _ => rfl⟩
      | removeMonitorRecv timer stdir =>
          unfold pollInp
          simp only
          split
          · exact ⟨.of_cons rfl rfl (.answers (.inl rfl) ⟨_, List.mem_singleton_self _, rfl⟩), fun _ => rfl⟩
          · exact ⟨.of_cons rfl rfl (.answers (.inl rfl) ⟨_, List.mem_singleton_self _, rfl⟩), fun _ => rfl⟩
          · rename_i hempty hcancel
            have hdata : isReply m = false := by
              cases m with
              | eventAddResEmpty dataType sid subid => exact absurd rfl (hempty dataType sid subid)
              | eventCancelRes dataType sid subid => exact absurd rfl (hcancel dataType sid subid)
              | _ => rfl
            have hexpired : timer.elapsed = false := by
              rw [← Bool.not_eq_true]
              intro hexpired
              obtain ⟨m', hm', hreply⟩ := hwaits hexpired
              cases hm'
              rw [hreply rfl] at hdata
              cases hdata
            exact settles_drop rfl rfl rfl hexpired

theorem yields_pass {s : FetchMonitoring} (hs : s.InTime) : s.pass.Yields s.Settles := by
  unfold pass
  split
  case isTrue => exact ⟨.of_inpBuf_eq rfl rfl (.stays (.inr rfl)), nofun⟩
  case isFalse hlog =>
      have hinp := yields_pollInp hs hlog
      have hthen {t : FetchMonitoring} (ht : s.Settles none t) (hpp : HaveProgressPending) :
          (t.pollState hpp).Yields s.Settles :=
        (yields_pollState (ht.2 rfl) hpp).mono fun x u hu => ⟨ht.1.trans hu.1, hu.2⟩
      cases hpoll : s.pollInp with
      | item x t => rwa [hpoll] at hinp
      | panic => rwa [hpoll] at hinp
      | again t =>
          rw [hpoll] at hinp
          exact hthen hinp _
      | pending t =>
          rw [hpoll] at hinp
          exact hthen hinp _
      | done t =>
          rw [hpoll] at hinp
          exact hthen hinp _

/-- What a poll takes, what it gives, and how it moves on -/
theorem effect_pollNextUnpin {s : FetchMonitoring} (hs : s.InTime) : s.pollNextUnpin.Yields s.Effect := by
  apply yields_spin (Q := InTime) (fun s hs => (yields_pass hs).mono fun x t ht => ht.1) ?_ Effect.refl
    (fun s t x u h h' => h.trans h') _ hs
  intro s t hs hpass
  have hyields := yields_pass hs
  rw [hpass] at hyields
  intro hexpired
  rw [hyields.2 rfl] at hexpired
  cases hexpired

/-- A change of the part that is no poll -/
structure SameStage (s t : FetchMonitoring) : Prop where
  cid : t.cid = s.cid
  inpBuf : t.inpBuf = s.inpBuf
  stage : t.state.stage = s.state.stage

theorem sameStage_transitionToEnable (s : FetchMonitoring) : s.SameStage s.transitionToEnable := by
  obtain ⟨state, series, cid, sid, shape, caDbrTy, inpBuf, inpDone, llog⟩ := s
  cases state <;> exact ⟨rfl, rfl, rfl⟩

theorem sameStage_transitionTo (s : FetchMonitoring) (stdir : StateDirection) : s.SameStage (s.transitionTo stdir) := by
  obtain ⟨state, series, cid, sid, shape, caDbrTy, inpBuf, inpDone, llog⟩ := s
  cases state <;> exact ⟨rfl, rfl, rfl⟩

theorem sameStage_elapse (s : FetchMonitoring) : s.SameStage s.elapse := by
  obtain ⟨state, series, cid, sid, shape, caDbrTy, inpBuf, inpDone, llog⟩ := s
  cases state <;> exact ⟨rfl, rfl, rfl⟩

end FetchMonitoring

/-! ## The registry -/

/-- {lit}`SubidRegistry`, without the times -/
structure SubidRegistry where
  subids : UInt32 → Option UInt32
  rev : UInt32 → Option UInt32
  current : UInt32

namespace SubidRegistry

variable {s : SubidRegistry} {cid cid' subid : UInt32}

/-- {lit}`register`: the id that the channel has, or the next one. -/
def register (s : SubidRegistry) (cid : UInt32) : UInt32 × SubidRegistry :=
  match s.rev cid with
  | some subid => (subid, s)
  | none =>
      (s.current + 1,
        ⟨Function.update s.subids (s.current + 1) (some cid), Function.update s.rev cid (some (s.current + 1)),
          s.current + 1⟩)

/-- {lit}`lookup` -/
def lookup (s : SubidRegistry) (subid : UInt32) : Option UInt32 := s.subids subid

/-- {lit}`remove` -/
def remove (s : SubidRegistry) (cid : UInt32) : SubidRegistry :=
  match s.rev cid with
  | some subid => { s with subids := Function.update s.subids subid none, rev := Function.update s.rev cid none }
  | none => s

theorem register_of_rev (h : s.rev cid = some subid) : s.register cid = (subid, s) := by
  unfold register
  rw [h]

/-- A channel has the id that was registered for it. -/
theorem rev_register : (s.register cid).2.rev cid = some (s.register cid).1 := by
  unfold register
  cases h : s.rev cid with
  | some subid => exact h
  | none => exact Function.update_self _ _ _

theorem rev_register_of_ne (h : cid ≠ cid') : (s.register cid').2.rev cid = s.rev cid := by
  unfold register
  cases s.rev cid' with
  | some subid => rfl
  | none => exact Function.update_of_ne h _ _

theorem rev_remove_of_ne (h : cid ≠ cid') : (s.remove cid').rev cid = s.rev cid := by
  unfold remove
  cases s.rev cid' with
  | some subid => exact Function.update_of_ne h _ _
  | none => rfl

end SubidRegistry

/-! ## A channel and its server -/

/-- {lit}`overwrite_subid` -/
def overwriteSubid (subid : UInt32) : CaMsgTy → CaMsgTy
  | .eventAdd dataType dataCount sid _ => .eventAdd dataType dataCount sid subid
  | .eventCancel dataType dataCount sid _ => .eventCancel dataType dataCount sid subid
  | m => m

/-- A subscribe request -/
def IsAdd : CaMsgTy → Prop
  | .eventAdd _ _ _ _ => True
  | _ => False

/-- A cancel request for the id of a subscribe request -/
def Cancels : CaMsgTy → CaMsgTy → Prop
  | .eventAdd _ _ _ subid, .eventCancel _ _ _ subid' => subid = subid'
  | _, _ => False

/-- The ids that a request subscribes to -/
def requested : CaMsgTy → List UInt32
  | .eventAdd _ _ _ subid => [subid]
  | _ => []

/-- The subscriptions that a request cancels -/
def revoked (subids : List UInt32) : CaMsgTy → List ℕ
  | .eventCancel _ _ _ subid => (List.range subids.length).filter fun k => subids[k]? = some subid
  | _ => []

/-- A channel, with the messages that wait for it and the subscriptions that they belong to; what it has sent, the ids
of the subscriptions, which of them are cancelled and which the server has answered for; and for all data that was taken
its subscription, with how many there were. -/
structure Monitored where
  fetch : FetchMonitoring
  reg : SubidRegistry
  queue : List (ℕ × CaMsgTy)
  owners : List ℕ
  sent : List CaMsgTy
  subids : List UInt32
  cancelled : List ℕ
  answered : List ℕ
  taken : List (Option ℕ × ℕ)

/-- What happens next -/
inductive MonitorEvent where
  | enable
  | disable
  | close
  | inpDone
  | elapse
  | arrives (k : ℕ) (m : CaMsgTy)
  | delivers
  | poll
  | registers (cid : UInt32)
  | removes (cid : UInt32)

namespace Monitored

variable {w w' : Monitored} {k : ℕ} {m : CaMsgTy}

/-- A channel before its first subscription -/
def new (fetch : FetchMonitoring) (reg : SubidRegistry) : Monitored := ⟨fetch, reg, [], [], [], [], [], [], []⟩

/-- The messages that the part has yet to take -/
def messages (w : Monitored) : List CaMsgTy := w.fetch.inpBuf ++ w.queue.map Prod.snd

/-- {lit}`dispatch_input_to_channels`, for a message of a subscription -/
def arrive (k : ℕ) (m : CaMsgTy) (w : Monitored) : Monitored :=
  { w with
    queue := if m.subid.bind w.reg.lookup = some w.fetch.cid then w.queue ++ [(k, m)] else w.queue
    answered := if isReply m then w.answered ++ [k] else w.answered }

/-- The part gets the next message, if there is room for it. -/
def deliver (w : Monitored) : Option Monitored :=
  match w.queue with
  | [] => none
  | (k, m) :: rest =>
      (w.fetch.inpPushTry m).map fun t => { w with fetch := t, queue := rest, owners := w.owners ++ [k] }

/-- The subscriptions of the messages that the part has taken -/
def consumed (w : Monitored) (t : FetchMonitoring) : List ℕ := w.owners.take (w.owners.length - t.inpBuf.length)

/-- The part goes on. -/
def moveTo (w : Monitored) (t : FetchMonitoring) : Monitored :=
  { w with fetch := t, owners := w.owners.drop (w.owners.length - t.inpBuf.length) }

/-- {lit}`ProtoOutSubid` -/
def send (w : Monitored) (msg : CaMsgTy) : Monitored :=
  let r := w.reg.register w.fetch.cid
  { w with
    reg := r.2
    sent := w.sent ++ [overwriteSubid r.1 msg]
    subids := w.subids ++ requested (overwriteSubid r.1 msg)
    cancelled := w.cancelled ++ revoked w.subids (overwriteSubid r.1 msg) }

/-- {lit}`poll_handler`, for an item of the part that has come from messages of some subscriptions -/
def give (w : Monitored) (consumed : List ℕ) : MonitoringItem → Monitored
  | .protoOutSubid msg => w.send msg
  | .subidRemove cid => { w with reg := w.reg.remove cid }
  | .channelEventValue _ _ => { w with taken := w.taken ++ [(consumed.getLast?, w.subids.length)] }
  | .localLog => w

/-- A poll of the part -/
def poll (w : Monitored) : Option Monitored :=
  match w.fetch.pollNextUnpin with
  | .item x t => some ((w.moveTo t).give (w.consumed t) x)
  | .again t | .pending t | .done t => some (w.moveTo t)
  | .panic => none

/-- A step of the channel, the server or the other channels -/
def step : MonitorEvent → Monitored → Option Monitored
  | .enable, w => some { w with fetch := w.fetch.transitionToEnable }
  | .disable, w => some { w with fetch := w.fetch.transitionToDisable }
  | .close, w => some { w with fetch := w.fetch.triggerClosing }
  | .inpDone, w => some { w with fetch := { w.fetch with inpDone := true } }
  | .elapse, w => some { w with fetch := w.fetch.elapse }
  | .arrives k m, w => some (w.arrive k m)
  | .delivers, w => w.deliver
  | .poll, w => w.poll
  | .registers cid, w => if cid = w.fetch.cid then none else some { w with reg := (w.reg.register cid).2 }
  | .removes cid, w => if cid = w.fetch.cid then none else some { w with reg := w.reg.remove cid }

/-- A message of the server has the id of a subscription that it has not answered for, and a reply comes for one that is
cancelled. -/
def Conforms : MonitorEvent → Monitored → Prop
  | .arrives k m, w =>
      m.subid ≠ none ∧ w.subids[k]? = m.subid ∧ k ∉ w.answered ∧ (isReply m = true → k ∈ w.cancelled)
  | _, _ => True

/-- No poll lets a request time out. -/
def InTime : MonitorEvent → Monitored → Prop
  | .poll, w => w.fetch.InTime
  | _, _ => True

instance : ∀ (e : MonitorEvent) (w : Monitored), Decidable (Conforms e w)
  | .arrives _ _, _ => inferInstanceAs (Decidable (_ ∧ _))
  | .enable, _ | .disable, _ | .close, _ | .inpDone, _ | .elapse, _ | .delivers, _ | .poll, _ | .registers _, _
  | .removes _, _ => .isTrue trivial

instance : ∀ (e : MonitorEvent) (w : Monitored), Decidable (InTime e w)
  | .poll, w => inferInstanceAs (Decidable w.fetch.InTime)
  | .enable, _ | .disable, _ | .close, _ | .inpDone, _ | .elapse, _ | .delivers, _ | .arrives _ _, _ | .registers _, _
  | .removes _, _ => .isTrue trivial

/-- Between two subscribe requests is a cancel request for the id of the first, and data that is taken belongs to the
latest subscription. -/
structure OneSubscription (w : Monitored) : Prop where
  separately : SeparatelyOpened IsAdd Cancels w.sent
  current : ∀ p ∈ w.taken, ∃ k, p.1 = some k ∧ k + 1 = p.2

/-! ## What holds at each stage -/

/-- What a stage depends on -/
structure View where
  messages : List CaMsgTy
  count : ℕ
  cancelled : List ℕ
  answered : List ℕ
  sent : List CaMsgTy
  rev : Option UInt32

def view (w : Monitored) : View :=
  ⟨w.messages, w.subids.length, w.cancelled, w.answered, w.sent, w.reg.rev w.fetch.cid⟩

/-- All subscriptions but the last one are answered for. -/
def View.Latest (v : View) (n : ℕ) : Prop := v.count = n + 1 ∧ ∀ k < n, k ∈ v.answered

/-- Every subscription is cancelled and answered for, and no message is left. -/
structure View.Quiet (v : View) : Prop where
  messages : v.messages = []
  answered : ∀ k < v.count, k ∈ v.answered
  closed : EachClosed IsAdd Cancels v.sent

/-- The last subscription is not cancelled. -/
structure View.Subscribed (v : View) (n : ℕ) : Prop where
  latest : v.Latest n
  uncancelled : n ∉ v.cancelled
  data : ∀ m ∈ v.messages, isReply m = false
  opened : ∃ sent dataType dataCount sid subid, v.sent = sent ++ [.eventAdd dataType dataCount sid subid] ∧
    EachClosed IsAdd Cancels sent ∧ v.rev = some subid

/-- The last subscription is cancelled.  No reply has come, or it is the last message. -/
structure View.Cancelling (v : View) (n : ℕ) : Prop where
  latest : v.Latest n
  replies : (∀ m ∈ v.messages, isReply m = false) ∨
    n ∈ v.answered ∧ ∃ front reply, v.messages = front ++ [reply] ∧ ∀ m ∈ front, isReply m = false
  closed : EachClosed IsAdd Cancels v.sent

/-- What holds at a stage -/
def View.AtStage (v : View) : FetchMonitoring.Stage → Prop
  | .idle | .answered => v.Quiet
  | .subscribed => ∃ n, v.Subscribed n
  | .cancelling => ∃ n, v.Cancelling n

/-- All messages belong to the last subscription. -/
structure Sound (w : Monitored) : Prop where
  owners : w.owners.length = w.fetch.inpBuf.length
  own : ∀ k ∈ w.owners ++ w.queue.map Prod.fst, k + 1 = w.subids.length
  cancelled : ∀ k ∈ w.cancelled, k < w.subids.length
  one : w.OneSubscription

/-- The invariant of a channel and its server -/
structure Valid (w : Monitored) : Prop extends w.Sound where
  stage : w.view.AtStage w.fetch.state.stage

theorem valid_new {fetch : FetchMonitoring} {reg : SubidRegistry} (hbuf : fetch.inpBuf = [])
    (hstage : fetch.state.stage = .idle) : (new fetch reg).Valid where
  owners := (congrArg List.length hbuf).symm
  own := List.forall_mem_nil _
  cancelled := List.forall_mem_nil _
  stage := by
    unfold new
    simp only
    rw [hstage]
    refine ⟨?_, fun k hk => absurd hk (Nat.not_lt_zero k), eachClosed_nil⟩
    exact (List.append_nil _).trans hbuf
  one := ⟨separatelyOpened_nil, List.forall_mem_nil _⟩

/-- A change that a stage does not depend on -/
theorem Valid.of_view (h : w.Valid) (hview : w'.view = w.view) (hstage : w'.fetch.state.stage = w.fetch.state.stage)
    (howners : w'.owners.length = w'.fetch.inpBuf.length)
    (hown : w'.owners ++ w'.queue.map Prod.fst = w.owners ++ w.queue.map Prod.fst) (htaken : w'.taken = w.taken) :
    w'.Valid where
  owners := howners
  own := by
    rw [hown, show w'.subids.length = w.subids.length from congrArg View.count hview]
    exact h.own
  cancelled := by
    rw [show w'.cancelled = w.cancelled from congrArg View.cancelled hview,
      show w'.subids.length = w.subids.length from congrArg View.count hview]
    exact h.cancelled
  stage := by
    rw [hview, hstage]
    exact h.stage
  one := by
    refine ⟨?_, ?_⟩
    · rw [show w'.sent = w.sent from congrArg View.sent hview]
      exact h.one.separately
    · rw [htaken]
      exact h.one.current

/-- What the part does to itself, at the same stage and with the same messages -/
theorem Valid.fetch {t : FetchMonitoring} (h : w.Valid) (hsame : w.fetch.SameStage t) :
    ({ w with fetch := t } : Monitored).Valid := by
  obtain ⟨hcid, hbuf, hstage⟩ := hsame
  refine h.of_view ?_ hstage (hbuf ▸ h.owners) rfl rfl
  unfold view messages
  simp only
  rw [hcid, hbuf]

/-- What other channels do to the registry -/
theorem Valid.reg (h : w.Valid) {reg : SubidRegistry} (hrev : reg.rev w.fetch.cid = w.reg.rev w.fetch.cid) :
    ({ w with reg := reg } : Monitored).Valid := by
  refine h.of_view ?_ rfl h.owners rfl rfl
  unfold view
  rw [hrev]
  rfl

theorem Valid.deliver (h : w.Valid) (hdeliver : w.deliver = some w') : w'.Valid := by
  unfold Monitored.deliver at hdeliver
  cases hqueue : w.queue with
  | nil =>
      rw [hqueue] at hdeliver
      cases hdeliver
  | cons x rest =>
      rw [hqueue] at hdeliver
      obtain ⟨t, hpush, rfl⟩ := Option.map_eq_some_iff.mp hdeliver
      obtain ⟨-, hpush⟩ := Option.ite_none_right_eq_some.mp hpush
      obtain rfl := Option.some.inj hpush
      refine h.of_view ?_ rfl ?_ ?_ rfl
      · unfold view messages
        rw [hqueue]
        simp only [List.map_cons, List.append_assoc, List.singleton_append]
      · rw [List.length_append, List.length_append, h.owners]
        rfl
      · rw [hqueue, List.map_cons, List.append_assoc, List.singleton_append]

/-- A message that comes is put behind the others, or it is not for the channel. -/
theorem messages_arrive : (w.arrive k m).messages = w.messages ∨ (w.arrive k m).messages = w.messages ++ [m] := by
  unfold messages arrive
  simp only
  split
  · right
    rw [List.map_append, ← List.append_assoc]
    rfl
  · exact .inl rfl

theorem answered_arrive : (w.arrive k m).answered = if isReply m then w.answered ++ [k] else w.answered := rfl

theorem mem_answered_arrive {n : ℕ} (h : n ∈ w.answered) : n ∈ (w.arrive k m).answered := by
  rw [answered_arrive]
  split
  · exact List.mem_append_left _ h
  · exact h

/-- Data that comes for the last subscription, or the reply for it -/
theorem atStage_arrive {stage : FetchMonitoring.Stage} (hstage : w.view.AtStage stage) (hlt : k < w.subids.length)
    (hanswered : k ∉ w.answered) (hreply : isReply m = true → k ∈ w.cancelled) :
    k + 1 = w.subids.length ∧ (w.arrive k m).view.AtStage stage := by
  have hlast {n : ℕ} (hlatest : w.view.Latest n) : k = n := by
    have hle : k < n + 1 := hlatest.1 ▸ hlt
    rcases Nat.lt_succ_iff_lt_or_eq.mp hle with hk | hk
    · exact absurd (hlatest.2 k hk) hanswered
    · exact hk
  have hkeeps {n : ℕ} (hlatest : w.view.Latest n) : (w.arrive k m).view.Latest n :=
    ⟨hlatest.1, fun j hj => mem_answered_arrive (hlatest.2 j hj)⟩
  have hdata (hm : isReply m = false) (h : ∀ m' ∈ w.messages, isReply m' = false) :
      ∀ m' ∈ (w.arrive k m).messages, isReply m' = false := by
    rcases @messages_arrive w k m with hmessages | hmessages
    · rwa [hmessages]
    · rw [hmessages, List.forall_mem_append, List.forall_mem_singleton]
      exact ⟨h, hm⟩
  cases stage with
  | idle => exact absurd (hstage.answered k hlt) hanswered
  | answered => exact absurd (hstage.answered k hlt) hanswered
  | subscribed =>
      obtain ⟨n, h⟩ := hstage
      obtain rfl := hlast h.latest
      have hm : isReply m = false := by
        rw [← Bool.not_eq_true]
        exact fun hm => h.uncancelled (hreply hm)
      exact ⟨h.latest.1.symm, k, hkeeps h.latest, h.uncancelled, hdata hm h.data, h.opened⟩
  | cancelling =>
      obtain ⟨n, h⟩ := hstage
      obtain rfl := hlast h.latest
      have hnone : ∀ m' ∈ w.messages, isReply m' = false := h.replies.resolve_right fun hdone => hanswered hdone.1
      refine ⟨h.latest.1.symm, k, hkeeps h.latest, ?_, h.closed⟩
      cases hm : isReply m with
      | false => exact .inl (hdata hm hnone)
      | true =>
          rcases @messages_arrive w k m with hmessages | hmessages
          · left
            exact fun m' hm' => hnone m' (hmessages ▸ hm')
          · right
            refine ⟨?_, w.messages, m, hmessages, hnone⟩
            exact (congrArg (fun b : Bool => k ∈ if b then w.answered ++ [k] else w.answered) hm).mpr
              (List.mem_append_right _ (List.mem_singleton_self k))

/-- A message of a conforming server belongs to the last subscription. -/
theorem Valid.arrive (h : w.Valid) (hconforms : Conforms (.arrives k m) w) : (w.arrive k m).Valid := by
  obtain ⟨hsome, hsubid, hanswered, hreply⟩ := hconforms
  obtain ⟨subid, hsubid'⟩ := Option.ne_none_iff_exists'.mp hsome
  have hlt : k < w.subids.length := (List.getElem?_eq_some_iff.mp (hsubid.trans hsubid')).1
  obtain ⟨hlast, hstage⟩ := atStage_arrive h.stage hlt hanswered hreply
  refine ⟨⟨h.owners, ?_, h.cancelled, ⟨h.one.separately, h.one.current⟩⟩, hstage⟩
  unfold Monitored.arrive
  simp only
  split
  · rw [List.map_append, ← List.append_assoc, List.forall_mem_append]
    exact ⟨h.own, List.forall_mem_singleton.mpr hlast⟩
  · exact h.own

/-! ## A poll -/

section Polls

variable {t : FetchMonitoring} {front : List CaMsgTy}

theorem messages_moveTo (hbuf : w.fetch.inpBuf = front ++ t.inpBuf) :
    w.messages = front ++ (w.moveTo t).messages := by
  unfold messages
  rw [hbuf, List.append_assoc]
  rfl

theorem Sound.moveTo (h : w.Sound) (hbuf : w.fetch.inpBuf = front ++ t.inpBuf) : (w.moveTo t).Sound where
  owners := by
    have hle : t.inpBuf.length ≤ w.owners.length := by
      rw [h.owners, hbuf, List.length_append]
      exact Nat.le_add_left _ _
    unfold Monitored.moveTo
    rw [List.length_drop, Nat.sub_sub_self hle]
  own := by
    intro k hk
    rcases List.mem_append.mp hk with hk | hk
    · exact h.own k (List.mem_append_left _ (List.mem_of_mem_drop hk))
    · exact h.own k (List.mem_append_right _ hk)
  cancelled := h.cancelled
  one := ⟨h.one.separately, h.one.current⟩

/-- Data that was taken is of the last subscription. -/
theorem getLast?_consumed (h : w.Sound) (hbuf : w.fetch.inpBuf = front ++ t.inpBuf) (hfront : front ≠ []) :
    ∃ k, (w.consumed t).getLast? = some k ∧ k + 1 = w.subids.length := by
  have hlen : (w.consumed t).length = front.length := by
    unfold consumed
    rw [List.length_take, h.owners, hbuf, List.length_append]
    omega
  have hne : w.consumed t ≠ [] := by
    rw [← List.length_pos_iff, hlen]
    exact List.length_pos_iff.mpr hfront
  refine ⟨(w.consumed t).getLast hne, List.getLast?_eq_some_getLast hne, ?_⟩
  exact h.own _ (List.mem_append_left _ (List.mem_of_mem_take (List.getLast_mem hne)))

/-- A reply that is taken was the last message. -/
theorem quiet_of_reply {n : ℕ} (h : w.view.Cancelling n) (hbuf : w.fetch.inpBuf = front ++ t.inpBuf)
    (hreply : ∃ m ∈ front, isReply m = true) : (w.moveTo t).view.Quiet := by
  obtain ⟨m, hm, hreply⟩ := hreply
  have hmessages : w.messages = front ++ (w.moveTo t).messages := messages_moveTo hbuf
  rcases h.replies with hnone | ⟨hanswered, data, reply, hsplit, hdata⟩
  · have hmem : m ∈ w.messages := by
      rw [hmessages]
      exact List.mem_append_left _ hm
    have hnone := hnone m hmem
    rw [hreply] at hnone
    cases hnone
  · have hempty : (w.moveTo t).messages = [] := by
      rcases List.eq_nil_or_concat (w.moveTo t).messages with hnil | ⟨rest, last, hrest⟩
      · exact hnil
      · rw [hrest, List.concat_eq_append, ← List.append_assoc] at hmessages
        obtain ⟨hfront, -⟩ := List.append_inj' (hmessages.symm.trans hsplit) rfl
        have hnone := hdata m (hfront ▸ List.mem_append_left _ hm)
        rw [hreply] at hnone
        cases hnone
    refine ⟨hempty, fun k hk => ?_, h.closed⟩
    have hle : k < n + 1 := h.latest.1 ▸ hk
    rcases Nat.lt_succ_iff_lt_or_eq.mp hle with hk | rfl
    · exact h.latest.2 k hk
    · exact hanswered

/-- Messages that are taken leave the stage as it is. -/
theorem atStage_moveTo {stage : FetchMonitoring.Stage} (h : w.view.AtStage stage) (hcid : t.cid = w.fetch.cid)
    (hbuf : w.fetch.inpBuf = front ++ t.inpBuf) : (w.moveTo t).view.AtStage stage := by
  have hmessages : w.messages = front ++ (w.moveTo t).messages := messages_moveTo hbuf
  have hquiet (h : w.view.Quiet) : (w.moveTo t).view.Quiet :=
    ⟨(List.append_eq_nil_iff.mp (hmessages.symm.trans h.messages)).2, h.answered, h.closed⟩
  have hdata (h : ∀ m ∈ w.messages, isReply m = false) : ∀ m ∈ (w.moveTo t).messages, isReply m = false := by
    rw [hmessages] at h
    exact (List.forall_mem_append.mp h).2
  cases stage with
  | idle => exact hquiet h
  | answered => exact hquiet h
  | subscribed =>
      obtain ⟨n, h⟩ := h
      refine ⟨n, h.latest, h.uncancelled, hdata h.data, ?_⟩
      obtain ⟨sent, dataType, dataCount, sid, subid, hsent, hclosed, hrev⟩ := h.opened
      refine ⟨sent, dataType, dataCount, sid, subid, hsent, hclosed, ?_⟩
      exact (congrArg w.reg.rev hcid).trans hrev
  | cancelling =>
      obtain ⟨n, h⟩ := h
      refine ⟨n, h.latest, ?_, h.closed⟩
      rcases h.replies with hnone | ⟨hanswered, data, reply, hsplit, hnone⟩
      · exact .inl (hdata hnone)
      · rcases List.eq_nil_or_concat (w.moveTo t).messages with hnil | ⟨rest, last, hrest⟩
        · left
          intro m hm
          rw [show (w.moveTo t).view.messages = [] from hnil] at hm
          cases hm
        · right
          rw [List.concat_eq_append] at hrest
          rw [hrest, ← List.append_assoc] at hmessages
          obtain ⟨hfront, -⟩ := List.append_inj' (hmessages.symm.trans hsplit) rfl
          exact ⟨hanswered, rest, last, hrest, fun m hm => hnone m (hfront ▸ List.mem_append_right _ hm)⟩

/-- A quiet channel subscribes. -/
theorem Sound.add {dataType : UInt16} {dataCount sid subid : UInt32} (h : w.Sound) (hquiet : w.view.Quiet) :
    (w.send (.eventAdd dataType dataCount sid subid)).Sound ∧
      (w.send (.eventAdd dataType dataCount sid subid)).view.Subscribed w.subids.length := by
  obtain ⟨hbuf, hqueue⟩ := List.append_eq_nil_iff.mp hquiet.messages
  have howners : w.owners = [] := List.length_eq_zero_iff.mp (h.owners.trans (congrArg List.length hbuf))
  have hcount : (w.send (.eventAdd dataType dataCount sid subid)).subids.length = w.subids.length + 1 :=
    List.length_append
  have hcancelled : (w.send (.eventAdd dataType dataCount sid subid)).cancelled = w.cancelled := List.append_nil _
  constructor
  · refine ⟨h.owners, ?_, ?_, h.one.separately.append_singleton fun _ => hquiet.closed, h.one.current⟩
    · unfold Monitored.send
      simp only
      rw [howners, List.map_eq_nil_iff.mp hqueue]
      exact List.forall_mem_nil _
    · rw [hcancelled, hcount]
      exact fun k hk => Nat.lt_succ_of_lt (h.cancelled k hk)
  · refine ⟨⟨hcount, hquiet.answered⟩, ?_, ?_, ?_⟩
    · intro hmem
      exact absurd (h.cancelled _ (hcancelled ▸ hmem)) (Nat.lt_irrefl _)
    · intro m hm
      rw [show (w.send (.eventAdd dataType dataCount sid subid)).view.messages = [] from hquiet.messages] at hm
      cases hm
    · exact ⟨w.sent, dataType, dataCount, sid, _, rfl, hquiet.closed, SubidRegistry.rev_register⟩

/-- A subscription is cancelled with the id that it was requested with. -/
theorem Sound.cancel {dataType : UInt16} {dataCount sid subid : UInt32} {n : ℕ} (h : w.Sound)
    (hsubscribed : w.view.Subscribed n) :
    (w.send (.eventCancel dataType dataCount sid subid)).Sound ∧
      (w.send (.eventCancel dataType dataCount sid subid)).view.Cancelling n := by
  obtain ⟨sent, dataType', dataCount', sid', subid', hsent, hclosed, hrev⟩ := hsubscribed.opened
  have hregister : w.reg.register w.fetch.cid = (subid', w.reg) := SubidRegistry.register_of_rev hrev
  have hsubids : (w.send (.eventCancel dataType dataCount sid subid)).subids = w.subids := List.append_nil _
  constructor
  · refine ⟨h.owners, ?_, ?_, h.one.separately.append_singleton False.elim, h.one.current⟩
    · rw [hsubids]
      exact h.own
    · rw [hsubids]
      intro k hk
      rcases List.mem_append.mp hk with hk | hk
      · exact h.cancelled k hk
      · exact List.mem_range.mp (List.mem_filter.mp hk).1
  · refine ⟨?_, .inl hsubscribed.data, ?_⟩
    · unfold View.Latest view
      rw [hsubids]
      exact hsubscribed.latest
    · unfold view Monitored.send
      simp only
      rw [hregister, show w.sent = _ from hsent]
      exact hclosed.append_pair rfl id

/-- The invariant holds behind a poll in which no request times out. -/
theorem Valid.goesOn {x : Option MonitoringItem} (h : w.Valid) (heffect : w.fetch.Effect x t) :
    (x.elim (w.moveTo t) ((w.moveTo t).give (w.consumed t))).Valid := by
  obtain ⟨front, hbuf, hmoves⟩ := heffect.moves
  have hsound := h.toSound.moveTo hbuf
  have hstage := h.stage
  generalize hs : w.fetch.state.stage = stage at hmoves hstage
  generalize ht : t.state.stage = stage' at hmoves
  have hremoves (hquiet : (w.moveTo t).view.Quiet) (hidle : stage' = .idle) :
      ((w.moveTo t).give (w.consumed t) (.subidRemove w.fetch.cid)).Valid := by
    refine ⟨⟨hsound.owners, hsound.own, hsound.cancelled, ⟨hsound.one.separately, hsound.one.current⟩⟩, ?_⟩
    have hstage' : ((w.moveTo t).give (w.consumed t) (.subidRemove w.fetch.cid)).fetch.state.stage = .idle :=
      ht.trans hidle
    rw [hstage']
    exact ⟨hquiet.messages, hquiet.answered, hquiet.closed⟩
  cases hmoves with
  | stays hx =>
      have hvalid : (w.moveTo t).Valid := ⟨hsound, ht ▸ atStage_moveTo hstage heffect.cid hbuf⟩
      rcases hx with rfl | rfl
      · exact hvalid
      · exact hvalid
  | adds =>
      have hquiet : (w.moveTo t).view.AtStage .idle := atStage_moveTo hstage heffect.cid hbuf
      obtain ⟨hadd, hsubscribed⟩ := hsound.add hquiet
      exact ⟨hadd, ht ▸ ⟨_, hsubscribed⟩⟩
  | values hfront =>
      have hsubscribed : (w.moveTo t).view.AtStage .subscribed := atStage_moveTo hstage heffect.cid hbuf
      refine ⟨⟨hsound.owners, hsound.own, hsound.cancelled, hsound.one.separately, ?_⟩, ht ▸ hsubscribed⟩
      intro p hp
      rcases List.mem_append.mp hp with hp | hp
      · exact h.one.current p hp
      · rw [List.mem_singleton.mp hp]
        exact getLast?_consumed h.toSound hbuf hfront
  | cancels =>
      have hsubscribed : (w.moveTo t).view.AtStage .subscribed := atStage_moveTo hstage heffect.cid hbuf
      obtain ⟨n, hsubscribed⟩ := hsubscribed
      obtain ⟨hcancel, hcancelling⟩ := hsound.cancel hsubscribed
      exact ⟨hcancel, ht ▸ ⟨n, hcancelling⟩⟩
  | answers hx hreply =>
      obtain ⟨n, hcancelling⟩ := hstage
      have hvalid : (w.moveTo t).Valid := ⟨hsound, ht ▸ quiet_of_reply hcancelling hbuf hreply⟩
      rcases hx with rfl | rfl
      · exact hvalid
      · exact hvalid
  | removes =>
      have hquiet : (w.moveTo t).view.AtStage .answered := atStage_moveTo hstage heffect.cid hbuf
      exact hremoves hquiet rfl
  | answersRemoves hreply =>
      obtain ⟨n, hcancelling⟩ := hstage
      exact hremoves (quiet_of_reply hcancelling hbuf hreply) rfl

end Polls

theorem Valid.poll (h : w.Valid) (htime : w.fetch.InTime) (hpoll : w.poll = some w') : w'.Valid := by
  have heffect := FetchMonitoring.effect_pollNextUnpin htime
  unfold Monitored.poll at hpoll
  cases hresult : w.fetch.pollNextUnpin with
  | item x t =>
      rw [hresult] at heffect hpoll
      cases hpoll
      exact h.goesOn heffect
  | again t =>
      rw [hresult] at heffect hpoll
      cases hpoll
      exact h.goesOn heffect
  | pending t =>
      rw [hresult] at heffect hpoll
      cases hpoll
      exact h.goesOn heffect
  | done t =>
      rw [hresult] at heffect hpoll
      cases hpoll
      exact h.goesOn heffect
  | panic =>
      rw [hresult] at hpoll
      cases hpoll

/-! ## Runs -/

theorem Valid.step {e : MonitorEvent} (h : w.Valid) (hconforms : Conforms e w) (htime : InTime e w)
    (hstep : step e w = some w') : w'.Valid := by
  cases e with
  | enable =>
      cases hstep
      exact h.fetch w.fetch.sameStage_transitionToEnable
  | disable =>
      cases hstep
      exact h.fetch (w.fetch.sameStage_transitionTo .disable)
  | close =>
      cases hstep
      exact h.fetch (w.fetch.sameStage_transitionTo .closing)
  | inpDone =>
      cases hstep
      exact h.fetch ⟨rfl, rfl, rfl⟩
  | elapse =>
      cases hstep
      exact h.fetch w.fetch.sameStage_elapse
  | arrives k m =>
      cases hstep
      exact h.arrive hconforms
  | delivers => exact h.deliver hstep
  | poll => exact h.poll htime hstep
  | registers cid =>
      obtain ⟨hother, hstep⟩ := Option.ite_none_left_eq_some.mp hstep
      cases hstep
      exact h.reg (SubidRegistry.rev_register_of_ne (Ne.symm hother))
  | removes cid =>
      obtain ⟨hother, hstep⟩ := Option.ite_none_left_eq_some.mp hstep
      cases hstep
      exact h.reg (SubidRegistry.rev_remove_of_ne (Ne.symm hother))

/-- If the server conforms and no request times out, the channel has one subscription at a time, and takes only the data
of that one. -/
theorem oneSubscription_run (series : ℕ) (cid sid : UInt32) (shape : Netpod.Shape) (caDbrTy : UInt16)
    (reg : SubidRegistry) (es : List MonitorEvent)
    (hserver : Along step Conforms es (new (.new series cid sid shape caDbrTy) reg))
    (htime : Along step InTime es (new (.new series cid sid shape caDbrTy) reg)) :
    ∀ w, Reached step es (new (.new series cid sid shape caDbrTy) reg) w → w.OneSubscription := by
  intro w hw
  have hvalid := forall_reached_of_along (fun e w w' h hok hstep => Valid.step h hok.1 hok.2 hstep)
    (valid_new rfl rfl) (hserver.and htime)
  exact (hvalid w hw).one

/-! ## Runs on examples -/

/-- A channel before its first subscription, with an empty registry -/
def exampleChannel : Monitored := new (.new 1 7 3 .scalar 20) ⟨fun _ => none, fun _ => none, 0⟩

/-- Data with the id of a subscription -/
def exampleData (subid : UInt32) : CaMsgTy := .eventAddRes 20 1 1 subid 16 ⟨.scalar (.i32 5), .caMetaTime 0 0 0 0⟩

/-- The channel is enabled, until it takes data. -/
def subscribing : List MonitorEvent :=
  [.enable, .poll, .poll, .poll, .arrives 0 (exampleData 1), .delivers, .poll, .poll, .poll]

/-- The channel is disabled while data is on the way, the server replies, and the channel is enabled again. -/
def resubscribing : List MonitorEvent :=
  subscribing ++ [.disable] ++ List.replicate 5 .poll ++
    [.arrives 0 (exampleData 1), .arrives 0 (.eventAddResEmpty 20 3 1), .delivers, .delivers, .poll, .enable] ++
      List.replicate 7 .poll ++ [.arrives 1 (exampleData 2), .delivers] ++ List.replicate 3 .poll

/-- The server is slow to answer a subscribe request, and the channel is enabled again. -/
def createTimesOut : List MonitorEvent :=
  [.enable, .poll, .poll, .poll, .poll, .elapse, .poll, .poll, .enable] ++ List.replicate 4 .poll

/-- The server is slow to answer a cancel request, and the channel is enabled again. -/
def removeTimesOut : List MonitorEvent :=
  subscribing ++ [.disable] ++ List.replicate 5 .poll ++ [.poll, .elapse, .poll, .poll, .enable] ++
    List.replicate 4 .poll ++ [.arrives 0 (exampleData 1), .delivers] ++ List.replicate 3 .poll

theorem oneSubscription_resubscribing :
    ∃ w, run step resubscribing exampleChannel = some w ∧ w.OneSubscription := by
  have hsome : (run step resubscribing exampleChannel).isSome := by decide +kernel
  obtain ⟨w, hw⟩ := Option.isSome_iff_exists.mp hsome
  have hone := oneSubscription_run 1 7 3 .scalar 20 ⟨fun _ => none, fun _ => none, 0⟩ resubscribing
    (by decide +kernel) (by decide +kernel)
  exact ⟨w, hw, hone w ⟨_, List.prefix_rfl, hw⟩⟩

/-- Behind a subscribe request that has timed out comes another one.  Behind a cancel request that has timed out, data
of the cancelled subscription is taken for the new one. -/
theorem not_oneSubscription :
    (¬ ∀ w, Reached step createTimesOut exampleChannel w → SeparatelyOpened IsAdd Cancels w.sent) ∧
      Along step Conforms removeTimesOut exampleChannel ∧
        ¬ ∀ w, Reached step removeTimesOut exampleChannel w → ∀ p ∈ w.taken, ∃ k, p.1 = some k ∧ k + 1 = p.2 := by
  refine ⟨fun h => ?_, by decide +kernel, fun h => ?_⟩
  · have hrun : (run step createTimesOut exampleChannel).map (fun w => w.sent) =
        some [.eventAdd 20 1 3 1, .eventAdd 20 1 3 1] := by
      decide +kernel
    obtain ⟨w, hw, hsent⟩ := Option.map_eq_some_iff.mp hrun
    obtain ⟨m, hm, -⟩ := h w ⟨_, List.prefix_rfl, hw⟩ [] _ [] _ [] hsent trivial trivial
    cases hm
  · have hrun : (run step removeTimesOut exampleChannel).map (fun w => w.taken) = some [(some 0, 1), (some 0, 2)] := by
      decide +kernel
    obtain ⟨w, hw, htaken⟩ := Option.map_eq_some_iff.mp hrun
    have hlast : (some 0, 2) ∈ w.taken := by
      rw [htaken]
      exact List.mem_cons_of_mem _ List.mem_cons_self
    obtain ⟨k, hk, hcount⟩ := h w ⟨_, List.prefix_rfl, hw⟩ _ hlast
    cases hk
    cases hcount

end Monitored

end Channelheap
end Daqbuf
