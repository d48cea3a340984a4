import Daqbuf.Channelheap.Fetchmpx
/-!
# A Running Channel

The messages for a running channel are dispatched: those about its values go to the parts that fetch them, the reply to
a close request is noted, and any other message ends the channel.

Main results:

- Theorem {lit}`Fetchmpx.pollNext_ne_again`: a poll of the parts leaves its loop.
- Theorem {lit}`Running.pollNext_ne_again`: so does a poll of the channel.
- Theorems {lit}`Running.stays_pollNext` and {lit}`Running.done_pollNext`: a healthy channel stays so as long as the
  dispatch knows the messages, and ends otherwise.
-/

namespace Daqbuf
namespace Channelheap

open Poll
open Ca (CaMsgTy CaEventValue)
open Connset (HaveProgressPending)

/-! ## The loop of the multiplexer -/

namespace FetchPolling

/-- A poll does not go round again. -/
theorem pollNext_ne_again (s t : FetchPolling) : s.pollNext ≠ .again t := by
  intro hpoll
  unfold pollNext pollState finish at hpoll
  (repeat' split at hpoll) <;> cases hpoll

/-- What the state asks for comes to progress without an item only with an entry in the log, or after progress that
was made before. -/
theorem pollState_none {hpp : HaveProgressPending} {s t : FetchPolling} (hpoll : s.pollState hpp = .item .none t) :
    0 < t.llog ∨ hpp.progress = true ∧ t = s := by
  have hlogged : ∀ (u : FetchPolling) (new : State),
      (Pass.item .none (u.transitionState new) : Pass FetchPolling Item) = .item .none t → 0 < t.llog := by
    intro u new heq
    cases heq
    exact pushLog_pos _
  have hfinish : ∀ hpp' : HaveProgressPending, hpp'.progress = hpp.progress → s.finish hpp' = .item .none t →
      hpp.progress = true ∧ t = s := by
    intro hpp' hprogress heq
    unfold finish at heq
    (repeat' split at heq) <;> cases heq
    exact ⟨hprogress ▸ by assumption, rfl⟩
  unfold pollState at hpoll
  cases hstate : s.state with
  | doNothing =>
      rw [hstate] at hpoll
      exact .inr (hfinish hpp rfl hpoll)
  | done =>
      rw [hstate] at hpoll
      exact .inr (hfinish hpp rfl hpoll)
  | sendReq stdir => simp [hstate] at hpoll
  | closing1 =>
      rw [hstate] at hpoll
      exact .inl (hlogged _ _ hpoll)
  | idle fut =>
      simp only [hstate] at hpoll
      split at hpoll
      · exact .inl (hlogged _ _ hpoll)
      · have hprogress := hfinish { hpp with pending := true } rfl hpoll
        exact .inr hprogress
  | waitRes timer stdir =>
      simp only [hstate] at hpoll
      split at hpoll
      · cases stdir with
        | none => exact .inl (hlogged _ _ hpoll)
        | doNothing => exact .inl (hlogged _ _ hpoll)
      · have hprogress := hfinish { hpp with pending := true } rfl hpoll
        exact .inr hprogress

/-- After progress without an item there is an entry in the log, or a message was dropped. -/
theorem pollNext_none {s t : FetchPolling} (hpoll : s.pollNext = .item .none t) :
    s.llog = 0 ∧ (0 < t.llog ∨ t.inpBuf.length < s.inpBuf.length) := by
  unfold pollNext at hpoll
  split at hpoll
  · cases hpoll
  · rename_i hlog
    refine ⟨Nat.eq_zero_of_not_pos hlog, ?_⟩
    split at hpoll
    · rcases pollState_none hpoll with h | ⟨h, -⟩
      · exact .inl h
      · cases h
    · rename_i m rest hbuf
      split at hpoll
      · cases hpoll
      · cases hpoll
      · rcases pollState_none hpoll with h | ⟨-, rfl⟩
        · exact .inl h
        · right
          rw [hbuf]
          exact Nat.lt_succ_self _

end FetchPolling

namespace Fetchmpx

/-- {lit}`poll_next`, which needs at most a pass for each message and three more. -/
def pollNext (s : Fetchmpx) : Pass Fetchmpx FetchmpxItem :=
  spin pass (s.inpBuf.length + s.polling.inpBuf.length + 3) s

/-- How many passes a loop makes at most. -/
def rank (s : Fetchmpx) : ℕ :=
  match s.state with
  | .normal | .closing1 =>
    if 0 < s.polling.llog then 1 else s.inpBuf.length + s.polling.inpBuf.length + 2
  | .done | .done2 => 0

/-- The dispatch moves messages, and leaves the log of the polling part as it is where the input goes on. -/
theorem length_pollInpDispatch {ms : List CaMsgTy} {s t : Fetchmpx} {r : Dispatched}
    (hdispatch : pollInpDispatch ms s = (r, t)) (hgoes : r ≠ .inputDone) :
    t.polling.llog = s.polling.llog ∧
      t.inpBuf.length + t.polling.inpBuf.length ≤ ms.length + s.polling.inpBuf.length := by
  induction ms generalizing s with
  | nil =>
      unfold pollInpDispatch at hdispatch
      split at hdispatch <;> cases hdispatch
      · exact absurd rfl hgoes
      · exact ⟨rfl, le_rfl⟩
  | cons m rest ih =>
      rw [List.length_cons]
      unfold pollInpDispatch at hdispatch
      split at hdispatch
      -- the last of them is an error, the one before it goes to the polling part
      case h_4 =>
        split at hdispatch
        · rename_i u hpush
          unfold FetchPolling.inpPushTry at hpush
          split at hpush
          · cases hpush
            have hrest := ih hdispatch
            simp only [List.length_append, List.length_singleton] at hrest
            omega
          · cases hpush
        · cases hdispatch
          exact ⟨rfl, le_rfl⟩
      case h_5 =>
        cases hdispatch
        exact ⟨rfl, by dsimp only; omega⟩
      all_goals
        split at hdispatch
        · have hrest := ih hdispatch
          dsimp only at hrest
          omega
        · cases hdispatch
          exact ⟨rfl, le_rfl⟩

/-- The poll of the monitoring part goes round again only for progress that was made before. -/
theorem pollMonitoring_again {finish : HaveProgressPending → Fetchmpx → Pass Fetchmpx FetchmpxItem}
    (hfinish : ∀ hpp s t, finish hpp s = .again t → hpp.progress = true ∧ t = s) {hpp : HaveProgressPending}
    {s t : Fetchmpx} (hpoll : s.pollMonitoring finish hpp = .again t) :
    hpp.progress = true ∧ ∃ u, t = { s with monitoring := u } := by
  unfold pollMonitoring at hpoll
  cases hmon : s.monitoring.pollNextUnpin with
  | item x u => simp [hmon] at hpoll
  | panic => simp [hmon] at hpoll
  | again u => exact absurd hmon (FetchMonitoring.pollNextUnpin_ne_again _ u)
  | pending u =>
      simp only [hmon] at hpoll
      have hprogress := hfinish _ _ _ hpoll
      exact ⟨hprogress.1, u, hprogress.2⟩
  | done u =>
      simp only [hmon] at hpoll
      have hprogress := hfinish _ _ _ hpoll
      exact ⟨hprogress.1, u, hprogress.2⟩

/-- The polls of the parts go round again for progress of the polling part, or for progress that was made before. -/
theorem pollParts_again {finish : HaveProgressPending → Fetchmpx → Pass Fetchmpx FetchmpxItem}
    (hfinish : ∀ hpp s t, finish hpp s = .again t → hpp.progress = true ∧ t = s) {hpp : HaveProgressPending}
    {s t : Fetchmpx} (hpoll : s.pollParts finish hpp = .again t) :
    t.state = s.state ∧ t.inpBuf = s.inpBuf ∧
      (hpp.progress = true ∨ s.polling.pollNext = .item .none t.polling) := by
  unfold pollParts at hpoll
  cases hpolling : s.polling.pollNext with
  | panic => simp [hpolling] at hpoll
  | again u => exact absurd hpolling (FetchPolling.pollNext_ne_again _ u)
  | item x u =>
      cases x with
      | none =>
          simp only [hpolling] at hpoll
          obtain ⟨-, v, rfl⟩ := pollMonitoring_again hfinish hpoll
          exact ⟨rfl, rfl, .inr rfl⟩
      | _ => simp [hpolling, FetchPolling.Item.handedOn] at hpoll
  | pending u =>
      simp only [hpolling] at hpoll
      obtain ⟨hprogress, v, rfl⟩ := pollMonitoring_again hfinish hpoll
      exact ⟨rfl, rfl, .inl hprogress⟩
  | done u =>
      simp only [hpolling] at hpoll
      obtain ⟨hprogress, v, rfl⟩ := pollMonitoring_again hfinish hpoll
      exact ⟨rfl, rfl, .inl hprogress⟩

/-- While it is not done, a loop makes at least one pass. -/
theorem rank_pos {s : Fetchmpx} (hstate : s.state = .normal ∨ s.state = .closing1) : 0 < s.rank := by
  unfold rank
  rcases hstate with hstate | hstate <;> rw [hstate] <;> dsimp only <;> split <;> omega

/-- Progress of the polling part lowers the rank. -/
theorem rank_of_pollNext_none {s t u : Fetchmpx} (hstate : s.state = .normal ∨ s.state = .closing1)
    (hdispatch : pollInpDispatch s.inpBuf s = (.pending, u)) (hpoll : u.polling.pollNext = .item .none t.polling)
    (ht : t.inpBuf = u.inpBuf) : t.rank < s.rank := by
  have hmoved := length_pollInpDispatch hdispatch nofun
  have hnone := FetchPolling.pollNext_none hpoll
  have hlog : ¬0 < s.polling.llog := by omega
  have hs : s.rank = s.inpBuf.length + s.polling.inpBuf.length + 2 := by
    unfold rank
    rcases hstate with hstate | hstate <;> rw [hstate] <;> simp only [hlog, if_false]
  rw [hs]
  unfold rank
  split
  · split
    · omega
    · rw [ht]
      omega
  · split
    · omega
    · rw [ht]
      omega
  · exact Nat.succ_pos _
  · exact Nat.succ_pos _

/-- A pass that goes round again lowers the rank. -/
theorem rank_pass {s t : Fetchmpx} (hpass : s.pass = .again t) : t.rank < s.rank := by
  have hfinish : ∀ (hpp : HaveProgressPending) (s t : Fetchmpx),
      (hpp.finish s : Pass Fetchmpx FetchmpxItem) = .again t → hpp.progress = true ∧ t = s := by
    intro hpp s t heq
    unfold HaveProgressPending.finish at heq
    (repeat' split at heq) <;> cases heq
    exact ⟨by assumption, rfl⟩
  have hclosing : ∀ (hpp : HaveProgressPending) (s t : Fetchmpx),
      finishClosing hpp s = .again t → hpp.progress = true ∧ t = s := by
    intro hpp s t heq
    unfold finishClosing at heq
    (repeat' split at heq) <;> cases heq
    exact ⟨by assumption, rfl⟩
  have hends : ∀ {u : Fetchmpx}, t.state = ({ u with state := .done } : Fetchmpx).state → t.rank = 0 := by
    intro u hstate
    simp only [rank, hstate]
  unfold pass at hpass
  split at hpass
  · cases hpass
  · split at hpass
    · rename_i hstate
      have hpos := rank_pos (s := s) (.inl hstate)
      split at hpass
      · cases hpass
      · rwa [hends (pollParts_again hfinish hpass).1]
      · rename_i hdispatch
        obtain ⟨-, ht, h | h⟩ := pollParts_again hfinish hpass
        · cases h
        · exact rank_of_pollNext_none (.inl hstate) hdispatch h ht
    · rename_i hstate
      have hpos := rank_pos (s := s) (.inr hstate)
      split at hpass
      · cases hpass
      · rwa [hends (pollParts_again hclosing hpass).1]
      · rename_i hdispatch
        obtain ⟨-, ht, h | h⟩ := pollParts_again hclosing hpass
        · cases h
        · exact rank_of_pollNext_none (.inr hstate) hdispatch h ht
    · cases hpass
    · cases hpass

/-- A poll leaves its loop. -/
theorem pollNext_ne_again (s t : Fetchmpx) : s.pollNext ≠ .again t := by
  apply spin_ne_again (fun _ _ => rank_pass)
  unfold rank
  (repeat' split) <;> omega

/-- A poll keeps what every pass preserves. -/
theorem Kept.pollNext {I : Fetchmpx → Prop} (hI : Kept I) {s : Fetchmpx} (hs : I s) : s.pollNext.Leaves I :=
  leaves_spin (fun _ ht => hI.pass ht) _ hs

/-- Nothing in a pass changes whether the input is done. -/
theorem kept_inpDone (b : Bool) : Kept fun s => s.inpDone = b where
  llog _ _ hs := hs
  inpBuf _ _ hs := hs
  pushPolling _ _ _ hs _ := hs
  pushMonitoring _ _ _ hs _ := hs
  polling s hs := (FetchPolling.step_pollNext s.polling).mono fun _ _ => hs
  monitoring s hs :=
    (FetchMonitoring.leaves_pollNextUnpin (Q := fun _ => True) (fun _ _ _ _ => trivial) trivial).mono fun _ _ => hs
  closing s hs := by
    unfold triggerClosing
    split <;> exact hs
  ended _ _ hs _ := hs

/-- The end of the input is noticed where no message is left. -/
theorem pollInpDispatch_inputDone {ms : List CaMsgTy} {s t : Fetchmpx}
    (hdispatch : pollInpDispatch ms s = (.inputDone, t)) : t.inpDone = true ∧ t.inpBuf = [] := by
  have hclosing : ∀ u : Fetchmpx, u.triggerClosing.inpDone = u.inpDone ∧ u.triggerClosing.inpBuf = u.inpBuf := by
    intro u
    unfold triggerClosing
    split <;> exact ⟨rfl, rfl⟩
  induction ms generalizing s with
  | nil =>
      unfold pollInpDispatch at hdispatch
      split at hdispatch
      · rename_i hdone
        cases hdispatch
        rw [(hclosing _).1, (hclosing _).2]
        exact ⟨hdone, rfl⟩
      · cases hdispatch
  | cons m rest ih =>
      unfold pollInpDispatch at hdispatch
      split at hdispatch
      case h_5 => cases hdispatch
      all_goals
        split at hdispatch
        · exact ih hdispatch
        · cases hdispatch

/-- The parts do not notice the end of the input. -/
theorem pollParts_ne_inputDone {finish : HaveProgressPending → Fetchmpx → Pass Fetchmpx FetchmpxItem}
    (hfinish : ∀ hpp s x t, finish hpp s ≠ .item x t) (hpp : HaveProgressPending) (s t : Fetchmpx) :
    s.pollParts finish hpp ≠ .item .inputDone t := by
  have hmonitoring : ∀ hpp' u, pollMonitoring finish hpp' u ≠ .item .inputDone t := by
    intro hpp' u hpoll
    unfold pollMonitoring at hpoll
    split at hpoll
    · rename_i x v hmon
      cases x <;> cases hpoll
    · exact hfinish _ _ _ _ hpoll
    · exact hfinish _ _ _ _ hpoll
    · cases hpoll
    · cases hpoll
  intro hpoll
  unfold pollParts at hpoll
  split at hpoll
  · rename_i x v hpolling
    cases x with
    | none => exact hmonitoring _ _ hpoll
    | _ => cases hpoll
  · exact hmonitoring _ _ hpoll
  · exact hmonitoring _ _ hpoll
  · cases hpoll
  · cases hpoll

/-- A poll that notices the end of the input leaves no message. -/
theorem pollNext_inputDone {s t : Fetchmpx} (hpoll : s.pollNext = .item .inputDone t) :
    t.inpDone = true ∧ t.inpBuf = [] := by
  have hfinish : ∀ (hpp : HaveProgressPending) (s : Fetchmpx) (x : FetchmpxItem) (t : Fetchmpx),
      (hpp.finish s : Pass Fetchmpx FetchmpxItem) ≠ .item x t := by
    intro hpp s x t
    unfold HaveProgressPending.finish
    (repeat' split) <;> exact nofun
  have hclosing : ∀ (hpp : HaveProgressPending) (s : Fetchmpx) (x : FetchmpxItem) (t : Fetchmpx),
      finishClosing hpp s ≠ .item x t := by
    intro hpp s x t
    unfold finishClosing
    (repeat' split) <;> exact nofun
  have hpasses : (∃ u, s.pollNext = .again u) ∨ ∃ u : Fetchmpx, True ∧ u.pass = s.pollNext :=
    exists_last_spin (fun _ _ _ _ => trivial) trivial
  rcases hpasses with ⟨u, hu⟩ | ⟨u, -, hlast⟩
  · exact absurd hu (pollNext_ne_again s u)
  · have hpass : u.pass = .item .inputDone t := hlast.trans hpoll
    unfold pass at hpass
    split at hpass
    · cases hpass
    · split at hpass
      · split at hpass
        · rename_i hdispatch
          cases hpass
          exact pollInpDispatch_inputDone hdispatch
        · exact absurd hpass (pollParts_ne_inputDone hfinish _ _ _)
        · exact absurd hpass (pollParts_ne_inputDone hfinish _ _ _)
      · split at hpass
        · rename_i hdispatch
          cases hpass
          exact pollInpDispatch_inputDone hdispatch
        · exact absurd hpass (pollParts_ne_inputDone hclosing _ _ _)
        · exact absurd hpass (pollParts_ne_inputDone hclosing _ _ _)
      · cases hpass
      · cases hpass

/-! ## A multiplexer that is in order -/

/-- The messages for the multiplexer, in {lit}`poll_inp_dispatch` of a running channel -/
def toMpx : CaMsgTy → Bool
  | .eventAddRes _ _ _ _ _ _ | .eventAddResEmpty _ _ _ | .readNotifyRes _ _ _ _ _ _ => true
  | _ => false

/-- The multiplexer operates, and it holds only messages that are for it. -/
structure Healthy (s : Fetchmpx) : Prop where
  normal : s.state = .normal
  inpDone : s.inpDone = false
  inpBuf : ∀ m ∈ s.inpBuf, toMpx m = true

/-- What a poll of a healthy multiplexer comes to: it stays healthy and does not end. -/
def Stays : Pass Fetchmpx FetchmpxItem → Prop
  | .item x t => x ≠ .inputDone ∧ t.Healthy
  | .again t | .pending t => t.Healthy
  | .done _ | .panic => False

/-- Messages that are for it are dispatched without an error. -/
theorem Healthy.pollInpDispatch {s : Fetchmpx} (hs : s.Healthy) {ms : List CaMsgTy}
    (hms : ∀ m ∈ ms, toMpx m = true) : ∃ t, Fetchmpx.pollInpDispatch ms s = (.pending, t) ∧ t.Healthy := by
  induction ms generalizing s with
  | nil =>
      refine ⟨{ s with inpBuf := [] }, ?_, hs.normal, hs.inpDone, nofun⟩
      simp [Fetchmpx.pollInpDispatch, hs.inpDone]
  | cons m rest ih =>
      have hrest : ∀ m ∈ rest, toMpx m = true := fun x hx => hms x (List.mem_cons_of_mem m hx)
      have hstays : ({ s with inpBuf := m :: rest } : Fetchmpx).Healthy := ⟨hs.normal, hs.inpDone, hms⟩
      have hm := hms m List.mem_cons_self
      cases m with
      | eventAddRes dataType dataCount status subid payloadLen value =>
          simp only [Fetchmpx.pollInpDispatch]
          split
          · exact ih ⟨hs.normal, hs.inpDone, hs.inpBuf⟩ hrest
          · exact ⟨_, rfl, hstays⟩
      | eventAddResEmpty dataType sid subid =>
          simp only [Fetchmpx.pollInpDispatch]
          split
          · exact ih ⟨hs.normal, hs.inpDone, hs.inpBuf⟩ hrest
          · exact ⟨_, rfl, hstays⟩
      | readNotifyRes dataType dataCount sid ioid payloadLen value =>
          simp only [Fetchmpx.pollInpDispatch]
          split
          · exact ih ⟨hs.normal, hs.inpDone, hs.inpBuf⟩ hrest
          · exact ⟨_, rfl, hstays⟩
      | _ => exact absurd hm Bool.false_ne_true

/-- The end of a pass that has found something to wait for stays. -/
theorem Healthy.finish {s : Fetchmpx} (hs : s.Healthy) {hpp : HaveProgressPending} (hpending : hpp.pending = true) :
    Stays (hpp.finish s) := by
  unfold HaveProgressPending.finish
  rw [if_pos hpending]
  split <;> exact hs

/-- The poll of the monitoring part stays. -/
theorem Healthy.pollMonitoring {s : Fetchmpx} (hs : s.Healthy) {hpp : HaveProgressPending}
    (hpending : hpp.pending = true) : Stays (s.pollMonitoring HaveProgressPending.finish hpp) := by
  have hkeeps : ∀ u, ({ s with monitoring := u } : Fetchmpx).Healthy := fun u => ⟨hs.normal, hs.inpDone, hs.inpBuf⟩
  have hleaves := FetchMonitoring.leaves_pollNextUnpin (Q := fun _ => True) (fun _ _ _ _ => trivial)
    (s := s.monitoring) trivial
  unfold Fetchmpx.pollMonitoring
  cases hpoll : s.monitoring.pollNextUnpin with
  | item x u => exact ⟨by cases x <;> exact nofun, hkeeps u⟩
  | again u => exact hkeeps u
  | pending u => exact (hkeeps u).finish rfl
  | done u => exact (hkeeps u).finish hpending
  | panic => rwa [hpoll] at hleaves

/-- The polls of the parts stay. -/
theorem Healthy.pollParts {s : Fetchmpx} (hs : s.Healthy) {hpp : HaveProgressPending}
    (hpending : hpp.pending = true) : Stays (s.pollParts HaveProgressPending.finish hpp) := by
  have hkeeps : ∀ u, ({ s with polling := u } : Fetchmpx).Healthy := fun u => ⟨hs.normal, hs.inpDone, hs.inpBuf⟩
  have hleaves := FetchPolling.step_pollNext s.polling
  unfold Fetchmpx.pollParts
  cases hpoll : s.polling.pollNext with
  | item x u =>
      cases x with
      | none => exact (hkeeps u).pollMonitoring hpending
      | _ => exact ⟨nofun, hkeeps u⟩
  | again u => exact hkeeps u
  | pending u => exact (hkeeps u).pollMonitoring rfl
  | done u => exact (hkeeps u).pollMonitoring hpending
  | panic => rwa [hpoll] at hleaves

/-- A pass stays. -/
theorem Healthy.pass {s : Fetchmpx} (hs : s.Healthy) : Stays s.pass := by
  obtain ⟨t, hdispatch, ht⟩ := hs.pollInpDispatch hs.inpBuf
  unfold Fetchmpx.pass
  split
  · exact ⟨nofun, hs.normal, hs.inpDone, hs.inpBuf⟩
  · simp only [hs.normal, hdispatch]
    exact ht.pollParts rfl

/-- A poll stays. -/
theorem Healthy.pollNext {s : Fetchmpx} (hs : s.Healthy) : Stays s.pollNext := by
  have hagain : ∀ u v : Fetchmpx, u.Healthy → u.pass = .again v → v.Healthy := by
    intro u v hu hpass
    have hstays := hu.pass
    rwa [hpass] at hstays
  rcases exists_last_spin hagain hs with ⟨t, ht⟩ | ⟨t, ht, hlast⟩
  · exact absurd ht (pollNext_ne_again s t)
  · have hstays := ht.pass
    rwa [hlast] at hstays

end Fetchmpx

/-! ## The channel -/

/-- {lit}`RunningItem` -/
inductive RunningItem where
  | caMsgOutIoid (msg : CaMsgTy) (sid : UInt32)
  | caMsgOutSubid (msg : CaMsgTy)
  | subidRemove (cid : UInt32)
  | localLog
  | channelEventValue (series : ℕ) (value : CaEventValue)
  deriving DecidableEq

/-- The item that a poll of the multiplexer hands on; that its input is done is just a notice. -/
def FetchmpxItem.handedOn : FetchmpxItem → Option RunningItem
  | .caMsgOutIoid msg sid => some (.caMsgOutIoid msg sid)
  | .caMsgOutSubid msg => some (.caMsgOutSubid msg)
  | .subidRemove cid => some (.subidRemove cid)
  | .localLog => some .localLog
  | .channelEventValue series value => some (.channelEventValue series value)
  | .inputDone => none

/-- {lit}`State` of a running channel -/
inductive Running.State where
  | normal (mpx : Fetchmpx)
  | done
  deriving DecidableEq

/-- {lit}`Running` -/
structure Running where
  state : Running.State
  cid : UInt32
  sid : UInt32
  removing : Bool
  chanCloseAck : Bool
  inpBuf : List CaMsgTy
  inpDone : Bool
  deriving DecidableEq

namespace Running

/-- {lit}`Running::new` -/
def new (isPolled : Bool) (cid sid : UInt32) (shape : Netpod.Shape) (caDbrTy : UInt16) (series : ℕ) : Running :=
  ⟨.normal (Fetchmpx.new isPolled series cid sid shape caDbrTy), cid, sid, false, false, [], false⟩

/-- The multiplexer is worked on, as long as there is one. -/
def State.modify (f : Fetchmpx → Fetchmpx) : State → State
  | .normal mpx => .normal (f mpx)
  | .done => .done

/-- {lit}`trigger_remove` -/
def triggerRemove (s : Running) : Running :=
  { s with removing := true, state := s.state.modify Fetchmpx.triggerClosing }

/-- {lit}`inp_push_try`; {lit}`none` where the message comes back. -/
def inpPushTry (m : CaMsgTy) (s : Running) : Option Running :=
  if s.inpBuf.length < 64 then some { s with inpBuf := s.inpBuf ++ [m] } else none

/-- {lit}`inp_done` -/
def endInp (s : Running) : Running := { s with inpDone := true, state := s.state.modify Fetchmpx.endInp }

/-- What {lit}`poll_inp_dispatch` comes to. -/
inductive Dispatched where
  | pending
  | inputDone
  | unexpectedMessage
  deriving DecidableEq, Repr

/-- {lit}`poll_inp_dispatch` on the messages in the buffer, with the multiplexer that they go to. -/
def pollInpDispatch : List CaMsgTy → Fetchmpx → Running → Dispatched × Fetchmpx × Running
  | [], mpx, s => (if s.inpDone then .inputDone else .pending, mpx, { s with inpBuf := [] })
  | m :: rest, mpx, s =>
    if Fetchmpx.toMpx m then
      match mpx.inpPushTry m with
      | some t => pollInpDispatch rest t s
      | none => (.pending, mpx, { s with inpBuf := m :: rest })
    else
      match m with
      | .channelCloseRes _ _ =>
        pollInpDispatch rest mpx { s with chanCloseAck := s.chanCloseAck || s.removing }
      | _ => (.unexpectedMessage, mpx, { s with inpBuf := rest })

/-- One pass of the loop of {lit}`poll_next` -/
def pass (s : Running) : Pass Running RunningItem :=
  match s.state with
  | .done => .done s
  | .normal mpx =>
    match pollInpDispatch s.inpBuf mpx s with
    | (.pending, mpx, t) =>
      match mpx.pollNext with
      | .item x u =>
        match x.handedOn with
        | some y => .item y { t with state := .normal u }
        | none => .again { t with state := .normal u }
      | .pending u => .pending { t with state := .normal u }
      | .done _ => .again { t with state := .done }
      -- a poll leaves its loop, by `Fetchmpx.pollNext_ne_again`
      | .again u => .again { t with state := .normal u }
      | .panic => .panic
    -- the error is only logged
    | (_, _, t) => .again { t with state := .done }

/-- {lit}`poll_next`, which needs at most three passes. -/
def pollNext (s : Running) : Pass Running RunningItem := spin pass 3 s

/-! ## When it ends -/

/-- The messages are known, up to one for the multiplexer that finds no room there. -/
def Takes : ℕ → List CaMsgTy → Prop
  | _, [] => True
  | room, m :: rest =>
    if Fetchmpx.toMpx m then room = 0 ∨ Takes (room - 1) rest
    else
      match m with
      | .channelCloseRes _ _ => Takes room rest
      | _ => False

/-- The channel operates, and its input goes on. -/
structure Healthy (s : Running) (mpx : Fetchmpx) : Prop where
  normal : s.state = .normal mpx
  inpDone : s.inpDone = false
  healthy : mpx.Healthy

/-- A poll leaves the channel healthy. -/
def Stays : Pass Running RunningItem → Prop
  | .item _ t | .pending t => ∃ mpx, t.Healthy mpx
  | .again _ | .done _ | .panic => False

/-- A multiplexer that takes a message that is for it stays in order, with less room. -/
theorem healthy_inpPushTry {mpx u : Fetchmpx} {m : CaMsgTy} (hmpx : mpx.Healthy) (hm : Fetchmpx.toMpx m = true)
    (hpush : mpx.inpPushTry m = some u) :
    u.Healthy ∧ mpx.inpBuf.length < 64 ∧ u.inpBuf.length = mpx.inpBuf.length + 1 := by
  unfold Fetchmpx.inpPushTry at hpush
  split at hpush
  · rename_i hroom
    cases hpush
    refine ⟨⟨hmpx.normal, hmpx.inpDone, ?_⟩, hroom, List.length_append⟩
    intro x hx
    rcases List.mem_append.mp hx with hx | hx
    · exact hmpx.inpBuf x hx
    · rwa [List.mem_singleton.mp hx]
  · cases hpush

/-- The dispatch fails exactly if it comes to a message that is not known. -/
theorem pollInpDispatch_of_takes {ms : List CaMsgTy} {mpx : Fetchmpx} {s : Running} (hmpx : mpx.Healthy)
    (hdone : s.inpDone = false) :
    (Takes (64 - mpx.inpBuf.length) ms →
        ∃ u t, pollInpDispatch ms mpx s = (.pending, u, t) ∧ u.Healthy ∧ t.inpDone = false) ∧
      (¬Takes (64 - mpx.inpBuf.length) ms → ∃ u t, pollInpDispatch ms mpx s = (.unexpectedMessage, u, t)) := by
  induction ms generalizing mpx s with
  | nil =>
      constructor
      · intro htakes
        exact ⟨mpx, { s with inpBuf := [] }, by simp [pollInpDispatch, hdone], hmpx, hdone⟩
      · intro hnot
        exact absurd trivial hnot
  | cons m rest ih =>
      by_cases hm : Fetchmpx.toMpx m = true
      · simp only [Takes, pollInpDispatch, hm, if_true]
        cases hpush : mpx.inpPushTry m with
        | none =>
            have hfull : 64 - mpx.inpBuf.length = 0 := by
              unfold Fetchmpx.inpPushTry at hpush
              split at hpush
              · cases hpush
              · omega
            constructor
            · intro htakes
              exact ⟨mpx, { s with inpBuf := m :: rest }, rfl, hmpx, hdone⟩
            · intro hnot
              exact absurd (.inl hfull) hnot
        | some u =>
            obtain ⟨hu, hroom, hlength⟩ := healthy_inpPushTry hmpx hm hpush
            have hless : 64 - mpx.inpBuf.length - 1 = 64 - u.inpBuf.length := by omega
            have hsome : 64 - mpx.inpBuf.length ≠ 0 := by omega
            rw [hless, or_iff_right hsome]
            exact ih hu hdone
      · cases m with
        | channelCloseRes sid cid => exact ih hmpx hdone
        | eventAddRes dataType dataCount status subid payloadLen value => exact absurd rfl hm
        | eventAddResEmpty dataType sid subid => exact absurd rfl hm
        | readNotifyRes dataType dataCount sid ioid payloadLen value => exact absurd rfl hm
        | _ => exact ⟨False.elim, fun _ => ⟨mpx, { s with inpBuf := rest }, rfl⟩⟩

/-- A healthy channel stays so where the messages are known. -/
theorem stays_pollNext {s : Running} {mpx : Fetchmpx} (hs : s.Healthy mpx)
    (htakes : Takes (64 - mpx.inpBuf.length) s.inpBuf) : Stays s.pollNext := by
  obtain ⟨u, t, hdispatch, hu, hdone⟩ := (pollInpDispatch_of_takes hs.healthy hs.inpDone).1 htakes
  have hstays := hu.pollNext
  have hpass : Stays s.pass := by
    unfold pass
    simp only [hs.normal, hdispatch]
    cases hpoll : u.pollNext with
    | item x v =>
        rw [hpoll] at hstays
        cases x with
        | inputDone => exact absurd rfl hstays.1
        | _ => exact ⟨v, rfl, hdone, hstays.2⟩
    | pending v =>
        rw [hpoll] at hstays
        exact ⟨v, rfl, hdone, hstays⟩
    | again v => exact absurd hpoll (Fetchmpx.pollNext_ne_again u v)
    | done v => rwa [hpoll] at hstays
    | panic => rwa [hpoll] at hstays
  have hne : ∀ v, s.pass ≠ .again v := by
    intro v hv
    rwa [hv] at hpass
  rw [pollNext, spin_succ_of_ne_again hne]
  exact hpass

/-- A healthy channel ends where a message is not known. -/
theorem done_pollNext {s : Running} {mpx : Fetchmpx} (hs : s.Healthy mpx)
    (htakes : ¬Takes (64 - mpx.inpBuf.length) s.inpBuf) : ∃ t, s.pollNext = .done t := by
  obtain ⟨u, t, hdispatch⟩ := (pollInpDispatch_of_takes hs.healthy hs.inpDone).2 htakes
  have hpass : s.pass = .again { t with state := .done } := by
    unfold pass
    simp only [hs.normal, hdispatch]
  refine ⟨{ t with state := .done }, ?_⟩
  rw [pollNext, spin_succ, hpass]
  rfl

/-! ## The loop ends -/

/-- The buffer keeps its capacity, and the multiplexer knows of the end of the input only if the channel does. -/
structure Sound (s : Running) : Prop where
  inpBuf : s.inpBuf.length ≤ 64
  inpDone : ∀ mpx, s.state = .normal mpx → mpx.inpDone = true → s.inpDone = true

/-- How many passes a loop makes at most: after the notice that the input of the multiplexer is done, the dispatch comes
to the end of the input of the channel. -/
def rank (s : Running) : ℕ :=
  match s.state with
  | .done => 0
  | .normal mpx => if mpx.inpDone ∧ mpx.inpBuf = [] then 1 else 2

/-- The dispatch takes messages out of the buffer. -/
theorem length_pollInpDispatch (ms : List CaMsgTy) (mpx : Fetchmpx) (s : Running) :
    (pollInpDispatch ms mpx s).2.2.inpBuf.length ≤ ms.length := by
  fun_induction pollInpDispatch ms mpx s with
  | case1 mpx s => exact le_rfl
  | case2 mpx s m rest hm t hpush ih => exact Nat.le_succ_of_le ih
  | case3 mpx s m rest hm hpush => exact le_rfl
  | case4 mpx s rest sid cid hm ih => exact Nat.le_succ_of_le ih
  | case5 mpx s m rest hm hclose => exact Nat.le_succ _

/-- A dispatch at the end of the input waits only for room in the multiplexer. -/
theorem pollInpDispatch_pending {ms : List CaMsgTy} {mpx u : Fetchmpx} {s t : Running}
    (hdispatch : pollInpDispatch ms mpx s = (.pending, u, t)) :
    u.inpDone = mpx.inpDone ∧ t.inpDone = s.inpDone ∧
      (s.inpDone = true → 64 ≤ u.inpBuf.length ∧ u.inpBuf.length < mpx.inpBuf.length + ms.length) := by
  induction ms generalizing mpx s with
  | nil =>
      unfold pollInpDispatch at hdispatch
      cases hdone : s.inpDone <;> simp only [hdone, Bool.false_eq_true, if_false, if_true] at hdispatch <;>
        cases hdispatch
      exact ⟨rfl, rfl, nofun⟩
  | cons m rest ih =>
      rw [List.length_cons]
      unfold pollInpDispatch at hdispatch
      split at hdispatch
      · split at hdispatch
        · rename_i v hpush
          unfold Fetchmpx.inpPushTry at hpush
          split at hpush <;> cases hpush
          have hrest := ih hdispatch
          simp only [List.length_append, List.length_singleton] at hrest
          refine ⟨hrest.1, hrest.2.1, fun hdone => ?_⟩
          have hfull := hrest.2.2 hdone
          omega
        · rename_i hpush
          cases hdispatch
          unfold Fetchmpx.inpPushTry at hpush
          split at hpush
          · cases hpush
          · exact ⟨rfl, rfl, fun _ => by omega⟩
      · split at hdispatch
        · have hrest := ih hdispatch
          refine ⟨hrest.1, hrest.2.1, fun hdone => ?_⟩
          have hfull := hrest.2.2 hdone
          omega
        · cases hdispatch

/-- What a pass leaves is sound, and a pass that goes round again lowers the rank. -/
theorem sound_pass {s : Running} (hs : s.Sound) :
    s.pass.Leaves Sound ∧ ∀ t, s.pass = .again t → t.rank < s.rank := by
  cases hstate : s.state with
  | done =>
      have hpass : s.pass = .done s := by simp only [pass, hstate]
      rw [hpass]
      exact ⟨hs, fun _ h => by cases h⟩
  | normal mpx =>
      have hlength := (length_pollInpDispatch s.inpBuf mpx s).trans hs.inpBuf
      have hpos : 0 < s.rank := by
        simp only [rank, hstate]
        split <;> exact Nat.succ_pos _
      rcases hdispatch : pollInpDispatch s.inpBuf mpx s with ⟨r, u, t⟩
      rw [hdispatch] at hlength
      have hends : ∀ p : Pass Running RunningItem, p = .again { t with state := .done } →
          p.Leaves Sound ∧ ∀ v, p = .again v → v.rank < s.rank := by
        rintro p rfl
        refine ⟨⟨hlength, ?_⟩, ?_⟩
        · intro v hv
          cases hv
        · intro v hv
          cases hv
          exact hpos
      cases r with
      | inputDone => exact hends _ (by simp only [pass, hstate, hdispatch])
      | unexpectedMessage => exact hends _ (by simp only [pass, hstate, hdispatch])
      | pending =>
          obtain ⟨hu, ht, hfull⟩ := pollInpDispatch_pending hdispatch
          have hkept := (Fetchmpx.kept_inpDone u.inpDone).pollNext (s := u) rfl
          have hsound : ∀ v : Fetchmpx, v.inpDone = u.inpDone → ({ t with state := .normal v } : Running).Sound := by
            intro v hv
            refine ⟨hlength, ?_⟩
            rintro w hw hdone
            cases hw
            exact ht.trans (hs.inpDone mpx hstate (hu.symm.trans (hv.symm.trans hdone)))
          cases hpoll : u.pollNext with
          | again v => exact absurd hpoll (Fetchmpx.pollNext_ne_again u v)
          | panic =>
              rw [hpoll] at hkept
              exact hkept.elim
          | pending v =>
              have hpass : s.pass = .pending { t with state := .normal v } := by
                simp only [pass, hstate, hdispatch, hpoll]
              rw [hpoll] at hkept
              rw [hpass]
              exact ⟨hsound v hkept, fun _ h => by cases h⟩
          | done v => exact hends _ (by simp only [pass, hstate, hdispatch, hpoll])
          | item x v =>
              rw [hpoll] at hkept
              cases hx : x.handedOn with
              | some y =>
                  have hpass : s.pass = .item y { t with state := .normal v } := by
                    simp only [pass, hstate, hdispatch, hpoll, hx]
                  rw [hpass]
                  exact ⟨hsound v hkept, fun _ h => by cases h⟩
              | none =>
                  have hpass : s.pass = .again { t with state := .normal v } := by
                    simp only [pass, hstate, hdispatch, hpoll, hx]
                  rw [hpass]
                  refine ⟨hsound v hkept, ?_⟩
                  intro w hw
                  cases hw
                  cases x with
                  | inputDone =>
                      have hv := Fetchmpx.pollNext_inputDone hpoll
                      have hroom : ¬(mpx.inpDone = true ∧ mpx.inpBuf = []) := by
                        rintro ⟨hdone, hbuf⟩
                        have hless := hfull (hs.inpDone mpx hstate hdone)
                        have hcap := hs.inpBuf
                        rw [hbuf, List.length_nil] at hless
                        omega
                      simp only [rank, hstate, hv, hroom, and_self, if_true, if_false]
                      exact Nat.lt_succ_self 1
                  | _ => cases hx

/-- What a poll leaves is sound. -/
theorem sound_pollNext {s : Running} (hs : s.Sound) : s.pollNext.Leaves Sound :=
  leaves_spin (fun _ ht => (sound_pass ht).1) _ hs

/-- A poll leaves its loop. -/
theorem pollNext_ne_again {s : Running} (hs : s.Sound) (t : Running) : s.pollNext ≠ .again t := by
  refine spin_ne_again_of_inv rank (Q := Sound) ?_ hs ?_ t
  · intro u v hu hpass
    have hsound := sound_pass hu
    refine ⟨?_, hsound.2 v hpass⟩
    rw [hpass] at hsound
    exact hsound.1
  · unfold rank
    (repeat' split) <;> omega

end Running

end Channelheap
end Daqbuf
