import Daqbuf.Ca.Msg
import Daqbuf.Poll.Machine
/-!
# Channels of the Connection Set

A channel of the connection set asks for its series, searches the address of its server, is assigned to
the connection to that address, and is removed again on command.  What it waits for (the answers of its
futures, its timers and its commands) is told to each pass of its poll loop.

Main results:

- Theorem {lit}`Channel.removalFinal`: a channel that is removed stays removed and is removed from its
  connection, in every run in which no connection goes down and no further remove comes too early.
- Theorem {lit}`Channel.not_removalFinal`: a connection that goes down brings the channel back, and a second
  remove leaves it with its connection.
-/

namespace Daqbuf
namespace Connset

open Ca (SocketAddrV4)
open Poll

/-- {lit}`RemovingCommon` -/
structure RemovingCommon where
  cssid : Option ℕ
  addr : Option SocketAddrV4
  deriving DecidableEq, Repr

/-- The state that is made after a backoff. -/
inductive MakeState where
  | cssidReq
  | addrSearch (chi : ℕ)
  deriving DecidableEq, Repr

/-- {lit}`State` of a channel.  The series of a channel is known by its id. -/
inductive State where
  | init
  | backoff (makeState : MakeState)
  | cssidReq
  | addrSearch (cssid chi : ℕ)
  | observing (cssid : ℕ) (addr : SocketAddrV4)
  | removing0 (reminfo : RemovingCommon)
  | removing1 (reminfo : RemovingCommon)
  | removing2 (reminfo : RemovingCommon)
  | removed
  | done
  deriving DecidableEq, Repr

/-- {lit}`ChannelActionItem` -/
inductive ChannelActionItem where
  | addToCaConn (name : String) (addr : SocketAddrV4)
  | removeFromCaConn (name : String) (reminfo : RemovingCommon)
  | localLog
  deriving DecidableEq, Repr

/-- {lit}`Channel` -/
structure Channel where
  name : String
  state : State
  removing : Bool
  addr : Option SocketAddrV4
  backoffI : ℕ
  /-- how many entries of the local log wait to be handed out -/
  llog : ℕ
  deriving DecidableEq, Repr

/-- {lit}`Cmd` -/
inductive Cmd where
  | remove
  deriving DecidableEq, Repr

/-- What an address search can give in place of an address. -/
inductive SearchError where
  | addrNotFound
  | other
  deriving DecidableEq, Repr

/-- What a channel finds when it polls: the queue of commands, which can be closed, the futures and the
timer of its state, and the answer of the connection set to a removal. -/
structure Polls where
  cmd : Option (Option Cmd)
  cssid : Option (Except Unit ℕ)
  addr : Option (Except SearchError SocketAddrV4)
  timer : Bool
  removed : Bool
  deriving DecidableEq

/-- Nothing is ready. -/
def Polls.idle : Polls := ⟨none, none, none, false, false⟩

/-- {lit}`HaveProgressPending` -/
structure HaveProgressPending where
  progress : Bool
  pending : Bool
  deriving DecidableEq, Repr

/-- What the loop does after a pass. -/
def HaveProgressPending.finish {σ ο : Type} (hpp : HaveProgressPending) (s : σ) : Pass σ ο :=
  if hpp.progress then .again s else if hpp.pending then .pending s else .done s

namespace Channel

/-- {lit}`Channel::new` -/
def new (name : String) : Channel := ⟨name, .init, false, none, 0, 0⟩

/-- A transition that is put into the local log. -/
def transition (s : Channel) (stn : State) : Channel := { s with state := stn, llog := s.llog + 1 }

/-- {lit}`backoff_to_until`, as far as the state is concerned -/
def backoffToUntil (s : Channel) : Channel := { s with backoffI := min (1 + s.backoffI) 999 }

/-- {lit}`signal_ca_conn_down` -/
def signalCaConnDown (s : Channel) : Channel := { s with state := .init }

/-- The address that a state is about to remove. -/
def observedAddr : State → Option SocketAddrV4
  | .observing _ addr => some addr
  | _ => none

/-- The status series that a state knows. -/
def knownCssid : State → Option ℕ
  | .addrSearch cssid _ => some cssid
  | .observing cssid _ => some cssid
  | .removing0 reminfo => reminfo.cssid
  | .removing1 reminfo => reminfo.cssid
  | .removing2 reminfo => reminfo.cssid
  | _ => none

/-- {lit}`transition_to_removing` -/
def transitionToRemoving (s : Channel) : Channel :=
  { s with removing := true }.transition (.removing0 ⟨knownCssid s.state, observedAddr s.state⟩)

/-- {lit}`addr` -/
def currentAddr (s : Channel) : Option SocketAddrV4 :=
  match s.state with
  | .backoff _ => s.addr
  | .observing _ addr => some addr
  | .removing0 reminfo => reminfo.addr
  | .removing1 reminfo => reminfo.addr
  | .removing2 reminfo => reminfo.addr
  | .init | .cssidReq | .addrSearch _ _ | .removed | .done => none

/-- {lit}`poll_cmd` -/
def pollCmd (p : Polls) (s : Channel) : HaveProgressPending × Channel :=
  if s.state = .done then (⟨false, false⟩, s)
  else
    match p.cmd with
    | some (some .remove) => (⟨true, false⟩, s.transitionToRemoving)
    | some none => (⟨false, false⟩, s)
    | none => (⟨false, true⟩, s)

/-- The state that is made after a backoff. -/
def makeState : MakeState → State
  | .cssidReq => .cssidReq
  | .addrSearch chi => .addrSearch chi chi

/-- What a pass does in each state, after the commands. -/
def pollState (p : Polls) (hpp : HaveProgressPending) (s : Channel) :
    Pass Channel ChannelActionItem :=
  match s.state with
  | .init => { hpp with progress := true }.finish (s.transition .cssidReq)
  | .backoff m =>
    if p.timer then { hpp with progress := true }.finish (s.transition (makeState m))
    else { hpp with pending := true }.finish s
  | .cssidReq =>
    match p.cssid with
    | some (.ok chi) => .again ({ s with backoffI := 0 }.transition (.addrSearch chi chi))
    | some (.error _) => .again (s.transition .removed)
    | none =>
      if p.timer then
        { hpp with progress := true }.finish (s.backoffToUntil.transition (.backoff .cssidReq))
      else { hpp with pending := true }.finish s
  | .addrSearch cssid chi =>
    match p.addr with
    | some (.ok addr) =>
      .item (.addToCaConn s.name addr)
        ({ s with backoffI := 0, addr := some addr }.transition (.observing cssid addr))
    | some (.error .addrNotFound) => .again (s.backoffToUntil.transition (.backoff (.addrSearch chi)))
    | some (.error .other) => .again (s.transition .done)
    | none =>
      if p.timer then
        { hpp with progress := true }.finish (s.backoffToUntil.transition (.backoff (.addrSearch chi)))
      else { hpp with pending := true }.finish s
  | .observing _ _ => hpp.finish s
  | .removing0 reminfo => { hpp with progress := true }.finish (s.transition (.removing1 reminfo))
  -- the future of this state is ready at once
  | .removing1 reminfo =>
    .item (.removeFromCaConn s.name reminfo) (s.transition (.removing2 reminfo))
  | .removing2 _ =>
    if p.removed then { hpp with progress := true }.finish (s.transition .removed)
    else { hpp with pending := true }.finish s
  | .removed => { hpp with progress := true }.finish (s.transition .done)
  | .done => hpp.finish s

/-- One pass of the loop of {lit}`poll`. -/
def pass (s : Channel) (p : Polls) : Pass Channel ChannelActionItem :=
  if 0 < s.llog then .item .localLog { s with llog := s.llog - 1 }
  else pollState p (pollCmd p s).1 (pollCmd p s).2

/-! ## Runs -/

/-- What can happen to a channel: a pass of its loop, or its connection goes down. -/
inductive Event where
  | pass (p : Polls)
  | connDown
  deriving DecidableEq

/-- What can be seen of a channel. -/
inductive Obs where
  /-- a remove was accepted -/
  | accepted
  | item (x : ChannelActionItem)
  /-- the loop has reported its end -/
  | ended
  | panicked
  deriving DecidableEq, Repr

/-- The pass takes a remove from the queue of commands. -/
def Accepts (p : Polls) (s : Channel) : Prop :=
  s.llog = 0 ∧ s.state ≠ .done ∧ p.cmd = some (some .remove)

instance (p : Polls) (s : Channel) : Decidable (Accepts p s) :=
  inferInstanceAs (Decidable (_ ∧ _ ∧ _))

/-- What is seen of a pass. -/
def seen (s : Channel) : Pass Channel ChannelActionItem → List Obs × Channel
  | .again t => ([], t)
  | .pending t => ([], t)
  | .item x t => ([.item x], t)
  | .done t => ([.ended], t)
  | .panic => ([.panicked], s)

/-- The channel as a machine. -/
def machine : Machine Channel Event Obs where
  step
    | .pass p, s => ((if Accepts p s then [.accepted] else []) ++ (seen s (s.pass p)).1, (seen s (s.pass p)).2)
    | .connDown, s => ([], s.signalCaConnDown)

/-! ## Removal -/

/-- The states on the way from a remove to the end. -/
def Leaving : State → Prop
  | .removing0 _ | .removing1 _ | .removing2 _ | .removed | .done => True
  | .init | .backoff _ | .cssidReq | .addrSearch _ _ | .observing _ _ => False

/-- The address from which a channel has yet to be removed, once the remove is accepted. -/
def owed : State → Option SocketAddrV4
  | .removing0 reminfo => reminfo.addr
  | .removing1 reminfo => reminfo.addr
  | _ => none

/-- The event does no harm to a removal: no connection goes down while the channel is removed, and no
further remove is accepted before the channel is removed from its connection. -/
def Harmless (e : Event) (s : Channel) : Prop :=
  match e with
  | .connDown => s.removing = false
  | .pass p => Accepts p s → owed s.state = none

/-- The channel is to be added to a connection. -/
def Adds : Obs → Prop
  | .item (.addToCaConn _ _) => True
  | .item (.removeFromCaConn _ _) | .item .localLog | .accepted | .ended | .panicked => False

instance : DecidablePred Adds
  | .item (.addToCaConn _ _) => isTrue trivial
  | .item (.removeFromCaConn _ _) | .item .localLog | .accepted | .ended | .panicked => isFalse id

instance (e : Event) (s : Channel) : Decidable (Harmless e s) :=
  match e with
  | .connDown => inferInstanceAs (Decidable (s.removing = false))
  | .pass p => inferInstanceAs (Decidable (Accepts p s → owed s.state = none))

/-- Of two things seen one after the other, the second does not add the channel if the first accepts a
remove. -/
def NotAdded (before after : Obs) : Prop := before = .accepted → ¬ Adds after

instance : DecidableRel NotAdded := fun _ _ => inferInstanceAs (Decidable (_ → ¬ _))

/-- A removed channel is on its way to the end. -/
def Settled (s : Channel) : Prop := s.removing = true → Leaving s.state

section Steps

variable {p : Polls} {s : Channel}

/-- What accepting a remove leads to. -/
theorem pollCmd_of_accepts (h : Accepts p s) :
    pollCmd p s = (⟨true, false⟩, s.transitionToRemoving) := by
  rcases h with ⟨_, hstate, hcmd⟩
  simp [pollCmd, hstate, hcmd]

/-- Without a remove the commands leave the channel as it is. -/
theorem pollCmd_of_not_accepts (hlog : s.llog = 0) (h : ¬ Accepts p s) : (pollCmd p s).2 = s := by
  unfold pollCmd
  by_cases hstate : s.state = .done
  · simp [hstate]
  · rcases hcmd : p.cmd with _ | _ | _
    · simp [hstate]
    · simp [hstate]
    · exact absurd ⟨hlog, hstate, hcmd⟩ h

/-- A pass that accepts a remove ends on the way to the first state of the removal. -/
theorem pass_of_accepts (h : Accepts p s) :
    s.pass p = .again ((s.transitionToRemoving).transition
      (.removing1 ⟨knownCssid s.state, observedAddr s.state⟩)) := by
  have hlog : ¬ 0 < s.llog := by
    have := h.1
    omega
  rw [pass, if_neg hlog, pollCmd_of_accepts h]
  rfl

/-- In a state on the way to the end, a pass without a remove stays on the way and adds nothing. -/
theorem pass_of_leaving (hleaving : Leaving s.state) (h : ¬ Accepts p s) :
    (seen s (s.pass p)).2.removing = s.removing ∧ Leaving (seen s (s.pass p)).2.state ∧
      ∀ o ∈ (seen s (s.pass p)).1, ¬ Adds o := by
  by_cases hlog : 0 < s.llog
  · simp [pass, hlog, seen, hleaving, Adds]
  · have hsame := pollCmd_of_not_accepts (by omega) h
    rw [pass, if_neg hlog, hsame]
    generalize (pollCmd p s).1 = hpp
    rcases s with ⟨name, state, removing, addr, backoffI, llog⟩
    cases state with
    | init | backoff m | cssidReq | addrSearch c i | observing c a => exact hleaving.elim
    | removing0 r => simp [pollState, HaveProgressPending.finish, seen, transition, Leaving, Adds]
    | removing1 r => simp [pollState, seen, transition, Leaving, Adds]
    | removing2 r =>
        by_cases hrem : p.removed = true
        · simp [pollState, hrem, HaveProgressPending.finish, seen, transition, Leaving, Adds]
        · by_cases hprog : hpp.progress = true <;>
            simp [pollState, hrem, hprog, HaveProgressPending.finish, seen, Leaving, Adds]
    | removed => simp [pollState, HaveProgressPending.finish, seen, transition, Leaving, Adds]
    | done =>
        by_cases hprog : hpp.progress = true <;> by_cases hpend : hpp.pending = true <;>
          simp [pollState, hprog, hpend, HaveProgressPending.finish, seen, Leaving, Adds]

/-- Only a remove makes a channel removed, and nothing changes its name. -/
theorem pass_same (h : ¬ Accepts p s) :
    (seen s (s.pass p)).2.removing = s.removing ∧ (seen s (s.pass p)).2.name = s.name := by
  by_cases hlog : 0 < s.llog
  · simp [pass, hlog, seen]
  · have hsame := pollCmd_of_not_accepts (by omega) h
    rw [pass, if_neg hlog, hsame]
    generalize (pollCmd p s).1 = hpp
    rcases s with ⟨name, state, removing, addr, backoffI, llog⟩
    cases state <;> simp only [pollState, HaveProgressPending.finish, transition, backoffToUntil] <;>
      (repeat' split) <;> simp_all [seen]

/-- While the channel has yet to be removed from its connection, a pass without a remove brings it to the
next state, or has it removed. -/
theorem pass_of_owed {reminfo : RemovingCommon} (h : ¬ Accepts p s)
    (howed : s.state = .removing0 reminfo ∨ s.state = .removing1 reminfo) :
    ((seen s (s.pass p)).2.name = s.name ∧ ((seen s (s.pass p)).2.state = .removing0 reminfo ∨
        (seen s (s.pass p)).2.state = .removing1 reminfo)) ∨
      .item (.removeFromCaConn s.name reminfo) ∈ (seen s (s.pass p)).1 := by
  by_cases hlog : 0 < s.llog
  · left
    simpa [pass, hlog, seen] using howed
  · have hsame := pollCmd_of_not_accepts (by omega) h
    rw [pass, if_neg hlog, hsame]
    rcases howed with hstate | hstate
    · left
      simp [pollState, hstate, HaveProgressPending.finish, seen, transition]
    · right
      simp [pollState, hstate, seen]

end Steps

/-- Every step that does no harm keeps a removed channel on its way. -/
theorem settled_step (e : Event) (s : Channel) (hharmless : Harmless e s) (hsettled : Settled s) :
    Settled (machine.step e s).2 := by
  intro hremoving
  cases e with
  | connDown =>
      have hnot : s.removing = false := hharmless
      have hstill : s.removing = true := hremoving
      rw [hnot] at hstill
      exact absurd hstill Bool.false_ne_true
  | pass p =>
      by_cases haccepts : Accepts p s
      · change Leaving (seen s (s.pass p)).2.state
        rw [pass_of_accepts haccepts]
        trivial
      · have hsame : s.removing = true := (pass_same haccepts).1.symm.trans hremoving
        exact (pass_of_leaving (hsettled hsame) haccepts).2.1

/-- Every step that does no harm keeps a removed channel removed. -/
theorem removing_step (e : Event) (s : Channel) (hremoving : s.removing = true) :
    (machine.step e s).2.removing = true := by
  cases e with
  | connDown => exact hremoving
  | pass p =>
      by_cases haccepts : Accepts p s
      · change (seen s (s.pass p)).2.removing = true
        rw [pass_of_accepts haccepts]
        rfl
      · exact (pass_same haccepts).1.trans hremoving

/-- What is seen of a pass that accepts a remove. -/
theorem step_of_accepts {p : Polls} {s : Channel} (haccepts : Accepts p s) :
    machine.step (.pass p) s = ([.accepted], (s.transitionToRemoving).transition
      (.removing1 ⟨knownCssid s.state, observedAddr s.state⟩)) := by
  simp [machine, haccepts, pass_of_accepts haccepts, seen]

/-- What is seen of another pass. -/
theorem step_of_not_accepts {p : Polls} {s : Channel} (haccepts : ¬ Accepts p s) :
    machine.step (.pass p) s = seen s (s.pass p) := by
  simp [machine, haccepts]

/-- A channel that is removed adds nothing. -/
theorem outputs_of_removing {es : List Event} {s : Channel} (halong : machine.Along Harmless es s)
    (hsettled : Settled s) (hremoving : s.removing = true) :
    ∀ o ∈ (machine.run es s).1, ¬ Adds o := by
  have hstep : ∀ e t, Harmless e t → Settled t ∧ t.removing = true →
      Settled (machine.step e t).2 ∧ (machine.step e t).2.removing = true := by
    intro e t hharmless ⟨hsettled, hremoving⟩
    exact ⟨settled_step e t hharmless hsettled, removing_step e t hremoving⟩
  refine Machine.outputs_run hstep ?_ halong ⟨hsettled, hremoving⟩
  · intro e t hharmless ⟨hsettled, hremoving⟩ o ho
    cases e with
    | connDown => exact absurd ho List.not_mem_nil
    | pass p =>
        by_cases haccepts : Accepts p t
        · rw [step_of_accepts haccepts] at ho
          simp only [List.mem_singleton] at ho
          simp [ho, Adds]
        · rw [step_of_not_accepts haccepts] at ho
          exact (pass_of_leaving (hsettled hremoving) haccepts).2.2 o ho

/-- What is seen of one step never adds the channel after a remove. -/
theorem pairwise_step (e : Event) (s : Channel) : (machine.step e s).1.Pairwise NotAdded := by
  cases e with
  | connDown => exact List.Pairwise.nil
  | pass p =>
      by_cases haccepts : Accepts p s
      · rw [step_of_accepts haccepts]
        exact List.pairwise_singleton _ _
      · rw [step_of_not_accepts haccepts]
        cases s.pass p with
        | item x t => exact List.pairwise_singleton _ _
        | done t => exact List.pairwise_singleton _ _
        | panic => exact List.pairwise_singleton _ _
        | again t => exact List.Pairwise.nil
        | pending t => exact List.Pairwise.nil

/-- After a step that accepts a remove the channel is removed. -/
theorem removing_of_accepted {e : Event} {s : Channel} (h : .accepted ∈ (machine.step e s).1) :
    (machine.step e s).2.removing = true := by
  cases e with
  | connDown => exact absurd h List.not_mem_nil
  | pass p =>
      by_cases haccepts : Accepts p s
      · rw [step_of_accepts haccepts]
        rfl
      · rw [step_of_not_accepts haccepts] at h
        cases hpass : s.pass p <;> simp [hpass, seen] at h

/-- Nothing that is seen after an accepted remove adds the channel. -/
theorem pairwise_run {es : List Event} {s : Channel} (halong : machine.Along Harmless es s)
    (hsettled : Settled s) : (machine.run es s).1.Pairwise NotAdded := by
  induction es generalizing s with
  | nil => exact List.Pairwise.nil
  | cons e es ih =>
      have hnext := settled_step e s halong.1 hsettled
      rw [Machine.run_cons, List.pairwise_append]
      refine ⟨pairwise_step e s, ih halong.2 hnext, ?_⟩
      rintro before hbefore after hafter rfl
      exact outputs_of_removing halong.2 hnext (removing_of_accepted hbefore) after hafter

/-- A channel that has yet to be removed from its connection still has to, or has been. -/
theorem removes_of_owed {es : List Event} {s : Channel} {reminfo : RemovingCommon}
    (halong : machine.Along Harmless es s) (hremoving : s.removing = true)
    (haddr : reminfo.addr ≠ none)
    (howed : s.state = .removing0 reminfo ∨ s.state = .removing1 reminfo) :
    ((machine.run es s).2.state = .removing0 reminfo ∨
        (machine.run es s).2.state = .removing1 reminfo) ∨
      .item (.removeFromCaConn s.name reminfo) ∈ (machine.run es s).1 := by
  induction es generalizing s with
  | nil => exact .inl howed
  | cons e es ih =>
      rw [Machine.run_cons]
      cases e with
      | connDown =>
          have hnot : s.removing = false := halong.1
          rw [hnot] at hremoving
          exact absurd hremoving Bool.false_ne_true
      | pass p =>
          have hneeds : owed s.state ≠ none := by
            rcases howed with hstate | hstate <;> rw [hstate] <;> exact haddr
          have haccepts : ¬ Accepts p s := fun h => hneeds (halong.1 h)
          have hstill := removing_step (.pass p) s hremoving
          rw [step_of_not_accepts haccepts] at hstill ⊢
          rcases pass_of_owed haccepts howed with ⟨hname, hnext⟩ | hemitted
          · have halong' := halong.2
            rw [step_of_not_accepts haccepts] at halong'
            rcases ih halong' hstill hnext with hstate | hemitted
            · exact .inl hstate
            · rw [hname] at hemitted
              exact .inr (List.mem_append_right _ hemitted)
          · exact .inr (List.mem_append_left _ hemitted)

/-- The removal of a channel is final: nothing that is seen after an accepted remove adds the channel to
a connection, and a channel that had been assigned to a connection is not done before it is removed from
the connection to that address. -/
structure RemovalFinal (name : String) (es : List Event) : Prop where
  neverAdds : (machine.run es (new name)).1.Pairwise NotAdded
  removes : ∀ (before after : List Event) (p : Polls) (cssid : ℕ) (addr : SocketAddrV4),
    es = before ++ .pass p :: after →
    (machine.run before (new name)).2.state = .observing cssid addr →
    Accepts p (machine.run before (new name)).2 →
    (machine.run es (new name)).2.state = .done →
    .item (.removeFromCaConn name ⟨some cssid, some addr⟩) ∈
      (machine.run (.pass p :: after) (machine.run before (new name)).2).1

/-- The name of a channel stays. -/
theorem name_step (e : Event) (s : Channel) : (machine.step e s).2.name = s.name := by
  cases e with
  | connDown => rfl
  | pass p =>
      by_cases haccepts : Accepts p s
      · rw [step_of_accepts haccepts]
        rfl
      · rw [step_of_not_accepts haccepts]
        exact (pass_same haccepts).2

theorem name_run (es : List Event) (s : Channel) : (machine.run es s).2.name = s.name := by
  induction es generalizing s with
  | nil => rfl
  | cons e es ih => exact (ih _).trans (name_step e s)

/-- In every run whose steps do no harm the removal is final. -/
theorem removalFinal (name : String) (es : List Event)
    (halong : machine.Along Harmless es (new name)) : RemovalFinal name es where
  neverAdds := pairwise_run halong fun hremoving => absurd hremoving Bool.false_ne_true
  removes before after p cssid addr hes hstate haccepts hdone := by
    subst hes
    rw [Machine.along_append] at halong
    rw [Machine.run_append] at hdone
    have hname : (machine.run before (new name)).2.name = name := name_run before (new name)
    generalize (machine.run before (new name)).2 = s at *
    have halong' := halong.2.2
    rw [Machine.run_cons] at hdone ⊢
    rw [step_of_accepts haccepts, hstate] at halong' hdone ⊢
    rcases removes_of_owed halong' rfl (by simp [observedAddr]) (.inr rfl) with hnot | hemitted
    · rcases hnot with hnot | hnot <;> rw [hnot] at hdone <;> cases hdone
    · exact List.mem_append_right _ (hname ▸ hemitted)

/-- The first passes of a channel: its series is found, then its address, to which it is assigned. -/
def untilObserving (addr : SocketAddrV4) : List Event :=
  [.pass .idle, .pass .idle, .pass { Polls.idle with cssid := some (.ok 7) }, .pass .idle,
    .pass { Polls.idle with addr := some (.ok addr) }, .pass .idle]

/-- A pass that takes a remove from the queue of commands. -/
def removePass : Event := .pass { Polls.idle with cmd := some (some .remove) }

/-- A channel that is removed while it is assigned. -/
theorem removalFinal_once :
    RemovalFinal "x" (untilObserving ⟨1, 5064⟩ ++ [removePass, .pass .idle, .pass .idle, .pass .idle]) :=
  removalFinal "x" _ (by decide)

/-- When the connection goes down during the removal, the channel is added again.  When a second remove
is accepted before the channel is removed from its connection, it is not removed from it. -/
theorem not_removalFinal :
    ¬ RemovalFinal "x" (untilObserving ⟨1, 5064⟩ ++ [removePass, .pass .idle, .pass .idle, .pass .idle,
        .pass .idle, .connDown] ++ untilObserving ⟨1, 5064⟩) ∧
      ¬ RemovalFinal "x" (untilObserving ⟨1, 5064⟩ ++ [removePass, .pass .idle, .pass .idle, removePass,
        .pass .idle, .pass .idle, .pass .idle, .pass .idle, .pass { Polls.idle with removed := true },
        .pass .idle, .pass .idle]) := by
  constructor
  · intro hfinal
    exact absurd hfinal.neverAdds (by decide)
  · intro hfinal
    have hremoves := hfinal.removes (untilObserving ⟨1, 5064⟩) _ _ 7 ⟨1, 5064⟩ rfl (by decide)
      (by decide) (by decide)
    exact absurd hremoves (by decide)

end Channel

end Connset
end Daqbuf
