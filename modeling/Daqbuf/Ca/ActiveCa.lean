import Daqbuf.Ca.Msg
import Daqbuf.Connset.Channel
import Daqbuf.Slots.Pool
/-!
# The Active Connection

{lit}`ActiveCa` moves what comes in from its input through three buffers of one place to the heap of channels.  Its loop
goes round again only when a command, the heap or the ping makes progress; moving a message is no progress.

Main results:

- Theorem {lit}`pollNext_pending`: what a pass that returns pending leaves in the buffers.
- Theorem {lit}`notStranded_iff`: nothing is stranded at any return of pending in a run exactly if no pass takes a
  message in front of another item, or makes place for what waits.
-/

namespace Daqbuf
namespace Ca

open Poll
open Connset (HaveProgressPending)
open Slots (Reached Along forall_reached_iff_along)

/-! ## Bounded buffers -/

/-- {lit}`AsynBuf`, of a capacity that is not exceeded -/
structure AsynBuf (α : Type) (cap : ℕ) where
  buf : List α
  fits : buf.length ≤ cap
  deriving DecidableEq

namespace AsynBuf

variable {α : Type} {cap : ℕ}

/-- {lit}`new` -/
def new : AsynBuf α cap := ⟨[], Nat.zero_le _⟩

/-- {lit}`is_space` -/
def isSpace (b : AsynBuf α cap) : Bool := b.buf.length < cap

/-- {lit}`push_back_force`, where there is space -/
def pushBackForce (b : AsynBuf α cap) (x : α) (h : b.isSpace = true) : AsynBuf α cap where
  buf := b.buf ++ [x]
  fits := by
    rw [List.length_append]
    exact of_decide_eq_true h

/-- {lit}`push_back`; nothing where the buffer is full -/
def pushBack (b : AsynBuf α cap) (x : α) : Option (AsynBuf α cap) :=
  if h : b.isSpace = true then some (b.pushBackForce x h) else none

/-- What is left behind some items that are taken -/
def drop (b : AsynBuf α cap) (n : ℕ) : AsynBuf α cap where
  buf := b.buf.drop n
  fits := by
    rw [List.length_drop]
    exact (Nat.sub_le _ _).trans b.fits

/-- {lit}`pop_front` -/
def popFront (b : AsynBuf α cap) : Option (α × AsynBuf α cap) := b.buf.head?.map fun x => (x, b.drop 1)

@[simp]
theorem buf_pushBackForce (b : AsynBuf α cap) (x : α) (h : b.isSpace = true) :
    (b.pushBackForce x h).buf = b.buf ++ [x] := rfl

@[simp]
theorem buf_drop (b : AsynBuf α cap) (n : ℕ) : (b.drop n).buf = b.buf.drop n := rfl

/-- A full buffer stays full exactly if nothing is taken. -/
theorem isSpace_drop {b : AsynBuf α cap} (hfull : ¬ b.isSpace = true) {n : ℕ} (hcap : 0 < cap) :
    ¬ (b.drop n).isSpace = true ↔ n = 0 := by
  rw [isSpace, decide_eq_true_iff] at hfull ⊢
  have hfits := b.fits
  rw [buf_drop, List.length_drop]
  omega

theorem popFront_eq_none {b : AsynBuf α cap} : b.popFront = none ↔ b.buf = [] := by
  rw [popFront, Option.map_eq_none_iff, List.head?_eq_none_iff]

theorem popFront_eq_some {b rest : AsynBuf α cap} {x : α} (hpop : b.popFront = some (x, rest)) :
    b.buf = x :: rest.buf := by
  rcases Option.map_eq_some_iff.mp hpop with ⟨y, hhead, heq⟩
  cases heq
  rcases List.head?_eq_some_iff.mp hhead with ⟨ys, hys⟩
  rw [buf_drop, hys]
  rfl

theorem pushBack_eq_some {b b' : AsynBuf α cap} {x : α} (hpush : b.pushBack x = some b') :
    b'.buf = b.buf ++ [x] := by
  unfold pushBack at hpush
  split at hpush
  · cases hpush
    rfl
  · cases hpush

theorem pushBack_eq_none {b : AsynBuf α cap} {x : α} (hpush : b.pushBack x = none) : b.buf.length = cap := by
  unfold pushBack at hpush
  split at hpush
  · cases hpush
  · rename_i hspace
    rw [isSpace, decide_eq_true_iff] at hspace
    exact le_antisymm b.fits (not_lt.mp hspace)

end AsynBuf

/-! ## The connection -/

namespace CaMsgTy

/-- {lit}`cid` -/
def cid : CaMsgTy → Option UInt32
  | error cid _ _ => some cid
  | createChan cid _ => some cid
  | createChanRes _ _ cid _ => some cid
  | createChanFail cid => some cid
  | accessRightsRes cid _ => some cid
  | channelDisconnect cid => some cid
  | channelClose _ cid => some cid
  | channelCloseRes _ cid => some cid
  | _ => none

/-- {lit}`subid` -/
def subid : CaMsgTy → Option UInt32
  | eventAdd _ _ _ subid => some subid
  | eventAddRes _ _ _ subid _ _ => some subid
  | eventAddResEmpty _ _ subid => some subid
  | eventCancel _ _ _ subid => some subid
  | eventCancelRes _ _ subid => some subid
  | _ => none

/-- {lit}`ioid` -/
def ioid : CaMsgTy → Option UInt32
  | readNotify _ _ _ ioid => some ioid
  | readNotifyRes _ _ _ ioid _ _ => some ioid
  | _ => none

end CaMsgTy

/-- {lit}`CaCommandKind`; the senders for the completion and the rest of the configuration are not used here. -/
inductive CaCommand where
  | channelAdd (name : String)
  | channelRemove (name : String)
  | disconnectOnIdle
  deriving DecidableEq

/-- {lit}`InpItem` -/
inductive InpItem where
  | caMsg (x : CaMsg)
  | cmd (x : CaCommand)
  deriving DecidableEq

/-- {lit}`channelheap::InpItem` -/
inductive HeapInpItem where
  | caMsg (x : CaMsg)
  | removeChannel (name : String)
  deriving DecidableEq

/-- {lit}`PingPong`; the timers are asked in each pass. -/
inductive PingPong where
  | idle
  | send (item : Option CaMsg)
  | wait
  deriving DecidableEq

/-- {lit}`Error`, as far as it is told apart -/
inductive ActiveCaError where
  | bufPushGuardIssue
  | pingNoItem
  | iocEchoTimeout
  | command
  | channelHeap
  deriving DecidableEq

/-- {lit}`INP_BUF_CAP` -/
def inpBufCap : ℕ := 3

/-- {lit}`FWD_BUF_CAP` -/
def fwdBufCap : ℕ := 1

/-- {lit}`INP_BUF_CAP` of the heap -/
def heapInpBufCap : ℕ := 128

/-- {lit}`ActiveCa`; a state is there as long as it is running.  Of the heap there is its input buffer. -/
structure ActiveCa where
  state : Option PingPong
  inpBuf : AsynBuf InpItem inpBufCap
  inpCmdBuf : AsynBuf CaCommand fwdBufCap
  inpMsgBuf : AsynBuf CaMsg fwdBufCap
  bufForChanheap : AsynBuf HeapInpItem fwdBufCap
  cmdFut : Bool
  heapInpBuf : AsynBuf HeapInpItem heapInpBufCap
  deriving DecidableEq

/-- What the heap answers: it is opaque what it hands out. -/
inductive HeapAnswer (ι : Type) where
  | pending
  | done
  | err
  | items (xs : List ι)
  deriving DecidableEq

/-- What a pass meets: the answer of the future of a command, the number of items that the heap takes from its input,
its answer, and whether the timer of the ping is over. -/
structure ActivePolls (ι : Type) where
  cmd : Option (Except Unit Unit)
  heapTakes : ℕ
  heap : HeapAnswer ι
  timer : Bool
  deriving DecidableEq

/-- An item that is handed out: one of the heap, or a ping. -/
inductive ActiveCaItem (ι : Type) where
  | ofHeap (x : ι)
  | protoOut (x : CaMsg)
  deriving DecidableEq

namespace ActiveCa

variable {ι : Type}

/-- {lit}`new` -/
def new : ActiveCa where
  state := some .idle
  inpBuf := .new
  inpCmdBuf := .new
  inpMsgBuf := .new
  bufForChanheap := .new
  cmdFut := false
  heapInpBuf := .new

/-- {lit}`inp_push_try`; an item that finds no space is handed back. -/
def inpPushTry (s : ActiveCa) (item : InpItem) : Option ActiveCa :=
  (s.inpBuf.pushBack item).map fun b => { s with inpBuf := b }

/-- The first part of a pass: an item of the input goes to the buffer of its kind, if both are empty. -/
def popInp (s : ActiveCa) : Option ActiveCa :=
  if s.inpCmdBuf.isSpace ∧ s.inpMsgBuf.isSpace then
    match s.inpBuf.popFront with
    | some (.caMsg x, rest) => (s.inpMsgBuf.pushBack x).map fun b => { s with inpBuf := rest, inpMsgBuf := b }
    | some (.cmd x, rest) => (s.inpCmdBuf.pushBack x).map fun b => { s with inpBuf := rest, inpCmdBuf := b }
    | none => some s
  else some s

/-- {lit}`handle_command`; adding a channel and the disconnect go to the heap at once. -/
def handleCommand (s : ActiveCa) (h : s.bufForChanheap.isSpace = true) : CaCommand → ActiveCa
  | .channelAdd _ => { s with cmdFut := true }
  | .channelRemove name =>
      { s with bufForChanheap := s.bufForChanheap.pushBackForce (.removeChannel name) h, cmdFut := true }
  | .disconnectOnIdle => { s with cmdFut := true }

/-- {lit}`poll_command_input`, with the marks of its caller; nothing where the future of a command fails. -/
def pollCommandInput (p : ActivePolls ι) (s : ActiveCa) : Option (HaveProgressPending × ActiveCa) :=
  if s.cmdFut then
    match p.cmd with
    | some (.ok ()) => some (⟨true, false⟩, { s with cmdFut := false })
    | some (.error ()) => none
    | none => some (⟨false, true⟩, s)
  else if h : s.bufForChanheap.isSpace = true then
    match s.inpCmdBuf.popFront with
    | some (item, rest) => some (⟨true, false⟩, handleCommand { s with inpCmdBuf := rest } h item)
    | none => some (⟨false, false⟩, s)
  else some (⟨false, false⟩, s)

/-- Whether a message is one for a channel. -/
def dispatches (x : CaMsg) : Bool := x.ty.cid.isSome || x.ty.subid.isSome || x.ty.ioid.isSome

/-- An echo ends the wait for it; other messages that are for no channel are only reported. -/
def handleInternally (s : ActiveCa) (x : CaMsg) : ActiveCa :=
  if x.ty = .echo ∧ s.state = some .wait then { s with state := some .idle } else s

/-- The loop of {lit}`poll_dispatch`; each round takes a message. -/
def dispatchRounds : ℕ → ActiveCa → ActiveCa
  | 0, s => s
  | n + 1, s =>
    if h : s.bufForChanheap.isSpace = true then
      match s.inpMsgBuf.popFront with
      | some (item, rest) =>
          let s' := { s with inpMsgBuf := rest }
          dispatchRounds n <|
            if dispatches item then { s' with bufForChanheap := s.bufForChanheap.pushBackForce (.caMsg item) h }
            else s'.handleInternally item
      | none => s
    else s

/-- {lit}`poll_dispatch`; it reports nothing. -/
def pollDispatch (s : ActiveCa) : ActiveCa := dispatchRounds s.inpMsgBuf.buf.length s

/-- The loop of {lit}`poll_inp_push_to_chanheap`; each round takes an item.  Its limit is compared to a count that is
never raised. -/
def pushRounds : ℕ → ActiveCa → ActiveCa
  | 0, s => s
  | n + 1, s =>
    if h : s.heapInpBuf.isSpace = true then
      match s.bufForChanheap.popFront with
      | some (item, rest) =>
          pushRounds n { s with bufForChanheap := rest, heapInpBuf := s.heapInpBuf.pushBackForce item h }
      | none => s
    else s

/-- {lit}`poll_inp_push_to_chanheap`; it reports nothing. -/
def pollInpPushToChanheap (s : ActiveCa) : ActiveCa := pushRounds s.bufForChanheap.buf.length s

/-- {lit}`State::Done` -/
def done (s : ActiveCa) : ActiveCa := { s with state := none }

/-- The part of a pass at the ping, with what the pass marked before -/
def pollPingpong (p : ActivePolls ι) (hpp : HaveProgressPending) (s : ActiveCa) :
    Pass ActiveCa (Except ActiveCaError (List (ActiveCaItem ι))) :=
  match s.state with
  | some .idle =>
      if p.timer then { hpp with progress := true }.finish { s with state := some (.send (some ⟨.echo⟩)) }
      else { hpp with pending := true }.finish s
  | some (.send item) =>
      if p.timer then { hpp with progress := true }.finish { s with state := some .idle }
      else
        match item with
        | some x => .item (.ok [.protoOut x]) { s with state := some .wait }
        | none => .item (.error .pingNoItem) s.done
  | some .wait =>
      if p.timer then .item (.error .iocEchoTimeout) s.done else { hpp with pending := true }.finish s
  | none => hpp.finish s

/-- The part of a pass at the heap and behind -/
def pollChanheap (p : ActivePolls ι) (hpp : HaveProgressPending) (s : ActiveCa) :
    Pass ActiveCa (Except ActiveCaError (List (ActiveCaItem ι))) :=
  let s := { s with heapInpBuf := s.heapInpBuf.drop p.heapTakes }
  match p.heap with
  | .items xs => .item (.ok (xs.map .ofHeap)) s
  | .err => .item (.error .channelHeap) s.done
  | .done => pollPingpong p { hpp with progress := true } s.done
  | .pending => pollPingpong p { hpp with pending := true } s

/-- One pass of {lit}`poll_next` -/
def pollNext (p : ActivePolls ι) (s : ActiveCa) : Pass ActiveCa (Except ActiveCaError (List (ActiveCaItem ι))) :=
  if s.state.isNone then .done s
  else
    match s.popInp with
    | none => .item (.error .bufPushGuardIssue) s.done
    | some s1 =>
      match pollCommandInput p s1 with
      | none => .item (.error .command) s1.done
      | some (hpp, s2) => pollChanheap p hpp s2.pollDispatch.pollInpPushToChanheap

/-! ## What a pass leaves -/

/-- Each buffer that is not empty waits for a buffer that is full, or for the future of a command. -/
structure NotStranded (s : ActiveCa) : Prop where
  inp : s.inpBuf.buf ≠ [] → ¬ (s.inpCmdBuf.isSpace ∧ s.inpMsgBuf.isSpace)
  cmd : s.inpCmdBuf.buf ≠ [] → s.cmdFut ∨ ¬ s.bufForChanheap.isSpace
  msg : s.inpMsgBuf.buf ≠ [] → ¬ s.bufForChanheap.isSpace
  fwd : s.bufForChanheap.buf ≠ [] → ¬ s.heapInpBuf.isSpace

/-- A pass leaves nothing behind; the state is that behind the first part of the pass.  With the buffer for the heap
free, no item of the input waits behind a message.  Where the buffer for the heap is emptied, nothing waits for it.
While a full heap takes items, none waits for it. -/
structure LeavesNone (p : ActivePolls ι) (s : ActiveCa) : Prop where
  behindMsg : s.bufForChanheap.isSpace → s.inpBuf.buf ≠ [] → s.inpCmdBuf.buf ≠ []
  behindFwd : ¬ s.bufForChanheap.isSpace → s.heapInpBuf.isSpace →
    s.inpMsgBuf.buf = [] ∧ (s.inpCmdBuf.buf ≠ [] → s.cmdFut)
  heapFull : ¬ s.heapInpBuf.isSpace → p.heapTakes ≠ 0 →
    s.bufForChanheap.isSpace ∧ ∀ m ∈ s.inpMsgBuf.buf, dispatches m = false

section Pass

variable {p : ActivePolls ι} {s s' t : ActiveCa} {hpp : HaveProgressPending}

/-- A buffer of one place has space exactly if it is empty. -/
theorem isSpace_fwd {α : Type} (b : AsynBuf α fwdBufCap) : b.isSpace = true ↔ b.buf = [] := by
  change decide (b.buf.length < 1) = true ↔ _
  rw [decide_eq_true_iff, Nat.lt_one_iff, List.length_eq_zero_iff]

/-- What stays in the input behind the first part of a pass stays behind another item. -/
theorem popInp_behind (h : s.popInp = some s') :
    s'.inpBuf.buf ≠ [] → s'.inpCmdBuf.buf ≠ [] ∨ s'.inpMsgBuf.buf ≠ [] := by
  unfold popInp at h
  split_ifs at h with hspace
  · cases hpop : s.inpBuf.popFront with
    | none =>
        rw [hpop] at h
        cases h
        intro hne
        exact absurd (AsynBuf.popFront_eq_none.mp hpop) hne
    | some x =>
        obtain ⟨item, rest⟩ := x
        rw [hpop] at h
        cases item with
        | caMsg x =>
            obtain ⟨b, hb, rfl⟩ := Option.map_eq_some_iff.mp h
            intro _
            right
            unfold AsynBuf.pushBack at hb
            split_ifs at hb
            cases hb
            simp
        | cmd x =>
            obtain ⟨b, hb, rfl⟩ := Option.map_eq_some_iff.mp h
            intro _
            left
            unfold AsynBuf.pushBack at hb
            split_ifs at hb
            cases hb
            simp
  · cases h
    intro _
    rw [isSpace_fwd, isSpace_fwd] at hspace
    exact not_and_or.mp hspace

/-- What {lit}`poll_dispatch` does: the message goes on, or is handled, if there is space. -/
structure Dispatched (s t : ActiveCa) : Prop where
  inpBuf : t.inpBuf = s.inpBuf
  inpCmdBuf : t.inpCmdBuf = s.inpCmdBuf
  cmdFut : t.cmdFut = s.cmdFut
  heapInpBuf : t.heapInpBuf = s.heapInpBuf
  blocked : ¬ s.bufForChanheap.isSpace → t.inpMsgBuf = s.inpMsgBuf ∧ t.bufForChanheap = s.bufForChanheap
  free : s.bufForChanheap.isSpace →
    t.inpMsgBuf.buf = [] ∧ (t.bufForChanheap.buf = [] ↔ ∀ m ∈ s.inpMsgBuf.buf, dispatches m = false)

theorem handleInternally_frame (s : ActiveCa) (x : CaMsg) :
    ∃ state, s.handleInternally x = { s with state := state } := by
  unfold handleInternally
  split
  · exact ⟨_, rfl⟩
  · exact ⟨s.state, rfl⟩

theorem dispatched_pollDispatch (s : ActiveCa) : Dispatched s s.pollDispatch := by
  have hfits : s.inpMsgBuf.buf.length ≤ 1 := s.inpMsgBuf.fits
  unfold pollDispatch
  cases hmsg : s.inpMsgBuf.buf with
  | nil => 
      refine ⟨rfl, rfl, rfl, rfl, fun _ => ⟨rfl, rfl⟩, fun h => ⟨hmsg, iff_of_true ((isSpace_fwd _).mp h) ?_⟩⟩
      rw [hmsg]
      exact nofun
  | cons m rest =>
      obtain rfl : rest = [] := by
        rw [hmsg, List.length_cons] at hfits
        exact List.length_eq_zero_iff.mp (by omega)
      have hpop : s.inpMsgBuf.popFront = some (m, s.inpMsgBuf.drop 1) := by
        rw [AsynBuf.popFront, hmsg]
        rfl
      have hdrop : (s.inpMsgBuf.drop 1).buf = [] := by rw [AsynBuf.buf_drop, hmsg, List.drop_one, List.tail_cons]
      change Dispatched s (dispatchRounds 1 s)
      unfold dispatchRounds
      by_cases hspace : s.bufForChanheap.isSpace = true
      · rw [dif_pos hspace, hpop]
        simp only [dispatchRounds]
        split_ifs with hdisp
        · refine ⟨rfl, rfl, rfl, rfl, fun h => absurd hspace h, fun _ => ⟨hdrop, iff_of_false ?_ ?_⟩⟩
          · simp
          · rw [hmsg, List.forall_mem_singleton, hdisp]
            nofun
        · obtain ⟨state, heq⟩ := handleInternally_frame { s with inpMsgBuf := s.inpMsgBuf.drop 1 } m
          rw [heq]
          refine ⟨rfl, rfl, rfl, rfl, fun h => absurd hspace h, fun _ => ⟨hdrop, iff_of_true ?_ ?_⟩⟩
          · exact (isSpace_fwd _).mp hspace
          · rw [hmsg, List.forall_mem_singleton]
            exact Bool.eq_false_iff.mpr hdisp
      · rw [dif_neg hspace]
        exact ⟨rfl, rfl, rfl, rfl, fun _ => ⟨rfl, rfl⟩, fun h => absurd h hspace⟩

/-- What {lit}`poll_inp_push_to_chanheap` does: it empties its buffer, if the heap has space. -/
structure Pushed (s t : ActiveCa) : Prop where
  inpBuf : t.inpBuf = s.inpBuf
  inpCmdBuf : t.inpCmdBuf = s.inpCmdBuf
  inpMsgBuf : t.inpMsgBuf = s.inpMsgBuf
  cmdFut : t.cmdFut = s.cmdFut
  full : ¬ s.heapInpBuf.isSpace → t = s
  space : s.heapInpBuf.isSpace → t.bufForChanheap.buf = []

theorem pushed_pollInpPushToChanheap (s : ActiveCa) : Pushed s s.pollInpPushToChanheap := by
  have hfits : s.bufForChanheap.buf.length ≤ 1 := s.bufForChanheap.fits
  unfold pollInpPushToChanheap
  cases hfwd : s.bufForChanheap.buf with
  | nil => exact ⟨rfl, rfl, rfl, rfl, fun _ => rfl, fun _ => hfwd⟩
  | cons x rest =>
      obtain rfl : rest = [] := by
        rw [hfwd, List.length_cons] at hfits
        exact List.length_eq_zero_iff.mp (by omega)
      have hpop : s.bufForChanheap.popFront = some (x, s.bufForChanheap.drop 1) := by
        rw [AsynBuf.popFront, hfwd]
        rfl
      change Pushed s (pushRounds 1 s)
      unfold pushRounds
      by_cases hspace : s.heapInpBuf.isSpace = true
      · rw [dif_pos hspace, hpop]
        refine ⟨rfl, rfl, rfl, rfl, fun h => absurd hspace h, fun _ => ?_⟩
        change (s.bufForChanheap.drop 1).buf = []
        rw [AsynBuf.buf_drop, hfwd, List.drop_one, List.tail_cons]
      · rw [dif_neg hspace]
        exact ⟨rfl, rfl, rfl, rfl, fun _ => rfl, fun h => absurd h hspace⟩

theorem finish_pending {σ ο : Type} {marks : HaveProgressPending} {x y : σ}
    (h : (marks.finish x : Pass σ ο) = .pending y) : marks.progress = false ∧ x = y := by
  unfold HaveProgressPending.finish at h
  split_ifs at h with hprogress
  cases h
  exact ⟨Bool.eq_false_iff.mpr hprogress, rfl⟩

theorem pollPingpong_pending (h : pollPingpong p hpp s = .pending t) : hpp.progress = false ∧ s = t := by
  unfold pollPingpong at h
  split at h
  · split_ifs at h
    · exact absurd (finish_pending h).1 nofun
    · obtain ⟨hprogress, hst⟩ := finish_pending h
      exact ⟨hprogress, hst⟩
  · split_ifs at h
    · exact absurd (finish_pending h).1 nofun
    · split at h
      · cases h
      · cases h
  · split_ifs at h
    obtain ⟨hprogress, hst⟩ := finish_pending h
    exact ⟨hprogress, hst⟩
  · exact finish_pending h

/-- A pass that returns pending moved what it could, and no command made progress. -/
theorem pollNext_pending (h : pollNext p s = .pending t) :
    ∃ s1, s.popInp = some s1 ∧ (s1.inpCmdBuf.buf ≠ [] → s1.cmdFut ∨ ¬ s1.bufForChanheap.isSpace) ∧
      t = { s1.pollDispatch.pollInpPushToChanheap with
        heapInpBuf := s1.pollDispatch.pollInpPushToChanheap.heapInpBuf.drop p.heapTakes } := by
  unfold pollNext at h
  split_ifs at h
  cases hpop : s.popInp with
  | none =>
      rw [hpop] at h
      cases h
  | some s1 =>
      rw [hpop] at h
      simp only at h
      cases hcmd : pollCommandInput p s1 with
      | none =>
          rw [hcmd] at h
          cases h
      | some x =>
          obtain ⟨hpp, s2⟩ := x
          rw [hcmd] at h
          simp only [pollChanheap] at h
          have hheap : hpp.progress = false ∧ { s2.pollDispatch.pollInpPushToChanheap with
              heapInpBuf := s2.pollDispatch.pollInpPushToChanheap.heapInpBuf.drop p.heapTakes } = t := by
            cases hans : p.heap with
            | pending =>
                rw [hans] at h
                simp only at h
                obtain ⟨hprogress, ht⟩ := pollPingpong_pending h
                exact ⟨hprogress, ht⟩
            | done =>
                rw [hans] at h
                simp only at h
                exact absurd (pollPingpong_pending h).1 nofun
            | err =>
                rw [hans] at h
                cases h
            | items xs =>
                rw [hans] at h
                cases h
          obtain ⟨hprogress, rfl⟩ := hheap
          unfold pollCommandInput at hcmd
          split_ifs at hcmd with hfut hspace
          · split at hcmd
            · cases hcmd
              cases hprogress
            · cases hcmd
            · cases hcmd
              exact ⟨s1, rfl, fun _ => .inl hfut, rfl⟩
          · cases hpopcmd : s1.inpCmdBuf.popFront with
            | some y =>
                rw [hpopcmd] at hcmd
                cases hcmd
                cases hprogress
            | none =>
                rw [hpopcmd] at hcmd
                cases hcmd
                exact ⟨s1, rfl, fun hne => absurd (AsynBuf.popFront_eq_none.mp hpopcmd) hne, rfl⟩
          · cases hcmd
            exact ⟨s1, rfl, fun _ => .inr hspace, rfl⟩

/-- A pass that returns pending strands nothing exactly if it leaves nothing behind. -/
theorem notStranded_pollNext (hpop : s.popInp = some s') (h : pollNext p s = .pending t) :
    t.NotStranded ↔ LeavesNone p s' := by
  obtain ⟨s1, hs1, hcmd, rfl⟩ := pollNext_pending h
  obtain rfl : s' = s1 := Option.some.inj (hpop.symm.trans hs1)
  have hbehind := popInp_behind hpop
  have hd := dispatched_pollDispatch s'
  have hu := pushed_pollInpPushToChanheap s'.pollDispatch
  generalize s'.pollDispatch.pollInpPushToChanheap = u at hu ⊢
  have hinp : u.inpBuf = s'.inpBuf := hu.inpBuf.trans hd.inpBuf
  have hcmdBuf : u.inpCmdBuf = s'.inpCmdBuf := hu.inpCmdBuf.trans hd.inpCmdBuf
  have hfut : u.cmdFut = s'.cmdFut := hu.cmdFut.trans hd.cmdFut
  have hfull := hu.full
  have hspace := hu.space
  rw [hd.heapInpBuf] at hfull hspace
  by_cases hfwd : s'.bufForChanheap.isSpace = true
  · -- the message goes on, so that only the input and a full heap matter
    obtain ⟨hmsg, hitem⟩ := hd.free hfwd
    rw [← hu.inpMsgBuf] at hmsg
    constructor
    · intro ht
      refine ⟨fun _ hne hempty => ?_, fun h => absurd hfwd h, fun hheap htakes => ⟨hfwd, ?_⟩⟩
      · refine ht.inp (hinp ▸ hne) ⟨(isSpace_fwd _).mpr ?_, (isSpace_fwd _).mpr hmsg⟩
        rw [← hempty, hcmdBuf]
      · rw [← hitem, ← hfull hheap]
        by_contra hne
        have hheap' : ¬ u.heapInpBuf.isSpace = true := by rwa [hfull hheap, hd.heapInpBuf]
        exact htakes ((AsynBuf.isSpace_drop hheap' (by decide)).mp (ht.fwd hne))
    · intro hl
      refine ⟨fun hne hboth => ?_, fun hne => ?_, fun hne => absurd hmsg hne, fun hne => ?_⟩
      · have hempty := (isSpace_fwd _).mp hboth.1
        rw [hcmdBuf] at hempty
        exact hl.behindMsg hfwd (hinp ▸ hne) hempty
      · rw [hfut]
        rw [hcmdBuf] at hne
        exact .inl ((hcmd hne).resolve_right fun h => h hfwd)
      · by_cases hheap : s'.heapInpBuf.isSpace = true
        · exact absurd (hspace hheap) hne
        · have hheap' : ¬ u.heapInpBuf.isSpace = true := by rwa [hfull hheap, hd.heapInpBuf]
          refine (AsynBuf.isSpace_drop hheap' (by decide)).mpr ?_
          by_contra htakes
          rw [hfull hheap] at hne
          exact hne (hitem.mpr (hl.heapFull hheap htakes).2)
  · obtain ⟨hmsg, hitem⟩ := hd.blocked hfwd
    rw [← hu.inpMsgBuf] at hmsg
    by_cases hheap : s'.heapInpBuf.isSpace = true
    · -- the buffer for the heap is emptied behind what waits for it
      have hempty := hspace hheap
      constructor
      · intro ht
        refine ⟨fun h => absurd h hfwd, fun _ _ => ⟨?_, fun hne => ?_⟩, fun h => absurd hheap h⟩
        · by_contra hne
          exact ht.msg (hmsg ▸ hne) ((isSpace_fwd _).mpr hempty)
        · rw [← hfut]
          exact (ht.cmd (hcmdBuf ▸ hne)).resolve_right fun h => h ((isSpace_fwd _).mpr hempty)
      · intro hl
        obtain ⟨hnomsg, hcmdfut⟩ := hl.behindFwd hfwd hheap
        refine ⟨fun hne hboth => ?_, fun hne => ?_, fun hne => ?_, fun hne => absurd hempty hne⟩
        · have hnocmd := (isSpace_fwd _).mp hboth.1
          rw [hcmdBuf] at hnocmd
          exact (hbehind (hinp ▸ hne)).elim (fun h => h hnocmd) fun h => h hnomsg
        · rw [hfut]
          exact .inl (hcmdfut (hcmdBuf ▸ hne))
        · exact absurd hnomsg (hmsg ▸ hne)
    · -- nothing moves, so that only the heap matters
      have hsame := hfull hheap
      have hfwd' : ¬ u.bufForChanheap.isSpace = true := by rwa [hsame, hitem]
      have hheap' : ¬ u.heapInpBuf.isSpace = true := by rwa [hsame, hd.heapInpBuf]
      have hdrop := AsynBuf.isSpace_drop (n := p.heapTakes) hheap' (by decide)
      constructor
      · intro ht
        refine ⟨fun h => absurd h hfwd, fun _ h => absurd h hheap, fun _ htakes => ?_⟩
        exact absurd (hdrop.mp (ht.fwd fun h => hfwd' ((isSpace_fwd _).mpr h))) htakes
      · intro hl
        refine ⟨fun hne hboth => ?_, fun _ => .inr hfwd', fun _ => hfwd', fun _ => hdrop.mpr ?_⟩
        · have hnocmd := (isSpace_fwd _).mp hboth.1
          have hnomsg := (isSpace_fwd _).mp hboth.2
          rw [hcmdBuf] at hnocmd
          rw [hmsg] at hnomsg
          exact (hbehind (hinp ▸ hne)).elim (fun h => h hnocmd) fun h => h hnomsg
        · by_contra htakes
          exact hfwd (hl.heapFull hheap htakes).1

end Pass

/-! ## Runs -/

/-- What can happen: an item comes in, or there is a pass of the loop. -/
inductive ActiveOp (ι : Type) where
  | push (item : InpItem)
  | pass (p : ActivePolls ι)
  deriving DecidableEq

/-- An operation, with the note whether it was a pass that returned pending -/
def step : ActiveOp ι → Bool × ActiveCa → Option (Bool × ActiveCa)
  | .push item, x => some (false, (x.2.inpPushTry item).getD x.2)
  | .pass p, x =>
    match pollNext p x.2 with
    | .pending t => some (true, t)
    | .again t | .item _ t | .done t => some (false, t)
    | .panic => none

/-- At a return of pending nothing is stranded. -/
def RestsWell (x : Bool × ActiveCa) : Prop := x.1 = true → x.2.NotStranded

/-- A pass that returns pending leaves nothing behind. -/
def MovesAll : ActiveOp ι → Bool × ActiveCa → Prop
  | .push _, _ => True
  | .pass p, x => ∀ s t, x.2.popInp = some s → pollNext p x.2 = .pending t → LeavesNone p s

theorem restsWell_step {o : ActiveOp ι} {x y : Bool × ActiveCa} (h : step o x = some y) :
    RestsWell y ↔ MovesAll o x := by
  cases o with
  | push item =>
      cases h
      exact iff_of_true nofun trivial
  | pass p =>
      rw [step] at h
      cases hpass : pollNext p x.2 with
      | pending t =>
          rw [hpass] at h
          cases h
          obtain ⟨s1, hpop, -⟩ := pollNext_pending hpass
          constructor
          · intro hy s t' hs ht
            cases hpass.symm.trans ht
            exact (notStranded_pollNext hs hpass).mp (hy rfl)
          · intro hmoves _
            exact (notStranded_pollNext hpop hpass).mpr (hmoves s1 t hpop hpass)
      | panic =>
          rw [hpass] at h
          cases h
      | _ =>
          rw [hpass] at h
          cases h
          refine iff_of_true nofun fun s t _ ht => ?_
          rw [hpass] at ht
          cases ht

/-- In a run, with items, commands and answers in any order, nothing is stranded whenever pending is returned exactly
if each pass that returns pending leaves nothing behind. -/
theorem notStranded_iff (ops : List (ActiveOp ι)) :
    (∀ x, Reached step ops (false, new) x → RestsWell x) ↔ Along step MovesAll ops (false, new) :=
  forall_reached_iff_along (fun _ _ _ _ h => restsWell_step h) nofun

/-- A message for no channel -/
def someMsg : InpItem := .caMsg ⟨.versionRes 13⟩

/-- Nothing is ready. -/
def idlePolls : ActivePolls Unit := ⟨none, 0, .pending, false⟩

/-- Of two messages in the input the second one is left when pending is returned. -/
theorem not_notStranded :
    ¬ ∀ (ops : List (ActiveOp Unit)) (x : Bool × ActiveCa), Reached step ops (false, new) x → RestsWell x := by
  intro h
  have hrun : Slots.run step [.push someMsg, .push someMsg, .pass idlePolls] (false, new) =
      some (true, { new with inpBuf := ⟨[someMsg], by decide⟩ }) := by decide
  have hrests := h _ _ ⟨_, List.prefix_rfl, hrun⟩ rfl
  exact hrests.inp (by decide) (by decide)

end ActiveCa

end Ca
end Daqbuf
